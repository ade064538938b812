import PascalX86.Proofs.Machine.Basic
import PascalX86.Proofs.Storage.Built

/-!
# Types that are the same

Sameness is an equivalence. Types that are the same have the same parts at the same places, so that an
object which is copied byte by byte into one of the other type arrives with every part in its place.
-/

set_option autoImplicit false

namespace PascalX86

theorem Name.same_trans {a b c : Name} (h : a.same b = true) (h' : b.same c = true) :
    a.same c = true :=
  (Name.same_iff a c).mpr (((Name.same_iff a b).mp h).trans ((Name.same_iff b c).mp h'))

mutual

theorem Ty.same_trans : ∀ {t u v : Ty}, t.same u = true → u.same v = true → t.same v = true
  | .array low high element, .array low' high' element', .array low'' high'' element'', h, h' => by
      simp only [Ty.same, Bool.and_eq_true, beq_iff_eq] at h h' ⊢
      obtain ⟨⟨rfl, rfl⟩, h⟩ := h
      obtain ⟨⟨rfl, rfl⟩, h'⟩ := h'
      exact ⟨⟨rfl, rfl⟩, Ty.same_trans h h'⟩
  | .record fields, .record fields', .record fields'', h, h' =>
      Fields.same_trans (by simpa [Ty.same] using h) (by simpa [Ty.same] using h')
  | .function f, .function g, .function k, h, h' => by
      simp only [Ty.same, beq_iff_eq] at h h' ⊢
      exact h.trans h'
  | .integer, .integer, _, _, h' | .double, .double, _, _, h' | .char, .char, _, _, h'
  | .string, .string, _, _, h' | .nil, .nil, _, _, h' => h'

theorem Fields.same_trans : ∀ {a b c : Fields}, a.same b = true → b.same c = true → a.same c = true
  | .empty, .empty, _, _, h' => h'
  | .more _ type rest, .more _ type' rest', .more _ type'' rest'', h, h' => by
      simp only [Fields.same, Bool.and_eq_true] at h h' ⊢
      obtain ⟨⟨names, types⟩, others⟩ := h
      obtain ⟨⟨names', types'⟩, others'⟩ := h'
      exact ⟨⟨Name.same_trans names names', Ty.same_trans types types'⟩, Fields.same_trans others others'⟩

end

theorem Ty.category_eq_of_same {t u : Ty} (same : t.same u = true) : t.category = u.category := by
  cases t <;> cases u <;> first | rfl | cases same

/-- The field of a name is at the same place in both records. -/
theorem Fields.find?_of_same : ∀ {fields fields' : Fields} {offset : Nat} {name : Name} {f : Field},
    fields.same fields' = true → (fields.layout offset).find? (fun f => f.name.same name) = some f →
    ∃ g, (fields'.layout offset).find? (fun f => f.name.same name) = some g ∧ g.offset = f.offset ∧
      f.type.same g.type = true
  | .empty, .empty, _, _, _, _, found => by cases found
  | .more name type rest, .more name' type' rest', offset, due, f, same, found => by
      simp only [Fields.same, Bool.and_eq_true] at same
      obtain ⟨⟨names, types⟩, others⟩ := same
      rw [Fields.layout_more, List.find?_cons] at found ⊢
      have search : name'.same due = name.same due := by
        rw [Bool.eq_iff_iff, Name.same_iff, Name.same_iff, (Name.same_iff name name').mp names]
      dsimp only at found ⊢
      rw [search]
      cases here : name.same due with
      | true =>
          rw [here] at found
          cases found
          exact ⟨_, rfl, rfl, types⟩
      | false =>
          rw [here] at found
          rw [← Ty.size_eq_of_same types]
          exact Fields.find?_of_same others found

namespace Ty

variable {t u v w : Ty} {x : Selection} {path : List Selection} {d : Nat}

theorem Selects.of_same (selects : t.Selects x d v) (same : t.same u = true) :
    ∃ w, u.Selects x d w ∧ v.same w = true := by
  cases selects with
  | @field fields name f found =>
      cases u with
      | record fields' =>
          rw [Ty.same] at same
          obtain ⟨g, found', offset, types⟩ := Fields.find?_of_same same found
          rw [← offset]
          exact ⟨g.type, .field found', types⟩
      | _ => cases same
  | @element low high n element first last =>
      cases u with
      | array low' high' element' =>
          simp only [Ty.same, Bool.and_eq_true, beq_iff_eq] at same
          obtain ⟨⟨rfl, rfl⟩, same⟩ := same
          rw [Ty.size_eq_of_same same]
          exact ⟨element', .element element' first last, same⟩
      | _ => cases same

/-- A path leads to the same place in both types, to parts that are the same. -/
theorem part?_of_same (same : t.same u = true) (found : t.part? path = some (d, v)) :
    ∃ w, u.part? path = some (d, w) ∧ v.same w = true := by
  induction path generalizing t u d with
  | nil =>
      cases found
      exact ⟨u, rfl, same⟩
  | cons x path ih =>
      obtain ⟨a, t', b, selects, rest, rfl⟩ := part?_cons.mp found
      obtain ⟨u', selects', same'⟩ := selects.of_same same
      obtain ⟨w, rest', types⟩ := ih same' rest
      exact ⟨w, part?_cons.mpr ⟨a, u', b, selects', rest', rfl⟩, types⟩

end Ty

namespace Bytes

/-- So many bytes are afterwards at one address as they were before at the other one. -/
def Copied (before after : Bytes) (source target : Word) (size : Nat) : Prop :=
  ∀ i < size, after (target + .ofNat 32 i) = before (source + .ofNat 32 i)

theorem Copied.part {before after : Bytes} {source target : Word} {size d n : Nat}
    (copied : before.Copied after source target size) (inside : d + n ≤ size) :
    before.Copied after (source + .ofNat 32 d) (target + .ofNat 32 d) n := by
  intro i lt
  have moved := copied (d + i) (by omega)
  rw [BitVec.ofNat_add, ← BitVec.add_assoc, ← BitVec.add_assoc] at moved
  exact moved

end Bytes

/-- Being the same is an equivalence, and objects of types that are the same can be copied into each
other as they lie. -/
theorem Ty.same_parts :
    (∀ t : Ty, t.same t = true) ∧ (∀ t u : Ty, t.same u = true → u.same t = true) ∧
      (∀ t u v : Ty, t.same u = true → u.same v = true → t.same v = true) ∧
      ∀ t u : Ty, Parser.Built t → t.same u = true →
        t.size = u.size ∧ t.category = u.category ∧
          ∀ path d v, t.part? path = some (d, v) →
            ∃ w, u.part? path = some (d, w) ∧ v.same w = true ∧ v.size = w.size ∧
              v.category = w.category ∧
              ∀ (before after : Bytes) (a b : Word), before.Copied after a b t.size →
                before.Copied after (a + .ofNat 32 d) (b + .ofNat 32 d) w.size := by
  refine ⟨Ty.same_refl, fun t u same => ?_, fun t u v => Ty.same_trans, fun t u built same => ?_⟩
  · rw [Ty.same_comm, same]
  · refine ⟨Ty.size_eq_of_same same, Ty.category_eq_of_same same, fun path d v found => ?_⟩
    obtain ⟨w, found', types⟩ := Ty.part?_of_same same found
    have size := Ty.size_eq_of_same types
    have inside := (Ty.part?_within built.proper found).2
    refine ⟨w, found', types, size, Ty.category_eq_of_same types, fun before after a b copied => ?_⟩
    rw [← size]
    exact copied.part inside

/-- Types of one spelling but for the case of the letters. -/
def Source.quietRow : Source := ⟨"input.pas", [
  "record tag: char; row: array[0..1] of double end"], .endOfFile⟩

def Source.loudRow : Source := ⟨"input.pas", [
  "record TAG: char; Row: array[0..1] of double end"], .endOfFile⟩

theorem Source.rows_read : (Source.quietRow.type?.bind fun t => Source.loudRow.type?.map fun u =>
    (t.same u, t.scalar? [.field (.ofSpelling "ROW"), .element 1])) = some (true, some (12, 8)) := by
  decide +kernel

theorem Source.rows_parts : ∃ t u v w, Source.quietRow.type? = some t ∧ Source.loudRow.type? = some u ∧
    t.part? [.field (.ofSpelling "ROW"), .element 1] = some (12, v) ∧
    u.part? [.field (.ofSpelling "ROW"), .element 1] = some (12, w) ∧ w.size = 8 ∧
    t.size = u.size ∧ u.same t = true ∧ t.same t = true ∧
    ∀ (before after : Bytes) (a b : Word), before.Copied after a b t.size →
      before.Copied after (a + 12) (b + 12) 8 := by
  obtain ⟨t, read, known⟩ := Option.bind_eq_some_iff.mp Source.rows_read
  obtain ⟨u, read', known⟩ := Option.map_eq_some_iff.mp known
  obtain ⟨same, found⟩ := Prod.mk.inj known
  obtain ⟨v, leads, -, eight⟩ := Ty.scalar?_eq_some_iff.mp found
  obtain ⟨-, symm, trans, parts⟩ := Ty.same_parts
  obtain ⟨size, -, rest⟩ := parts t u (Source.built_of_type? read) same
  obtain ⟨w, leads', -, width, -, copies⟩ := rest _ _ _ leads
  rw [← width, ← eight] at copies
  exact ⟨t, u, v, w, read, read', leads, leads', width.symm.trans eight.symm, size, symm t u same,
    trans t u t same (symm t u same), copies⟩

end PascalX86
