import Mathlib.Data.List.Pairwise
import PascalX86.Proofs.Checking.Sound
import PascalX86.Proofs.Frame.Reference

/-!
# Parts of objects

A selection goes from a record to one of its fields or from an array to one of its elements. What a
path of selections leads to lies inside the object, and scalars that different paths lead to share no
byte. Sizes are the mathematical ones: no sum and no product on the way to them wraps around.
-/

set_option autoImplicit false

namespace PascalX86

/-- A field by its name, or an element by its index. -/
inductive Selection where
  | field (name : Name)
  | element (index : Int32)

namespace Selection

def same : Selection → Selection → Bool
  | .field a, .field b => a.same b
  | .element m, .element n => m == n
  | _, _ => false

/-- Paths that differ at most in the case of the letters of their names. -/
def sameAll : List Selection → List Selection → Bool
  | [], [] => true
  | x :: path, y :: path' => x.same y && sameAll path path'
  | _, _ => false

end Selection

namespace Fields

/-- Each field begins where those before it have ended. -/
theorem layout_ordered (fields : Fields) (offset : Nat) :
    (fields.layout offset).Pairwise fun f g => f.offset + f.type.size ≤ g.offset := by
  induction offset, fields using Fields.layout.induct with
  | case1 => exact .nil
  | case2 offset name type rest ih =>
      rw [Fields.layout_more, List.pairwise_cons]
      exact ⟨fun g mem => (inside_of_mem_layout mem).1, ih⟩

theorem mem_of_get? {fields : Fields} {name : Name} {f : Field} (found : fields.get? name = some f) :
    f ∈ fields.layout 0 ∧ f.name.same name = true := by
  rw [get?] at found
  exact ⟨List.mem_of_find?_eq_some found, by simpa using List.find?_some found⟩

/-- Fields of different names share no byte. -/
theorem apart_of_get? {fields : Fields} {a b : Name} {f g : Field} (found : fields.get? a = some f)
    (found' : fields.get? b = some g) (differs : a.same b = false) :
    f.offset + f.type.size ≤ g.offset ∨ g.offset + g.type.size ≤ f.offset := by
  obtain ⟨mem, same⟩ := mem_of_get? found
  obtain ⟨mem', same'⟩ := mem_of_get? found'
  have distinct : f ≠ g := by
    rintro rfl
    rw [Name.same_comm] at same
    have equal := (Name.same_iff _ _).mpr (((Name.same_iff _ _).mp same).trans ((Name.same_iff _ _).mp same'))
    rw [equal] at differs
    cases differs
  have either := (fields.layout_ordered 0).imp fun {f g} before =>
    (Or.inl before : f.offset + f.type.size ≤ g.offset ∨ g.offset + g.type.size ≤ f.offset)
  have : Std.Symm fun f g : Field =>
      f.offset + f.type.size ≤ g.offset ∨ g.offset + g.type.size ≤ f.offset := ⟨fun _ _ => Or.symm⟩
  exact either.forall mem mem' distinct

end Fields

namespace Ty

/-- Where a selection leads: so many bytes further on, to an object of this type. -/
def select? : Ty → Selection → Option (Nat × Ty)
  | .record fields, .field name => (fields.get? name).map fun f => (f.offset, f.type)
  | .array low high element, .element n =>
      if low ≤ n ∧ n ≤ high then some (((n.toInt - low.toInt) * element.size).toNat, element) else none
  | _, _ => none

def part? (t : Ty) : List Selection → Option (Nat × Ty)
  | [] => some (0, t)
  | x :: path =>
      match t.select? x with
      | some (d, u) => (u.part? path).map fun (e, v) => (d + e, v)
      | none => none

/-- The start and the size of the scalar that a path leads to. -/
def scalar? (t : Ty) (path : List Selection) : Option (Nat × Nat) :=
  match t.part? path with
  | some (d, u) => if u.isScalar then some (d, u.size) else none
  | none => none

/-- The selections that a type admits. -/
inductive Selects : Ty → Selection → Nat → Ty → Prop where
  | field {fields : Fields} {name : Name} {f : Field} (found : fields.get? name = some f) :
      Selects (.record fields) (.field name) f.offset f.type
  | element {low high n : Int32} (element : Ty) (first : low ≤ n) (last : n ≤ high) :
      Selects (.array low high element) (.element n)
        ((n.toInt - low.toInt) * element.size).toNat element

variable {t u v : Ty} {x y : Selection} {path path' : List Selection} {d e : Nat}

theorem select?_eq_some_iff : t.select? x = some (d, u) ↔ t.Selects x d u := by
  constructor
  · intro found
    unfold select? at found
    split at found
    · obtain ⟨f, searched, eq⟩ := Option.map_eq_some_iff.mp found
      cases eq
      exact .field searched
    · split at found
      · next inside =>
        cases found
        exact .element _ inside.1 inside.2
      · cases found
    · cases found
  · rintro (found | ⟨_, first, last⟩)
    · simp [select?, found]
    · simp [select?, first, last]

theorem part?_cons : t.part? (x :: path) = some (d, v) ↔
    ∃ a u b, t.Selects x a u ∧ u.part? path = some (b, v) ∧ d = a + b := by
  simp only [← select?_eq_some_iff]
  constructor
  · intro found
    rw [part?] at found
    split at found
    · next a u selected =>
      obtain ⟨⟨b, w⟩, rest, eq⟩ := Option.map_eq_some_iff.mp found
      cases eq
      exact ⟨a, u, b, selected, rest, rfl⟩
    · cases found
  · rintro ⟨a, u, b, selected, rest, rfl⟩
    rw [part?, selected]
    simp [rest]

theorem scalar?_eq_some_iff {n : Nat} : t.scalar? path = some (d, n) ↔
    ∃ u, t.part? path = some (d, u) ∧ u.isScalar = true ∧ n = u.size := by
  unfold scalar?
  constructor
  · intro found
    split at found
    · next leads =>
      split at found
      · next scalar =>
        cases found
        exact ⟨_, leads, scalar, rfl⟩
      · cases found
    · cases found
  · rintro ⟨u, leads, scalar, rfl⟩
    simp [leads, scalar]

theorem not_selects_of_isScalar (scalar : t.isScalar = true) : ¬ t.Selects x d u := by
  rintro (found | _) <;> cases scalar

/-- What is selected lies inside. -/
theorem Selects.within (selects : t.Selects x d u) (proper : t.Proper) :
    u.Proper ∧ d + u.size ≤ t.size := by
  cases selects with
  | @field fields name f found =>
      obtain ⟨mem, -⟩ := Fields.mem_of_get? found
      have inside := Fields.inside_of_mem_layout mem
      have size : (Ty.record fields).size = fields.size := rfl
      exact ⟨Fields.proper_of_mem_layout proper.2.2 mem, by omega⟩
  | element element first last =>
      obtain ⟨start, stop⟩ := element_within proper first last
      exact ⟨proper.2.2.2, by omega⟩

/-- Different selections share no byte. -/
theorem Selects.apart (selects : t.Selects x d u) (selects' : t.Selects y e v)
    (differs : x.same y = false) : d + u.size ≤ e ∨ e + v.size ≤ d := by
  cases selects with
  | field found =>
      cases selects' with
      | field found' => exact Fields.apart_of_get? found found' differs
  | @element low high m element first last =>
      cases selects' with
      | @element _ _ n _ first' last' =>
          have differs : m ≠ n := by simpa [Selection.same] using differs
          rw [Int32.le_iff_toInt_le] at first first'
          -- Counted from the first element, in whole elements.
          obtain ⟨i, position⟩ := Int.eq_ofNat_of_zero_le (show 0 ≤ m.toInt - low.toInt by omega)
          obtain ⟨j, position'⟩ := Int.eq_ofNat_of_zero_le (show 0 ≤ n.toInt - low.toInt by omega)
          rw [position, position', ← Int.natCast_mul, ← Int.natCast_mul, Int.toNat_natCast,
            Int.toNat_natCast]
          have apart : i ≠ j := by
            rintro rfl
            exact differs (Int32.toInt_inj.mp (by omega))
          have upTo {i j : Nat} (before : i < j) : i * u.size + u.size ≤ j * u.size := by
            rw [← Nat.succ_mul]
            exact Nat.mul_le_mul_right u.size before
          exact (Nat.lt_or_gt_of_ne apart).imp upTo upTo

theorem Selects.congr (selects : t.Selects x d u) (selects' : t.Selects y e v)
    (same : x.same y = true) : d = e ∧ u = v := by
  cases selects with
  | @field fields a f found =>
      cases selects' with
      | @field _ b g found' =>
          have names : lowered a.spelling = lowered b.spelling := (Name.same_iff a b).mp same
          have search : (fun f : Field => f.name.same a) = fun f => f.name.same b := by
            funext f
            rw [Bool.eq_iff_iff, Name.same_iff, Name.same_iff, names]
          rw [Fields.get?, search] at found
          cases found.symm.trans found'
          exact ⟨rfl, rfl⟩
  | element element first last =>
      cases selects' with
      | element =>
          have same := eq_of_beq same
          subst same
          exact ⟨rfl, rfl⟩

/-- What a path leads to lies inside. -/
theorem part?_within (proper : t.Proper) (found : t.part? path = some (d, u)) :
    u.Proper ∧ d + u.size ≤ t.size := by
  induction path generalizing t d with
  | nil =>
      cases found
      exact ⟨proper, by omega⟩
  | cons x path ih =>
      obtain ⟨a, w, b, selects, rest, rfl⟩ := part?_cons.mp found
      obtain ⟨inner, outside⟩ := selects.within proper
      obtain ⟨last, inside⟩ := ih inner rest
      exact ⟨last, by omega⟩

/-- Different paths to scalars lead to different bytes. -/
theorem part?_apart (proper : t.Proper) (found : t.part? path = some (d, u))
    (found' : t.part? path' = some (e, v)) (scalar : u.isScalar = true) (scalar' : v.isScalar = true)
    (differs : Selection.sameAll path path' = false) : d + u.size ≤ e ∨ e + v.size ≤ d := by
  induction path generalizing t d e path' with
  | nil =>
      cases found
      cases path' with
      | nil => cases differs
      | cons y path' =>
          obtain ⟨_, _, _, selects, -⟩ := part?_cons.mp found'
          exact absurd selects (not_selects_of_isScalar scalar)
  | cons x path ih =>
      obtain ⟨a, w, b, selects, rest, rfl⟩ := part?_cons.mp found
      cases path' with
      | nil =>
          cases found'
          exact absurd selects (not_selects_of_isScalar scalar')
      | cons y path' =>
          obtain ⟨a', w', b', selects', rest', rfl⟩ := part?_cons.mp found'
          obtain ⟨inner, -⟩ := selects.within proper
          obtain ⟨inner', -⟩ := selects'.within proper
          obtain ⟨-, stop⟩ := part?_within inner rest
          obtain ⟨-, stop'⟩ := part?_within inner' rest'
          cases same : x.same y with
          | true =>
              obtain ⟨rfl, rfl⟩ := selects.congr selects' same
              have differs : Selection.sameAll path path' = false := by
                simpa [Selection.sameAll, same] using differs
              rcases ih inner rest rest' differs with before | after
              · exact .inl (by omega)
              · exact .inr (by omega)
          | false =>
              rcases selects.apart selects' same with before | after
              · exact .inl (by omega)
              · exact .inr (by omega)

end Ty

section Sizes

mutual

/-- The size of an object in mathematical terms. -/
def Ty.measure : Ty → Int
  | .integer | .char => 4
  | .double => 8
  | .string => 256
  | .nil | .function _ => 0
  | .array low high element => (high.toInt - low.toInt + 1) * element.measure
  | .record fields => fields.measure

def Fields.measure : Fields → Int
  | .empty => 0
  | .more _ type rest => type.measure + rest.measure

end

theorem extent_eq {low high : Int32} (ordered : low ≤ high)
    (room : high.toInt - low.toInt + 1 ≤ maxSize) :
    (extent low high : Int) = high.toInt - low.toInt + 1 := by
  rw [Int32.le_iff_toInt_le] at ordered
  unfold maxSize at room
  unfold extent wordRange
  omega

mutual

theorem Ty.Proper.size_eq_measure : ∀ {t : Ty}, t.Proper → (t.size : Int) = t.measure
  | .integer, _ | .char, _ | .double, _ | .string, _ => rfl
  | .array low high element, proper => by
      rw [proper.size_array, Ty.measure, Int.natCast_mul, extent_eq proper.1 proper.2.1,
        proper.2.2.2.size_eq_measure]
  | .record fields, proper => proper.2.2.size_eq_measure

theorem Fields.Proper.size_eq_measure : ∀ {fields : Fields},
    fields.Proper → (fields.size : Int) = fields.measure
  | .empty, _ => rfl
  | .more _ type rest, proper => by
      rw [Fields.size_more, Fields.measure, Int.natCast_add, proper.1.size_eq_measure,
        proper.2.size_eq_measure]

end

/-- The types that a type is made of, with itself. -/
inductive Ty.MadeOf (t : Ty) : Ty → Prop where
  | self : MadeOf t t
  | element {low high : Int32} {u : Ty} (inner : MadeOf t (.array low high u)) : MadeOf t u
  | field {fields : Fields} {f : Field} (inner : MadeOf t (.record fields))
      (mem : f ∈ fields.layout 0) : MadeOf t f.type

theorem Ty.MadeOf.proper {t u : Ty} (made : t.MadeOf u) (proper : t.Proper) : u.Proper := by
  induction made with
  | self => exact proper
  | element _ ih => exact ih.2.2.2
  | field _ mem ih => exact Fields.proper_of_mem_layout ih.2.2 mem

/-- A type whose size is computed as it stands: neither the product of an array nor the running size of
a record leaves the range of words. -/
structure Ty.Measured (t : Ty) : Prop where
  exact : (t.size : Int) = t.measure
  whole : 4 ∣ t.size
  room : t.size ≤ maxSize
  array : ∀ low high element, t = .array low high element →
    0 < extent low high ∧ (extent low high : Int) = high.toInt - low.toInt + 1 ∧
      extent low high * element.size < wordRange
  record : ∀ fields, t = .record fields → ∀ f ∈ fields.layout 0, f.offset + f.type.size < wordRange

theorem Ty.Proper.measured {t : Ty} (proper : t.Proper) : t.Measured where
  exact := proper.size_eq_measure
  whole := t.dvd_size
  room := proper.size_le
  array := by
    rintro low high element rfl
    have length := extent_eq proper.1 proper.2.1
    have ordered := Int32.le_iff_toInt_le.mp proper.1
    refine ⟨by omega, length, Nat.lt_of_le_of_lt proper.2.2.1 (by decide)⟩
  record := by
    rintro fields rfl f mem
    have inside := (Fields.inside_of_mem_layout mem).2
    have room : fields.size ≤ maxSize := proper.1
    unfold maxSize at room
    unfold wordRange
    omega

end Sizes

end PascalX86
