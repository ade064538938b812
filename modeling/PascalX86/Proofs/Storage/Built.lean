import PascalX86.Proofs.Lowering.Image
import PascalX86.Proofs.Storage.Part

/-!
# Types that are read

A record lies as the table of its fields says. Whatever type the parser reads, in a declaration or
within a record that it has not read to the end: its size is exact, its arrays have elements, and its
parts do not overlap.
-/

set_option autoImplicit false

namespace PascalX86

section Slots

variable {symbols : List Symbol} {a : Symbol} {x : Slot} {base limit : Nat}

/-- Symbols in order up to a limit leave room for each other. -/
theorem bytesOf_fit (ordered : (a :: symbols).Pairwise fun a b => ∀ x y, a.slot? = some x →
      b.slot? = some y → x.offset + a.storage ≤ y.offset)
    (stored : ∀ s ∈ a :: symbols, s.slot?.isSome = true)
    (within : ∀ s ∈ a :: symbols, ∀ y, s.slot? = some y → y.offset + s.storage ≤ limit)
    (found : a.slot? = some x) : x.offset + bytesOf (a :: symbols) ≤ limit := by
  have own : a.bytes = a.storage := by simp [Symbol.bytes, found]
  rw [bytesOf, own]
  induction symbols generalizing a x with
  | nil => exact within a List.mem_cons_self x found
  | cons b symbols ih =>
      rw [List.pairwise_cons] at ordered
      rw [List.forall_mem_cons] at stored within
      obtain ⟨y, found'⟩ := Option.isSome_iff_exists.mp (stored.2 b List.mem_cons_self)
      have own' : b.bytes = b.storage := by simp [Symbol.bytes, found']
      have before := ordered.1 b List.mem_cons_self x y found found'
      have rest := ih ordered.2 stored.2 within.2 found' own'
      rw [bytesOf, own']
      omega

/-- The field that a symbol stands for. -/
def Symbol.field (s : Symbol) : Field := ⟨s.name.value, s.type, (s.slot?.map Slot.offset).getD 0⟩

/-- Slots in order that take all storage from a start on have no gaps between them. -/
theorem Fields.layout_ofList (owned : ∀ s ∈ symbols, ∃ slot, s.role = .variable slot)
    (ordered : symbols.Pairwise fun a b => ∀ x y, a.slot? = some x →
      b.slot? = some y → x.offset + a.storage ≤ y.offset)
    (above : ∀ s ∈ symbols, ∀ y, s.slot? = some y → base ≤ y.offset)
    (within : ∀ s ∈ symbols, ∀ y, s.slot? = some y → y.offset + s.storage ≤ base + bytesOf symbols) :
    (Fields.ofList (symbols.map fun s => (s.name.value, s.type))).layout base =
      symbols.map Symbol.field := by
  induction symbols generalizing base with
  | nil => rfl
  | cons a symbols ih =>
      have stored : ∀ s ∈ a :: symbols, s.slot?.isSome = true := by
        intro s mem
        obtain ⟨slot, role⟩ := owned s mem
        simp [Symbol.slot?, role]
      obtain ⟨x, role⟩ := owned a List.mem_cons_self
      have found : a.slot? = some x := by simp [Symbol.slot?, role]
      have size : a.storage = a.type.size := by simp [Symbol.storage, role]
      have bytes : bytesOf (a :: symbols) = a.type.size + bytesOf symbols := by
        simp [bytesOf, Symbol.bytes, found, size]
      have room := bytesOf_fit ordered stored within found
      have low := above a List.mem_cons_self x found
      have start : x.offset = base := by omega
      rw [List.pairwise_cons] at ordered
      rw [List.forall_mem_cons] at owned
      rw [List.map_cons, List.map_cons, Fields.ofList, Fields.layout_more, ih owned.2 ordered.2]
      · simp [Symbol.field, found, start]
      · intro s mem y placed
        have after := ordered.1 s mem x y found placed
        omega
      · intro s mem y placed
        have inside := within s (List.mem_cons_of_mem a mem) y placed
        omega

/-- The fields of a record lie where the slots of their declarations are. -/
theorem Table.OfFields.layout {t : Table} (h : t.OfFields) :
    (Fields.ofList (t.symbols.map fun s => (s.name.value, s.type))).layout 0 = t.symbols.map Symbol.field := by
  refine Fields.layout_ofList h.fields h.sound.ordered (fun _ _ _ _ => Nat.zero_le _) ?_
  intro s mem y found
  rw [Nat.zero_add, ← h.sound.size]
  exact (h.sound.within s mem y found).2.2

end Slots

namespace Parser

/-- States in which types are read: those between declarations and, inside a record, those in which its
first fields have been declared. -/
inductive BeforeType : ParserState → Prop where
  | reached {s : ParserState} (reached : Reached s) : BeforeType s
  | fielding {s u : ParserState} {n : Nat} (outside : BeforeType s) (inside : Fielding s n u) :
      BeforeType u

/-- Types that the parser builds, whether or not it accepts what comes after them. -/
def Built (t : Ty) : Prop :=
  ∃ s s' depth, BeforeType s ∧ typeUpTo depth s = .ok (t, s')

variable {s : ParserState} {t : Ty}

theorem BeforeType.fulfilled (before : BeforeType s) : s.scopes.Fulfilled := by
  induction before with
  | reached reached => exact reached.sound.scopes.fulfilled
  | fielding _ inside ih => exact inside.fulfilled ih

theorem Built.proper (built : Built t) : t.Proper := by
  obtain ⟨s, s', depth, before, run⟩ := built
  obtain ⟨-, -, -, proper, -⟩ := types_typeUpTo depth s s.nodes before.fulfilled s.cursor t s' run
  exact proper

theorem built_of_type {c : Cursor} {s' : ParserState} (run : Parser.type (initialState c) = .ok (t, s')) :
    Built t :=
  ⟨initialState c, s', _, .reached (.start c), run⟩

/-- All types that are built have the sizes that they should have, down to their smallest parts.
Scalars that different paths lead to lie inside, apart from each other. -/
theorem types_laid_out (built : Built t) :
    (∀ u, t.MadeOf u → u.Measured) ∧
      ∀ path d n, t.scalar? path = some (d, n) → d + n ≤ t.size ∧
        ∀ path' e k, t.scalar? path' = some (e, k) → Selection.sameAll path path' = false →
          d + n ≤ e ∨ e + k ≤ d := by
  have proper := built.proper
  refine ⟨fun u made => (made.proper proper).measured, fun path d n found => ?_⟩
  obtain ⟨u, leads, scalar, rfl⟩ := Ty.scalar?_eq_some_iff.mp found
  refine ⟨(Ty.part?_within proper leads).2, fun path' e k found' differs => ?_⟩
  obtain ⟨v, leads', scalar', rfl⟩ := Ty.scalar?_eq_some_iff.mp found'
  exact Ty.part?_apart proper leads leads' scalar scalar' differs

end Parser

/-- The type that a source starts with. -/
def Source.type? (source : Source) : Option Ty :=
  match Cursor.ofItems source.scan with
  | .ok c => (Parser.type (Parser.initialState c)).toOption.map Prod.fst
  | .error _ => none

theorem Source.built_of_type? {source : Source} {t : Ty} (known : source.type? = some t) :
    Parser.Built t := by
  unfold Source.type? at known
  split at known
  · next c _ =>
    obtain ⟨⟨t, s⟩, run, rfl⟩ := exists_of_map_toOption known
    exact Parser.built_of_type run
  · cases known

/-- Records in two dimensions. -/
def Source.shelf : Source := ⟨"input.pas", [
  "array[-1..1, 5..6] of record Mark: char; text: string end"], .endOfFile⟩

theorem Source.shelf_read : Source.shelf.type?.map (fun t => (t.size,
    t.scalar? [.element 1, .element 6, .field (.ofSpelling "MARK")],
    t.scalar? [.element 1, .element 6, .field (.ofSpelling "text")])) =
      some (1560, some (1300, 4), some (1304, 256)) := by
  decide +kernel

theorem Source.shelf_laid_out : ∃ t, Source.shelf.type? = some t ∧ t.size = 1560 ∧ t.measure = 1560 ∧
    t.scalar? [.element 1, .element 6, .field (.ofSpelling "MARK")] = some (1300, 4) ∧
    t.scalar? [.element 1, .element 6, .field (.ofSpelling "text")] = some (1304, 256) ∧
    1304 + 256 ≤ t.size ∧ (1300 + 4 ≤ 1304 ∨ 1304 + 256 ≤ 1300) := by
  obtain ⟨t, read, known⟩ := Option.map_eq_some_iff.mp Source.shelf_read
  obtain ⟨size, places⟩ := Prod.mk.inj known
  obtain ⟨mark, text⟩ := Prod.mk.inj places
  obtain ⟨sizes, parts⟩ := Parser.types_laid_out (Source.built_of_type? read)
  have measured := (sizes t .self).exact
  rw [size] at measured
  exact ⟨t, read, size, measured.symm, mark, text, (parts _ _ _ text).1, (parts _ _ _ mark).2 _ _ _ text rfl⟩

end PascalX86
