import PascalX86.Parser.Type
import PascalX86.Proofs.Checking.Declared
import PascalX86.Proofs.Checking.Expression

/-!
# Checking of types and structured constants

Types that are read are proper, and constants of a type fit it.
-/

set_option autoImplicit false

namespace PascalX86

theorem Fields.proper_ofList {fields : List (Name × Ty)} (h : ∀ f ∈ fields, f.2.Proper) :
    (Fields.ofList fields).Proper := by
  induction fields with
  | nil => trivial
  | cons f fields ih =>
      rw [List.forall_mem_cons] at h
      exact ⟨h.1, ih h.2⟩

theorem Fields.names_ofList (fields : List (Name × Ty)) :
    (Fields.ofList fields).names = fields.map Prod.fst := by
  induction fields with
  | nil => rfl
  | cons f fields ih => simp [ofList, names, ih]

structure Table.OfFields (t : Table) : Prop where
  sound : t.Sound
  fields : ∀ symbol ∈ t.symbols, ∃ slot, symbol.role = .variable slot

theorem Fields.size_ofList {symbols : List Symbol}
    (h : ∀ symbol ∈ symbols, ∃ slot, symbol.role = .variable slot) :
    (Fields.ofList (symbols.map fun s => (s.name.value, s.type))).size = bytesOf symbols := by
  induction symbols with
  | nil => rfl
  | cons symbol symbols ih =>
      rw [List.forall_mem_cons] at h
      obtain ⟨⟨slot, role⟩, rest⟩ := h
      simp [ofList, bytesOf, ih rest, Symbol.bytes, Symbol.slot?, Symbol.storage, role]

theorem Table.OfFields.proper {t : Table} (h : t.OfFields) : t.record.Proper := by
  refine ⟨?_, ?_, Fields.proper_ofList ?_⟩
  · rw [Fields.size_ofList h.fields, ← h.sound.size]
    exact h.sound.room
  · simpa [Fields.names_ofList, List.pairwise_map] using h.sound.distinct
  · intro f mem
    obtain ⟨symbol, inside, rfl⟩ := List.mem_map.mp mem
    obtain ⟨slot, role⟩ := h.fields symbol inside
    simpa [Symbol.Fulfilled, role] using h.sound.fulfilled symbol inside

theorem Table.Extends.ofFields {t t' : Table} {symbol : Symbol} (h : t.Extends symbol t')
    (fields : t.OfFields) (fulfilled : symbol.Fulfilled) (role : ∃ slot, symbol.role = .variable slot) :
    t'.OfFields := by
  refine ⟨h.sound fields.sound fulfilled, ?_⟩
  rw [h.symbols, List.forall_mem_append, List.forall_mem_singleton]
  exact ⟨fields.fields, role⟩

theorem Scopes.Fulfilled.push {σ : Scopes} {t : Table} (h : σ.Fulfilled)
    (fulfilled : ∀ symbol ∈ t.symbols, symbol.Fulfilled) : (σ.push t).Fulfilled := by
  rintro symbol ⟨u, mem, inside⟩
  rcases List.mem_cons.mp mem with rfl | mem
  · exact fulfilled symbol inside
  · exact h symbol ⟨u, mem, inside⟩

namespace Parser

open Checking

variable {s : ParserState} {n : Nat}

def Types (p : Parser Ty) : Prop :=
  ∀ s n, s.scopes.Fulfilled → p.Yields s n fun t n' => t.Proper ∧ n ≤ n'

structure Bounds.Proper (b : Bounds) : Prop where
  ordered : b.low ≤ b.high
  room : b.high.toInt - b.low.toInt + 1 ≤ maxSize

section Arrays

theorem yields_number (scopes : s.scopes.Fulfilled) :
    constantInteger.Yields s n fun _ n' => n ≤ n' :=
  yields_constantInteger.mono fun _ _ ⟨_, made⟩ => (made.sound scopes).1

theorem yields_bounds (scopes : s.scopes.Fulfilled) :
    bounds.Yields s n fun b n' => b.value.Proper ∧ n ≤ n' := by
  refine reads_here.bind fun span => (yields_number scopes).bind fun low n₁ first => ?_
  refine (reads_expect .doubleDot).bind fun _ => (yields_number scopes).bind fun high n₂ second => ?_
  refine .ite (fun _ => .failed) fun ordered => .ite (fun _ => .failed) fun room => ?_
  exact .pure ⟨⟨Int32.not_lt.mp ordered, Int.not_lt.mp room⟩, Nat.le_trans first second⟩

theorem yields_arrayOver {element : Ty} {dimensions : List (Located Bounds)}
    (proper : element.Proper) (each : ∀ b ∈ dimensions, b.value.Proper) :
    (arrayOver element dimensions).Yields s n fun t n' => t.Proper ∧ n' = n := by
  induction dimensions generalizing element with
  | nil => exact .pure ⟨proper, rfl⟩
  | cons b outer ih =>
      rw [List.forall_mem_cons] at each
      refine .ite (fun _ => .failed) fun room => ?_
      exact ih ⟨each.1.ordered, each.1.room, Nat.le_of_not_lt room, proper⟩ each.2

theorem yields_arrayType {type : Parser Ty} (h : Types type) : Types (arrayType type) := by
  intro s n scopes
  refine (reads_keyword .array).bind fun _ => (reads_expect .openSquare).bind fun _ => ?_
  refine (yields_separatedBy .comma fun n => yields_bounds scopes).bind fun dimensions n₁ read => ?_
  obtain ⟨le, proper⟩ := read.1.bounded (fun _ _ _ h => h.symm) fun _ _ _ _ h => h
  refine (reads_expect .closeSquare).bind fun _ => (reads_keyword .of).bind fun _ => ?_
  refine (h s n₁ scopes).bind fun element n₂ helement => ?_
  refine (yields_arrayOver helement.1 (by simpa using proper)).mono ?_
  rintro t _ ⟨ht, rfl⟩
  exact ⟨ht, Nat.le_trans le helement.2⟩

end Arrays

section Records

/-- A state in which the fields of a record are read. -/
def Fielding (s : ParserState) (n : Nat) (u : ParserState) : Prop :=
  ∃ t c n', u = { s with scopes := s.scopes.push t }.moved c n' ∧ t.OfFields ∧ n ≤ n'

theorem ensures_declare {α : Type} (name : Located Name) (d : Declaring α) :
    (declare name d).Ensures s fun a s' => Adds s d a s' := by
  refine .get (.set (.locate fun a answered => ⟨?_, rfl⟩))
  exact Prod.ext answered rfl

theorem ensures_declareFields {u : ParserState} {type : Ty} (proper : type.Proper)
    (names : List (Located Name)) (hu : Fielding s n u) :
    (declareFields type names).Ensures u fun _ u' => Fielding s n u' := by
  induction names generalizing u with
  | nil => exact .pure hu
  | cons name names ih =>
      refine (ensures_declare name _).bind fun symbol u' adds => ih ?_
      obtain ⟨t, c, n', rfl, fields, le⟩ := hu
      obtain ⟨added, eq⟩ := adds.run
      obtain ⟨rfl, extends_⟩ := Declaring.addVariable_ok added
      exact ⟨u'.scopes.current, c, n', eq, extends_.ofFields fields proper ⟨_, rfl⟩, le⟩

theorem ensures_popScope {t : Table} {σ σ' : Scopes} (h : σ.pop? = some (t, σ')) (same : s.scopes = σ) :
    popScope.Ensures s fun t' s' => t' = t ∧ s' = { s with scopes := σ' } := by
  refine .get ?_
  rw [same, h]
  exact .set (.pure ⟨rfl, rfl⟩)

theorem Fielding.moved {u : ParserState} (h : Fielding s n u) (c : Cursor) {n' : Nat}
    (later : u.nodes ≤ n') : Fielding s n (u.moved c n') := by
  obtain ⟨t, c', n₀, rfl, fields, le⟩ := h
  exact ⟨t, c, n', rfl, fields, Nat.le_trans le later⟩

theorem Fielding.fulfilled {u : ParserState} (h : Fielding s n u) (scopes : s.scopes.Fulfilled) :
    u.scopes.Fulfilled := by
  obtain ⟨t, c, n', rfl, fields, -⟩ := h
  exact scopes.push fields.sound.fulfilled

theorem ensures_fieldGroup {type : Parser Ty} (h : Types type) (scopes : s.scopes.Fulfilled)
    {u : ParserState} (hu : Fielding s n u) :
    (fieldGroup type).Ensures u fun _ u' => Fielding s n u' := by
  refine (reads_atName.ensures).bind fun b u₁ ⟨c₁, eq₁⟩ => ?_
  have hu₁ : Fielding s n u₁ := eq₁ ▸ hu.moved c₁ (Nat.le_refl _)
  cases b with
  | false => exact .pure hu₁
  | true =>
      refine (reads_identifiers.ensures).bind fun names u₂ ⟨c₂, eq₂⟩ => ?_
      have hu₂ : Fielding s n u₂ := eq₂ ▸ hu₁.moved c₂ (Nat.le_refl _)
      refine ((reads_expect .colon).ensures).bind fun _ u₃ ⟨c₃, eq₃⟩ => ?_
      have hu₃ : Fielding s n u₃ := eq₃ ▸ hu₂.moved c₃ (Nat.le_refl _)
      refine (h u₃ u₃.nodes (hu₃.fulfilled scopes)).ensures.bind fun t u₄ ⟨c₄, n₄, eq₄, proper, le⟩ => ?_
      have hu₄ : Fielding s n u₄ := eq₄ ▸ hu₃.moved c₄ le
      refine (ensures_declareFields proper names hu₄).bind fun _ u₅ hu₅ => ?_
      refine ((reads_eat .semicolon).ensures).bind fun b u₆ ⟨c₆, eq₆⟩ => ?_
      have hu₆ : Fielding s n u₆ := eq₆ ▸ hu₅.moved c₆ (Nat.le_refl _)
      cases b with
      | true => exact .pure hu₆
      | false => exact .pure hu₆

theorem yields_recordType {type : Parser Ty} (h : Types type) : Types (recordType type) := by
  intro s n scopes
  refine (reads_keyword .record).bind fun _ c => ?_
  refine .modify ?_
  -- The fields so far stand in the current table, so the record is proper once that table is.
  have start : Fielding s n { s.moved c n with scopes := s.scopes.push (.empty .fields 0) } :=
    ⟨.empty .fields 0, c, n, rfl, ⟨Table.sound_empty _ _, by simp [Table.empty]⟩, Nat.le_refl n⟩
  refine (Ensures.many (R := fun _ _ _ => True) (E := fun u u' => Fielding s n u → Fielding s n u')
    start (fun u hu => ?_) fun _ => id).bind ?_
  · refine (ensures_fieldGroup h scopes hu).mono fun r u' hu' => ?_
    cases r with
    | none => exact fun _ => hu'
    | some => exact ⟨trivial, hu'⟩
  · rintro _ u ⟨u₁, -, hu₁, last⟩
    obtain ⟨t, c', n', rfl, fields, le⟩ := last hu₁
    refine (ensures_popScope (Scopes.pop?_push s.scopes t) rfl).bind ?_
    rintro _ _ ⟨rfl, rfl⟩
    exact Reads.bind (s := s) (n := n') (reads_keyword .end) (fun _ => .pure ⟨fields.proper, le⟩) c'

end Records

theorem yields_namedType : Types namedType := by
  intro s n scopes
  refine reads_identifier.bind fun name => .lookup fun symbol found => ?_
  split
  · next role =>
    have fulfilled := scopes symbol (Scopes.holds_of_lookup? found)
    exact .pure ⟨by simpa [Symbol.Fulfilled, role] using fulfilled, Nat.le_refl n⟩
  · exact .fail

theorem types_typeOver {inner : Parser Ty} (h : Types inner) : Types (typeOver inner) := by
  intro s n scopes
  refine reads_token.bind fun t => ?_
  split
  · exact reads_bump.bind fun _ => .pure ⟨trivial, Nat.le_refl n⟩
  · exact reads_bump.bind fun _ => .pure ⟨trivial, Nat.le_refl n⟩
  · exact reads_bump.bind fun _ => .pure ⟨trivial, Nat.le_refl n⟩
  · exact reads_bump.bind fun _ => .pure ⟨trivial, Nat.le_refl n⟩
  · exact yields_arrayType h s n scopes
  · exact yields_recordType h s n scopes
  · exact yields_namedType s n scopes
  · exact .unexpected

theorem types_typeUpTo (depth : Nat) : Types (typeUpTo depth) := by
  induction depth with
  | zero => exact fun _ _ _ => .unexpected
  | succ depth ih => exact types_typeOver ih

theorem types_type : Types type :=
  fun s n scopes => reads_remaining.bind fun depth => types_typeUpTo depth s n scopes

section Constants

theorem reads_fieldName (fields : Fields) (due : Name) : (fieldName fields due).Reads := by
  refine reads_identifier.seq fun name => ?_
  split
  · exact fun _ _ => .fail
  · exact fun _ _ => .ite (fun _ => .pure rfl) fun _ => .fail

theorem yields_scalarConstant (scopes : s.scopes.Fulfilled) (type : Ty) :
    (do
      let e ← expression
      locate e.span (type.check e.type)
      match e.value?.bind fun v => v.cast? type.category with
      | some v => return v
      | none => fail .expectedConstant e.span : Parser Value).Yields s n fun v n' =>
        v.Fits type ∧ n ≤ n' := by
  refine (builds_expression s n).bind fun e n' made => .located fun _ _ => ?_
  split
  · next v known =>
    obtain ⟨v₀, -, converted⟩ := Option.bind_eq_some_iff.mp known
    exact .pure ⟨Value.fits_of_cast? converted, (made.sound scopes).1⟩
  · exact .fail

mutual

theorem yields_typedConstant (scopes : s.scopes.Fulfilled) (n : Nat) (t : Ty) :
    (typedConstant t).Yields s n fun v n' => v.Fits t ∧ n ≤ n' := by
  cases t with
  | array low high element =>
      unfold typedConstant
      refine reads_here.bind fun span => (reads_expect .openParen).bind fun _ => ?_
      refine (yields_separatedBy .comma fun n => yields_typedConstant scopes n element).bind
        fun values n' read => ?_
      obtain ⟨le, fits⟩ := read.1.bounded (fun _ _ _ h => h.symm) fun _ _ _ _ h => h
      refine (reads_expect .closeParen).bind fun _ => ?_
      exact .ite (fun count => .pure ⟨⟨count, fits⟩, le⟩) fun _ => .fail
  | record fields =>
      unfold typedConstant
      refine (reads_expect .openParen).bind fun _ => ?_
      refine (yields_fieldConstants scopes n fields fields).bind fun values n' read => ?_
      exact (reads_eat .semicolon).bind fun _ => (reads_expect .closeParen).bind fun _ => .pure read
  | _ => exact yields_scalarConstant scopes _

theorem yields_fieldConstants (scopes : s.scopes.Fulfilled) (n : Nat) (all fields : Fields) :
    (fieldConstants all fields).Yields s n fun values n' => Value.FitAll values fields ∧ n ≤ n' := by
  cases fields with
  | empty => exact .pure ⟨trivial, Nat.le_refl n⟩
  | more name type rest =>
      unfold fieldConstants
      refine (reads_fieldName all name).bind fun _ => (reads_expect .colon).bind fun _ => ?_
      -- Every value but the last one is followed by a semicolon.
      refine (yields_typedConstant scopes n type).bind fun v n₁ first => ?_
      split
      · exact .pure ⟨⟨first.1, trivial⟩, first.2⟩
      · next name' type' rest' =>
        refine (reads_expect .semicolon).bind fun _ => ?_
        refine (yields_fieldConstants scopes n₁ all (.more name' type' rest')).bind fun values n₂ others => ?_
        exact .pure ⟨⟨first.1, others.1⟩, Nat.le_trans first.2 others.2⟩

end

end Constants

end Parser

end PascalX86
