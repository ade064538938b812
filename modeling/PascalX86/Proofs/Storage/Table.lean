import Mathlib.Data.List.Forall2
import PascalX86.Proofs.Storage.Declaration

/-!
# Tables after any declarations

Whatever is declared in an empty table, with success or without, it stays in order: symbols stand as
they were added, a name finds its symbol, in a search or through an index of positions, and slots lie one
after the other.
-/

set_option autoImplicit false

namespace PascalX86

namespace Table

def after (t : Table) : List Declaration → Table
  | [] => t
  | d :: ds => (t.declare d).2.after ds

def answers (t : Table) : List Declaration → List (Except SemanticError Symbol)
  | [] => []
  | d :: ds => (t.declare d).1 :: (t.declare d).2.answers ds

variable {t : Table} {d : Declaration}

theorem laid_empty (area : Area) (level : Nat) : (Table.empty area level).Laid :=
  (Table.sound_empty area level).laid

theorem Laid.after (laid : t.Laid) (ds : List Declaration) : (t.after ds).Laid := by
  induction ds generalizing t with
  | nil => exact laid
  | cons d ds ih => exact ih ((outcome_declare laid.room d).laid laid)

section Symbols

/-- Only an answer with a symbol adds anything, and nothing else is moved. -/
theorem Outcome.symbols {answered : Except SemanticError Symbol × Table} (outcome : t.Outcome d answered) :
    answered.2.symbols = t.symbols ++ answered.1.toOption.toList ∧ answered.2.level = t.level ∧
      answered.2.area = t.area := by
  cases outcome with
  | added grown => exact ⟨grown.symbols, grown.level, grown.area⟩
  | duplicate => exact ⟨(List.append_nil _).symm, rfl, rfl⟩
  | tooLarge => exact ⟨(List.append_nil _).symm, rfl, rfl⟩

theorem Laid.symbols_after (laid : t.Laid) (ds : List Declaration) :
    (t.after ds).symbols = t.symbols ++ (t.answers ds).filterMap Except.toOption ∧
      (t.after ds).level = t.level ∧ (t.after ds).area = t.area := by
  induction ds generalizing t with
  | nil => exact ⟨(List.append_nil _).symm, rfl, rfl⟩
  | cons d ds ih =>
      have outcome := outcome_declare laid.room d
      obtain ⟨symbols, level, area⟩ := outcome.symbols
      obtain ⟨later, levels, areas⟩ := ih (outcome.laid laid)
      refine ⟨?_, levels.trans level, areas.trans area⟩
      rw [Table.after, later, symbols, List.append_assoc, answers, List.filterMap_cons]
      cases (t.declare d).1 <;> rfl

/-- Each answer with a symbol is one about its own declaration. -/
theorem Laid.answers_declared (laid : t.Laid) (ds : List Declaration) :
    List.Forall₂ (fun d answer => ∀ symbol, answer = .ok symbol →
      ∃ offset, symbol = d.symbol ⟨t.level, offset, t.area⟩) ds (t.answers ds) := by
  induction ds generalizing t with
  | nil => exact .nil
  | cons d ds ih =>
      have outcome := outcome_declare laid.room d
      obtain ⟨-, level, area⟩ := outcome.symbols
      have later := ih (outcome.laid laid)
      rw [level, area] at later
      refine .cons (fun symbol answered => ?_) later
      generalize t.declare d = r at outcome answered
      cases outcome with
      | added => exact ⟨t.size, (Except.ok.inj answered).symm⟩
      | duplicate => cases answered
      | tooLarge => cases answered

end Symbols

section Index

/-- Positions of symbols by their names, whatever the case of the letters. -/
abbrev Index := Name → Option Nat

/-- A position that is entered replaces any that the name had before. -/
def Index.insert (index : Index) (name : Name) (position : Nat) : Index :=
  fun other => if name.same other then some position else index other

/-- An index that is kept beside a table: a symbol that is added is entered with the number of those
before it. -/
def index (t : Table) (before : Index) : List Declaration → Index
  | [] => before
  | d :: ds => (t.declare d).2.index (match (t.declare d).1 with
      | .ok symbol => before.insert symbol.name.value t.symbols.length
      | .error _ => before) ds

/-- An index that leads each name to its first symbol. -/
def Index.Points (index : Index) (t : Table) : Prop :=
  ∀ name, index name = t.symbols.findIdx? fun s => s.name.value.same name

theorem Index.Points.get? {index : Index} (points : index.Points t) (name : Name) :
    ((index name).map fun position => t.symbols[position]?) = (t.get? name).map some := by
  rw [points name, Table.get?, List.find?_eq_bind_findIdx?_getElem?]
  cases found : t.symbols.findIdx? fun s => s.name.value.same name with
  | none => rfl
  | some position =>
      obtain ⟨within, -⟩ := List.findIdx?_eq_some_iff_getElem.mp found
      simp [List.getElem?_eq_getElem within]

theorem Extends.points {t' : Table} {symbol : Symbol} {index : Index} (grown : t.Extends symbol t')
    (points : index.Points t) : (index.insert symbol.name.value t.symbols.length).Points t' := by
  intro name
  rw [grown.symbols, List.findIdx?_append, ← points name, List.findIdx?_singleton, Index.insert]
  cases same : symbol.name.value.same name with
  | false => simp
  | true =>
      -- No symbol before the new one has its name, so that nothing is replaced.
      have fresh := grown.fresh
      rw [Table.get?, List.find?_eq_none] at fresh
      have none : index name = none := by
        rw [points name, List.findIdx?_eq_none_iff]
        intro other mem
        have differs := fresh other mem
        simp only [Name.same, beq_iff_eq] at same differs ⊢
        rw [← same]
        simpa using differs
      simp [none]

theorem Laid.points (laid : t.Laid) {before : Index} (points : before.Points t) (ds : List Declaration) :
    (t.index before ds).Points (t.after ds) := by
  induction ds generalizing t before with
  | nil => exact points
  | cons d ds ih =>
      have outcome := outcome_declare laid.room d
      refine ih (outcome.laid laid) ?_
      generalize t.declare d = r at outcome
      cases outcome with
      | added grown => exact grown.points points
      | duplicate => exact points
      | tooLarge => exact points

end Index

section Lookup

theorem Laid.get?_eq_some_iff (laid : t.Laid) {name : Name} {symbol : Symbol} :
    t.get? name = some symbol ↔ symbol ∈ t.symbols ∧ symbol.name.value.same name = true := by
  rw [get?]
  constructor
  · intro found
    exact ⟨List.mem_of_find?_eq_some found, by simpa using List.find?_some found⟩
  · rintro ⟨mem, same⟩
    obtain ⟨before, after, split⟩ := List.append_of_mem mem
    have distinct := laid.distinct
    rw [split, List.pairwise_append] at distinct
    -- A symbol of the same name further ahead would have the name of this one.
    refine List.find?_eq_some_iff_append.mpr ⟨same, before, after, split, fun other ahead => ?_⟩
    have differs := distinct.2.2 other ahead symbol List.mem_cons_self
    simp only [Name.same, beq_iff_eq, beq_eq_false_iff_ne, Bool.not_eq_eq_eq_not, Bool.not_true] at same differs ⊢
    rw [← same]
    exact differs

theorem get?_eq_none_iff {name : Name} :
    t.get? name = none ↔ ∀ symbol ∈ t.symbols, symbol.name.value.same name = false := by
  simp [get?]

theorem checkNew_cases (t : Table) (name : Name) :
    t.checkNew name = .ok () ∧ t.get? name = none ∨
      t.checkNew name = .error (.duplicate name) ∧ ∃ symbol, t.get? name = some symbol := by
  unfold checkNew
  cases t.get? name with
  | none => exact .inl ⟨rfl, rfl⟩
  | some symbol => exact .inr ⟨rfl, symbol, rfl⟩

/-- A declaration is accepted if its name is new and there is room for its storage. -/
theorem Laid.declare_ok_iff (laid : t.Laid) (d : Declaration) :
    (∃ symbol, (t.declare d).1 = .ok symbol) ↔
      t.get? d.name.value = none ∧ t.size + d.bytes ≤ maxSize := by
  have outcome := outcome_declare laid.room d
  generalize t.declare d = r at outcome
  cases outcome with
  | added grown =>
      have fresh := grown.fresh
      have room := grown.room laid.room
      rw [grown.size, Declaration.bytes_symbol] at room
      rw [Declaration.name_symbol] at fresh
      exact ⟨fun _ => ⟨fresh, room⟩, fun _ => ⟨_, rfl⟩⟩
  | duplicate known => exact ⟨nofun, fun ⟨fresh, _⟩ => absurd fresh known⟩
  | tooLarge full => exact ⟨nofun, fun ⟨_, room⟩ => absurd room (Nat.not_le_of_lt full)⟩

end Lookup

/-- A table in order: each symbol is found by its own name alone, and slots follow each other within
the storage of the table. -/
structure Ordered (t : Table) : Prop where
  distinct : t.symbols.Pairwise fun a b => a.name.value.same b.name.value = false
  found : ∀ name symbol,
    t.get? name = some symbol ↔ symbol ∈ t.symbols ∧ symbol.name.value.same name = true
  missing : ∀ name, t.get? name = none ↔ ∀ symbol ∈ t.symbols, symbol.name.value.same name = false
  checked : ∀ name, t.checkNew name = .ok () ∧ t.get? name = none ∨
    t.checkNew name = .error (.duplicate name) ∧ ∃ symbol, t.get? name = some symbol
  slots : t.symbols.Pairwise fun a b => ∀ x y, a.slot? = some x → b.slot? = some y →
    x.offset ≤ y.offset ∧ x.offset + a.storage ≤ y.offset
  inside : ∀ symbol ∈ t.symbols, ∀ slot, symbol.slot? = some slot →
    slot.offset + symbol.storage ≤ t.size
  room : t.size ≤ maxSize
  accepts : ∀ d : Declaration, (∃ symbol, (t.declare d).1 = .ok symbol) ↔
    t.get? d.name.value = none ∧ t.size + d.bytes ≤ maxSize

theorem Laid.in_order (laid : t.Laid) : t.Ordered where
  distinct := laid.distinct
  found _ _ := laid.get?_eq_some_iff
  missing _ := get?_eq_none_iff
  checked := t.checkNew_cases
  slots := laid.ordered.imp fun ordered x y found found' =>
    have after := ordered x y found found'
    ⟨Nat.le_trans (Nat.le_add_right _ _) after, after⟩
  inside symbol mem slot found := (laid.within symbol mem slot found).2.2
  room := laid.room
  accepts := laid.declare_ok_iff

/-- After any declarations, accepted or not, a table holds what was accepted, in order, and an index that
was kept beside it finds the same symbols as a search. -/
theorem declarations_in_order (area : Area) (level : Nat) (ds : List Declaration) :
    let t := (Table.empty area level).after ds
    let answers := (Table.empty area level).answers ds
    let index := (Table.empty area level).index (fun _ => none) ds
    t.symbols = answers.filterMap Except.toOption ∧
      List.Forall₂ (fun d answer => ∀ symbol, answer = .ok symbol →
        ∃ offset, symbol = d.symbol ⟨level, offset, area⟩) ds answers ∧
      (∀ name, ((index name).map fun position => t.symbols[position]?) = (t.get? name).map some) ∧
      t.Ordered := by
  have laid := laid_empty area level
  have points : Index.Points (fun _ => none) (Table.empty area level) := fun _ => rfl
  exact ⟨(laid.symbols_after ds).1, laid.answers_declared ds, (laid.points points ds).get?,
    (laid.after ds).in_order⟩

end Table

/-- Declarations of which the second has the name of the first and the third is too large. -/
def Declaration.ledger : List Declaration := [
  .variable ⟨.ofSpelling "Total", .first⟩ .integer,
  .constant ⟨.ofSpelling "TOTAL", .first⟩ .double (.double 0) true,
  .variable ⟨.ofSpelling "bulk", .first⟩ (.array 1 268435456 .integer),
  .parameter ⟨.ofSpelling "rate", .first⟩ .double .byReference none]

theorem Table.ledger_in_order : ∃ total rate,
    ((Table.empty .locals 0).after Declaration.ledger).symbols = [total, rate] ∧
    ((Table.empty .locals 0).after Declaration.ledger).get? (.ofSpelling "tOTAL") = some total ∧
    total.name.value.same rate.name.value = false ∧ total.slot? = some ⟨0, 0, .locals⟩ ∧
    rate.slot? = some ⟨0, 12, .locals⟩ ∧ 0 + total.storage ≤ 12 ∧
    12 + rate.storage ≤ ((Table.empty .locals 0).after Declaration.ledger).size := by
  obtain ⟨symbols, -, -, ordered⟩ := Table.declarations_in_order .locals 0 Declaration.ledger
  have distinct := ordered.distinct
  have slots := ordered.slots
  have inside := ordered.inside
  rw [symbols] at distinct slots inside
  refine ⟨_, _, symbols, (ordered.found _ _).mpr ⟨?_, rfl⟩, ?_, rfl, rfl, ?_, ?_⟩
  · rw [symbols]
    exact List.mem_cons_self
  · exact (List.pairwise_cons.mp distinct).1 _ List.mem_cons_self
  · exact ((List.pairwise_cons.mp slots).1 _ List.mem_cons_self _ _ rfl rfl).2
  · exact inside _ (List.mem_cons_of_mem _ List.mem_cons_self) _ rfl

end PascalX86
