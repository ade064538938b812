import PascalX86.Proofs.Storage.Table

/-!
# Refused declarations

A declaration that is refused adds no symbol and changes no lookup. For want of room it changes nothing
at all. A name that is known already keeps the storage that was meant for its second symbol, so later
slots begin that much further on, and the size of a table is that of its symbols with all storage lost
in this way.
-/

set_option autoImplicit false

namespace PascalX86

/-- The bytes that a declaration takes although it is refused. -/
def Declaration.lost (d : Declaration) : Except SemanticError Symbol → Nat
  | .error (.duplicate _) => d.bytes
  | _ => 0

namespace Table

/-- The bytes that declarations take without a symbol to show for them. -/
def lost (t : Table) : List Declaration → Nat
  | [] => 0
  | d :: ds => d.lost (t.declare d).1 + (t.declare d).2.lost ds

variable {t t' : Table} {d : Declaration} {e : SemanticError}

theorem Outcome.size {answered : Except SemanticError Symbol × Table} (outcome : t.Outcome d answered) :
    answered.2.size + bytesOf t.symbols =
      bytesOf answered.2.symbols + (t.size + d.lost answered.1) := by
  cases outcome with
  | @added t' grown =>
      have bytes : bytesOf [d.symbol t.free] = d.bytes := by simp [bytesOf]
      show t'.size + bytesOf t.symbols = bytesOf t'.symbols + t.size
      rw [grown.size, grown.symbols, bytesOf_append, bytes, Declaration.bytes_symbol]
      omega
  | duplicate =>
      show t.size + d.bytes + bytesOf t.symbols = bytesOf t.symbols + (t.size + d.bytes)
      omega
  | tooLarge => exact Nat.add_comm _ _

/-- The size of a table is that of its symbols, with what has been lost. -/
theorem Laid.size_after (laid : t.Laid) (ds : List Declaration) :
    (t.after ds).size + bytesOf t.symbols = bytesOf (t.after ds).symbols + (t.size + t.lost ds) := by
  induction ds generalizing t with
  | nil => exact Nat.add_comm _ _
  | cons d ds ih =>
      have outcome := outcome_declare laid.room d
      have here := outcome.size
      have later := ih (outcome.laid laid)
      rw [Table.after, Table.lost]
      omega

/-- What a refused declaration is refused for, and what it leaves. -/
theorem Laid.refused (laid : t.Laid) (refused : t.declare d = (.error e, t')) :
    e = .typeTooLarge ∧ maxSize < t.size + d.bytes ∧ t' = t ∨
      e = .duplicate d.name.value ∧ t.get? d.name.value ≠ none ∧ t.size + d.bytes ≤ maxSize ∧
        t' = t.grow d.bytes := by
  have outcome := outcome_declare laid.room d
  rw [refused] at outcome
  cases outcome with
  | duplicate known room => exact .inr ⟨rfl, known, room, rfl⟩
  | tooLarge full => exact .inl ⟨rfl, full, rfl⟩

theorem grow_eq_self_iff {bytes : Nat} : t.grow bytes = t ↔ bytes = 0 := by
  constructor
  · intro same
    have size : t.size + bytes = t.size := congrArg Table.size same
    omega
  · rintro rfl
    rfl

theorem declare_eq_ok {symbol : Symbol} (room : t.size ≤ maxSize)
    (accepted : (t.declare d).1 = .ok symbol) : symbol = d.symbol t.free := by
  have outcome := outcome_declare room d
  generalize t.declare d = r at outcome accepted
  cases outcome with
  | added => exact (Except.ok.inj accepted).symm
  | duplicate => cases accepted
  | tooLarge => cases accepted

/-- What is accepted after storage has been lost would have been accepted before, further ahead. -/
theorem Laid.declare_grown (laid : t.Laid) {lost : Nat} (room : t.size + lost ≤ maxSize)
    {next : Declaration} {symbol : Symbol} (accepted : ((t.grow lost).declare next).1 = .ok symbol) :
    symbol = next.symbol ⟨t.level, t.size + lost, t.area⟩ ∧
      (t.declare next).1 = .ok (next.symbol ⟨t.level, t.size, t.area⟩) := by
  obtain ⟨fresh, space⟩ := ((laid.grow room).declare_ok_iff next).mp ⟨symbol, accepted⟩
  have space : t.size + lost + next.bytes ≤ maxSize := space
  obtain ⟨before, answered⟩ := (laid.declare_ok_iff next).mpr ⟨fresh, by omega⟩
  refine ⟨declare_eq_ok (laid.grow room).room accepted, ?_⟩
  rw [answered, declare_eq_ok laid.room answered]
  rfl

/-- A refused declaration leaves all symbols and lookups as they are, and the whole table unless it asks
for storage under a name that is known already. Only such declarations set the size of a table apart
from that of its symbols. -/
theorem refusals_lose {area : Area} {level : Nat} {ds : List Declaration}
    (refused : ((Table.empty area level).after ds).declare d = (.error e, t')) :
    let t := (Table.empty area level).after ds
    t'.symbols = t.symbols ∧ (∀ name, t'.get? name = t.get? name) ∧
      (∀ name, t'.checkNew name = t.checkNew name) ∧
      (e = .typeTooLarge ∧ maxSize < t.size + d.bytes ∧ t' = t ∨
        e = .duplicate d.name.value ∧ t.get? d.name.value ≠ none ∧ t' = t.grow d.bytes ∧
          (t' = t ↔ d.bytes = 0)) ∧
      (∀ next symbol, (t'.declare next).1 = .ok symbol →
        symbol = next.symbol ⟨level, t'.size, area⟩ ∧
          (t.declare next).1 = .ok (next.symbol ⟨level, t.size, area⟩)) ∧
      t.size = bytesOf t.symbols + (Table.empty area level).lost ds := by
  have begins := laid_empty area level
  have laid := begins.after ds
  have sizes := begins.size_after ds
  obtain ⟨-, same, place⟩ := begins.symbols_after ds
  generalize (Table.empty area level).after ds = t at *
  have same : t.level = level := same
  have place : t.area = area := place
  have size : t.size = bytesOf t.symbols + (Table.empty area level).lost ds := by
    rw [← Nat.zero_add ((Table.empty area level).lost ds)]
    exact sizes
  rcases laid.refused refused with ⟨rfl, full, rfl⟩ | ⟨rfl, known, room, rfl⟩
  · refine ⟨rfl, fun _ => rfl, fun _ => rfl, .inl ⟨rfl, full, rfl⟩, fun next symbol accepted => ?_, size⟩
    have added := declare_eq_ok laid.room accepted
    rw [← same, ← place]
    exact ⟨added, by rw [accepted, added]; rfl⟩
  · refine ⟨rfl, fun _ => rfl, fun _ => rfl, .inr ⟨rfl, known, rfl, grow_eq_self_iff⟩,
      fun next symbol accepted => ?_, size⟩
    rw [← same, ← place]
    exact laid.declare_grown room accepted

end Table

def Declaration.twice : Declaration := .variable ⟨.ofSpelling "TOTAL", .first⟩ .double

/-- A table of one symbol that a second one of its name has made larger. -/
theorem Table.duplicate_grows : ∃ t : Table, ∃ e t',
    t = (Table.empty .locals 0).after [.variable ⟨.ofSpelling "Total", .first⟩ .integer] ∧
    t.declare .twice = (.error e, t') ∧ t.size = 4 ∧ t'.size = 12 ∧ bytesOf t'.symbols = 4 ∧
    (t'.declare (.variable ⟨.ofSpelling "next", .first⟩ .char)).1.toOption.bind Symbol.slot? =
      some ⟨0, 12, .locals⟩ :=
  ⟨_, .duplicate (.ofSpelling "TOTAL"), _, rfl, rfl, rfl, rfl, rfl, rfl⟩

theorem Table.total_refused : ∃ t',
    ((Table.empty .locals 0).after [.variable ⟨.ofSpelling "Total", .first⟩ .integer]).declare .twice =
      (.error (.duplicate (.ofSpelling "TOTAL")), t') ∧
    t'.symbols.length = 1 ∧ t'.get? (.ofSpelling "next") = none ∧ t'.size = 12 := by
  have refused : ((Table.empty .locals 0).after [.variable ⟨.ofSpelling "Total", .first⟩ .integer]).declare
      .twice = (.error (.duplicate (.ofSpelling "TOTAL")), _) := rfl
  obtain ⟨symbols, lookups, -⟩ := Table.refusals_lose refused
  exact ⟨_, refused, congrArg List.length symbols, (lookups _).trans rfl, rfl⟩

end PascalX86
