import PascalX86.Proofs.Storage.Table
import PascalX86.Symbol.Scopes

/-!
# Scopes as a stack

Scopes are entered and left in turn, and in between names are declared and looked up. At any time
the active tables are those that have been entered and not left, each with what was declared while it
was the current one.
-/

set_option autoImplicit false

namespace PascalX86.Scopes

inductive Operation where
  | push (t : Table)
  | pop
  | declare (d : Declaration)
  | lookup (name : Name)

def step (σ : Scopes) : Operation → Scopes
  | .push t => σ.push t
  | .pop => (σ.pop?.map Prod.snd).getD σ
  | .declare d => (σ.declare d.declaring).2
  | .lookup _ => σ

def after (σ : Scopes) : List Operation → Scopes
  | [] => σ
  | o :: os => (σ.step o).after os

/-- How many scopes are open after the operations if `n` are before them. There is no answer where
one of them would leave a scope that was not open. -/
def opened : Nat → List Operation → Option Nat
  | n, [] => some n
  | n, .push _ :: os => opened (n + 1) os
  | 0, .pop :: _ => none
  | n + 1, .pop :: os => opened n os
  | n, .declare _ :: os | n, .lookup _ :: os => opened n os

/-- Operations that leave just the scopes that they enter. -/
def Balanced (os : List Operation) : Prop := opened 0 os = some 0

instance (os : List Operation) : Decidable (Balanced os) :=
  inferInstanceAs (Decidable (opened 0 os = some 0))

/-- The declarations that go to a table with `n` others inside it. -/
def own : Nat → List Operation → List Declaration
  | _, [] => []
  | n, .push _ :: os => own (n + 1) os
  | n, .pop :: os => own (n - 1) os
  | 0, .declare d :: os => d :: own 0 os
  | n + 1, .declare _ :: os => own (n + 1) os
  | n, .lookup _ :: os => own n os

/-- The tables that the operations enter and do not leave again, innermost first. -/
def pending : List Operation → List Table
  | [] => []
  | .push t :: os =>
      if (opened 0 os).isSome then pending os ++ [t.after (own 0 os)] else pending os
  | .pop :: os | .declare _ :: os | .lookup _ :: os => pending os

/-- What becomes of tables that are active before the operations, with `n` others inside the first
of them. The last one is never left. -/
def remaining (os : List Operation) : Nat → List Table → List Table
  | _, [] => []
  | n, [t] => [t.after (own n os)]
  | n, t :: u :: ts =>
      if (opened n os).isSome then t.after (own n os) :: remaining os (n + 1) (u :: ts)
      else remaining os (n + 1) (u :: ts)

section Tables

variable {σ : Scopes} {t : Table} {ts : List Table} {os : List Operation} {n m : Nat}

theorem remaining_nil (n : Nat) (ts : List Table) : remaining [] n ts = ts := by
  induction ts generalizing n with
  | nil => rfl
  | cons t ts ih =>
      cases ts with
      | nil => rfl
      | cons u ts => simp [remaining, opened, own, Table.after, ih]

/-- Operations that look alike from further outside leave the same tables there. -/
theorem remaining_congr (os os' : List Operation) (k : Nat)
    (open' : ∀ i, n ≤ i → opened i os = opened (i + k) os')
    (own' : ∀ i, n ≤ i → own i os = own (i + k) os') (ts : List Table) :
    remaining os n ts = remaining os' (n + k) ts := by
  induction ts generalizing n with
  | nil => rfl
  | cons t ts ih =>
      have rest : remaining os (n + 1) ts = remaining os' (n + k + 1) ts := by
        rw [Nat.add_right_comm]
        exact ih (fun i le => open' i (Nat.le_of_succ_le le))
          fun i le => own' i (Nat.le_of_succ_le le)
      have first := own' n (Nat.le_refl n)
      cases ts with
      | nil => simp only [remaining, first]
      | cons u ts => simp only [remaining, first, open' n (Nat.le_refl n), rest]

theorem remaining_push (t : Table) (ts : List Table) :
    remaining (.push t :: os) n ts = remaining os (n + 1) ts :=
  remaining_congr _ os 1 (fun _ _ => rfl) (fun _ _ => rfl) ts

theorem remaining_pop (ts : List Table) : remaining (.pop :: os) (n + 1) ts = remaining os n ts :=
  (remaining_congr os _ 1 (fun _ _ => rfl) (fun _ _ => rfl) ts).symm

theorem remaining_declare (d : Declaration) (ts : List Table) :
    remaining (.declare d :: os) (n + 1) ts = remaining os (n + 1) ts := by
  refine remaining_congr (n := n + 1) (.declare d :: os) os 0 (fun _ _ => rfl) (fun i le => ?_) ts
  cases i with
  | zero => exact absurd le (Nat.not_succ_le_zero n)
  | succ i => rfl

theorem remaining_lookup (name : Name) (ts : List Table) :
    remaining (.lookup name :: os) n ts = remaining os n ts :=
  remaining_congr (n := n) (.lookup name :: os) os 0 (fun _ _ => rfl) (fun _ _ => rfl) ts

theorem step_declare (σ : Scopes) (d : Declaration) :
    σ.step (.declare d) = ⟨(σ.current.declare d).2, σ.outer⟩ := rfl

/-- The active tables at any time of a run: those that it has entered, and those from before. -/
theorem tables_after (σ : Scopes) (os : List Operation) :
    (σ.after os).tables = pending os ++ remaining os 0 σ.tables := by
  induction os generalizing σ with
  | nil => simp [after, pending, remaining_nil]
  | cons o os ih =>
      have later := ih (σ.step o)
      obtain ⟨current, outer⟩ := σ
      cases o with
      | push t =>
          have kept : remaining (.push t :: os) 0 (current :: outer) =
              remaining os 1 (current :: outer) := remaining_push t _
          cases open' : (opened 0 os).isSome <;>
            simpa [after, step, tables, push, pending, remaining, open', kept] using later
      | pop =>
          cases outer with
          -- The outermost table stays.
          | nil => simpa [after, step, tables, pop?, pending, remaining, own] using later
          | cons u outer =>
              have kept : remaining (.pop :: os) 1 (u :: outer) = remaining os 0 (u :: outer) :=
                remaining_pop _
              simpa [after, step, tables, pop?, pending, remaining, opened, kept] using later
      | declare d =>
          rw [step_declare] at later
          cases outer with
          | nil =>
              simpa [after, step_declare, tables, pending, remaining, own, Table.after] using later
          | cons u outer =>
              have kept : remaining (.declare d :: os) 1 (u :: outer) =
                  remaining os 1 (u :: outer) := remaining_declare d _
              simpa [after, step_declare, tables, pending, remaining, opened, own, Table.after, kept]
                using later
      | lookup name =>
          have kept := @remaining_lookup os 0 name (tables ⟨current, outer⟩)
          simpa [after, step, pending, kept] using later

end Tables

section Nesting

variable {σ : Scopes} {t : Table} {os : List Operation} {n m : Nat}

theorem opened_add (open' : opened n os = some m) (k : Nat) : opened (n + k) os = some (m + k) := by
  induction os generalizing n with
  | nil =>
      obtain rfl : n = m := Option.some.inj open'
      rfl
  | cons o os ih =>
      cases o with
      | push t =>
          have next := ih (n := n + 1) open'
          rwa [Nat.add_right_comm] at next
      | pop =>
          cases n with
          | zero => cases open'
          | succ n =>
              rw [Nat.add_right_comm]
              exact ih (n := n) open'
      | declare d => exact ih open'
      | lookup name => exact ih open'

/-- Tables that are further outside than the operations reach get no declarations. -/
theorem own_eq_nil (open' : opened n os = some m) (k : Nat) : own (n + k + 1) os = [] := by
  induction os generalizing n with
  | nil => rfl
  | cons o os ih =>
      cases o with
      | push t =>
          have next := ih (n := n + 1) open'
          rwa [Nat.add_right_comm n 1 k] at next
      | pop =>
          cases n with
          | zero => cases open'
          | succ n =>
              have next := ih (n := n) open'
              rwa [Nat.add_right_comm] at next
      | declare d => exact ih open'
      | lookup name => exact ih open'

theorem pending_eq_nil (open' : opened n os = some 0) : pending os = [] := by
  induction os generalizing n with
  | nil => rfl
  | cons o os ih =>
      cases o with
      | push t =>
          have rest : pending os = [] := ih (n := n + 1) open'
          cases inside : opened 0 os with
          | none => simp [pending, inside, rest]
          | some m =>
              -- What stays open from the start on would also be open in the end.
              have more := opened_add inside (n + 1)
              rw [Nat.zero_add] at more
              simpa using more.symm.trans open'
      | pop =>
          cases n with
          | zero => cases open'
          | succ n => exact ih (n := n) open'
      | declare d => exact ih open'
      | lookup name => exact ih open'

theorem Balanced.remaining (balanced : Balanced os) (n : Nat) (ts : List Table) :
    remaining os (n + 1) ts = ts := by
  have kept := remaining_congr (n := n + 1) os [] 0 (fun i le => ?_) (fun i le => ?_) ts
  · rw [kept, remaining_nil]
  · have open' := opened_add balanced i
    rwa [Nat.zero_add] at open'
  · have positive : i ≠ 0 := Nat.ne_of_gt (Nat.lt_of_lt_of_le n.succ_pos le)
    obtain ⟨i, rfl⟩ := Nat.exists_eq_succ_of_ne_zero positive
    have none := own_eq_nil balanced i
    rwa [Nat.zero_add] at none

theorem eq_of_tables {first second : Scopes} (same : first.tables = second.tables) :
    first = second := by
  obtain ⟨current, outer⟩ := first
  obtain ⟨rfl, rfl⟩ := List.cons_eq_cons.mp same
  rfl

/-- Inside a scope, balanced operations only declare in its own table. -/
theorem Balanced.after_push (balanced : Balanced os) (σ : Scopes) (t : Table) :
    (σ.push t).after os = σ.push (t.after (own 0 os)) := by
  have kept : Scopes.remaining os 1 σ.tables = σ.tables := balanced.remaining 0 σ.tables
  have open' : opened 0 os = some 0 := balanced
  refine eq_of_tables ?_
  rw [tables_after, pending_eq_nil balanced]
  simp only [push, tables] at kept ⊢
  simp [Scopes.remaining, open', kept]

end Nesting

section Lookup

variable {σ : Scopes} {name : Name} {symbol : Symbol}

theorem lookup_ok_iff : σ.lookup name = .ok symbol ↔
    ∃ inner t outer, σ.tables = inner ++ t :: outer ∧ (∀ u ∈ inner, u.get? name = none) ∧
      t.get? name = some symbol := by
  have answers : σ.lookup name = .ok symbol ↔ σ.lookup? name = some symbol := by
    rw [lookup]
    cases σ.lookup? name <;> simp
  rw [answers, lookup?, List.findSome?_eq_some_iff]
  constructor
  · rintro ⟨inner, t, outer, eq, found, none⟩
    exact ⟨inner, t, outer, eq, none, found⟩
  · rintro ⟨inner, t, outer, eq, none, found⟩
    exact ⟨inner, t, outer, eq, found, none⟩

theorem lookup_error_iff {e : SemanticError} :
    σ.lookup name = .error e ↔ e = .notFound name ∧ ∀ t ∈ σ.tables, t.get? name = none := by
  rw [← List.findSome?_eq_none_iff, lookup, lookup?]
  cases σ.tables.findSome? fun t => t.get? name <;> simp [eq_comm]

end Lookup

/-- What holds of scopes at any time. -/
structure Stacked (σ : Scopes) : Prop where
  found : ∀ name symbol, σ.lookup name = .ok symbol ↔
    ∃ inner t outer, σ.tables = inner ++ t :: outer ∧ (∀ u ∈ inner, u.get? name = none) ∧
      t.get? name = some symbol
  missing : ∀ name e, σ.lookup name = .error e ↔
    e = .notFound name ∧ ∀ t ∈ σ.tables, t.get? name = none
  nested : ∀ t os, Balanced os → ((σ.push t).after os).pop? = some (t.after (own 0 os), σ)
  bottom : ∀ t, σ.tables = [t] → σ.pop? = none ∧ σ.step .pop = σ

theorem stacked (σ : Scopes) : σ.Stacked where
  found _ _ := lookup_ok_iff
  missing _ _ := lookup_error_iff
  nested t os balanced := by
    rw [balanced.after_push, pop?_push]
  bottom t single := by
    obtain ⟨current, outer⟩ := σ
    obtain ⟨rfl, rfl⟩ := List.cons_eq_cons.mp single
    exact ⟨rfl, rfl⟩

theorem outermost_eq (σ : Scopes) : σ.tables.getLast? = some σ.outermost := by
  rw [tables, outermost, List.getLast?_cons]

/-- Whatever is done with scopes, the active tables are those that were entered and not left, with
their own declarations. What is entered comes back when it is left, and nothing further outside has
changed. -/
theorem run_stacked (t : Table) (os : List Operation) :
    ((start t).after os).tables = pending os ++ [t.after (own 0 os)] ∧
      ((start t).after os).outermost = t.after (own 0 os) ∧ ((start t).after os).Stacked := by
  have active : ((start t).after os).tables = pending os ++ [t.after (own 0 os)] :=
    tables_after _ os
  have last := outermost_eq ((start t).after os)
  rw [active, List.getLast?_concat] at last
  exact ⟨active, (Option.some.inj last).symm, stacked _⟩

/-- Operations that hide a name, with a scope inside that is left again. -/
def visit : List Operation := [
  .declare (.variable ⟨.ofSpelling "x", .first⟩ .char), .push (.empty .locals 2),
  .declare (.variable ⟨.ofSpelling "y", .first⟩ .double), .pop, .lookup (.ofSpelling "y")]

theorem visit_stacked : ∃ σ symbol other, σ = (start (.empty .locals 0)).after
      [.declare (.variable ⟨.ofSpelling "x", .first⟩ .integer), .pop] ∧
    σ.lookup (.ofSpelling "X") = .ok symbol ∧ symbol.type = .integer ∧
    (σ.push ((Table.empty .locals 1).after (own 0 visit))).lookup (.ofSpelling "X") = .ok other ∧
    other.type = .char ∧ σ.lookup (.ofSpelling "y") = .error (.notFound (.ofSpelling "y")) ∧
    Balanced visit ∧ ((σ.push (.empty .locals 1)).after visit).pop? =
      some ((Table.empty .locals 1).after (own 0 visit), σ) := by
  obtain ⟨active, -, stacked⟩ := run_stacked (.empty .locals 0)
    [.declare (.variable ⟨.ofSpelling "x", .first⟩ .integer), .pop]
  refine ⟨_, _, _, rfl, rfl, rfl, rfl, rfl, ?_, by decide, stacked.nested _ visit (by decide)⟩
  rw [stacked.missing, active]
  exact ⟨rfl, List.forall_mem_singleton.mpr rfl⟩

end PascalX86.Scopes
