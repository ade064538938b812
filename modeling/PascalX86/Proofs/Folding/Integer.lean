import PascalX86.Proofs.Simulation.Operation

/-!
# Folding of integer operations

The instructions of an operator leave the value that folding finds, and they fault where folding finds
a division by zero. They also fault where a quotient does not fit, which folding wraps around.
-/

set_option autoImplicit false

namespace PascalX86

open Register

namespace Operator

/-- Both operands on the stack, the right one on top. -/
structure Operands (m : Machine) (l r : Int32) : Prop where
  right : m.bytes.dword m.esp = r.toBitVec
  left : m.bytes.dword (m.esp + 4) = l.toBitVec

/-- The value stands in place of the operands, and nothing else in memory has changed. -/
structure Replaces (m m' : Machine) (v : Int32) : Prop where
  top : m'.esp = m.esp + 4
  value : m'.bytes.dword m'.esp = v.toBitVec
  base : m'.ebp = m.ebp
  rest : ∀ a : Word, 4 ≤ (a - m'.esp).toNat → m'.bytes a = m.bytes a

/-- The one division of each kind that has no quotient in 32 bits. -/
def Overflows (op : Operator) (l r : Int32) : Prop := op.divides ∧ l = Int32.minValue ∧ r = -1

variable {op : Operator} {m m' : Machine} {l r v : Int32}

theorem eval_integers (op : Operator) (l r : Int32) :
    op.eval .integer (.integer l) (.integer r) =
      match op.onIntegers? l r with
      | some n => .ok (.integer n)
      | none => .error .divisionByZero :=
  rfl

theorem onIntegers?_eq_none_iff : op.onIntegers? l r = none ↔ op.divides = true ∧ r = 0 := by
  cases op <;> simp [onIntegers?, divides]

theorem eval_eq_divisionByZero_iff :
    op.eval .integer (.integer l) (.integer r) = .error .divisionByZero ↔
      op.divides = true ∧ r = 0 := by
  rw [← @onIntegers?_eq_none_iff op l r, eval_integers]
  cases op.onIntegers? l r <;> simp

theorem Overflows.eval (overflows : op.Overflows l r) :
    op.eval .integer (.integer l) (.integer r) =
      .ok (.integer (if op = .mod then 0 else Int32.minValue)) := by
  obtain ⟨divides, rfl, rfl⟩ := overflows
  cases op <;> first | rfl | cases divides

theorem result?_of_eval (evaluated : op.eval .integer (.integer l) (.integer r) = .ok (.integer v))
    (fits : ¬ op.Overflows l r) : op.result? l r = some v := by
  have fits : ¬ (op.divides ∧ l = Int32.minValue ∧ r = -1) := fits
  rw [result?, if_neg fits, evaluated]
  rfl

/-- There is no quotient for a zero divisor, nor for the least integer and -1. -/
theorem run_division_eq_none (loaded : Loaded m l r) (undefined : r = 0 ∨ l = Int32.minValue ∧ r = -1) :
    m.run? [.instruction .cdq [], .instruction .idiv [ebx]] = none := by
  let extended : Machine := { m with edx := if m.eax.msb then .allOnes 32 else 0 }
  have run : m.run? [.instruction .cdq [], .instruction .idiv [ebx]] =
      (extended.divide? m.ebx).bind some := rfl
  have faults : extended.divide? m.ebx = none := by
    rcases undefined with rfl | ⟨rfl, rfl⟩
    · rw [loaded.right, Machine.divide?]
      exact if_pos (Or.inl rfl)
    · have dividend : (extended.edx ++ extended.eax).toInt = Int32.minValue.toBitVec.toInt := by
        rw [← loaded.left]
        exact toInt_signExtended m.eax
      rw [loaded.right, Machine.divide?, dividend]
      exact if_pos (Or.inr (Or.inr (by decide)))
  rw [run, faults]
  rfl

theorem run_integerCore_eq_none (loaded : Loaded m l r) (divides : op.divides = true)
    (undefined : r = 0 ∨ l = Int32.minValue ∧ r = -1) : m.run? op.integerCore = none := by
  have faults := run_division_eq_none loaded undefined
  cases op with
  | divide | div => exact faults
  | mod =>
      rw [show integerCore .mod = [.instruction .cdq [], .instruction .idiv [ebx]] ++
        [.instruction .mov [eax, edx]] from rfl, Machine.run?_append, faults]
      rfl
  | _ => cases divides

/-- The operands are popped, the right one first. -/
theorem run_operands (operands : Operands m l r) :
    ∃ m₁, m.run? [.instruction .pop [ebx], .instruction .pop [eax]] = some m₁ ∧ Loaded m₁ l r ∧
      m₁.esp = m.esp + 4 + 4 ∧ m₁.ebp = m.ebp ∧ m₁.bytes = m.bytes :=
  ⟨_, rfl, ⟨operands.left, operands.right⟩, rfl, rfl, rfl⟩

theorem run_integerCode (operands : Operands m l r) (applied : op.result? l r = some v) :
    ∃ m', m.run? op.integerCode = some m' ∧ Replaces m m' v := by
  obtain ⟨m₁, popped, loaded, top, base, bytes⟩ := run_operands operands
  obtain ⟨m₂, computed, result, alike⟩ := op.computes_integerCore loaded applied
  have run : m.run? op.integerCode = some (m₂.push v.toBitVec) := by
    rw [integerCode, Machine.run?_append_of_eq (Machine.run?_append_of_eq popped _ ▸ computed),
      ← result]
    rfl
  have lower : m₂.esp - 4 = m.esp + 4 := by
    rw [alike.top, top]
    bv_omega
  refine ⟨_, run, lower, Bytes.dword_set_self, alike.base.trans base, fun a outside => ?_⟩
  have unchanged : m₂.bytes a = m.bytes a := by rw [alike.bytes, bytes]
  rw [← unchanged]
  exact if_neg (Nat.not_lt.mpr outside)

theorem run_integerCode_eq_none (operands : Operands m l r) (divides : op.divides = true)
    (undefined : r = 0 ∨ l = Int32.minValue ∧ r = -1) : m.run? op.integerCode = none := by
  obtain ⟨m₁, popped, loaded, -⟩ := run_operands operands
  have core := run_integerCore_eq_none loaded divides undefined
  rw [integerCode, Machine.run?_append, Machine.run?_append_of_eq popped, core]
  rfl

/-- Whatever 32-bit operands are on the stack, the instructions of an operator leave the value that
the operation is folded to, and they fault where it is a division by zero. Only the quotient of the
least integer and -1 is folded to a value, wrapped around, and yet faults at run time. -/
theorem folding_agrees (op : Operator) {m : Machine} {l r : Int32} (operands : Operands m l r) :
    (op.Overflows l r → op.eval .integer (.integer l) (.integer r) =
      .ok (.integer (if op = .mod then 0 else Int32.minValue))) ∧
    (m.run? op.integerCode = none ↔
      op.eval .integer (.integer l) (.integer r) = .error .divisionByZero ∨ op.Overflows l r) ∧
    ∀ m', m.run? op.integerCode = some m' → ∃ v,
      op.eval .integer (.integer l) (.integer r) = .ok (.integer v) ∧ Replaces m m' v := by
  have faults : op.eval .integer (.integer l) (.integer r) = .error .divisionByZero ∨
      op.Overflows l r → m.run? op.integerCode = none := by
    rintro (zero | ⟨divides, overflow⟩)
    · obtain ⟨divides, zero⟩ := eval_eq_divisionByZero_iff.mp zero
      exact run_integerCode_eq_none operands divides (.inl zero)
    · exact run_integerCode_eq_none operands divides (.inr overflow)
  have computes (fits : ¬ op.Overflows l r)
      (divisor : op.eval .integer (.integer l) (.integer r) ≠ .error .divisionByZero) : ∃ v m',
        op.eval .integer (.integer l) (.integer r) = .ok (.integer v) ∧
          m.run? op.integerCode = some m' ∧ Replaces m m' v := by
    rw [eval_integers] at divisor
    cases answer : op.onIntegers? l r with
    | none => exact absurd (by rw [answer]) divisor
    | some v =>
        have evaluated : op.eval .integer (.integer l) (.integer r) = .ok (.integer v) := by
          rw [eval_integers, answer]
        obtain ⟨m', run, replaces⟩ := run_integerCode operands (result?_of_eval evaluated fits)
        exact ⟨v, m', evaluated, run, replaces⟩
  refine ⟨Overflows.eval, ⟨fun faulty => ?_, faults⟩, fun m' run => ?_⟩
  · by_contra other
    rw [not_or] at other
    obtain ⟨v, m', -, run, -⟩ := computes other.2 other.1
    rw [faulty] at run
    cases run
  · have other : ¬ (op.eval .integer (.integer l) (.integer r) = .error .divisionByZero ∨
        op.Overflows l r) := by
      intro h
      rw [faults h] at run
      cases run
    rw [not_or] at other
    obtain ⟨v, m'', evaluated, run', replaces⟩ := computes other.2 other.1
    obtain rfl : m'' = m' := Option.some.inj (run'.symm.trans run)
    exact ⟨v, evaluated, replaces⟩

/-- A machine that has pushed two operands. -/
def loadedWith (l r : Int32) : Machine :=
  ((⟨0, 0, 0, 0, 0, 8192, 4096, none, fun _ => 0, 12288⟩ : Machine).push l.toBitVec).push r.toBitVec

theorem operands_loadedWith (l r : Int32) : Operands (loadedWith l r) l r where
  right := Bytes.dword_set_self
  left := by
    have apart : Bytes.Apart (4096 - 4 - 4 + 4 : Word) (4096 - 4 - 4) := ⟨by decide, by decide⟩
    refine (Bytes.dword_set_apart apart).trans ?_
    exact Bytes.dword_set_self

/-- A remainder has the sign of the dividend, folded and computed. -/
theorem negative_remainder_agrees : Operands (loadedWith (-7) 2) (-7) 2 ∧ ∃ m',
    (loadedWith (-7) 2).run? (integerCode .mod) = some m' ∧
      eval .mod .integer (.integer (-7)) (.integer 2) = .ok (.integer (-1)) ∧
        Replaces (loadedWith (-7) 2) m' (-1) := by
  have operands := operands_loadedWith (-7) 2
  obtain ⟨-, faults, computes⟩ := folding_agrees .mod operands
  have evaluated : eval .mod .integer (.integer (-7)) (.integer 2) = .ok (.integer (-1)) := rfl
  cases run : (loadedWith (-7) 2).run? (integerCode .mod) with
  | none =>
      rcases faults.mp run with zero | ⟨-, least, -⟩
      · rw [evaluated] at zero
        cases zero
      · exact absurd least (by decide)
  | some m' =>
      obtain ⟨v, folded, replaces⟩ := computes m' run
      rw [evaluated] at folded
      cases folded
      exact ⟨operands, m', rfl, evaluated, replaces⟩

/-- Dividing the least integer by -1 faults, although folding finds no division by zero. -/
theorem least_quotient_disagrees : ¬ ∀ (op : Operator) (m : Machine) (l r : Int32), Operands m l r →
    (m.run? op.integerCode = none ↔
      op.eval .integer (.integer l) (.integer r) = .error .divisionByZero) ∧
    ∀ v, op.eval .integer (.integer l) (.integer r) = .ok (.integer v) →
      ∃ m', m.run? op.integerCode = some m' ∧ Replaces m m' v := by
  intro agrees
  have operands := operands_loadedWith Int32.minValue (-1)
  have faults := @run_integerCode_eq_none .div _ _ _ operands rfl (.inr ⟨rfl, rfl⟩)
  obtain ⟨m', run, -⟩ := (agrees .div _ _ _ operands).2 Int32.minValue rfl
  rw [faults] at run
  cases run

end Operator

end PascalX86
