import PascalX86.Lowering.Operation
import PascalX86.Proofs.Machine.Word
import PascalX86.Proofs.Meaning.Tree

/-!
# Operators at run time

The instructions of an operator replace the left operand by the value of the operation, and touch
nothing but registers and flags.
-/

set_option autoImplicit false

namespace PascalX86

open Register

/-- Machines that differ in registers of operands and in flags at most. -/
structure Machine.Alike (m m' : Machine) : Prop where
  base : m'.ebp = m.ebp
  top : m'.esp = m.esp
  bytes : m'.bytes = m.bytes

namespace Operator

variable {m : Machine} {l r v : Int32}

structure Loaded (m : Machine) (l r : Int32) : Prop where
  left : m.eax = l.toBitVec
  right : m.ebx = r.toBitVec

def Computes (m : Machine) (code : Code) (v : Int32) : Prop :=
  ∃ m', m.run? code = some m' ∧ m'.eax = v.toBitVec ∧ m.Alike m'

theorem neg_truth (a : Word) (b : Bool) :
    -((a.extractLsb' 8 24 ++ (BitVec.ofBool b).zeroExtend 8 : Word).setWidth 8).setWidth 32 =
      (Value.truth b).toBitVec := by
  rw [BitVec.setWidth_append_eq_right]
  cases b <;> rfl

theorem computes_comparison {flag : Opcode} {condition : Flags.Condition}
    (loaded : Loaded m l r) (stored : flag.stored? = some condition) :
    Computes m (integerCore.comparison flag)
      (Value.truth ((Flags.ofSub l.toBitVec r.toBitVec).meets condition)) := by
  rw [← loaded.left, ← loaded.right]
  -- All comparisons share their code but for the instruction that stores the flag.
  have run : m.run? (integerCore.comparison flag) =
      ((m.setFlags (some (.ofSub m.eax m.ebx))).setTruth
        ((Flags.ofSub m.eax m.ebx).meets condition)).run?
          [.instruction .movzx [eax, al], .instruction .neg [eax]] := by
    cases flag <;> cases stored <;> rfl
  rw [Computes, run]
  exact ⟨_, rfl, neg_truth _ _, rfl, rfl, rfl⟩

theorem computes_arithmetic {op : Opcode} (f : Word → Word → Word) (loaded : Loaded m l r)
    (run : ∃ flags, m.run? [.instruction op [eax, ebx]] =
      some { m with eax := f m.eax m.ebx, flags := flags })
    (value : f l.toBitVec r.toBitVec = v.toBitVec) :
    Computes m [.instruction op [eax, ebx]] v := by
  obtain ⟨flags, run⟩ := run
  rw [loaded.left, loaded.right, value] at run
  exact ⟨_, run, rfl, rfl, rfl, rfl⟩

theorem toNat_smod (w : Word) : (w.smod 32).toNat = w.toNat % 32 := by
  have remainder := BitVec.toInt_smod (x := w) (y := 32)
  have := BitVec.toInt_eq_toNat_cond w
  have := BitVec.toInt_eq_toNat_cond (w.smod 32)
  rw [Int.fmod_eq_emod_of_nonneg _ (by decide)] at remainder
  rw [show (32 : Word).toInt = 32 from rfl] at remainder
  split at * <;> omega

theorem computes_shift {op : Opcode} (f : Word → Nat → Word) (loaded : Loaded m l r)
    (run : m.run? [.instruction .mov [ecx, ebx], .instruction op [eax, cl]] =
      some { m with eax := f m.eax (m.ebx.toNat % 32), ecx := m.ebx, flags := none })
    (value : f l.toBitVec (r.toBitVec.toNat % 32) = v.toBitVec) :
    Computes m [.instruction .mov [ecx, ebx], .instruction op [eax, cl]] v := by
  rw [loaded.left, loaded.right, value] at run
  exact ⟨_, run, rfl, rfl, rfl, rfl⟩

theorem run_division (loaded : Loaded m l r) (nonzero : r ≠ 0)
    (fits : l ≠ Int32.minValue ∨ r ≠ -1) :
    m.run? [.instruction .cdq [], .instruction .idiv [ebx]] =
      some { m with eax := (l / r).toBitVec, edx := (l % r).toBitVec, flags := none } := by
  -- Both registers together hold the left operand with its sign.
  let extended : Machine := { m with edx := if m.eax.msb then .allOnes 32 else 0 }
  have run : m.run? [.instruction .cdq [], .instruction .idiv [ebx]] =
      (extended.divide? m.ebx).bind some := rfl
  have divided := @divide?_signExtended l r extended loaded.left rfl nonzero fits
  rw [← loaded.right] at divided
  rw [run, divided]
  rfl

theorem of_result?_divides {op : Operator} (divides : op.divides = true)
    (applied : op.result? l r = some v) :
    op.onIntegers? l r = some v ∧ (l ≠ Int32.minValue ∨ r ≠ -1) := by
  rw [result?_eq] at applied
  by_cases least : l = Int32.minValue
  · by_cases minus : r = -1
    · rw [if_pos ⟨divides, least, minus⟩] at applied
      cases applied
    · rw [if_neg fun h => minus h.2.2] at applied
      exact ⟨applied, .inr minus⟩
  · rw [if_neg fun h => least h.2.1] at applied
    exact ⟨applied, .inl least⟩

theorem computes_quotient (loaded : Loaded m l r) (value : (if r = 0 then none else some (l / r)) = some v)
    (fits : l ≠ Int32.minValue ∨ r ≠ -1) :
    Computes m [.instruction .cdq [], .instruction .idiv [ebx]] v := by
  by_cases zero : r = 0
  · rw [if_pos zero] at value
    cases value
  · rw [if_neg zero, Option.some.injEq] at value
    subst value
    exact ⟨_, run_division loaded zero fits, rfl, rfl, rfl, rfl⟩

theorem computes_remainder (loaded : Loaded m l r) (value : (if r = 0 then none else some (l % r)) = some v)
    (fits : l ≠ Int32.minValue ∨ r ≠ -1) :
    Computes m ([.instruction .cdq [], .instruction .idiv [ebx]] ++ [.instruction .mov [eax, edx]]) v := by
  by_cases zero : r = 0
  · rw [if_pos zero] at value
    cases value
  · rw [if_neg zero, Option.some.injEq] at value
    subst value
    rw [Computes, Machine.run?_append, run_division loaded zero fits]
    exact ⟨_, rfl, rfl, rfl, rfl, rfl⟩

theorem computes_integerCore (op : Operator) (loaded : Loaded m l r)
    (applied : op.result? l r = some v) : Computes m op.integerCore v := by
  cases op with
  | add =>
      cases applied
      exact computes_arithmetic (· + ·) loaded ⟨_, rfl⟩ rfl
  | sub =>
      cases applied
      exact computes_arithmetic (· - ·) loaded ⟨_, rfl⟩ rfl
  | mul =>
      cases applied
      exact computes_arithmetic (· * ·) loaded ⟨_, rfl⟩ rfl
  | and =>
      cases applied
      exact computes_arithmetic (· &&& ·) loaded ⟨_, rfl⟩ rfl
  | or =>
      cases applied
      exact computes_arithmetic (· ||| ·) loaded ⟨_, rfl⟩ rfl
  | xor =>
      cases applied
      exact computes_arithmetic (· ^^^ ·) loaded ⟨_, rfl⟩ rfl
  | divide =>
      obtain ⟨value, fits⟩ := of_result?_divides rfl applied
      exact computes_quotient loaded value fits
  | div =>
      obtain ⟨value, fits⟩ := of_result?_divides rfl applied
      exact computes_quotient loaded value fits
  | mod =>
      obtain ⟨value, fits⟩ := of_result?_divides rfl applied
      exact computes_remainder loaded value fits
  | shl =>
      cases applied
      -- The count is negative for some words, and yet its low bits are what both take.
      refine computes_shift (· <<< ·) loaded rfl ?_
      rw [← toNat_smod]
      rfl
  | shr =>
      cases applied
      exact computes_shift (· >>> ·) loaded rfl rfl
  | equal =>
      cases applied
      rw [← Flags.meets_equal]
      exact computes_comparison loaded rfl
  | notEqual =>
      cases applied
      rw [← Flags.meets_notEqual]
      exact computes_comparison loaded rfl
  | less =>
      cases applied
      rw [← Flags.meets_less]
      exact computes_comparison loaded rfl
  | lessOrEqual =>
      cases applied
      rw [← Flags.meets_lessOrEqual]
      exact computes_comparison loaded rfl
  | greater =>
      cases applied
      rw [← Flags.meets_greater]
      exact computes_comparison loaded rfl
  | greaterOrEqual =>
      cases applied
      rw [← Flags.meets_greaterOrEqual]
      exact computes_comparison loaded rfl

end Operator

end PascalX86
