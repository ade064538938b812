import PascalX86.Operator.Evaluation
import PascalX86.Proofs.Machine.Basic

/-!
# Words of the machine

Dwords in memory, comparisons read from flags, and divisions of sign-extended words.
-/

set_option autoImplicit false

namespace PascalX86

namespace Bytes

variable {b : Bytes} {a c v : Word}

theorem set_add {k : Word} (small : k.toNat < 4) :
    b.set a v (a + k) = v.extractLsb' (8 * k.toNat) 8 := by
  -- Addresses may wrap around, but their differences do not change by that.
  have offset : a + k - a = k := by bv_omega
  rw [set, offset, if_pos small]

theorem dword_set_self : (b.set a v).dword a = v := by
  have low : b.set a v a = v.extractLsb' 0 8 := by simp [set]
  rw [dword, set_add (by decide), set_add (by decide), set_add (by decide), low]
  rw [BitVec.extractLsb'_append_extractLsb'_eq_extractLsb' (by decide)]
  rw [BitVec.extractLsb'_append_extractLsb'_eq_extractLsb' (by decide)]
  rw [BitVec.extractLsb'_append_extractLsb'_eq_extractLsb' (by decide)]
  exact BitVec.extractLsb'_eq_self

/-- Neither dword reaches into the other one, also not around the end of memory. -/
def Apart (a c : Word) : Prop := 4 ≤ (a - c).toNat ∧ (a - c).toNat ≤ 2 ^ 32 - 4

theorem set_apart {k : Word} (apart : Apart a c) (small : k.toNat < 4) :
    b.set c v (a + k) = b (a + k) := by
  obtain ⟨after, before⟩ := apart
  have outside : ¬ (a + k - c).toNat < 4 := by bv_omega
  rw [set, if_neg outside]

theorem dword_set_apart (apart : Apart a c) : (b.set c v).dword a = b.dword a := by
  have low : b.set c v (a + 0) = b (a + 0) := set_apart apart (by decide)
  rw [show a + 0 = a by bv_omega] at low
  rw [dword, dword, set_apart apart (by decide), set_apart apart (by decide),
    set_apart apart (by decide), low]

end Bytes

namespace Flags

variable {l r : Int32}

theorem meets_equal : (ofSub l.toBitVec r.toBitVec).meets .equal = (l == r) := by
  rw [Bool.eq_iff_iff, beq_iff_eq, ← Int32.toBitVec_inj]
  simp only [meets, ofSub, decide_eq_true_iff]
  constructor
  · intro h
    bv_omega
  · intro h
    bv_omega

/-- The sign of a difference is right unless it overflows, and then it is wrong. -/
theorem meets_less : (ofSub l.toBitVec r.toBitVec).meets .less = decide (l < r) := by
  have least := BitVec.le_two_mul_toInt (x := l.toBitVec)
  have greatest := BitVec.two_mul_toInt_lt (x := l.toBitVec)
  have least' := BitVec.le_two_mul_toInt (x := r.toBitVec)
  have greatest' := BitVec.two_mul_toInt_lt (x := r.toBitVec)
  have sign : (l.toBitVec - r.toBitVec).msb =
      decide ((l.toBitVec.toInt - r.toBitVec.toInt).bmod (2 ^ 32) < 0) := by
    rw [BitVec.msb_eq_toInt, BitVec.toInt_sub]
  rw [Bool.eq_iff_iff, decide_eq_true_iff, Int32.lt_iff_toBitVec_slt, BitVec.slt_iff_toInt_lt]
  simp only [meets, ofSub, sign, BitVec.ssubOverflow, Int.bmod]
  -- What is left is a statement about two integers within bounds.
  generalize l.toBitVec.toInt = x at *
  generalize r.toBitVec.toInt = y at *
  grind

theorem meets_notEqual : (ofSub l.toBitVec r.toBitVec).meets .notEqual = (l != r) := by
  rw [bne, ← meets_equal]
  rfl

theorem meets_lessOrEqual : (ofSub l.toBitVec r.toBitVec).meets .lessOrEqual = decide (l ≤ r) := by
  have split : (ofSub l.toBitVec r.toBitVec).meets .lessOrEqual = ((l == r) || decide (l < r)) := by
    rw [← meets_equal, ← meets_less]
    rfl
  rw [split, Bool.eq_iff_iff]
  simp only [Bool.or_eq_true, beq_iff_eq, decide_eq_true_iff]
  rw [Int32.le_iff_lt_or_eq]
  exact or_comm

theorem meets_greater : (ofSub l.toBitVec r.toBitVec).meets .greater = decide (r < l) := by
  have opposite : (ofSub l.toBitVec r.toBitVec).meets .greater = !decide (l ≤ r) := by
    rw [← meets_lessOrEqual]
    rfl
  rw [opposite, ← decide_not, decide_eq_decide]
  exact Int32.not_le

theorem meets_greaterOrEqual :
    (ofSub l.toBitVec r.toBitVec).meets .greaterOrEqual = decide (r ≤ l) := by
  have opposite : (ofSub l.toBitVec r.toBitVec).meets .greaterOrEqual = !decide (l < r) := by
    rw [← meets_less]
    simp only [meets, bne, Bool.not_not]
  rw [opposite, ← decide_not, decide_eq_decide]
  exact Int32.not_lt

end Flags

section Division

variable {l r : Int32}

theorem toInt_signExtended (w : Word) :
    ((if w.msb then BitVec.allOnes 32 else 0) ++ w : BitVec 64).toInt = w.toInt := by
  have extended : w.signExtend 64 = ((if w.msb then BitVec.allOnes 32 else 0) ++ w : BitVec 64) :=
    BitVec.signExtend_eq_append_of_le (by decide)
  rw [← extended, BitVec.toInt_signExtend_of_le (by decide)]

theorem divide?_signExtended {m : Machine} (left : m.eax = l.toBitVec)
    (extended : m.edx = if m.eax.msb then .allOnes 32 else 0) (nonzero : r ≠ 0)
    (fits : l ≠ Int32.minValue ∨ r ≠ -1) :
    m.divide? r.toBitVec =
      some { m with eax := (l / r).toBitVec, edx := (l % r).toBitVec, flags := none } := by
  have dividend : (m.edx ++ m.eax).toInt = l.toBitVec.toInt := by
    rw [extended, toInt_signExtended, left]
  have apart : l.toBitVec ≠ .intMin 32 ∨ r.toBitVec ≠ -1 := by
    rcases fits with h | h
    · left
      intro h'
      exact h (Int32.toBitVec_inj.mp h')
    · right
      intro h'
      exact h (Int32.toBitVec_inj.mp h')
  have quotient : l.toBitVec.toInt.tdiv r.toBitVec.toInt = (l / r).toBitVec.toInt := by
    rw [Int32.toBitVec_div, BitVec.toInt_sdiv_of_ne_or_ne _ _ apart]
  have remainder : l.toBitVec.toInt.tmod r.toBitVec.toInt = (l % r).toBitVec.toInt := by
    rw [Int32.toBitVec_mod, BitVec.toInt_srem]
  have divisor : r.toBitVec ≠ 0 := by
    intro h
    exact nonzero (Int32.toBitVec_inj.mp h)
  have least := BitVec.le_two_mul_toInt (x := (l / r).toBitVec)
  have greatest := BitVec.two_mul_toInt_lt (x := (l / r).toBitVec)
  have representable : ¬ (r.toBitVec = 0 ∨ (l / r).toBitVec.toInt < -2 ^ 31 ∨
      2 ^ 31 ≤ (l / r).toBitVec.toInt) := by
    rintro (h | h | h)
    · exact divisor h
    · omega
    · omega
  unfold Machine.divide?
  rw [dividend]
  simp only [quotient, remainder, if_neg representable, BitVec.ofInt_toInt]

end Division

end PascalX86
