import PascalX86.Proofs.Folding.Integer

/-!
# Folding as arithmetic

What operators compute on integers without bounds. Folding brings the result back into 32 bits, and
apart from that computes nothing else.
-/

set_option autoImplicit false

namespace PascalX86

namespace Operator

/-- The unsigned word with the low 32 bits of a number. -/
def word (z : Int) : Nat := (z % 4294967296).toNat

def truth (P : Prop) [Decidable P] : Int := if P then -1 else 0

/-- Quotients round towards zero, and remainders have the sign of the dividend. Shift counts are
taken modulo 32, and what is shifted to the right counts as unsigned. -/
def onNumbers (op : Operator) (l r : Int) : Int :=
  match op with
  | .add => l + r
  | .sub => l - r
  | .mul => l * r
  | .divide | .div => l.tdiv r
  | .mod => l.tmod r
  | .and => (word l &&& word r : Nat)
  | .or => (word l ||| word r : Nat)
  | .xor => (word l ^^^ word r : Nat)
  | .shl => l * 2 ^ (word r % 32)
  | .shr => (word l / 2 ^ (word r % 32) : Nat)
  | .equal => truth (l = r)
  | .notEqual => truth (l ≠ r)
  | .less => truth (l < r)
  | .lessOrEqual => truth (l ≤ r)
  | .greater => truth (r < l)
  | .greaterOrEqual => truth (r ≤ l)

variable {op : Operator} {l r v : Int32}

theorem word_toInt (n : Int32) : word n.toInt = n.toBitVec.toNat := by
  have value := BitVec.toInt_eq_toNat_cond n.toBitVec
  have small := n.toBitVec.isLt
  rw [Int32.toInt_toBitVec] at value
  rw [word]
  split at value <;> omega

theorem eq_ofInt_of_toNat {n : Int32} {k : Nat} (h : n.toBitVec.toNat = k % 4294967296) :
    n = Int32.ofInt k := by
  apply Int32.toBitVec_inj.mp
  apply BitVec.eq_of_toNat_eq
  rw [h, Int32.toBitVec_ofInt, BitVec.toNat_ofInt]
  omega

theorem truth_eq {P : Prop} [Decidable P] {b : Bool} (h : b = true ↔ P) :
    Value.truth b = Int32.ofInt (truth P) := by
  by_cases holds : P
  · rw [h.mpr holds, truth, if_pos holds]
    rfl
  · have no : b = false := by simpa [holds] using h
    rw [no, truth, if_neg holds]
    rfl

theorem truth_decide (P : Prop) [Decidable P] :
    Value.truth (decide P) = Int32.ofInt (truth P) :=
  truth_eq decide_eq_true_iff

theorem mod_eq_ofInt (l r : Int32) : l % r = Int32.ofInt (l.toInt.tmod r.toInt) := by
  rw [← Int32.toInt_mod, Int32.ofInt_toInt]

theorem shl_eq_ofInt (l r : Int32) :
    l <<< r = Int32.ofInt (l.toInt * 2 ^ (word r.toInt % 32)) := by
  refine ((Int32.ofInt_eq_iff_bmod_eq_toInt _ _).mpr ?_).symm
  have value : l.toInt = (l.toBitVec.toNat : Int).bmod (2 ^ 32) := BitVec.toInt_eq_toNat_bmod _
  have shifted : (l <<< r).toInt =
      ((l.toBitVec.toNat <<< (r.toBitVec.toNat % 32) : Nat) : Int).bmod (2 ^ 32) := by
    rw [← toNat_smod, ← BitVec.toInt_shiftLeft, ← BitVec.shiftLeft_eq', ← Int32.toBitVec_shiftLeft]
    rfl
  rw [shifted, word_toInt, value, Int.bmod_mul_bmod, Nat.shiftLeft_eq]
  push_cast
  rfl

theorem shr_eq_ofInt (l r : Int32) :
    (l.toUInt32 >>> r.toUInt32).toInt32 =
      Int32.ofInt (word l.toInt / 2 ^ (word r.toInt % 32) : Nat) := by
  have small := l.toBitVec.isLt
  apply eq_ofInt_of_toNat
  have shifted : (l.toUInt32 >>> r.toUInt32).toInt32.toBitVec.toNat =
      l.toBitVec.toNat >>> (r.toBitVec.toNat % 32) :=
    UInt32.toNat_shiftRight l.toUInt32 r.toUInt32
  rw [shifted, word_toInt, word_toInt, Nat.shiftRight_eq_div_pow]
  exact (Nat.mod_eq_of_lt (Nat.lt_of_le_of_lt (Nat.div_le_self _ _) small)).symm

theorem onIntegers?_eq (op : Operator) (l r : Int32) :
    op.onIntegers? l r = if op.divides = true ∧ r = 0 then none else
      some (Int32.ofInt (op.onNumbers l.toInt r.toInt)) := by
  cases op with
  | add | sub | mul => simp [onIntegers?, onNumbers, divides]
  | divide | div =>
      have quotient := (Int32.ofInt_eq_iff_bmod_eq_toInt _ _).mpr (Int32.toInt_div l r).symm
      simp [onIntegers?, onNumbers, divides, quotient]
  | mod => simp [onIntegers?, onNumbers, divides, mod_eq_ofInt]
  | and =>
      have both : (l &&& r) = Int32.ofInt (word l.toInt &&& word r.toInt : Nat) := by
        apply eq_ofInt_of_toNat
        rw [word_toInt, word_toInt, Int32.toBitVec_and, BitVec.toNat_and]
        exact (Nat.mod_eq_of_lt (Nat.and_lt_two_pow _ r.toBitVec.isLt)).symm
      simp [onIntegers?, onNumbers, divides, both]
  | or =>
      have either : (l ||| r) = Int32.ofInt (word l.toInt ||| word r.toInt : Nat) := by
        apply eq_ofInt_of_toNat
        rw [word_toInt, word_toInt, Int32.toBitVec_or, BitVec.toNat_or]
        exact (Nat.mod_eq_of_lt (Nat.or_lt_two_pow l.toBitVec.isLt r.toBitVec.isLt)).symm
      simp [onIntegers?, onNumbers, divides, either]
  | xor =>
      have one : (l ^^^ r) = Int32.ofInt (word l.toInt ^^^ word r.toInt : Nat) := by
        apply eq_ofInt_of_toNat
        rw [word_toInt, word_toInt, Int32.toBitVec_xor, BitVec.toNat_xor]
        exact (Nat.mod_eq_of_lt (Nat.xor_lt_two_pow l.toBitVec.isLt r.toBitVec.isLt)).symm
      simp [onIntegers?, onNumbers, divides, one]
  | shl => simp [onIntegers?, onNumbers, divides, shl_eq_ofInt]
  | shr => simp [onIntegers?, onNumbers, divides, shr_eq_ofInt]
  | equal =>
      have same : (l == r) = true ↔ l.toInt = r.toInt := by rw [beq_iff_eq, Int32.toInt_inj]
      simp [onIntegers?, onNumbers, divides, truth_eq same]
  | notEqual =>
      have other : (l != r) = true ↔ l.toInt ≠ r.toInt := by
        rw [bne_iff_ne, Ne, Ne, Int32.toInt_inj]
      simp [onIntegers?, onNumbers, divides, truth_eq other]
  | less | greater => simp [onIntegers?, onNumbers, divides, truth_decide, Int32.lt_iff_toInt_lt]
  | lessOrEqual | greaterOrEqual =>
      simp [onIntegers?, onNumbers, divides, truth_decide, Int32.le_iff_toInt_le]

end Operator

end PascalX86
