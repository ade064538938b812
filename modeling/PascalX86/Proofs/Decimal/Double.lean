import Mathlib
import PascalX86.Decimal.Notation

/-!
# Doubles and their parts

Comparison of doubles either way round, the exact double of a small integer, and the sign of a decimal
that is read: what the model of doubles says of sign, mantissa and exponent.
-/

set_option autoImplicit false

namespace PascalX86.Decimal

open Float.Model UnpackedFloat

section Comparison

/-- The mantissas and exponents of two finite numbers are compared one way round. -/
theorem compare_swap (a b : UnpackedFloat) :
    b.compare a = (a.compare b).map Ordering.swap := by
  have flipped (m n : Nat) (e f : Int) : (compare e f).then (compare m n) =
      ((compare f e).then (compare n m)).swap := by
    rw [Ordering.swap_then, Int.compare_swap, Nat.compare_swap]
  rcases a with (_ | _) | _ | (_ | _) | ⟨_ | _, m, e, _⟩ <;>
  rcases b with (_ | _) | _ | (_ | _) | ⟨_ | _, n, f, _⟩ <;>
    simp only [UnpackedFloat.compare, Option.map] <;> first | rfl | rw [flipped]

theorem lt_iff (a b : Float) : a < b ↔ a.toModel.compare b.toModel = some .lt := by
  change decide (a.toModel < b.toModel) = true ↔ _
  rw [decide_eq_true_iff]
  change (a.toModel.compare b.toModel == some .lt) = true ↔ _
  rw [beq_iff_eq]

theorem beq_iff (a b : Float) : (a == b) = true ↔ a.toModel.compare b.toModel = some .eq := by
  change (a.toModel.compare b.toModel == some .eq) = true ↔ _
  rw [beq_iff_eq]

theorem compare_eq_none_iff {a b : Float} :
    a.toModel.compare b.toModel = none ↔ a.isNaN = true ∨ b.isNaN = true := by
  change a.toModel.unpack.compare b.toModel.unpack = none ↔
    a.toModel.unpack.isNaN = true ∨ b.toModel.unpack.isNaN = true
  rcases a.toModel.unpack with (_ | _) | _ | (_ | _) | ⟨_ | _, m, e, _⟩ <;>
  rcases b.toModel.unpack with (_ | _) | _ | (_ | _) | ⟨_ | _, n, f, _⟩ <;>
    simp [UnpackedFloat.compare, UnpackedFloat.isNaN]

end Comparison

section Packing

theorem log2_bounds {m k : Nat} (pos : 0 < m) (size : m.log2 = k) : 2 ^ k ≤ m ∧ m < 2 ^ (k + 1) :=
  (Nat.log2_eq_iff (by omega)).mp size

/-- A number with all its significant bits is packed and found again. -/
theorem unpack_pack {s : Sign} {m : Nat} {e : Int} (pos : 0 < m) (size : m.log2 = 52)
    (least : -1074 ≤ e) (most : e ≤ 971) :
    (pack (.finite s m e pos)).unpack = .finite s m e pos := by
  obtain ⟨low, high⟩ := log2_bounds pos size
  have bias : Format.binary64.exponentBias = 1023 := rfl
  have bits : Format.binary64.mantissaBits = 53 := rfl
  have packed : UnpackedFloat.pack Format.binary64 (.finite s m e pos) =
      packComponents Format.binary64 s (BitVec.ofNat _ (e + 1075).toNat) (BitVec.ofNat _ m) := by
    simp only [UnpackedFloat.pack, size, bias, bits]
    rw [if_neg (by omega), if_pos True.intro]
    congr 3
    omega
  have biased : (BitVec.ofNat 11 (e + 1075).toNat).toNat = (e + 1075).toNat := by
    rw [BitVec.toNat_ofNat, Nat.mod_eq_of_lt (by omega)]
  have inner (b : BitVec 11) (h : b.toNat = 0 ∨ b.toNat = 2047) :
      BitVec.ofNat 11 (e + 1075).toNat ≠ b := by
    rintro rfl
    omega
  change UnpackedFloat.unpack Format.binary64 (UnpackedFloat.pack Format.binary64 _) = _
  rw [packed, UnpackedFloat.unpack]
  simp only [unpackSign_packComponents, unpackExponent_packComponents, unpackMantissa_packComponents,
    Sign.ofBitVec_toBitVec]
  rw [if_neg (inner (-1#11) (.inr rfl)), if_neg (inner (0#11) (.inl rfl))]
  congr 1
  · rw [BitVec.toNat_append, BitVec.toNat_ofNat]
    have := Nat.shiftLeft_add_eq_or_of_lt (Nat.mod_lt m (show 0 < 2 ^ 52 by omega)) 1
    change 1 <<< 52 ||| m % 2 ^ 52 = m
    rw [← this]
    omega
  · rw [biased, bias]
    omega

end Packing

section Rounding

/-- Exact bits that are shifted out one by one leave nothing behind. -/
theorem shiftRight_exact (m k : Nat) :
    (⟨m * 2 ^ k, false, false⟩ : ExtendedMantissa) >>> k = ⟨m, false, false⟩ := by
  change k.repeat ExtendedMantissa.shiftRightOne _ = _
  induction k generalizing m with
  | zero => rw [Nat.pow_zero, Nat.mul_one]; rfl
  | succ k ih =>
      have peeled : k.repeat ExtendedMantissa.shiftRightOne ⟨m * 2 ^ (k + 1), false, false⟩ =
          ⟨m * 2, false, false⟩ := by
        rw [Nat.pow_succ', ← Nat.mul_assoc]
        exact ih (m * 2)
      rw [Nat.repeat, peeled]
      simp [ExtendedMantissa.shiftRightOne]

theorem log2_mul_two_pow {m : Nat} (pos : 0 < m) (k : Nat) : (m * 2 ^ k).log2 = m.log2 + k := by
  induction k with
  | zero => rw [Nat.pow_zero, Nat.mul_one, Nat.add_zero]
  | succ k ih =>
      have nonzero : m * 2 ^ k ≠ 0 := Nat.ne_of_gt (Nat.mul_pos pos (Nat.two_pow_pos k))
      rw [Nat.pow_succ, ← Nat.mul_assoc, Nat.mul_comm _ 2, Nat.log2_two_mul nonzero, ih, Nat.add_assoc]

theorem targetExponent_binary64 (total : Int) :
    Format.binary64.targetExponent total = max (total - 53) (-1074) := rfl

theorem shiftToTargetExponent_exact {m k : Nat} {e : Int} (pos : 0 < m) (size : m.log2 = 52)
    (least : -1074 ≤ e + k) :
    shiftToTargetExponent Format.binary64 (m * 2 ^ k) e .exact = (⟨m, false, false⟩, e + k) := by
  have target : Format.binary64.targetExponent (totalExponent (m * 2 ^ k) e) = e + k := by
    rw [targetExponent_binary64, totalExponent, log2_mul_two_pow pos, size]
    omega
  have amount : (e + k - e).toNat = k := by omega
  rw [shiftToTargetExponent, target, shiftToExponent]
  simp only [amount]
  exact congrArg (·, e + (k : Int)) (shiftRight_exact m k)

theorem roundWithAccuracy_exact {s : Sign} {m k : Nat} {e : Int} (pos : 0 < m)
    (size : m.log2 = 52) (least : -1074 ≤ e + k) :
    roundWithAccuracy Format.binary64 s (m * 2 ^ k) e .exact = .finite s m (e + k) pos := by
  have again := @shiftToTargetExponent_exact m 0 (e + k) pos size (by omega)
  rw [Nat.pow_zero, Nat.mul_one] at again
  simp only [roundWithAccuracy, shiftToTargetExponent_exact pos size least,
    ExtendedMantissa.roundedMantissa, ExtendedMantissa.accuracy, Accuracy.roundToNearestEven, again,
    Nat.ne_of_gt pos, Int.natCast_zero, Int.add_zero, dite_false]

end Rounding

section Integers

/-- A natural number as its significant bits and the place of the last of them. -/
theorem ofNat_eq_finite {n : Nat} (pos : 0 < n) (bound : n < 2 ^ 53) : ∃ m e,
    ∃ h : 0 < m, m.log2 = 52 ∧ -52 ≤ e ∧ e ≤ 0 ∧
      UnpackedFloat.ofNat Format.binary64 n = .finite .positive m e h := by
  obtain ⟨gap, total⟩ : ∃ gap, n.log2 + gap = 52 :=
    ⟨52 - n.log2, Nat.add_sub_cancel' (Nat.le_of_lt_succ ((Nat.log2_lt (Nat.ne_of_gt pos)).mpr bound))⟩
  have mantissa : 0 < n * 2 ^ gap := Nat.mul_pos pos (Nat.two_pow_pos gap)
  have size : (n * 2 ^ gap).log2 = 52 := by rw [log2_mul_two_pow pos, total]
  refine ⟨n * 2 ^ gap, -gap, mantissa, size, by omega, by omega, ?_⟩
  have positive : compare (n : Int) 0 = .gt := Int.compare_eq_gt.mpr (by omega)
  have target : Format.binary64.targetExponent (totalExponent n 0) = -gap := by
    rw [targetExponent_binary64, totalExponent]
    omega
  have rounded := @roundWithAccuracy_exact .positive (n * 2 ^ gap) 0 (-gap) mantissa size (by omega)
  rw [UnpackedFloat.ofNat, UnpackedFloat.ofInt, UnpackedFloat.normalize, positive]
  simp only [Int.toNat_natCast, UnpackedFloat.round, target, decreaseExponent, Nat.shiftLeft_eq]
  simpa using rounded

theorem unpack_ofNat {n : Nat} (pos : 0 < n) (bound : n < 2 ^ 53) : ∃ m e,
    ∃ h : 0 < m, m.log2 = 52 ∧ -52 ≤ e ∧ e ≤ 0 ∧
      (Float.ofNat n).toModel.unpack = .finite .positive m e h := by
  obtain ⟨m, e, mantissa, size, least, most, whole⟩ := ofNat_eq_finite pos bound
  refine ⟨m, e, mantissa, size, least, most, ?_⟩
  -- The conversion of numbers this small is a product with an exact power of ten, here with one.
  have word : n.toUInt64.toFloat.toModel.unpack = .finite .positive m e mantissa := by
    have same : n.toUInt64.toNat = n := Nat.mod_eq_of_lt (by omega)
    change (Float.Model.pack (UnpackedFloat.ofNat _ n.toUInt64.toNat)).unpack = _
    rw [same, whole, unpack_pack mantissa size (by omega) (by omega)]
  have one : (Float.ofBits 0x3FF0000000000000).toModel.unpack =
      .finite .positive (2 ^ 52) (-52) (by decide) := by rfl
  have product : Float.ofNat n = n.toUInt64.toFloat * Float.ofBits 0x3FF0000000000000 :=
    dif_pos ⟨bound, by decide⟩
  rw [product]
  change (Float.Model.pack (UnpackedFloat.mul _ n.toUInt64.toFloat.toModel.unpack
    (Float.ofBits 0x3FF0000000000000).toModel.unpack)).unpack = _
  have rounded : UnpackedFloat.mul Format.binary64 (.finite .positive m e mantissa)
      (.finite .positive (2 ^ 52) (-52) (by decide)) = .finite .positive m e mantissa := by
    have exact := @roundWithAccuracy_exact .positive m 52 (e + -52) mantissa size (by omega)
    have place : e + -52 + (52 : Nat) = e := by omega
    rw [place] at exact
    exact exact
  rw [word, one, rounded, unpack_pack mantissa size (by omega) (by omega)]

theorem unpack_ofInt {n : Int} (nonzero : n ≠ 0) (bound : n.natAbs < 2 ^ 53) :
    ∃ s m e, ∃ h : 0 < m, (Float.ofInt n).toModel.unpack = .finite s m e h := by
  obtain ⟨m, e, mantissa, size, least, most, unpacked⟩ :=
    unpack_ofNat (Int.natAbs_pos.mpr nonzero) bound
  cases n with
  | ofNat n => exact ⟨.positive, m, e, mantissa, unpacked⟩
  | negSucc n =>
      refine ⟨.negative, m, e, mantissa, ?_⟩
      change (Float.Model.pack (Float.ofNat (n + 1)).toModel.unpack.neg).unpack = _
      rw [show (Float.ofNat (n + 1)).toModel.unpack = _ from unpacked]
      exact unpack_pack mantissa size (by omega) (by omega)

theorem ofInt_beq_zero {n : Int} (bound : n.natAbs < 2 ^ 53) :
    (Float.ofInt n == 0) = true ↔ n = 0 := by
  refine ⟨fun zero => ?_, fun zero => zero ▸ rfl⟩
  by_contra nonzero
  obtain ⟨s, m, e, mantissa, finite⟩ := unpack_ofInt nonzero bound
  have equal : (Float.ofInt n).toModel.unpack.compare (.zero .positive) = some .eq :=
    (beq_iff ..).mp zero
  rw [finite] at equal
  cases s <;> simp [UnpackedFloat.compare] at equal

theorem isNaN_ofInt {n : Int} (bound : n.natAbs < 2 ^ 53) : (Float.ofInt n).isNaN = false := by
  by_cases zero : n = 0
  · rw [zero]
    rfl
  · obtain ⟨s, m, e, mantissa, finite⟩ := unpack_ofInt zero bound
    change (Float.ofInt n).toModel.unpack.isNaN = false
    rw [finite]
    rfl

end Integers

section Signs

/-- Neither below zero nor a negative zero. -/
def Unsigned : UnpackedFloat → Prop
  | .infinity s | .zero s | .finite s .. => s = .positive
  | .notANumber => True

theorem unsigned_unpack {b : BitVec Format.binary64.numBits} (h : unpackSign b = 0#1) :
    Unsigned (unpack Format.binary64 b) := by
  have positive : Sign.ofBitVec (unpackSign b) = .positive := by rw [h]; rfl
  fun_cases UnpackedFloat.unpack <;> first | exact positive | trivial

theorem unpackSign_pack {f : UnpackedFloat} (h : Unsigned f) :
    unpackSign (UnpackedFloat.pack Format.binary64 f) = 0#1 := by
  have components (e : BitVec 11) (m : BitVec 52) :
      unpackSign (packComponents Format.binary64 .positive e m) = 0#1 :=
    unpackSign_packComponents ..
  rcases f with s | _ | s | ⟨s, m, e, pos⟩
  · obtain rfl : s = .positive := h
    exact components ..
  · exact components ..
  · obtain rfl : s = .positive := h
    exact components ..
  · obtain rfl : s = .positive := h
    simp only [UnpackedFloat.pack]
    split_ifs <;> exact components ..

theorem unsigned_roundWithAccuracy (m : Nat) (e : Int) (accuracy : Accuracy) :
    Unsigned (roundWithAccuracy Format.binary64 .positive m e accuracy) := by
  simp only [roundWithAccuracy]
  split_ifs <;> rfl

theorem unsigned_mul {a b : UnpackedFloat} (ha : Unsigned a) (hb : Unsigned b) :
    Unsigned (UnpackedFloat.mul Format.binary64 a b) := by
  rcases a with s | _ | s | ⟨s, m, e, pos⟩ <;> rcases b with t | _ | t | ⟨t, n, f, pos'⟩ <;>
    simp only [Unsigned] at ha hb <;> subst_vars <;>
    first | exact unsigned_roundWithAccuracy .. | trivial

theorem unsigned_div {a b : UnpackedFloat} (ha : Unsigned a) (hb : Unsigned b) :
    Unsigned (UnpackedFloat.div Format.binary64 a b) := by
  rcases a with s | _ | s | ⟨s, m, e, pos⟩ <;> rcases b with t | _ | t | ⟨t, n, f, pos'⟩ <;>
    simp only [Unsigned] at ha hb <;> subst_vars <;>
    first | exact unsigned_roundWithAccuracy .. | trivial

theorem unsigned_ofNat (n : Nat) : Unsigned (UnpackedFloat.ofNat Format.binary64 n) := by
  cases n with
  | zero => rfl
  | succ n =>
      have positive : compare ((n + 1 : Nat) : Int) 0 = .gt := Int.compare_eq_gt.mpr (by omega)
      rw [UnpackedFloat.ofNat, UnpackedFloat.ofInt, UnpackedFloat.normalize, positive]
      exact unsigned_roundWithAccuracy ..

theorem unsigned_ofScientific (m : Nat) (e : Int) :
    Unsigned (UnpackedFloat.ofScientific Format.binary64 m e) := by
  rw [UnpackedFloat.ofScientific]
  split_ifs
  · rfl
  · rfl
  · rfl
  · exact unsigned_mul rfl rfl
  · exact unsigned_div rfl rfl

def signBit (x : Float) : BitVec 1 := @unpackSign Format.binary64 x.toBits.toBitVec

theorem signBit_ofScientific (m : Nat) (negative : Bool) (e : Nat) :
    signBit (Float.ofScientific m negative e) = 0#1 := by
  have powers : ∀ x ∈ Float.exactlyRepresentablePowersOfTen, signBit x = 0#1 := by decide +kernel
  rw [Float.ofScientific]
  split
  · next small =>
    have inside : e < Float.exactlyRepresentablePowersOfTen.size := Nat.lt_succ_of_le small.2
    have power := unsigned_unpack (powers _ (Array.getElem_mem inside))
    have whole : Unsigned m.toUInt64.toFloat.toModel.unpack :=
      unsigned_unpack (unpackSign_pack (unsigned_ofNat _))
    cases negative
    · exact unpackSign_pack (unsigned_mul whole power)
    · exact unpackSign_pack (unsigned_div whole power)
  · exact unpackSign_pack (unsigned_ofScientific ..)

theorem sign_of_signBit {x : Float} (h : signBit x = 0#1) : sign x.toBits = "" := by
  have top : ¬ x.toBits >>> 63 = 1 := by
    intro set
    have shifted : x.toBits.toNat >>> 63 = 1 := congrArg UInt64.toNat set
    have clear : (x.toBits.toNat >>> 63) % 2 = 0 := by
      simpa [signBit, unpackSign] using congrArg BitVec.toNat h
    omega
  exact if_neg top

theorem nearest?_cases {digits : Nat} {place : Int} {x : Float} (read : nearest? digits place = some x) :
    x = 0 ∨ x = Float.ofScientific digits (decide (place < 0)) place.natAbs ∧ x.isFinite = true := by
  simp only [nearest?] at read
  split_ifs at read with _ _ _ finite <;> cases read
  · exact .inl rfl
  · exact .inl rfl
  · exact .inr ⟨rfl, finite⟩

theorem sign_of_nearest? {digits : Nat} {place : Int} {x : Float}
    (read : nearest? digits place = some x) : sign x.toBits = "" := by
  obtain rfl | ⟨rfl, -⟩ := nearest?_cases read
  · rfl
  · exact sign_of_signBit (signBit_ofScientific ..)

theorem isFinite_of_nearest? {digits : Nat} {place : Int} {x : Float}
    (read : nearest? digits place = some x) : x.isFinite = true := by
  obtain rfl | ⟨-, finite⟩ := nearest?_cases read
  · rfl
  · exact finite

end Signs

theorem of_isFinite {x : Float} (finite : x.isFinite = true) : x.isNaN = false ∧ x.isInf = false := by
  change x.toModel.unpack.isFinite = true at finite
  change x.toModel.unpack.isNaN = false ∧ x.toModel.unpack.isInf = false
  generalize x.toModel.unpack = u at finite
  cases u <;> first | exact ⟨rfl, rfl⟩ | cases finite

end PascalX86.Decimal
