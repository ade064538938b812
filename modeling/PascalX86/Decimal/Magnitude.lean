/-!
# Doubles as exact numbers

A finite double is a natural number times a power of two. Decimals are compared with it by
cross-multiplying, so nothing here rounds.
-/

set_option autoImplicit false

namespace PascalX86.Decimal

/-- A finite double without its sign, `mantissa * 2 ^ exponent`. -/
structure Magnitude where
  mantissa : Nat
  exponent : Int
  -- The next smaller double is half as far away as the next larger one.
  tightBelow : Bool
  deriving DecidableEq, Repr

namespace Magnitude

def fractionRange : Nat := 4503599627370496

def ofBits (bits : UInt64) : Magnitude :=
  let biased : Nat := bits.toNat / fractionRange % 2048
  let fraction : Nat := bits.toNat % fractionRange
  if biased = 0 then ⟨fraction, -1074, false⟩
  else ⟨fractionRange + fraction, Int.ofNat biased - 1075, fraction == 0 && biased != 1⟩

end Magnitude

/-- Orders `digits * 10 ^ place` against `count * 2 ^ scale`. -/
def compareScaled (digits : Nat) (place : Int) (count : Nat) (scale : Int) : Ordering :=
  compare (digits * Nat.pow 10 place.toNat * Nat.pow 2 (-scale).toNat)
    (count * Nat.pow 2 scale.toNat * Nat.pow 10 (-place).toNat)

namespace Magnitude

/-- Whether `digits * 10 ^ place` is among the numbers that round to `x`: it lies between the
midpoints to the neighbours of `x`, which themselves round to `x` if its mantissa is even. -/
def readsBack (x : Magnitude) (digits : Nat) (place : Int) : Bool :=
  let below := if x.tightBelow then 4 * x.mantissa - 1 else 4 * x.mantissa - 2
  let above := 4 * x.mantissa + 2
  let even := x.mantissa % 2 == 0
  let low := compareScaled digits place below (x.exponent - 2)
  let high := compareScaled digits place above (x.exponent - 2)
  (low == .gt || (even && low == .eq)) && (high == .lt || (even && high == .eq))

def quotient (x : Magnitude) (place : Int) : Nat :=
  x.mantissa * Nat.pow 2 x.exponent.toNat * Nat.pow 10 (-place).toNat
    / (Nat.pow 2 (-x.exponent).toNat * Nat.pow 10 place.toNat)

end Magnitude

-- The integer nearest to `count / unit`; of two equally near ones the even one.
def nearestEven (count unit : Nat) : Nat :=
  let whole := count / unit
  match compare (2 * (count % unit)) unit with
  | .lt => whole
  | .gt => whole + 1
  | .eq => if whole % 2 = 0 then whole else whole + 1

end PascalX86.Decimal
