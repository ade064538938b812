import PascalX86.Decimal.Magnitude

/-!
# Shortest decimals

The decimal with the fewest digits that reads back to a double, and of those the nearest one.
-/

set_option autoImplicit false

namespace PascalX86.Decimal

structure Numeral where
  digits : Nat
  place : Int
  deriving DecidableEq, Repr

namespace Magnitude

/-- The least power of ten above `x`. One of the candidates is right, since the logarithm to base
two fixes the decimal one up to one step. -/
def scale (x : Magnitude) : Int :=
  let guess := ((x.mantissa.log2 : Int) + x.exponent) * 1233 / 4096
  let candidates := [guess - 1, guess, guess + 1, guess + 2]
  (candidates.find? fun k => compareScaled 1 k x.mantissa x.exponent == .gt).getD (guess + 3)

/-- The neighbour of `x` on the grid of step `10 ^ place` that reads back to `x`. Of two the nearer
one is taken, and the upper one when both are equally near. -/
def onGrid? (x : Magnitude) (place : Int) : Option Numeral :=
  let lower := x.quotient place
  match x.readsBack lower place, x.readsBack (lower + 1) place with
  | false, false => none
  | true, false => some ⟨lower, place⟩
  | false, true => some ⟨lower + 1, place⟩
  | true, true =>
      if compareScaled (2 * lower + 1) place (2 * x.mantissa) x.exponent == .gt then
        some ⟨lower, place⟩
      else
        some ⟨lower + 1, place⟩

end Magnitude

def Numeral.strip (steps : Nat) (n : Numeral) : Numeral :=
  match steps with
  | 0 => n
  | steps + 1 =>
      if n.digits ≠ 0 ∧ n.digits % 10 = 0 then Numeral.strip steps ⟨n.digits / 10, n.place + 1⟩
      else n

def Magnitude.exact (x : Magnitude) : Numeral :=
  ⟨x.mantissa * Nat.pow 2 x.exponent.toNat * Nat.pow 5 (-x.exponent).toNat, min x.exponent 0⟩

-- Grids from coarse to fine; seventeen digits tell all doubles apart.
def shortest (x : Magnitude) : Numeral :=
  let top := x.scale
  let found := (List.range 17).findSome? fun n => x.onGrid? (top - (n + 1 : Nat))
  (found.getD x.exact).strip 17

end PascalX86.Decimal
