import PascalX86.Decimal.Shortest

/-!
# Decimal text of doubles

Two written forms, the shortest one that reads back and one with six places, and the reading of a
decimal.
-/

set_option autoImplicit false

namespace PascalX86.Decimal

def digitText (n : Nat) : String := String.ofList (Nat.toDigits 10 n)

def zeros (n : Nat) : String := String.ofList (List.replicate n '0')

def pointed (digits : List Char) (places : Nat) : String :=
  let cut := digits.length - places
  String.ofList (digits.take cut) ++ "." ++ String.ofList (digits.drop cut)

-- Positional from 0.0001 up to below 10^16, always with a point; otherwise with an exponent.
def Numeral.text (n : Numeral) : String :=
  let digits := Nat.toDigits 10 n.digits
  let leading := n.place + digits.length - 1
  if -4 ≤ leading ∧ leading < 16 then
    if 0 ≤ n.place then
      String.ofList digits ++ zeros n.place.toNat ++ ".0"
    else if 0 ≤ leading then
      pointed digits n.place.natAbs
    else
      "0." ++ zeros (leading.natAbs - 1) ++ String.ofList digits
  else
    let mantissa :=
      match digits with
      | [] => ""
      | [d] => String.ofList [d]
      | d :: rest => String.ofList [d] ++ "." ++ String.ofList rest
    let mark := if leading < 0 then "e-" else "e"
    mantissa ++ mark ++ digitText leading.natAbs

def sign (bits : UInt64) : String := if bits >>> 63 = 1 then "-" else ""

def written (x : Float) (finite : Magnitude → String) : String :=
  if x.isNaN then "NaN"
  else
    let bits := x.toBits
    sign bits ++ (if x.isInf then "inf" else finite (Magnitude.ofBits bits))

def shortestText (x : Float) : String :=
  written x fun m => if m.mantissa = 0 then "0.0" else (shortest m).text

def Magnitude.units (x : Magnitude) (places : Nat) : Nat :=
  nearestEven (x.mantissa * Nat.pow 2 x.exponent.toNat * Nat.pow 10 places)
    (Nat.pow 2 (-x.exponent).toNat)

def fixedText (places : Nat) (x : Float) : String :=
  written x fun m =>
    let digits := Nat.toDigits 10 (m.units places)
    pointed (List.replicate (places + 1 - digits.length) '0' ++ digits) places

/-- The double nearest to `digits * 10 ^ place`, unless it is too large for a finite one. Exponents
far out of range are settled by size alone. -/
def nearest? (digits : Nat) (place : Int) : Option Float :=
  if digits = 0 then some 0
  else
    let top := place + (Nat.toDigits 10 digits).length
    if 310 < top then none
    else if top < -330 then some 0
    else
      let x := Float.ofScientific digits (decide (place < 0)) place.natAbs
      if x.isFinite then some x else none

end PascalX86.Decimal
