import PascalX86.Proofs.Decimal.Double
import PascalX86.Proofs.Scanning.Lexeme

/-!
# Reading of decimals

The text of a finite double in its parts, how a standard library reads such a text, and that both
find the same digits and the same exponent.
-/

set_option autoImplicit false

namespace PascalX86.Decimal

open Scan

/-- A decimal that is not an integer by its looks: digits, then a point and more digits, or an
exponent, or both. -/
structure Parts where
  whole : List Char
  fraction : List Char
  negative : Bool
  exponent : List Char
  start : whole ≠ []
  marked : fraction ≠ [] ∨ exponent ≠ []
  digits : (∀ c ∈ whole, c.isDigit = true) ∧ (∀ c ∈ fraction, c.isDigit = true) ∧
    ∀ c ∈ exponent, c.isDigit = true

namespace Parts

def point (p : Parts) : List Char := if p.fraction = [] then [] else '.' :: p.fraction

def minus (p : Parts) : List Char := if p.negative then ['-'] else []

def power (p : Parts) : List Char := if p.exponent = [] then [] else 'e' :: (p.minus ++ p.exponent)

def text (p : Parts) : List Char := p.whole ++ (p.point ++ p.power)

def size (p : Parts) : Int :=
  if p.negative then -(valueIn 10 p.exponent : Int) else (valueIn 10 p.exponent : Int)

def value? (p : Parts) : Option Float :=
  nearest? (valueIn 10 (p.whole ++ p.fraction)) (p.size - p.fraction.length)

end Parts

def natural? (digits : List Char) : Option Nat :=
  if digits.isEmpty || !digits.all Char.isDigit then none else some (valueIn 10 digits)

def size? : List Char → Option Int
  | [] => some 0
  | 'e' :: '-' :: digits => (natural? digits).map fun n => -(n : Int)
  | 'e' :: digits => (natural? digits).map fun n => (n : Int)
  | _ => none

-- The digits of a fraction, and what is after it.
def cut : List Char → List Char × List Char
  | '.' :: after => (after.takeWhile Char.isDigit, after.dropWhile Char.isDigit)
  | text => ([], text)

def unsigned? (text : List Char) : Option Float :=
  let whole := text.takeWhile Char.isDigit
  let (fraction, power) := cut (text.dropWhile Char.isDigit)
  if whole.isEmpty then none
  else (size? power).bind fun size => nearest? (valueIn 10 (whole ++ fraction)) (size - fraction.length)

/-- The double that a decimal text stands for: the nearest one, whatever the number of digits. -/
def read? : List Char → Option Float
  | '-' :: text => (unsigned? text).map fun x => -x
  | text => unsigned? text

section Shape

theorem digits_toDigits (n : Nat) : ∀ c ∈ Nat.toDigits 10 n, c.isDigit = true := fun _ mem =>
  Nat.isDigit_of_mem_toDigits (by decide) (by decide) mem

theorem digits_zeros (n : Nat) : ∀ c ∈ List.replicate n '0', c.isDigit = true := by
  intro c mem
  rw [List.eq_of_mem_replicate mem]
  rfl

theorem digits_append {first second : List Char} (h : ∀ c ∈ first, c.isDigit = true)
    (h' : ∀ c ∈ second, c.isDigit = true) : ∀ c ∈ first ++ second, c.isDigit = true :=
  List.forall_mem_append.mpr ⟨h, h'⟩

theorem Numeral.exists_parts (n : Numeral) : ∃ p : Parts, n.text.toList = p.text := by
  have some : Nat.toDigits 10 n.digits ≠ [] := Nat.toDigits_ne_nil
  have digits := digits_toDigits n.digits
  rw [Numeral.text]
  generalize Nat.toDigits 10 n.digits = ds at some digits ⊢
  dsimp only
  split
  · split
    · refine ⟨⟨ds ++ List.replicate n.place.toNat '0', ['0'], false, [], by simp [some], .inl (by simp),
        digits_append digits (digits_zeros _), digits_zeros 1, by simp⟩, ?_⟩
      simp [zeros, Parts.text, Parts.point, Parts.power]
    · split
      · -- The point stands among the digits, with some of them on each side.
        have cut : 0 < ds.length - n.place.natAbs ∧ ds.length - n.place.natAbs < ds.length := by omega
        refine ⟨⟨ds.take (ds.length - n.place.natAbs), ds.drop (ds.length - n.place.natAbs), false, [],
          by simp [some]; omega, .inl (by simp; omega), fun c mem => digits c (List.mem_of_mem_take mem),
          fun c mem => digits c (List.mem_of_mem_drop mem), by simp⟩, ?_⟩
        simp [pointed, Parts.text, Parts.point, Parts.power, cut.2]
      · refine ⟨⟨['0'], List.replicate ((n.place + ds.length - 1).natAbs - 1) '0' ++ ds, false, [],
          by simp, .inl (by simp [some]), digits_zeros 1, digits_append (digits_zeros _) digits,
          by simp⟩, ?_⟩
        simp [zeros, Parts.text, Parts.point, Parts.power, some]
  · obtain ⟨d, rest, rfl⟩ := List.exists_cons_of_ne_nil some
    rw [List.forall_mem_cons] at digits
    generalize n.place + ((d :: rest).length : Int) - 1 = leading
    refine ⟨⟨[d], rest, decide (leading < 0), Nat.toDigits 10 leading.natAbs, by simp,
      .inr Nat.toDigits_ne_nil, by simpa using digits.1, digits.2, digits_toDigits _⟩, ?_⟩
    have mark : (if leading < 0 then "e-" else "e").toList =
        'e' :: if leading < 0 then ['-'] else [] := by
      split_ifs <;> rfl
    cases rest <;>
      simp [Parts.text, Parts.point, Parts.power, Parts.minus, digitText, mark, Nat.toDigits_ne_nil]

end Shape

section Reading

namespace Parts

variable (p : Parts)

theorem point_cases : p.fraction = [] ∧ p.point = [] ∨ p.fraction ≠ [] ∧ p.point = '.' :: p.fraction := by
  by_cases none : p.fraction = []
  · exact .inl ⟨none, if_pos none⟩
  · exact .inr ⟨none, if_neg none⟩

theorem power_cases : (p.exponent = [] ∧ p.power = [] ∧ p.size = 0) ∨
    p.exponent ≠ [] ∧ p.power = 'e' :: (p.minus ++ p.exponent) := by
  by_cases none : p.exponent = []
  · have size : p.size = 0 := by
      rw [size, none]
      exact ite_self 0
    exact .inl ⟨none, if_pos none, size⟩
  · exact .inr ⟨none, if_neg none⟩

section Boundary

variable {rest : List Char} (boundary : ∀ c ∈ rest.head?, c.isDigit = false)
include boundary

theorem boundary_power : ∀ c ∈ (p.power ++ rest).head?, c.isDigit = false := by
  obtain ⟨-, power, -⟩ | ⟨-, power⟩ := p.power_cases
  · rwa [power]
  · simp [power]

theorem boundary_point : ∀ c ∈ (p.point ++ (p.power ++ rest)).head?, c.isDigit = false := by
  obtain ⟨-, point⟩ | ⟨-, point⟩ := p.point_cases
  · rw [point]
    exact p.boundary_power boundary
  · simp [point]

end Boundary

theorem size?_power : size? p.power = some p.size := by
  obtain ⟨-, power, size⟩ | ⟨some, power⟩ := p.power_cases
  · rw [power, size]
    rfl
  · have read : natural? p.exponent = .some (valueIn 10 p.exponent) := by
      have digits : p.exponent.all Char.isDigit = true := List.all_eq_true.mpr p.digits.2.2
      simp [natural?, some, digits]
    rw [power, size, minus]
    split
    · simp [size?, read]
    · have other : ∀ tail, p.exponent ≠ '-' :: tail := by
        intro tail eq
        have digit := p.digits.2.2 '-' (by simp [eq])
        cases digit
      rw [List.nil_append, size?.eq_3 _ other, read]
      rfl

theorem cut_point : cut (p.point ++ p.power) = (p.fraction, p.power) := by
  obtain ⟨none, point⟩ | ⟨-, point⟩ := p.point_cases
  · have other : ∀ after, p.power ≠ '.' :: after := by
      obtain ⟨-, power, -⟩ | ⟨-, power⟩ := p.power_cases <;> simp [power]
    rw [point, List.nil_append, cut.eq_2 _ other, none]
  · have boundary := @boundary_power p [] nofun
    rw [List.append_nil] at boundary
    rw [point, List.cons_append, cut, (takeWhile_run p.digits.2.1 boundary).1,
      (takeWhile_run p.digits.2.1 boundary).2]

theorem unsigned?_text : unsigned? p.text = p.value? := by
  have boundary := @boundary_point p [] nofun
  rw [List.append_nil] at boundary
  rw [unsigned?, text, (takeWhile_run p.digits.1 boundary).1, (takeWhile_run p.digits.1 boundary).2,
    cut_point]
  simp [p.start, size?_power, value?]

theorem read?_text : read? p.text = p.value? := by
  obtain ⟨c, rest, eq⟩ := List.exists_cons_of_ne_nil p.start
  have other : ∀ tail, p.text ≠ '-' :: tail := by
    intro tail minus
    rw [text, eq, List.cons_append] at minus
    have digit := p.digits.1 c (by simp [eq])
    rw [(List.cons_eq_cons.mp minus).1] at digit
    cases digit
  rw [read?.eq_2 _ other, unsigned?_text]

end Parts

theorem exists_parts_of_finite {x : Float} (finite : x.isFinite = true) (unsigned : sign x.toBits = "") :
    ∃ p : Parts, (shortestText x).toList = p.text := by
  have number := of_isFinite finite
  have text : shortestText x =
      (if (Magnitude.ofBits x.toBits).mantissa = 0 then "0.0"
        else (shortest (Magnitude.ofBits x.toBits)).text) := by
    rw [shortestText, written, number.1, if_neg Bool.false_ne_true]
    dsimp only
    rw [unsigned, number.2, if_neg Bool.false_ne_true, String.empty_append]
  rw [text]
  split
  · exact ⟨⟨['0'], ['0'], false, [], by simp, .inl (by simp), digits_zeros 1, digits_zeros 1,
      by simp⟩, rfl⟩
  · exact Numeral.exists_parts _

end Reading

end PascalX86.Decimal
