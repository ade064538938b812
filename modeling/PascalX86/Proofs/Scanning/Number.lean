import Mathlib.Data.Nat.Digits.Defs
import PascalX86.Proofs.Scanning.Location
import PascalX86.Proofs.Spelling.Scanning

/-!
# Numbers in a text

A run of digits is read as the number it writes, whatever its length: as an integer up to the largest
one, and as the code of a character up to 255. Larger numbers are errors, never other values.
-/

set_option autoImplicit false

namespace PascalX86

open Scan

namespace Scan

/-- What a digit counts in the bases up to sixteen; anything else counts 16. -/
def digitOf (c : Char) : Nat := "0123456789abcdef".toList.idxOf c.toLower

/-- The number that digits write, the last of them being the units. -/
def numberOf (base : Nat) (digits : List Char) : Nat := Nat.ofDigits base (digits.reverse.map digitOf)

/-- All digits of a base that stand together in front of a text. -/
structure Run (base : Nat) (digits left : List Char) : Prop where
  some : digits ≠ []
  inside : ∀ c ∈ digits, digitOf c < base
  boundary : ∀ c ∈ left.head?, base ≤ digitOf c

/-- A text that does not go on with a number: it starts with two points, or with neither a point nor
the mark of an exponent. -/
def Ends (left : List Char) : Prop := ['.', '.'] <+: left ∨ ∀ c ∈ left.head?, c ∉ ['.', 'e', 'E']

section Digits

variable {c : Char} {digits left : List Char} {base : Nat}

theorem digits_ascii : ∀ n < 128, (digitOf (Char.ofNat n) < 10 ↔ (Char.ofNat n).isDigit = true) ∧
    (digitOf (Char.ofNat n) < 16 ↔ isHexDigit (Char.ofNat n) = true) ∧
      (isHexDigit (Char.ofNat n) = true → digitValue (Char.ofNat n) = digitOf (Char.ofNat n)) := by
  decide +kernel

theorem digitOf_large (large : 128 ≤ c.toNat) : digitOf c = 16 := by
  have same : c.toLower = c := by
    rcases toLower_cases c with ⟨-, high, -⟩ | ⟨-, same⟩
    · omega
    · exact same
  have ascii : ∀ d ∈ "0123456789abcdef".toList, d.toNat < 128 := by simp
  have absent : c ∉ "0123456789abcdef".toList := fun mem => Nat.not_lt.mpr large (ascii c mem)
  rw [digitOf, same]
  exact List.idxOf_eq_length absent

theorem digits_cases (c : Char) : (digitOf c < 10 ↔ c.isDigit = true) ∧
    (digitOf c < 16 ↔ isHexDigit c = true) ∧ (isHexDigit c = true → digitValue c = digitOf c) := by
  by_cases ascii : c.toNat < 128
  · have entry := digits_ascii c.toNat ascii
    rwa [Char.ofNat_toNat] at entry
  · rw [digitOf_large (Nat.not_lt.mp ascii), isDigit_iff, isHexDigit_iff]
    omega

theorem isDigit_iff_digitOf (c : Char) : c.isDigit = true ↔ digitOf c < 10 := (digits_cases c).1.symm

theorem isHexDigit_iff_digitOf (c : Char) : isHexDigit c = true ↔ digitOf c < 16 :=
  (digits_cases c).2.1.symm

theorem valueIn_eq (inside : ∀ c ∈ digits, digitOf c < 16) :
    valueIn base digits = numberOf base digits := by
  rw [numberOf, Nat.ofDigits_eq_foldr, List.map_reverse, List.foldr_reverse, List.foldl_map, valueIn]
  refine List.foldl_ext _ _ _ fun value c mem => ?_
  have value := (digits_cases c).2.2 ((isHexDigit_iff_digitOf c).mpr (inside c mem))
  rw [value, Nat.add_comm]
  rfl

theorem Run.taken (run : Run base digits left) {p : Char → Bool} (same : ∀ c, p c = true ↔ digitOf c < base) :
    (digits ++ left).takeWhile p = digits ∧ (digits ++ left).dropWhile p = left := by
  have boundary : ∀ c ∈ left.head?, p c = false := fun c mem => by
    rw [← Bool.not_eq_true, same]
    exact Nat.not_lt.mpr (run.boundary c mem)
  exact takeWhile_run (fun c mem => (same c).mpr (run.inside c mem)) boundary

end Digits

end Scan

namespace Source

/-- Scanning the source comes to a point of it, and goes on from there. -/
structure Comes (source : Source) (p : Point) : Prop where
  ahead : p.ahead <:+ source.characters
  items : Scan.items source.ending p <:+ source.scan

/-- Scanning answers a token at the point and goes on with what is left of the text behind it. -/
def Finds (source : Source) (p : Point) (t : Token) (left : List Char) : Prop :=
  ∃ span next, Scan.items source.ending p = .ok ⟨t, span⟩ :: Scan.items source.ending next ∧
    next.ahead = left ∧ source.Comes next

/-- Scanning ends at the point with an error. -/
def Fails (source : Source) (p : Point) (e : LexicalError) : Prop :=
  ∃ span, Scan.items source.ending p = [.error ⟨e, span⟩]

/-- Scanning answers the integer of a value, or that it is too big if there is none. -/
def Measures (source : Source) (p : Point) (value : Nat) (left : List Char) : Prop :=
  (value ≤ 2 ^ 31 - 1 → ∃ n : Int32, n.toInt = value ∧ source.Finds p (.integer n) left) ∧
    (2 ^ 31 - 1 < value → source.Fails p .integerOverflow)

section Reading

variable {source : Source} {p : Point} {c : Char} {tail left rest : List Char} {t : Token}

theorem comes_initial (source : Source) : source.Comes (.initial source.characters) :=
  ⟨List.suffix_rfl, List.suffix_rfl⟩

/-- A source does not end without a newline. -/
theorem Comes.more (comes : source.Comes p) (ahead : p.ahead = c :: (tail ++ left))
    (visible : ∀ d ∈ c :: tail, Text.isBlank d = false) : left ≠ [] := by
  rintro rfl
  obtain ⟨read, whole⟩ := comes.ahead
  have lined := lined_characters source
  rw [← whole, ahead, List.append_nil] at lined
  have last := List.getLast?_eq_some_getLast (List.cons_ne_nil c tail)
  have newline := Lined.right read lined _ last
  have shown := visible _ (List.getLast_mem (List.cons_ne_nil c tail))
  rw [newline] at shown
  cases shown

theorem Comes.next {next : Point} (comes : source.Comes p) (items : List Scanned) (ahead : next.ahead <:+ p.ahead)
    (eq : Scan.items source.ending p = items ++ Scan.items source.ending next) : source.Comes next :=
  ⟨ahead.trans comes.ahead, (eq ▸ List.suffix_append ..).trans comes.items⟩

theorem Comes.finds (comes : source.Comes p) (ahead : p.ahead = c :: (tail ++ left))
    (visible : Text.isBlank c = false) (more : left ≠ [])
    (read : recognise c (tail ++ left) = ⟨tail.length, .token t⟩) : source.Finds p t left := by
  have items : Scan.items source.ending p = _ := (items_of_read ahead visible read
    (by simp [more])).2.1 t rfl
  rw [List.take_left, List.drop_left] at items
  have suffix : (p.move c tail left).ahead <:+ p.ahead := ahead ▸ List.suffix_append (c :: tail) left
  exact ⟨_, p.move c tail left, items, rfl, comes.next [_] suffix items⟩

theorem fails_of_read {n : Nat} {e : LexicalError} (ahead : p.ahead = c :: rest)
    (visible : Text.isBlank c = false) (more : rest.drop n ≠ [])
    (read : recognise c rest = ⟨n, .failed e⟩) : source.Fails p e :=
  ⟨_, (items_of_read ahead visible read (by simp [more])).2.2.2 e rfl⟩

theorem measures_of_read {base : Nat} {digits : List Char} (comes : source.Comes p)
    (ahead : p.ahead = c :: (tail ++ left)) (visible : Text.isBlank c = false) (more : left ≠ [])
    (inside : ∀ d ∈ digits, digitOf d < 16)
    (read : recognise c (tail ++ left) = ⟨tail.length, meaningOf (integer base digits)⟩) :
    source.Measures p (numberOf base digits) left := by
  rw [integer, valueIn_eq inside] at read
  constructor
  · intro small
    rw [if_pos (by omega)] at read
    exact ⟨_, Int32.toInt_ofNat_of_lt (by omega), comes.finds ahead visible more read⟩
  · intro large
    rw [if_neg (by omega)] at read
    exact fails_of_read ahead visible (by simpa using more) read

/-- Two points behind a number are read as if scanning had come to them on its own. -/
theorem finds_range {n : Nat} (comes : source.Comes p)
    (ahead : p.ahead = c :: (tail ++ '.' :: '.' :: rest)) (visible : Text.isBlank c = false)
    (more : rest ≠ []) (length : n = tail.length + 2)
    (read : recognise c (tail ++ '.' :: '.' :: rest) = ⟨n, .rangeFrom t⟩) :
    source.Finds p t ('.' :: '.' :: rest) := by
  have split : tail ++ '.' :: '.' :: rest = (tail ++ ['.', '.']) ++ rest := by simp
  have taken : (tail ++ '.' :: '.' :: rest).take n = tail ++ ['.', '.'] := by
    rw [split, show n = (tail ++ ['.', '.']).length by simp [length], List.take_left]
  have dropped : (tail ++ '.' :: '.' :: rest).drop n = rest := by
    rw [split, show n = (tail ++ ['.', '.']).length by simp [length], List.drop_left]
  have digits : (tail ++ '.' :: '.' :: rest).take (n - 2) = tail := by
    rw [length, Nat.add_sub_cancel, List.take_left]
  have first : Scan.items source.ending p = _ :=
    (items_of_read ahead visible read (by simp [needsMore])).2.2.1 t rfl
  rw [taken, dropped, digits] at first
  let next := p.move c tail ('.' :: '.' :: rest)
  have second : Scan.items source.ending next = _ :=
    (items_of_read (n := 1) (p := next) rfl rfl rfl (by simp [more])).2.1 (.mark .doubleDot) rfl
  have onward : Scan.items source.ending (p.move c (tail ++ ['.', '.']) rest) =
      Scan.items source.ending (next.move '.' ['.'] rest) :=
    items_congr rfl (by simp [next, Point.move]) more
  have dots : walk p.here (c :: (tail ++ ['.', '.'])).dropLast = walk next.here ['.'] := by
    have init : (c :: (tail ++ ['.', '.'])).dropLast = (c :: tail) ++ ['.'] := by
      rw [show c :: (tail ++ ['.', '.']) = ((c :: tail) ++ ['.']) ++ ['.'] by simp, List.dropLast_concat]
    rw [init, walk_append]
    rfl
  have items : Scan.items source.ending p =
      .ok ⟨t, (p.move c (tail ++ ['.', '.']) rest).start⟩ :: Scan.items source.ending next := by
    rw [first, second, onward]
    simp only [Point.move, dots]
    rfl
  have suffix : next.ahead <:+ p.ahead := ahead ▸ List.suffix_append (c :: tail) _
  exact ⟨_, next, items, rfl, comes.next [_] suffix items⟩

theorem measures_range {base : Nat} {digits : List Char} (comes : source.Comes p)
    (ahead : p.ahead = c :: (tail ++ '.' :: '.' :: rest)) (visible : Text.isBlank c = false)
    (more : rest ≠ []) (inside : ∀ d ∈ digits, digitOf d < 16)
    (read : recognise c (tail ++ '.' :: '.' :: rest) =
      match integer base digits with
      | .ok t => ⟨tail.length + 2, .rangeFrom t⟩
      | .error e => ⟨tail.length + 1, .failed e⟩) :
    source.Measures p (numberOf base digits) ('.' :: '.' :: rest) := by
  rw [integer, valueIn_eq inside] at read
  constructor
  · intro small
    rw [if_pos (by omega)] at read
    exact ⟨_, Int32.toInt_ofNat_of_lt (by omega), finds_range comes ahead visible more rfl read⟩
  · intro large
    rw [if_neg (by omega)] at read
    refine fails_of_read ahead visible ?_ read
    simp

theorem measures_decimal {digits : List Char} (comes : source.Comes p) (run : Run 10 digits left)
    (ends : Ends left) (ahead : p.ahead = digits ++ left) :
    source.Measures p (numberOf 10 digits) left := by
  have digit : ∀ d ∈ digits, d.isDigit = true := fun d mem =>
    (isDigit_iff_digitOf d).mpr (run.inside d mem)
  have boundary : ∀ d ∈ left.head?, d.isDigit = false := fun d mem => by
    rw [← Bool.not_eq_true, isDigit_iff_digitOf]
    exact Nat.not_lt.mpr (run.boundary d mem)
  have inside : ∀ d ∈ digits, digitOf d < 16 := fun d mem =>
    Nat.lt_trans (run.inside d mem) (by decide)
  obtain ⟨c, tail, rfl⟩ := List.exists_cons_of_ne_nil run.some
  have visible : ∀ d ∈ c :: tail, Text.isBlank d = false := fun d mem =>
    visible_of_isDigit d (digit d mem)
  rw [List.forall_mem_cons] at digit
  have number : recognise c (tail ++ left) = numeral (c :: tail) left := by
    rw [recognise_of_isDigit digit.1, number_eq_numeral, (takeWhile_run digit.2 boundary).1,
      (takeWhile_run digit.2 boundary).2]
  rcases ends with ⟨rest, rfl⟩ | stops
  · have seen : ∀ d ∈ c :: (tail ++ ['.', '.']), Text.isBlank d = false := by
      simp only [List.forall_mem_cons, List.forall_mem_append] at visible ⊢
      exact ⟨visible.1, visible.2, rfl, rfl, nofun⟩
    have more : rest ≠ [] := comes.more (by simpa using ahead) seen
    exact measures_range comes ahead (visible c List.mem_cons_self) more inside (number.trans rfl)
  · have mark : ∀ d ∈ left.head?, isNumeralMark d = false := fun d mem => by
      have other := stops d mem
      simpa [isNumeralMark, isExponentMark] using other
    refine measures_of_read comes ahead (visible c List.mem_cons_self) (comes.more ahead visible) inside ?_
    rw [number, numeral_stop mark]
    rfl

theorem measures_hex {digits : List Char} (comes : source.Comes p) (run : Run 16 digits left)
    (ahead : p.ahead = '$' :: (digits ++ left)) : source.Measures p (numberOf 16 digits) left := by
  have digit (d : Char) (mem : d ∈ '$' :: digits) : Text.isBlank d = false := by
    rcases List.mem_cons.mp mem with rfl | inside
    · rfl
    · have hex := (isHexDigit_iff_digitOf d).mpr (run.inside d inside)
      exact visible_of_isWordChar (isWordChar_of_isHexDigit hex)
  have read : recognise '$' (digits ++ left) = ⟨digits.length, meaningOf (integer 16 digits)⟩ := by
    change hex _ = _
    rw [hex, (run.taken isHexDigit_iff_digitOf).1, if_neg (by simp [run.some])]
  exact measures_of_read comes ahead rfl (comes.more ahead digit) run.inside read

theorem charCode_run {digits : List Char} (run : Run 10 digits left) :
    charCode (digits ++ left) =
      if numberOf 10 digits ≤ 255 then
        ⟨digits.length, .token (.char (UInt8.ofNat (numberOf 10 digits)))⟩
      else ⟨digits.length, .failed (.badCharCode (min (numberOf 10 digits) (2 ^ 32 - 1)))⟩ := by
  have inside : ∀ d ∈ digits, digitOf d < 16 := fun d mem =>
    Nat.lt_trans (run.inside d mem) (by decide)
  rw [charCode, (run.taken isDigit_iff_digitOf).1, if_neg (by simp [run.some]), valueIn_eq inside]
  by_cases small : numberOf 10 digits ≤ 255
  · have same : min (numberOf 10 digits) 4294967295 = numberOf 10 digits := Nat.min_eq_left (by omega)
    simp only [same, if_pos small, if_pos (show numberOf 10 digits < 256 by omega)]
  · have large : ¬ min (numberOf 10 digits) 4294967295 < 256 := by omega
    rw [if_neg small, if_neg large]
    rfl

/-- What digits are read as wherever scanning comes to them: decimal ones that do not go on as another
number, hexadecimal ones behind their mark, and those of a character code. -/
theorem numbers_exact {digits : List Char} (comes : source.Comes p) :
    (p.ahead = digits ++ left → Run 10 digits left → Ends left →
      source.Measures p (numberOf 10 digits) left) ∧
    (p.ahead = '$' :: (digits ++ left) → Run 16 digits left →
      source.Measures p (numberOf 16 digits) left) ∧
    (p.ahead = '#' :: (digits ++ left) → Run 10 digits left →
      (numberOf 10 digits ≤ 255 → ∃ code : UInt8, code.toNat = numberOf 10 digits ∧
        source.Finds p (.char code) left) ∧
      (255 < numberOf 10 digits →
        source.Fails p (.badCharCode (min (numberOf 10 digits) (2 ^ 32 - 1))))) := by
  refine ⟨fun ahead run ends => measures_decimal comes run ends ahead,
    fun ahead run => measures_hex comes run ahead, fun ahead run => ?_⟩
  have visible (d : Char) (mem : d ∈ '#' :: digits) : Text.isBlank d = false := by
    rcases List.mem_cons.mp mem with rfl | inside
    · rfl
    · exact visible_of_isDigit d ((isDigit_iff_digitOf d).mpr (run.inside d inside))
  have more := comes.more ahead visible
  have read : recognise '#' (digits ++ left) = _ := charCode_run run
  constructor
  · intro small
    rw [if_pos small] at read
    exact ⟨_, UInt8.toNat_ofNat_of_lt (show numberOf 10 digits < 256 by omega),
      comes.finds ahead rfl more read⟩
  · intro large
    rw [if_neg (by omega)] at read
    exact fails_of_read ahead rfl (by simpa using more) read

/-- Leading zeros do not count, and the limits are exact. -/
theorem numbers_read :
    let source := Source.ofText "input.pas"
    let start (text : String) : Point := .initial (source text).characters
    (∃ n : Int32, n.toInt = 2 ^ 31 - 1 ∧
        (source "0002147483647").Finds (start "0002147483647") (.integer n) ['\n']) ∧
      (source "$80000000").Fails (start "$80000000") .integerOverflow ∧
      (source "#99999999999").Fails (start "#99999999999") (.badCharCode (2 ^ 32 - 1)) := by
  have stops : 16 ≤ digitOf '\n' := by decide +kernel
  have run (base : Nat) (digits : List Char) (le : base ≤ 16) (some : digits ≠ [])
      (inside : digits.all (digitOf · < base) = true) : Run base digits ['\n'] :=
    ⟨some, by simpa using inside, by simpa using Nat.le_trans le stops⟩
  refine ⟨?_, ?_, ?_⟩
  · have read : Measures _ _ (numberOf 10 "0002147483647".toList) ['\n'] :=
      (numbers_exact (comes_initial (.ofText "input.pas" "0002147483647"))).1 (by decide +kernel)
        (run 10 _ (by decide) (by decide +kernel) (by decide +kernel)) (.inr (by simp))
    have value : numberOf 10 "0002147483647".toList = 2147483647 := by decide +kernel
    rw [value] at read
    exact read.1 (by decide)
  · have read : Measures _ _ (numberOf 16 "80000000".toList) ['\n'] :=
      (numbers_exact (comes_initial (.ofText "input.pas" "$80000000"))).2.1 (by decide +kernel)
        (run 16 _ (by decide) (by decide +kernel) (by decide +kernel))
    have value : numberOf 16 "80000000".toList = 2147483648 := by decide +kernel
    rw [value] at read
    exact read.2 (by decide)
  · have read : _ ∧ (255 < numberOf 10 "99999999999".toList → Fails _ _ _) :=
      (numbers_exact (comes_initial (.ofText "input.pas" "#99999999999"))).2.2 (by decide +kernel)
        (run 10 _ (by decide) (by decide +kernel) (by decide +kernel))
    have value : numberOf 10 "99999999999".toList = 99999999999 := by decide +kernel
    rw [value] at read
    exact read.2 (by decide)

end Reading

end Source

end PascalX86
