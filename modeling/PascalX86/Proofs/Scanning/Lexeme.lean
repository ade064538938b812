import Mathlib.Data.List.TakeWhile
import PascalX86.Token.Scan

/-!
# Texts of tokens

What recognisers read hardly depends on the text after it: the characters of a token are the same
token before a blank. A text between tokens consists of blanks and comments.
-/

set_option autoImplicit false

namespace PascalX86

namespace Scan

/-- Texts that mean nothing, described apart from the scanning of them. -/
inductive Comment : List Char → Prop where
  | brace {body : List Char} (closed : '\x7d' ∉ body) : Comment ('\x7b' :: (body ++ ['\x7d']))
  | star {body : List Char} (closed : ¬ ['*', ')'] <:+: body ++ ['*']) :
      Comment ('(' :: '*' :: (body ++ ['*', ')']))
  | line {body : List Char} (closed : '\n' ∉ body) : Comment ('/' :: '/' :: (body ++ ['\n']))

inductive Filler : List Char → Prop where
  | nil : Filler []
  | blank {c : Char} {rest : List Char} (blank : Text.isBlank c = true) (after : Filler rest) :
      Filler (c :: rest)
  | comment {text rest : List Char} (comment : Comment text) (after : Filler rest) :
      Filler (text ++ rest)

/-- A part of one line that does not end in a blank. -/
structure Closed (text : List Char) : Prop where
  line : '\n' ∉ text
  visible : ∀ c ∈ text.getLast?, Text.isBlank c = false

/-- A text that is one token by itself. -/
inductive Lexeme (t : Token) : List Char → Prop where
  | read {c : Char} {tail : List Char} (visible : Text.isBlank c = false) (closed : Closed tail)
      (read : recognise c (tail ++ ['\n']) = ⟨tail.length, .token t⟩) : Lexeme t (c :: tail)

/-- A text of whole lines. -/
def Lined (text : List Char) : Prop := ∀ c ∈ text.getLast?, c = '\n'

/-- A text that ends what is before it wherever the other one does: it starts with a blank or with the
same character. -/
def Follows (left left' : List Char) : Prop :=
  ∀ c ∈ left'.head?, Text.isBlank c = true ∨ left.head? = some c

/-- Whatever token a recogniser finds stands for itself: it is found again with another text after
it. -/
def Stands (recogniser : List Char → Reading) : Prop :=
  ∀ rest n t, recogniser rest = ⟨n, .token t⟩ →
    ∃ taken left, rest = taken ++ left ∧ taken.length = n ∧ Closed taken ∧
      ∀ left', Follows left left' → recogniser (taken ++ left') = ⟨n, .token t⟩

/-- A text that is read as one token where `rest` stands after it. -/
inductive Found (t : Token) : List Char → List Char → Prop where
  | read {c : Char} {tail rest : List Char} (visible : Text.isBlank c = false)
      (read : recognise c (tail ++ rest) = ⟨tail.length, .token t⟩) : Found t (c :: tail) rest

section Lines

variable {second text : List Char}

theorem Lined.right (first : List Char) (h : Lined (first ++ second)) : Lined second := by
  intro c mem
  refine h c ?_
  rw [Option.mem_def] at mem
  rw [List.getLast?_append, mem]
  rfl

theorem Lined.exists_init (h : Lined text) (some : text ≠ []) : ∃ init, text = init ++ ['\n'] := by
  refine ⟨text.dropLast, ?_⟩
  rw [← h _ (List.getLast?_eq_some_getLast some), List.dropLast_concat_getLast]

end Lines

section Characters

theorem isAlpha_iff (c : Char) :
    c.isAlpha = true ↔ 65 ≤ c.toNat ∧ c.toNat ≤ 90 ∨ 97 ≤ c.toNat ∧ c.toNat ≤ 122 := by
  change (decide (65 ≤ c.val ∧ c.val ≤ 90) || (decide (97 ≤ c.val) && decide (c.val ≤ 122))) = true ↔ _
  simp only [Bool.or_eq_true, Bool.and_eq_true, decide_eq_true_eq, UInt32.le_iff_toNat_le]
  rfl

theorem isDigit_iff (c : Char) : c.isDigit = true ↔ 48 ≤ c.toNat ∧ c.toNat ≤ 57 := by
  change (decide (48 ≤ c.val) && decide (c.val ≤ 57)) = true ↔ _
  simp only [Bool.and_eq_true, decide_eq_true_eq, UInt32.le_iff_toNat_le]
  rfl

theorem visible_of_isWordChar {c : Char} (h : isWordChar c = true) : Text.isBlank c = false := by
  simp only [isWordChar, Char.isAlphanum, Bool.or_eq_true, isAlpha_iff, isDigit_iff, beq_iff_eq] at h
  rcases h with h | rfl
  · simp only [Text.isBlank, Text.blanks, List.any_cons, List.any_nil, Text.CodeRange.holds,
      Bool.or_eq_false_iff, Bool.and_eq_false_iff, decide_eq_false_iff_not, and_true]
    omega
  · rfl

theorem isWordChar_of_isDigit {c : Char} (h : c.isDigit = true) : isWordChar c = true := by
  simp [isWordChar, Char.isAlphanum, h]

theorem isWordChar_of_isHexDigit {c : Char} (h : isHexDigit c = true) : isWordChar c = true := by
  simp only [isHexDigit, Bool.or_eq_true, Bool.and_eq_true, decide_eq_true_eq, or_assoc] at h
  rcases h with digit | letter
  · exact isWordChar_of_isDigit digit
  · have code : 97 ≤ c.toNat ∧ c.toNat ≤ 102 ∨ 65 ≤ c.toNat ∧ c.toNat ≤ 70 := letter
    have alpha : c.isAlpha = true := by
      rw [isAlpha_iff]
      omega
    simp [isWordChar, Char.isAlphanum, alpha]

end Characters

section Between

variable {first second text : List Char}

theorem Filler.append (h : Filler first) (h' : Filler second) : Filler (first ++ second) := by
  induction h with
  | nil => exact h'
  | blank blank _ ih => exact .blank blank ih
  | @comment text rest comment _ ih =>
      rw [List.append_assoc]
      exact .comment comment ih

theorem Comment.filler (h : Comment text) : Filler text :=
  List.append_nil text ▸ .comment h .nil

/-- What is between tokens does not start with a digit. -/
theorem Filler.eq_nil (h : Filler text) (digits : ∀ c ∈ text, c.isDigit = true) : text = [] := by
  cases h with
  | nil => rfl
  | @blank c rest blank after =>
      have visible := visible_of_isWordChar (isWordChar_of_isDigit (digits c List.mem_cons_self))
      rw [blank] at visible
      cases visible
  | comment comment after =>
      cases comment
      all_goals
        have digit := digits _ List.mem_cons_self
        cases digit

end Between

section Closing

variable {text first second : List Char}

theorem closed_nil : Closed [] := ⟨by simp, by simp⟩

theorem Closed.append (h : Closed first) (h' : Closed second) : Closed (first ++ second) := by
  refine ⟨by simp [h.line, h'.line], fun c mem => ?_⟩
  rw [List.getLast?_append, Option.mem_def, Option.or_eq_some_iff] at mem
  rcases mem with mem | ⟨-, mem⟩
  · exact h'.visible c mem
  · exact h.visible c mem

theorem Closed.cons (h : Closed text) {c : Char} (line : c ≠ '\n') (some : text ≠ []) :
    Closed (c :: text) := by
  refine ⟨by simp [h.line, line.symm], fun last mem => h.visible last ?_⟩
  obtain ⟨x, xs, rfl⟩ := List.exists_cons_of_ne_nil some
  rwa [List.getLast?_cons_cons] at mem

theorem closed_of_forall (visible : ∀ c ∈ text, Text.isBlank c = false) : Closed text := by
  refine ⟨fun mem => ?_, fun c mem => visible c (List.mem_of_getLast? mem)⟩
  have blank := visible _ mem
  rw [Text.isBlank_newline] at blank
  cases blank

theorem closed_of_words (word : ∀ c ∈ text, isWordChar c = true) : Closed text :=
  closed_of_forall fun c mem => visible_of_isWordChar (word c mem)

theorem closed_of_digits (digits : ∀ c ∈ text, c.isDigit = true) : Closed text :=
  closed_of_words fun c mem => isWordChar_of_isDigit (digits c mem)

theorem closed_singleton {c : Char} (visible : Text.isBlank c = false) : Closed [c] :=
  closed_of_forall (by simpa using visible)

theorem Lexeme.closed {t : Token} (h : Lexeme t text) : Closed text := by
  obtain ⟨visible, closed, -⟩ := h
  exact (closed_singleton visible).append closed

end Closing

section Runs

variable {p : Char → Bool} {run left : List Char}

/-- A run of characters ends where the text after it starts with another one. -/
theorem takeWhile_run (inside : ∀ c ∈ run, p c = true) (boundary : ∀ c ∈ left.head?, p c = false) :
    (run ++ left).takeWhile p = run ∧ (run ++ left).dropWhile p = left := by
  rw [List.takeWhile_append_of_pos inside, List.dropWhile_append_of_pos inside]
  cases left with
  | nil => simp
  | cons c left =>
      have stops : p c = false := boundary c rfl
      simp [stops]

theorem exists_run (p : Char → Bool) (text : List Char) :
    ∃ run left, text = run ++ left ∧ (∀ c ∈ run, p c = true) ∧
      ∀ c ∈ left.head?, p c = false := by
  refine ⟨text.takeWhile p, text.dropWhile p, List.takeWhile_append_dropWhile.symm, ?_, ?_⟩
  · exact fun c mem => List.mem_takeWhile_imp mem
  · intro c mem
    have stops := List.head?_dropWhile_not p text
    rw [Option.mem_def] at mem
    simpa [mem] using stops

end Runs

section Following

variable {left left' taken : List Char}

theorem follows_newline (left : List Char) : Follows left ['\n'] := by
  intro c mem
  obtain rfl : '\n' = c := by simpa using mem
  exact .inl Text.isBlank_newline

theorem Follows.append (h : Follows left left') : Follows (taken ++ left) (taken ++ left') := by
  cases taken with
  | nil => exact h
  | cons c taken => exact fun d mem => .inr mem

/-- No blank goes on with a run of other characters. -/
theorem Follows.boundary {p : Char → Bool} (h : Follows left left')
    (visible : ∀ c, p c = true → Text.isBlank c = false) (boundary : ∀ c ∈ left.head?, p c = false) :
    ∀ c ∈ left'.head?, p c = false := by
  intro c mem
  rcases h c mem with blank | same
  · cases inside : p c with
    | false => rfl
    | true =>
        rw [visible c inside] at blank
        cases blank
  · exact boundary c same

theorem Follows.ne_cons {d : Char} (h : Follows left left') (visible : Text.isBlank d = false)
    (other : ∀ rest, left = d :: rest → False) : ∀ rest, left' = d :: rest → False := by
  rintro rest rfl
  rcases h d rfl with blank | same
  · rw [visible] at blank
    cases blank
  · obtain ⟨rest, rfl⟩ := List.head?_eq_some_iff.mp same
    exact other rest rfl

theorem visible_of_isDigit (c : Char) (h : c.isDigit = true) : Text.isBlank c = false :=
  visible_of_isWordChar (isWordChar_of_isDigit h)

end Following

section Recognisers

theorem stands_hex : Stands hex := by
  intro rest n t h
  obtain ⟨digits, left, rfl, inside, boundary⟩ := exists_run isHexDigit rest
  simp only [hex, (takeWhile_run inside boundary).1] at h
  refine ⟨digits, left, rfl, ?_, ?_, ?_⟩
  · split at h <;> simp_all
  · exact closed_of_words fun c mem => isWordChar_of_isHexDigit (inside c mem)
  · intro left' follows
    have stops := follows.boundary (fun c hex => visible_of_isWordChar (isWordChar_of_isHexDigit hex)) boundary
    simpa only [hex, (takeWhile_run inside stops).1] using h

theorem stands_charCode : Stands charCode := by
  intro rest n t h
  obtain ⟨digits, left, rfl, inside, boundary⟩ := exists_run Char.isDigit rest
  simp only [charCode, (takeWhile_run inside boundary).1] at h
  refine ⟨digits, left, rfl, ?_, closed_of_digits inside, ?_⟩
  · split at h
    · cases h
    · split at h <;> cases h
      rfl
  · intro left' follows
    have stops := follows.boundary visible_of_isDigit boundary
    simpa only [charCode, (takeWhile_run inside stops).1] using h

theorem stands_word (c : Char) : Stands (word c) := by
  intro rest n t h
  obtain ⟨tail, left, rfl, inside, boundary⟩ := exists_run isWordChar rest
  simp only [word, (takeWhile_run inside boundary).1] at h
  refine ⟨tail, left, rfl, ?_, closed_of_words inside, ?_⟩
  · split at h <;> cases h <;> rfl
  · intro left' follows
    have stops := follows.boundary (fun c => visible_of_isWordChar) boundary
    simpa only [word, (takeWhile_run inside stops).1] using h

theorem quotation_eq_some {rest content : List Char} {n : Nat}
    (h : quotation rest = some (content, n)) :
    ∃ taken left, rest = taken ++ left ∧ taken.length = n ∧ taken ≠ [] ∧ Closed taken ∧
      ∀ left', Follows left left' → quotation (taken ++ left') = some (content, n) := by
  have quote : Closed ['\''] := closed_singleton (by decide)
  induction rest using quotation.induct generalizing content n with
  | case1 => cases h
  | case2 rest ih =>
      simp only [quotation, Option.map_eq_some_iff, Prod.mk.injEq, Prod.exists] at h
      obtain ⟨text, m, inner, rfl, rfl⟩ := h
      obtain ⟨taken, left, rfl, rfl, -, closed, again⟩ := ih inner
      refine ⟨'\'' :: '\'' :: taken, left, rfl, rfl, by simp, quote.append (quote.append closed), ?_⟩
      intro left' follows
      simp [quotation, again left' follows]
  | case3 rest single =>
      rw [quotation.eq_3 _ single] at h
      cases h
      refine ⟨['\''], rest, rfl, rfl, by simp, quote, fun left' follows => ?_⟩
      exact quotation.eq_3 _ (follows.ne_cons (by decide) single)
  | case4 => cases h
  | case5 c rest _ other line ih =>
      rw [quotation.eq_5 _ _ (fun _ eq _ => other eq) other line] at h
      simp only [Option.map_eq_some_iff, Prod.mk.injEq, Prod.exists] at h
      obtain ⟨text, m, inner, rfl, rfl⟩ := h
      obtain ⟨taken, left, rfl, rfl, some, closed, again⟩ := ih inner
      refine ⟨c :: taken, left, rfl, rfl, by simp, closed.cons line some, fun left' follows => ?_⟩
      rw [List.cons_append, quotation.eq_5 _ _ (fun _ eq _ => other eq) other line, again left' follows]
      rfl

theorem stands_quoted : Stands quoted := by
  intro rest n t h
  simp only [quoted] at h
  split at h
  · next content m found =>
    cases h
    obtain ⟨taken, left, rfl, rfl, -, closed, again⟩ := quotation_eq_some found
    exact ⟨taken, left, rfl, rfl, closed, fun left' follows => by simp [quoted, again left' follows]⟩
  · cases h

end Recognisers

section Numbers

variable {whole fraction text left : List Char}

theorem signs_of_digit {c : Char} (digit : c.isDigit = true) : (c == '+' || c == '-') = false := by
  rw [Bool.or_eq_false_iff, beq_eq_false_iff_ne, beq_eq_false_iff_ne]
  constructor <;> rintro rfl <;> cases digit

/-- The digits of an exponent after its sign. -/
theorem exponent_signed (mark : Char) {sign digits : List Char}
    (signed : sign = [] ∨ sign = ['+'] ∨ sign = ['-']) (some : digits ≠ [])
    (inside : ∀ c ∈ digits, c.isDigit = true) (boundary : ∀ c ∈ left.head?, c.isDigit = false) :
    exponent whole fraction text (mark :: (sign ++ (digits ++ left))) =
      ⟨text.length + (sign ++ digits).length,
        double whole fraction
          (if sign == ['-'] then -(valueIn 10 digits : Int) else (valueIn 10 digits : Int))
          (text ++ 'e' :: sign ++ digits)⟩ := by
  have found : ((sign ++ (digits ++ left)).take 1).filter (fun c => c == '+' || c == '-') = sign := by
    rcases signed with rfl | rfl | rfl
    · obtain ⟨d, more, rfl⟩ := List.exists_cons_of_ne_nil some
      simp [signs_of_digit (inside d List.mem_cons_self)]
    · rfl
    · rfl
  simp only [exponent, List.drop_succ_cons, List.drop_zero, found, Nat.add_comm 1, List.drop_left,
    (takeWhile_run inside boundary).1, List.isEmpty_eq_false_iff.mpr some]
  simp

theorem exponent_eq_token {rest : List Char} {n : Nat} {t : Token} {mark : Char}
    (h : exponent whole fraction text (mark :: rest) = ⟨n, .token t⟩) :
    ∃ sign digits left, rest = sign ++ (digits ++ left) ∧
      (sign = [] ∨ sign = ['+'] ∨ sign = ['-']) ∧ digits ≠ [] ∧
      (∀ c ∈ digits, c.isDigit = true) ∧ ∀ c ∈ left.head?, c.isDigit = false := by
  obtain ⟨sign, found⟩ : ∃ sign, ((rest.take 1).filter fun c => c == '+' || c == '-') = sign :=
    ⟨_, rfl⟩
  obtain ⟨signed, split⟩ : (sign = [] ∨ sign = ['+'] ∨ sign = ['-']) ∧
      rest = sign ++ rest.drop sign.length := by
    cases rest with
    | nil =>
        cases found
        simp
    | cons c rest =>
        rw [List.take_succ_cons, List.take_zero, List.filter_cons, List.filter_nil] at found
        split at found
        · next marked =>
          subst found
          simpa using marked
        · subst found
          simp
  obtain ⟨digits, left, eq, inside, boundary⟩ := exists_run Char.isDigit (rest.drop sign.length)
  refine ⟨sign, digits, left, eq ▸ split, signed, fun none => ?_, inside, boundary⟩
  have read : ((mark :: rest).drop (1 + sign.length)).takeWhile Char.isDigit = [] := by
    rw [Nat.add_comm, List.drop_succ_cons, eq, (takeWhile_run inside boundary).1, none]
  simp only [exponent, List.drop_succ_cons, List.drop_zero, found] at h
  simp only [read] at h
  cases h

/-- What a number may go on with after its first digits. -/
def numeral (whole : List Char) : List Char → Reading
  | '.' :: '.' :: _ =>
      match integer 10 whole with
      | .ok t => ⟨whole.length + 1, .rangeFrom t⟩
      | .error e => ⟨whole.length, .failed e⟩
  | '.' :: after =>
      let fraction := after.takeWhile Char.isDigit
      let text := whole ++ '.' :: fraction
      if fraction.isEmpty then
        ⟨whole.length, .failed (.malformedNumber (String.ofList text))⟩
      else
        let ahead := after.dropWhile Char.isDigit
        match ahead with
        | mark :: _ =>
            if isExponentMark mark then exponent whole fraction text ahead
            else ⟨text.length - 1, double whole fraction 0 text⟩
        | [] => ⟨text.length - 1, double whole fraction 0 text⟩
  | mark :: after =>
      if isExponentMark mark then exponent whole [] whole (mark :: after)
      else ⟨whole.length - 1, meaningOf (integer 10 whole)⟩
  | [] => ⟨whole.length - 1, meaningOf (integer 10 whole)⟩

theorem number_eq_numeral (c : Char) (rest : List Char) :
    number c rest = numeral (c :: rest.takeWhile Char.isDigit) (rest.dropWhile Char.isDigit) := rfl

/-- What a number may go on with after the digits of its fraction. -/
def fractional (whole fraction : List Char) : List Char → Reading
  | mark :: after =>
      let text := whole ++ '.' :: fraction
      if isExponentMark mark then exponent whole fraction text (mark :: after)
      else ⟨text.length - 1, double whole fraction 0 text⟩
  | [] =>
      let text := whole ++ '.' :: fraction
      ⟨text.length - 1, double whole fraction 0 text⟩

theorem numeral_fraction (some : fraction ≠ []) (inside : ∀ c ∈ fraction, c.isDigit = true)
    (boundary : ∀ c ∈ left.head?, c.isDigit = false) :
    numeral whole ('.' :: (fraction ++ left)) = fractional whole fraction left := by
  obtain ⟨d, digits, rfl⟩ := List.exists_cons_of_ne_nil some
  have single : ∀ rest, d :: digits ++ left = '.' :: rest → False := by
    intro rest eq
    have digit := inside d List.mem_cons_self
    rw [(List.cons_eq_cons.mp eq).1] at digit
    cases digit
  rw [numeral.eq_2 _ _ single, (takeWhile_run inside boundary).1, (takeWhile_run inside boundary).2]
  cases left <;> rfl

theorem numeral_exponent {mark : Char} (marked : isExponentMark mark = true) (after : List Char) :
    numeral whole (mark :: after) = exponent whole [] whole (mark :: after) := by
  have other : mark ≠ '.' := by
    rintro rfl
    cases marked
  rw [numeral.eq_3 _ _ _ (fun _ eq _ => other eq) (fun eq => other eq), if_pos marked]

/-- Two points after a number are not part of it, and one alone is no fraction. -/
theorem numeral_point (boundary : ∀ c ∈ left.head?, c.isDigit = false) (n : Nat) (t : Token) :
    numeral whole ('.' :: left) ≠ ⟨n, .token t⟩ := by
  intro h
  cases left with
  | nil => cases h
  | cons c left =>
      by_cases two : c = '.'
      · subst two
        simp only [numeral] at h
        split at h <;> cases h
      · have none := (takeWhile_run (List.forall_mem_nil _) boundary).1
        rw [List.nil_append] at none
        rw [numeral.eq_2 _ _ fun _ eq => two (List.cons_eq_cons.mp eq).1, none] at h
        cases h

theorem not_digit_newline : ∀ c ∈ ['\n'].head?, c.isDigit = false := by simp

theorem visible_of_isExponentMark {c : Char} (h : isExponentMark c = true) : Text.isBlank c = false := by
  simp only [isExponentMark, Bool.or_eq_true, beq_iff_eq] at h
  rcases h with rfl | rfl <;> rfl

/-- What goes on with an integer: a point or an exponent. -/
def isNumeralMark (c : Char) : Bool := c == '.' || isExponentMark c

theorem visible_of_isNumeralMark (c : Char) (h : isNumeralMark c = true) : Text.isBlank c = false := by
  simp only [isNumeralMark, Bool.or_eq_true, beq_iff_eq] at h
  rcases h with rfl | marked
  · rfl
  · exact visible_of_isExponentMark marked

theorem numeral_stop (stops : ∀ c ∈ left.head?, isNumeralMark c = false) :
    numeral whole left = ⟨whole.length - 1, meaningOf (integer 10 whole)⟩ := by
  cases left with
  | nil => rfl
  | cons c left =>
      have stops := stops c rfl
      simp only [isNumeralMark, Bool.or_eq_false_iff, beq_eq_false_iff_ne] at stops
      rw [numeral.eq_3 _ _ _ (fun _ eq _ => stops.1 eq) (fun eq => stops.1 eq), if_neg (by simp [stops.2])]

theorem fractional_stop (stops : ∀ c ∈ left.head?, isExponentMark c = false) :
    fractional whole fraction left =
      ⟨(whole ++ '.' :: fraction).length - 1, double whole fraction 0 (whole ++ '.' :: fraction)⟩ := by
  cases left with
  | nil => rfl
  | cons c left => simp only [fractional, if_neg (Bool.eq_false_iff.mp (stops c rfl))]

theorem stands_exponent {rest : List Char} {mark : Char} {n : Nat} {t : Token}
    (h : exponent whole fraction text (mark :: rest) = ⟨n, .token t⟩) :
    ∃ taken left, rest = taken ++ left ∧ text.length + taken.length = n ∧ taken ≠ [] ∧ Closed taken ∧
      ∀ left', Follows left left' →
        exponent whole fraction text (mark :: (taken ++ left')) = ⟨n, .token t⟩ := by
  obtain ⟨sign, digits, left, rfl, signed, some, inside, boundary⟩ := exponent_eq_token h
  rw [exponent_signed mark signed some inside boundary] at h
  have line : Closed sign := by
    rcases signed with rfl | rfl | rfl
    · exact closed_nil
    · exact closed_singleton (by decide)
    · exact closed_singleton (by decide)
  refine ⟨sign ++ digits, left, by simp, congrArg Reading.length h, by simp [some],
    line.append (closed_of_digits inside), fun left' follows => ?_⟩
  have stops := follows.boundary visible_of_isDigit boundary
  rw [List.append_assoc, exponent_signed mark signed some inside stops, h]

theorem stands_fractional {n : Nat} {t : Token} (h : fractional whole fraction left = ⟨n, .token t⟩) :
    ∃ taken rest, left = taken ++ rest ∧ whole.length + fraction.length + taken.length = n ∧
      Closed taken ∧
      ∀ rest', Follows rest rest' → fractional whole fraction (taken ++ rest') = ⟨n, .token t⟩ := by
  by_cases stops : ∀ c ∈ left.head?, isExponentMark c = false
  · rw [fractional_stop stops] at h
    refine ⟨[], left, rfl, by simpa using congrArg Reading.length h, closed_nil, fun left' follows => ?_⟩
    exact (fractional_stop (follows.boundary (fun c => visible_of_isExponentMark) stops)).trans h
  · obtain ⟨mark, head, marked⟩ : ∃ c ∈ left.head?, isExponentMark c = true := by simpa using stops
    obtain ⟨after, rfl⟩ := List.head?_eq_some_iff.mp head
    simp only [fractional, if_pos marked] at h
    obtain ⟨taken, rest, rfl, rfl, some, closed, again⟩ := stands_exponent h
    have other : mark ≠ '\n' := by
      rintro rfl
      cases marked
    refine ⟨mark :: taken, rest, rfl, ?_, closed.cons other some, fun rest' follows => ?_⟩
    · simp
      omega
    · simpa only [List.cons_append, fractional, if_pos marked] using again rest' follows

theorem stands_numeral {tail : List Char} {n : Nat} {t : Token} (start : whole ≠ [])
    (h : numeral whole tail = ⟨n, .token t⟩) :
    ∃ taken left, tail = taken ++ left ∧ whole.length - 1 + taken.length = n ∧ Closed taken ∧
      ∀ left', Follows left left' → numeral whole (taken ++ left') = ⟨n, .token t⟩ := by
  have first : 0 < whole.length := List.length_pos_iff.mpr start
  by_cases stops : ∀ c ∈ tail.head?, isNumeralMark c = false
  · rw [numeral_stop stops] at h
    refine ⟨[], tail, rfl, congrArg Reading.length h, closed_nil, fun left' follows => ?_⟩
    exact (numeral_stop (follows.boundary visible_of_isNumeralMark stops)).trans h
  · obtain ⟨mark, head, marked⟩ : ∃ c ∈ tail.head?, isNumeralMark c = true := by simpa using stops
    obtain ⟨after, rfl⟩ := List.head?_eq_some_iff.mp head
    by_cases point : mark = '.'
    · subst point
      obtain ⟨fraction, ahead, rfl, inside, boundary⟩ := exists_run Char.isDigit after
      by_cases none : fraction = []
      · subst none
        exact absurd h (numeral_point boundary n t)
      · rw [numeral_fraction none inside boundary] at h
        obtain ⟨taken, rest, rfl, rfl, closed, again⟩ := stands_fractional h
        have digits := closed_of_digits inside
        refine ⟨'.' :: (fraction ++ taken), rest, by simp, ?_, ?_, fun rest' follows => ?_⟩
        · simp
          omega
        · exact (digits.append closed).cons (by decide) (by simp [none])
        · have stops := follows.append.boundary visible_of_isDigit boundary
          rw [List.cons_append, List.append_assoc, numeral_fraction none inside stops, again rest' follows]
    · have marked : isExponentMark mark = true := by simpa [isNumeralMark, point] using marked
      rw [numeral_exponent marked] at h
      obtain ⟨taken, rest, rfl, rfl, some, closed, again⟩ := stands_exponent h
      have other : mark ≠ '\n' := by
        rintro rfl
        cases marked
      refine ⟨mark :: taken, rest, rfl, ?_, closed.cons other some, fun rest' follows => ?_⟩
      · simp
        omega
      · rw [List.cons_append, numeral_exponent marked, again rest' follows]

theorem stands_number (c : Char) : Stands (number c) := by
  intro rest n t h
  obtain ⟨digits, tail, rfl, inside, boundary⟩ := exists_run Char.isDigit rest
  rw [number_eq_numeral, (takeWhile_run inside boundary).1, (takeWhile_run inside boundary).2] at h
  obtain ⟨taken, left, rfl, rfl, closed, again⟩ := stands_numeral (by simp) h
  refine ⟨digits ++ taken, left, by simp, by simp, (closed_of_digits inside).append closed, ?_⟩
  intro left' follows
  have stops := follows.append.boundary visible_of_isDigit boundary
  rw [number_eq_numeral, List.append_assoc, (takeWhile_run inside stops).1,
    (takeWhile_run inside stops).2, again left' follows]

end Numbers

section Recognition

variable {c : Char} {rest : List Char} {n : Nat} {t : Token}

theorem recognise_of_isLetter (letter : isLetter c = true) : recognise c = word c := by
  funext rest
  unfold recognise
  split
  case h_20 => exact if_pos letter
  all_goals cases letter

theorem recognise_of_isDigit (digit : c.isDigit = true) : recognise c = number c := by
  have letter : ¬ isLetter c = true := by
    simp only [isLetter, Bool.or_eq_true, isAlpha_iff, beq_iff_eq]
    rw [isDigit_iff] at digit
    rintro (letter | rfl)
    · omega
    · simp at digit
  funext rest
  unfold recognise
  split
  case h_20 => rw [if_neg letter, if_pos digit]
  all_goals cases digit

theorem stands_mark {m : Mark} (h : sign 0 m = ⟨n, .token t⟩)
    (again : ∀ left', Follows rest left' → recognise c left' = sign 0 m) :
    ∃ taken left, rest = taken ++ left ∧ taken.length = n ∧ Closed taken ∧
      ∀ left', Follows left left' → recognise c (taken ++ left') = ⟨n, .token t⟩ :=
  ⟨[], rest, rfl, congrArg Reading.length h, closed_nil, fun left' follows => (again left' follows).trans h⟩

theorem stands_pair {d : Char} {m : Mark} (visible : Text.isBlank d = false)
    (h : sign 1 m = ⟨n, .token t⟩) (again : ∀ left', recognise c (d :: left') = sign 1 m) :
    ∃ taken left, d :: rest = taken ++ left ∧ taken.length = n ∧ Closed taken ∧
      ∀ left', Follows left left' → recognise c (taken ++ left') = ⟨n, .token t⟩ :=
  ⟨[d], rest, rfl, congrArg Reading.length h, closed_singleton visible, fun left' _ => (again left').trans h⟩

theorem stands_recognise (c : Char) : Stands (recognise c) := by
  intro rest n t h
  unfold recognise at h
  split at h
  case h_10 =>
    split at h
    · simp only [comment] at h
      split at h <;> cases h
    · next other =>
      refine stands_mark h fun left' follows => ?_
      have other := follows.ne_cons (by decide) other
      simp only [recognise]
  case h_11 | h_13 | h_14 =>
    split at h
    · exact stands_pair (by decide) h fun _ => rfl
    · next other =>
      refine stands_mark h fun left' follows => ?_
      have other := follows.ne_cons (by decide) other
      simp only [recognise]
  case h_12 =>
    split at h
    · exact stands_pair (by decide) h fun _ => rfl
    · exact stands_pair (by decide) h fun _ => rfl
    · next other other' =>
      refine stands_mark h fun left' follows => ?_
      have other := follows.ne_cons (by decide) other
      have other' := follows.ne_cons (by decide) other'
      simp only [recognise]
  case h_15 =>
    split at h
    · cases h
    · next other =>
      refine stands_mark h fun left' follows => ?_
      have other := follows.ne_cons (by decide) other
      simp only [recognise]
  case h_16 =>
    simp only [comment] at h
    split at h <;> cases h
  case h_17 => exact stands_hex rest n t h
  case h_18 => exact stands_charCode rest n t h
  case h_19 => exact stands_quoted rest n t h
  case h_20 =>
    split at h
    · next letter =>
      rw [recognise_of_isLetter letter]
      exact stands_word _ rest n t h
    · split at h
      · next digit =>
        rw [recognise_of_isDigit digit]
        exact stands_number _ rest n t h
      · cases h
  all_goals exact stands_mark h fun _ _ => rfl

theorem Found.follow {t : Token} {text left left' : List Char} (h : Found t text left)
    (follows : Follows left left') : Found t text left' := by
  obtain ⟨visible, read⟩ := h
  obtain ⟨taken, back, split, length, -, again⟩ := stands_recognise _ _ _ _ read
  obtain ⟨rfl, rfl⟩ := List.append_inj split length.symm
  exact .read visible (again left' follows)

theorem Found.lexeme {t : Token} {text left : List Char} (h : Found t text left) : Lexeme t text := by
  obtain ⟨visible, read⟩ := h
  obtain ⟨taken, back, split, length, closed, again⟩ := stands_recognise _ _ _ _ read
  obtain ⟨rfl, rfl⟩ := List.append_inj split length.symm
  exact .read visible closed (again _ (follows_newline _))

theorem Lexeme.found {t : Token} {text left : List Char} (h : Lexeme t text)
    (follows : Follows ['\n'] left) : Found t text left := by
  obtain ⟨visible, -, read⟩ := h
  exact (Found.read visible read).follow follows

/-- A token or an error, which is all that most recognisers find. -/
def Meaning.Decides : Meaning → Prop
  | .token _ | .failed _ => True
  | .skipped | .rangeFrom _ => False

theorem Meaning.Decides.elim {P : Prop} {r : Reading} {m : Meaning} (decides : r.meaning.Decides)
    (h : r = ⟨n, m⟩) (other : ¬ m.Decides) : P := by
  rw [h] at decides
  exact absurd decides other

theorem decides_meaningOf (result : Except LexicalError Token) : (meaningOf result).Decides := by
  cases result <;> trivial

theorem decides_double (whole fraction : List Char) (exponent : Int) (text : List Char) :
    (double whole fraction exponent text).Decides := by
  unfold double
  split <;> trivial

theorem decides_word (c : Char) (rest : List Char) : (word c rest).meaning.Decides := by
  unfold word
  dsimp only
  split <;> trivial

theorem decides_hex (rest : List Char) : (hex rest).meaning.Decides := by
  unfold hex
  dsimp only
  split
  · trivial
  · exact decides_meaningOf _

theorem decides_charCode (rest : List Char) : (charCode rest).meaning.Decides := by
  unfold charCode
  dsimp only
  split
  · trivial
  · split <;> trivial

theorem decides_quoted (rest : List Char) : (quoted rest).meaning.Decides := by
  unfold quoted
  split <;> trivial

theorem decides_exponent (whole fraction text rest : List Char) :
    (exponent whole fraction text rest).meaning.Decides := by
  unfold exponent
  dsimp only
  split
  · trivial
  · exact decides_double ..

/-- Only two points right after a number make it a range. -/
theorem numeral_decides (whole tail : List Char) :
    (numeral whole tail).meaning.Decides ∨ ∃ left t, tail = '.' :: '.' :: left ∧
      integer 10 whole = .ok t ∧ numeral whole tail = ⟨whole.length + 1, .rangeFrom t⟩ := by
  unfold numeral
  split
  · next left =>
    split
    · next t value => exact .inr ⟨left, t, rfl, value, rfl⟩
    · exact .inl trivial
  · left
    dsimp only
    split
    · trivial
    · split
      · split
        · exact decides_exponent ..
        · exact decides_double ..
      · exact decides_double ..
  · left
    split
    · exact decides_exponent ..
    · exact decides_meaningOf _
  · exact .inl (decides_meaningOf _)

theorem braceComment_eq_some (h : braceComment rest = some n) :
    ∃ body left, rest = body ++ '\x7d' :: left ∧ body.length + 1 = n ∧ '\x7d' ∉ body := by
  induction rest using braceComment.induct generalizing n with
  | case1 => cases h
  | case2 left =>
      cases h
      exact ⟨[], left, rfl, rfl, by simp⟩
  | case3 c rest other ih =>
      rw [braceComment.eq_3 _ _ other, Option.map_eq_some_iff] at h
      obtain ⟨m, inner, rfl⟩ := h
      obtain ⟨body, left, rfl, rfl, open'⟩ := ih inner
      refine ⟨c :: body, left, rfl, rfl, ?_⟩
      rw [List.mem_cons, not_or]
      exact ⟨fun eq => other eq.symm, open'⟩

theorem starComment_eq_some (h : starComment rest = some n) :
    ∃ body left, rest = body ++ '*' :: ')' :: left ∧ body.length + 2 = n ∧
      ¬ ['*', ')'] <:+: body ++ ['*'] := by
  induction rest using starComment.induct generalizing n with
  | case1 => cases h
  | case2 left =>
      cases h
      exact ⟨[], left, rfl, rfl, by decide⟩
  | case3 c rest other ih =>
      rw [starComment.eq_3 _ _ other, Option.map_eq_some_iff] at h
      obtain ⟨m, inner, rfl⟩ := h
      obtain ⟨body, left, rfl, rfl, open'⟩ := ih inner
      refine ⟨c :: body, left, rfl, rfl, ?_⟩
      rw [List.cons_append, List.infix_cons_iff, not_or]
      refine ⟨fun start => ?_, open'⟩
      -- The closing pair would have been found at the first character already.
      obtain ⟨eq, close⟩ := List.cons_prefix_cons.mp start
      cases body with
      | nil => cases (List.cons_prefix_cons.mp close).1
      | cons d body =>
          obtain ⟨rfl, -⟩ := List.cons_prefix_cons.mp close
          exact other _ eq.symm rfl

theorem lineComment_eq {init : List Char} :
    ∃ body left, init ++ ['\n'] = body ++ '\n' :: left ∧ '\n' ∉ body ∧
      lineComment ('/' :: (init ++ ['\n'])) = ⟨body.length + 2, .skipped⟩ := by
  obtain ⟨body, left, eq, inside, boundary⟩ := exists_run (· != '\n') (init ++ ['\n'])
  have open' : '\n' ∉ body := fun mem => by simpa using inside '\n' mem
  cases left with
  | nil =>
      rw [List.append_nil] at eq
      exact absurd (eq ▸ List.mem_append_right init List.mem_cons_self) open'
  | cons c left =>
      obtain rfl : c = '\n' := by simpa using boundary c rfl
      refine ⟨body, left, eq, open', ?_⟩
      rw [eq, lineComment, List.takeWhile_cons_of_pos (by decide), (takeWhile_run inside boundary).1]
      simp

theorem recognise_skipped (h : recognise c rest = ⟨n, .skipped⟩)
    (line : Lined rest) :
    ∃ taken left, rest = taken ++ left ∧ taken.length = n ∧ Comment (c :: taken) := by
  unfold recognise at h
  split at h
  case h_10 =>
    split at h
    · next inner =>
      simp only [comment] at h
      split at h
      · next m found =>
        cases h
        obtain ⟨body, left, rfl, rfl, closed⟩ := starComment_eq_some found
        refine ⟨'*' :: (body ++ ['*', ')']), left, by simp, ?_, .star closed⟩
        simp
        omega
      · cases h
    · cases h
  case h_11 | h_13 | h_14 => split at h <;> cases h
  case h_12 => split at h <;> cases h
  case h_15 =>
    split at h
    · next tail =>
      have some : tail ≠ [] := by
        rintro rfl
        cases line '/' rfl
      obtain ⟨init, rfl⟩ := (Lined.right ['/'] line).exists_init some
      obtain ⟨body, left, split, open', read⟩ := @lineComment_eq init
      rw [read] at h
      refine ⟨'/' :: (body ++ ['\n']), left, by simp [split], ?_, .line open'⟩
      simpa using congrArg Reading.length h
    · cases h
  case h_16 =>
    simp only [comment] at h
    split at h
    · next m found =>
      cases h
      obtain ⟨body, left, rfl, rfl, closed⟩ := braceComment_eq_some found
      refine ⟨body ++ ['\x7d'], left, by simp, ?_, .brace closed⟩
      simp
    · cases h
  case h_17 => exact (decides_hex rest).elim h id
  case h_18 => exact (decides_charCode rest).elim h id
  case h_19 => exact (decides_quoted rest).elim h id
  case h_20 =>
    split at h
    · exact (decides_word _ rest).elim h id
    · split at h
      · rw [number_eq_numeral] at h
        rcases numeral_decides _ _ with decides | ⟨left, t, -, -, eq⟩
        · exact decides.elim h id
        · rw [eq] at h
          cases h
      · cases h
  all_goals cases h

theorem exists_of_integer {base : Nat} {digits : List Char} (h : integer base digits = .ok t) :
    ∃ m, t = .integer m := by
  simp only [integer] at h
  split at h <;> cases h
  exact ⟨_, rfl⟩

theorem isDigit_of_rangeFrom (h : recognise c rest = ⟨n, .rangeFrom t⟩) : c.isDigit = true := by
  unfold recognise at h
  split at h
  case h_10 =>
    split at h
    · simp only [comment] at h
      split at h <;> cases h
    · cases h
  case h_11 | h_12 | h_13 | h_14 | h_15 => split at h <;> cases h
  case h_16 =>
    simp only [comment] at h
    split at h <;> cases h
  case h_17 => exact (decides_hex rest).elim h id
  case h_18 => exact (decides_charCode rest).elim h id
  case h_19 => exact (decides_quoted rest).elim h id
  case h_20 =>
    split at h
    · exact (decides_word _ rest).elim h id
    · split at h
      · assumption
      · cases h
  all_goals cases h

theorem recognise_rangeFrom (h : recognise c rest = ⟨n, .rangeFrom t⟩) :
    c.isDigit = true ∧ ∃ digits left, rest = digits ++ '.' :: '.' :: left ∧ digits.length + 2 = n ∧
      (∀ d ∈ digits, d.isDigit = true) ∧ (∃ m, t = .integer m) ∧
      recognise c (digits ++ ['\n']) = ⟨digits.length, .token t⟩ := by
  have digit := isDigit_of_rangeFrom h
  refine ⟨digit, ?_⟩
  rw [recognise_of_isDigit digit] at h ⊢
  obtain ⟨digits, tail, rfl, inside, boundary⟩ := exists_run Char.isDigit rest
  rw [number_eq_numeral, (takeWhile_run inside boundary).1, (takeWhile_run inside boundary).2] at h
  rcases numeral_decides (c :: digits) tail with decides | ⟨left, u, rfl, value, eq⟩
  · exact decides.elim h id
  · rw [eq] at h
    cases h
    refine ⟨digits, left, rfl, rfl, inside, exists_of_integer value, ?_⟩
    rw [number_eq_numeral, (takeWhile_run inside not_digit_newline).1,
      (takeWhile_run inside not_digit_newline).2]
    show (⟨digits.length, meaningOf (integer 10 (c :: digits))⟩ : Reading) = _
    rw [value]
    rfl

end Recognition

end Scan

end PascalX86
