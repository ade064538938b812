import PascalX86.Proofs.Scanning.Items
import PascalX86.Proofs.Scanning.Lexeme
import PascalX86.Proofs.Spelling.Small

/-!
# Scanning without case

A text in small letters, its quoted literals excepted, has the same tokens, with the names in small
letters.
-/

set_option autoImplicit false

namespace PascalX86

open Spelled (small)

namespace Scan

/-- Where a character of a text stands. A quoted literal is closed on the line where it is opened. -/
inductive Region where
  | code | opened | slashed | quote | brace | star | starred | line
  deriving DecidableEq, Repr

/-- Where the text after a character stands. -/
def Region.next (rest : List Char) : Region → Char → Region
  | .quote, c => if c = '\'' then .code else .quote
  | .brace, c => if c = '\x7d' then .code else .brace
  | .star, c => if c = '*' then .starred else .star
  | .starred, c => if c = ')' then .code else if c = '*' then .starred else .star
  | .line, c => if c = '\n' then .code else .line
  | .opened, c => if c = '*' then .star else code c
  | .slashed, c => if c = '/' then .line else code c
  | .code, c => code c
where
  code (c : Char) : Region :=
    if c = '\x7b' then .brace
    else if c = '(' then .opened
    else if c = '/' then .slashed
    else if c = '\'' ∧ (quotation rest).isSome then .quote
    else .code

/-- The text with small letters outside of quoted literals. -/
def uncased (r : Region) : List Char → List Char
  | [] => []
  | c :: rest => (if r = .quote then c else c.toLower) :: uncased (r.next rest c) rest

instance : Spelled Meaning where
  small
    | .skipped => .skipped
    | .token t => .token (small t)
    | .rangeFrom t => .rangeFrom (small t)
    | .failed e => .failed e

instance : Spelled Reading := ⟨fun r => ⟨r.length, small r.meaning⟩⟩

section Letters

variable {c d : Char}

theorem toLower_of_not_isAlpha (other : c.isAlpha = false) : c.toLower = c := by
  rcases toLower_cases c with ⟨low, high, -⟩ | ⟨-, same⟩
  · rw [(isAlpha_iff c).mpr (.inl ⟨low, high⟩)] at other
    cases other
  · exact same

theorem isAlpha_toLower (c : Char) : c.toLower.isAlpha = c.isAlpha := by
  rw [Bool.eq_iff_iff, isAlpha_iff, isAlpha_iff]
  rcases toLower_cases c with ⟨low, high, code⟩ | ⟨-, same⟩
  · omega
  · rw [same]

/-- Only letters have another case. -/
theorem toLower_eq_iff (other : d.isAlpha = false) : c.toLower = d ↔ c = d := by
  refine ⟨fun eq => ?_, fun eq => eq ▸ toLower_of_not_isAlpha (eq ▸ other)⟩
  rw [← eq, isAlpha_toLower] at other
  rwa [toLower_of_not_isAlpha other] at eq

theorem isDigit_toLower (c : Char) : c.toLower.isDigit = c.isDigit := by
  rw [Bool.eq_iff_iff, isDigit_iff, isDigit_iff]
  rcases toLower_cases c with ⟨low, high, code⟩ | ⟨-, same⟩
  · omega
  · rw [same]

theorem beq_toLower (other : d.isAlpha = false) : (c.toLower == d) = (c == d) := by
  rw [Bool.eq_iff_iff, beq_iff_eq, beq_iff_eq]
  exact toLower_eq_iff other

theorem isLetter_toLower (c : Char) : isLetter c.toLower = isLetter c := by
  rw [isLetter, isAlpha_toLower, beq_toLower rfl, isLetter]

theorem isWordChar_toLower (c : Char) : isWordChar c.toLower = isWordChar c := by
  rw [isWordChar, Char.isAlphanum, isAlpha_toLower, isDigit_toLower, beq_toLower rfl, isWordChar,
    Char.isAlphanum]

theorem isHexDigit_iff (c : Char) : isHexDigit c = true ↔
    48 ≤ c.toNat ∧ c.toNat ≤ 57 ∨ 97 ≤ c.toNat ∧ c.toNat ≤ 102 ∨ 65 ≤ c.toNat ∧ c.toNat ≤ 70 := by
  simp only [isHexDigit, Bool.or_eq_true, Bool.and_eq_true, decide_eq_true_eq, or_assoc, isDigit_iff]
  rfl

theorem isHexDigit_toLower (c : Char) : isHexDigit c.toLower = isHexDigit c := by
  rw [Bool.eq_iff_iff, isHexDigit_iff, isHexDigit_iff]
  rcases toLower_cases c with ⟨low, high, code⟩ | ⟨-, same⟩
  · omega
  · rw [same]

theorem digitValue_toLower (c : Char) : digitValue c.toLower = digitValue c := by
  rcases toLower_cases c with ⟨low, high, code⟩ | ⟨-, same⟩
  · have digit : c.isDigit = false := by
      rw [← Bool.not_eq_true, isDigit_iff]
      omega
    have small : 'a' ≤ c.toLower := show 97 ≤ c.toLower.toNat by omega
    have capital : ¬ 'a' ≤ c := show ¬ 97 ≤ c.toNat by omega
    rw [digitValue, digitValue, isDigit_toLower, digit, if_neg Bool.false_ne_true, if_neg Bool.false_ne_true,
      if_pos small, if_neg capital, code]
    change c.toNat + 32 - 97 + 10 = c.toNat - 65 + 10
    omega
  · rw [same]

theorem isExponentMark_toLower (c : Char) : isExponentMark c.toLower = isExponentMark c := by
  rcases toLower_cases c with ⟨low, high, code⟩ | ⟨-, same⟩
  · have iff (d : Char) : isExponentMark d = true ↔ d.toNat = 101 ∨ d.toNat = 69 := by
      rw [isExponentMark, Bool.or_eq_true, beq_iff_eq, beq_iff_eq, ← Char.toNat_inj, ← Char.toNat_inj]
      rfl
    rw [Bool.eq_iff_iff, iff, iff]
    omega
  · rw [same]

theorem toLower_of_isDigit (digit : c.isDigit = true) : c.toLower = c := by
  refine toLower_of_not_isAlpha ?_
  rw [isDigit_iff] at digit
  rw [← Bool.not_eq_true, isAlpha_iff]
  omega

theorem after_toLower (p : Position) (c : Char) : p.after c.toLower = p.after c := by
  have newline : c.toLower = '\n' ↔ c = '\n' := toLower_eq_iff rfl
  have tab : c.toLower = '\t' ↔ c = '\t' := toLower_eq_iff rfl
  simp only [Position.after, newline, tab]

theorem isBlank_toLower (c : Char) : Text.isBlank c.toLower = Text.isBlank c := by
  rcases toLower_cases c with ⟨low, high, -⟩ | ⟨-, same⟩
  · have word : isWordChar c = true := by
      simp [isWordChar, Char.isAlphanum, (isAlpha_iff c).mpr (.inl ⟨low, high⟩)]
    rw [visible_of_isWordChar word, visible_of_isWordChar ((isWordChar_toLower c).trans word)]
  · rw [same]

end Letters

section Texts

variable {r : Region} {text run left : List Char} {c : Char}

theorem map_toLower_uncased (r : Region) (text : List Char) :
    (uncased r text).map Char.toLower = text.map Char.toLower := by
  induction text generalizing r with
  | nil => rfl
  | cons c rest ih =>
      rw [uncased, List.map_cons, List.map_cons, ih]
      split
      · rfl
      · rw [toLower_toLower]

theorem length_uncased (r : Region) (text : List Char) : (uncased r text).length = text.length := by
  simpa using congrArg List.length (map_toLower_uncased r text)

theorem walk_of_map_toLower {here : Position} {first second : List Char}
    (same : first.map Char.toLower = second.map Char.toLower) : walk here first = walk here second := by
  have lower (text : List Char) : walk here (text.map Char.toLower) = walk here text := by
    induction text generalizing here with
    | nil => rfl
    | cons c rest ih =>
        rw [List.map_cons, walk, List.foldl_cons, after_toLower]
        exact ih
  rw [← lower first, same, lower second]

/-- A character that neither opens nor closes anything. -/
def isPlain (c : Char) : Bool := c != '\x7b' && c != '(' && c != '/' && c != '\''

theorem next_of_isPlain (plain : isPlain c = true) (rest : List Char) :
    Region.next rest .code c = .code := by
  simp only [isPlain, Bool.and_eq_true, bne_iff_ne] at plain
  obtain ⟨⟨⟨brace, paren⟩, slash⟩, quote⟩ := plain
  simp [Region.next, Region.next.code, brace, paren, slash, quote]

theorem uncased_cons_of_isPlain (plain : isPlain c = true) (rest : List Char) :
    uncased .code (c :: rest) = c.toLower :: uncased .code rest := by
  rw [uncased, next_of_isPlain plain]
  rfl

theorem uncased_append (plain : ∀ c ∈ run, isPlain c = true) :
    uncased .code (run ++ left) = run.map Char.toLower ++ uncased .code left := by
  induction run with
  | nil => rfl
  | cons c run ih =>
      obtain ⟨first, others⟩ := List.forall_mem_cons.mp plain
      rw [List.cons_append, uncased_cons_of_isPlain first, ih others]
      rfl

theorem isPlain_of_isWordChar (word : isWordChar c = true) : isPlain c = true := by
  simp only [isPlain, Bool.and_eq_true, bne_iff_ne]
  refine ⟨⟨⟨?_, ?_⟩, ?_⟩, ?_⟩ <;> rintro rfl <;> cases word

end Texts


section Runs

variable {p : Char → Bool} {run left rest : List Char} {c : Char}

theorem boundary_uncased (same : ∀ c, p c.toLower = p c) (boundary : ∀ c ∈ left.head?, p c = false) :
    ∀ c ∈ (uncased .code left).head?, p c = false := by
  cases left with
  | nil => simp [uncased]
  | cons d left =>
      intro c mem
      obtain rfl : d.toLower = c := Option.some.inj mem
      rw [same, boundary d rfl]

/-- A run that is read ends at the same place in small letters. -/
theorem run_uncased (same : ∀ c, p c.toLower = p c) (plain : ∀ c, p c = true → isPlain c = true)
    (rest : List Char) :
    (uncased .code rest).takeWhile p = (rest.takeWhile p).map Char.toLower ∧
      (uncased .code rest).dropWhile p = uncased .code (rest.dropWhile p) := by
  obtain ⟨run, left, rfl, inside, boundary⟩ := exists_run p rest
  have inside' : ∀ c ∈ run.map Char.toLower, p c = true := by
    simpa [same] using inside
  rw [uncased_append fun c mem => plain c (inside c mem), (takeWhile_run inside boundary).1,
    (takeWhile_run inside boundary).2]
  exact takeWhile_run inside' (boundary_uncased same boundary)

theorem map_toLower_of_digits (digits : ∀ c ∈ run, c.isDigit = true) : run.map Char.toLower = run :=
  (List.map_congr_left fun c mem => toLower_of_isDigit (digits c mem)).trans (List.map_id run)

theorem isPlain_of_isDigit (c : Char) (digit : c.isDigit = true) : isPlain c = true :=
  isPlain_of_isWordChar (isWordChar_of_isDigit digit)

theorem digits_uncased (rest : List Char) :
    (uncased .code rest).takeWhile Char.isDigit = rest.takeWhile Char.isDigit ∧
      (uncased .code rest).dropWhile Char.isDigit = uncased .code (rest.dropWhile Char.isDigit) := by
  have runs := run_uncased isDigit_toLower isPlain_of_isDigit rest
  rwa [map_toLower_of_digits fun c mem => List.mem_takeWhile_imp mem] at runs

/-- A plain text is left behind alike. -/
theorem drop_uncased {taken : List Char} (plain : ∀ c ∈ taken, isPlain c = true) (left : List Char) :
    (uncased .code (taken ++ left)).drop taken.length = uncased .code left := by
  rw [uncased_append plain, ← List.length_map Char.toLower, List.drop_left]

theorem drop_run_uncased (plain : ∀ c, p c = true → isPlain c = true) (rest : List Char) :
    (uncased .code rest).drop (rest.takeWhile p).length =
      uncased .code (rest.drop (rest.takeWhile p).length) := by
  obtain ⟨run, left, eq, inside, boundary⟩ := exists_run p rest
  rw [eq, (takeWhile_run inside boundary).1, List.drop_left]
  exact drop_uncased (fun c mem => plain c (inside c mem)) left

theorem ne_of_map_toLower {text : List Char} {d : Char} (other : d.isAlpha = false)
    (none : ∀ rest, text = d :: rest → False) : ∀ rest, text.map Char.toLower = d :: rest → False := by
  intro rest eq
  cases text with
  | nil => cases eq
  | cons c text =>
      obtain ⟨first, -⟩ := List.cons_eq_cons.mp eq
      exact none text (by rw [(toLower_eq_iff other).mp first])

theorem uncased_ne_cons {text : List Char} {d : Char} {r : Region} (other : d.isAlpha = false)
    (none : ∀ rest, text = d :: rest → False) : ∀ rest, uncased r text = d :: rest → False := by
  intro rest eq
  refine ne_of_map_toLower other none (rest.map Char.toLower) ?_
  rw [← map_toLower_uncased r, eq, List.map_cons, toLower_of_not_isAlpha other]

theorem valueIn_map_toLower (base : Nat) (digits : List Char) :
    valueIn base (digits.map Char.toLower) = valueIn base digits := by
  simp only [valueIn, List.foldl_map, digitValue_toLower]

end Runs

/-- A reading that fails, or that leaves the same text behind in small letters. -/
def Leaves (r : Region) (rest : List Char) (reading : Reading) : Prop :=
  (∃ e, reading.meaning = .failed e) ∨
    (uncased r rest).drop reading.length = uncased .code (rest.drop reading.length)

section Recognisers

variable {c : Char} {rest text : List Char}

theorem small_meaningOf_integer (base : Nat) (digits : List Char) :
    small (meaningOf (integer base digits)) = meaningOf (integer base digits) := by
  dsimp only [integer]
  split <;> rfl

theorem integer_map_toLower (base : Nat) (digits : List Char) :
    integer base (digits.map Char.toLower) = integer base digits := by
  simp only [integer, valueIn_map_toLower]

theorem isPlain_of_isHexDigit (c : Char) (digit : isHexDigit c = true) : isPlain c = true :=
  isPlain_of_isWordChar (isWordChar_of_isHexDigit digit)

theorem hex_uncased (rest : List Char) :
    hex (uncased .code rest) = small (hex rest) ∧ Leaves .code rest (hex rest) := by
  have left := drop_run_uncased isPlain_of_isHexDigit rest
  simp only [hex, (run_uncased isHexDigit_toLower isPlain_of_isHexDigit rest).1, List.isEmpty_map]
  cases (rest.takeWhile isHexDigit).isEmpty with
  | true => exact ⟨rfl, .inl ⟨_, rfl⟩⟩
  | false =>
      refine ⟨?_, .inr left⟩
      rw [List.length_map, integer_map_toLower]
      exact congrArg (Reading.mk _) (small_meaningOf_integer 16 _).symm

theorem charCode_uncased (rest : List Char) :
    charCode (uncased .code rest) = small (charCode rest) ∧ Leaves .code rest (charCode rest) := by
  have left := drop_run_uncased isPlain_of_isDigit rest
  simp only [charCode, (digits_uncased rest).1]
  cases (rest.takeWhile Char.isDigit).isEmpty with
  | true => exact ⟨rfl, .inl ⟨_, rfl⟩⟩
  | false =>
      rw [if_neg Bool.false_ne_true]
      split
      · exact ⟨rfl, .inr left⟩
      · exact ⟨rfl, .inl ⟨_, rfl⟩⟩

theorem ofWord?_toLower (word : List Char) :
    Keyword.ofWord? (String.ofList (word.map Char.toLower)) = Keyword.ofWord? (String.ofList word) := by
  have lower : lowered (String.ofList (word.map Char.toLower)) = lowered (String.ofList word) := by
    simp [lowered]
  have same (n : Name) : (Name.ofSpelling (String.ofList (word.map Char.toLower))).same n =
      (Name.ofSpelling (String.ofList word)).same n := by
    rw [Bool.eq_iff_iff, Name.same_iff, Name.same_iff]
    exact iff_of_eq (congrArg (· = _) lower)
  simp only [Keyword.ofWord?, same]

theorem word_uncased (c : Char) (rest : List Char) :
    word c.toLower (uncased .code rest) = small (word c rest) ∧ Leaves .code rest (word c rest) := by
  have left := drop_run_uncased (fun _ => isPlain_of_isWordChar) rest
  have key := ofWord?_toLower (c :: rest.takeWhile isWordChar)
  rw [List.map_cons] at key
  simp only [word, (run_uncased isWordChar_toLower (fun _ => isPlain_of_isWordChar) rest).1, key,
    List.length_map]
  cases Keyword.ofWord? (String.ofList (c :: rest.takeWhile isWordChar)) with
  | some k => exact ⟨rfl, .inr left⟩
  | none =>
      refine ⟨congrArg (fun name => Reading.mk _ (.token (.name name))) (Name.ext ?_), .inr left⟩
      simp [spelling_small, lowered]

end Recognisers

section Numbers

variable {whole fraction text : List Char}

theorem small_double (whole fraction : List Char) (exponent : Int) (text : List Char) :
    small (double whole fraction exponent text) = double whole fraction exponent text := by
  unfold double
  split <;> rfl

/-- The sign of an exponent. -/
theorem sign_uncased (rest : List Char) :
    ((uncased .code rest).take 1).filter (fun c => c == '+' || c == '-') =
      (rest.take 1).filter fun c => c == '+' || c == '-' := by
  cases rest with
  | nil => rfl
  | cons c rest =>
      have plus : (c.toLower == '+') = (c == '+') := beq_toLower rfl
      have minus : (c.toLower == '-') = (c == '-') := beq_toLower rfl
      have first : (uncased .code (c :: rest)).take 1 = [c.toLower] := rfl
      rw [first, List.take_succ_cons, List.take_zero, List.filter_cons, List.filter_cons, plus, minus]
      cases marked : c == '+' || c == '-' with
      | false => rfl
      | true =>
          simp only [Bool.or_eq_true, beq_iff_eq] at marked
          rcases marked with rfl | rfl <;> rfl

theorem drop_sign_uncased (rest : List Char) {sign : List Char}
    (found : (rest.take 1).filter (fun c => c == '+' || c == '-') = sign) :
    (uncased .code rest).drop sign.length = uncased .code (rest.drop sign.length) := by
  cases rest with
  | nil =>
      subst found
      rfl
  | cons c rest =>
      rw [List.take_succ_cons, List.take_zero, List.filter_cons, List.filter_nil] at found
      split at found
      · next marked =>
        subst found
        simp only [Bool.or_eq_true, beq_iff_eq] at marked
        rcases marked with rfl | rfl <;> rfl
      · subst found
        rfl

theorem isPlain_of_isExponentMark {mark : Char} (marked : isExponentMark mark = true) : isPlain mark = true := by
  simp only [isExponentMark, Bool.or_eq_true, beq_iff_eq] at marked
  rcases marked with rfl | rfl <;> rfl

/-- A reading of a number, of which so many characters have been read, goes on alike. -/
def Continues (read : Nat) (left : List Char) (reading again : Reading) : Prop :=
  again = small reading ∧
    ((∃ e, reading.meaning = .failed e) ∨
      ∃ n, reading.length = read - 1 + n ∧ (uncased .code left).drop n = uncased .code (left.drop n))

theorem exponent_uncased {mark : Char} (marked : isExponentMark mark = true) (some : text ≠ [])
    (rest : List Char) :
    Continues text.length (mark :: rest) (exponent whole fraction text (mark :: rest))
      (exponent whole fraction text (uncased .code (mark :: rest))) := by
  have start : 0 < text.length := List.length_pos_iff.mpr some
  rw [Continues, uncased_cons_of_isPlain (isPlain_of_isExponentMark marked)]
  obtain ⟨sign, found⟩ : ∃ sign, ((rest.take 1).filter fun c => c == '+' || c == '-') = sign :=
    ⟨_, rfl⟩
  have signed := drop_sign_uncased rest found
  simp only [exponent, Nat.add_comm 1, List.drop_succ_cons, List.drop_zero, sign_uncased, found, signed,
    (digits_uncased (rest.drop sign.length)).1]
  have left := drop_run_uncased isPlain_of_isDigit (rest.drop sign.length)
  generalize (rest.drop sign.length).takeWhile Char.isDigit = digits at left
  cases digits.isEmpty with
  | true => exact ⟨rfl, .inl ⟨_, rfl⟩⟩
  | false =>
      refine ⟨?_, .inr ⟨sign.length + digits.length + 1, ?_, ?_⟩⟩
      · exact congrArg (Reading.mk _) (small_double ..).symm
      · simp only [if_neg Bool.false_ne_true, List.length_append, List.length_cons]
        omega
      · rw [List.drop_succ_cons, List.drop_succ_cons, ← List.drop_drop, ← List.drop_drop, signed, left]

theorem fractional_uncased (left : List Char) :
    Continues (whole ++ '.' :: fraction).length left (fractional whole fraction left)
      (fractional whole fraction (uncased .code left)) := by
  have stopped (left : List Char) : Continues (whole ++ '.' :: fraction).length left
      ⟨(whole ++ '.' :: fraction).length - 1, double whole fraction 0 (whole ++ '.' :: fraction)⟩
      ⟨(whole ++ '.' :: fraction).length - 1, double whole fraction 0 (whole ++ '.' :: fraction)⟩ :=
    ⟨congrArg (Reading.mk _) (small_double ..).symm, .inr ⟨0, rfl, rfl⟩⟩
  cases left with
  | nil => exact stopped []
  | cons mark rest =>
      have again : isExponentMark mark.toLower = isExponentMark mark := isExponentMark_toLower mark
      cases marked : isExponentMark mark with
      | true =>
          have more := @exponent_uncased whole fraction _ mark marked
            (List.append_ne_nil_of_right_ne_nil whole (List.cons_ne_nil '.' fraction)) rest
          rw [uncased_cons_of_isPlain (isPlain_of_isExponentMark marked)] at more ⊢
          rw [fractional, fractional, if_pos marked, if_pos (again.trans marked)]
          exact more
      | false =>
          rw [uncased, fractional, fractional, marked, if_neg Bool.false_ne_true]
          rw [if_neg (by simp [again, marked])]
          exact stopped (mark :: rest)

/-- What is read of a plain text has been read before what goes on. -/
theorem Continues.append {taken left : List Char} {read : Nat} {reading again : Reading}
    (h : Continues (read + taken.length) left reading again) (start : 0 < read)
    (plain : ∀ c ∈ taken, isPlain c = true) : Continues read (taken ++ left) reading again := by
  refine ⟨h.1, h.2.imp id ?_⟩
  rintro ⟨n, length, dropped⟩
  refine ⟨taken.length + n, by omega, ?_⟩
  rw [← List.drop_drop, ← List.drop_drop, drop_uncased plain, List.drop_left, dropped]

theorem numeral_point_uncased (some : whole ≠ []) (left : List Char) :
    Continues whole.length ('.' :: left) (numeral whole ('.' :: left))
      (numeral whole (uncased .code ('.' :: left))) := by
  have start : 0 < whole.length := List.length_pos_iff.mpr some
  have point (left : List Char) : uncased .code ('.' :: left) = '.' :: uncased .code left := rfl
  by_cases two : ∃ rest, left = '.' :: rest
  · obtain ⟨rest, rfl⟩ := two
    rw [point, point, numeral, numeral]
    cases value : integer 10 whole with
    | error e => exact ⟨rfl, .inl ⟨_, rfl⟩⟩
    | ok t =>
        obtain ⟨m, rfl⟩ := exists_of_integer value
        refine ⟨rfl, .inr ⟨2, ?_, rfl⟩⟩
        simp only
        omega
  · have single : ∀ rest, left = '.' :: rest → False := fun rest eq => two ⟨rest, eq⟩
    obtain ⟨fraction, left, rfl, inside, boundary⟩ := exists_run Char.isDigit left
    have plain : ∀ c ∈ fraction, isPlain c = true := fun c mem => isPlain_of_isDigit c (inside c mem)
    have boundary' := boundary_uncased isDigit_toLower boundary
    have split : uncased .code (fraction ++ left) = fraction ++ uncased .code left := by
      rw [uncased_append plain, map_toLower_of_digits inside]
    by_cases none : fraction = []
    · have single' := @uncased_ne_cons _ _ .code rfl single
      rw [point, numeral.eq_2 _ _ single, numeral.eq_2 _ _ single', split, (takeWhile_run inside boundary).1,
        (takeWhile_run inside boundary').1, none]
      exact ⟨rfl, .inl ⟨_, rfl⟩⟩
    · rw [point, split, numeral_fraction none inside boundary, numeral_fraction none inside boundary']
      have more := @fractional_uncased whole fraction left
      rw [List.length_append] at more
      exact @Continues.append ('.' :: fraction) left _ _ _ more start (List.forall_mem_cons.mpr ⟨rfl, plain⟩)

theorem numeral_uncased (some : whole ≠ []) (left : List Char) :
    Continues whole.length left (numeral whole left) (numeral whole (uncased .code left)) := by
  cases left with
  | nil => exact ⟨congrArg (Reading.mk _) (small_meaningOf_integer 10 whole).symm, .inr ⟨0, rfl, rfl⟩⟩
  | cons mark rest =>
      by_cases point : mark = '.'
      · subst point
        exact numeral_point_uncased some rest
      · cases marked : isExponentMark mark with
        | true =>
            have again : isExponentMark mark.toLower = true := (isExponentMark_toLower mark).trans marked
            have more := @exponent_uncased whole [] whole mark marked some rest
            rw [uncased_cons_of_isPlain (isPlain_of_isExponentMark marked)] at more ⊢
            rw [numeral_exponent marked, numeral_exponent again]
            exact more
        | false =>
            have stops : ∀ c ∈ (mark :: rest).head?, isNumeralMark c = false := by
              simp [isNumeralMark, point, marked]
            have again : ∀ c ∈ (uncased .code (mark :: rest)).head?, isNumeralMark c = false := by
              refine boundary_uncased (fun c => ?_) stops
              rw [isNumeralMark, isExponentMark_toLower, beq_toLower rfl, isNumeralMark]
            rw [numeral_stop stops, numeral_stop again]
            exact ⟨congrArg (Reading.mk _) (small_meaningOf_integer 10 whole).symm, .inr ⟨0, rfl, rfl⟩⟩

theorem number_uncased (c : Char) (rest : List Char) :
    number c (uncased .code rest) = small (number c rest) ∧ Leaves .code rest (number c rest) := by
  obtain ⟨again, left⟩ := numeral_uncased (List.cons_ne_nil c (rest.takeWhile Char.isDigit))
    (rest.dropWhile Char.isDigit)
  rw [number_eq_numeral, number_eq_numeral, (digits_uncased rest).1, (digits_uncased rest).2]
  refine ⟨again, left.imp id ?_⟩
  rintro ⟨n, length, dropped⟩
  have split := drop_run_uncased isPlain_of_isDigit rest
  obtain ⟨run, left, eq, inside, boundary⟩ := exists_run Char.isDigit rest
  have digits : rest.takeWhile Char.isDigit = run := by rw [eq, (takeWhile_run inside boundary).1]
  have after : rest.dropWhile Char.isDigit = rest.drop run.length := by
    rw [eq, (takeWhile_run inside boundary).2, List.drop_left]
  rw [digits] at split length
  rw [after] at dropped length
  rw [digits, after, length, List.length_cons, Nat.add_sub_cancel, ← List.drop_drop, ← List.drop_drop, split,
    dropped]

end Numbers

section Literals

variable {p : Char → Bool}

theorem isSome_quotation_map (text : List Char) :
    (quotation (text.map Char.toLower)).isSome = (quotation text).isSome := by
  induction text using quotation.induct with
  | case1 => rfl
  | case2 rest ih =>
      have quote : '\''.toLower = '\'' := rfl
      rw [List.map_cons, List.map_cons, quote, quotation, quotation, Option.isSome_map, Option.isSome_map, ih]
  | case3 rest single =>
      have quote : '\''.toLower = '\'' := rfl
      rw [List.map_cons, quote, quotation.eq_3 _ single, quotation.eq_3 _ (ne_of_map_toLower rfl single)]
  | case4 => rfl
  | case5 c rest _ other line ih =>
      have other' : c.toLower ≠ '\'' := fun eq => other ((toLower_eq_iff rfl).mp eq)
      have line' : c.toLower ≠ '\n' := fun eq => line ((toLower_eq_iff rfl).mp eq)
      rw [List.map_cons, quotation.eq_5 _ _ (fun _ eq _ => other eq) other line,
        quotation.eq_5 _ _ (fun _ eq _ => other' eq) other' line', Option.isSome_map, Option.isSome_map, ih]

theorem isSome_quotation_uncased (r : Region) (text : List Char) :
    (quotation (uncased r text)).isSome = (quotation text).isSome := by
  rw [← isSome_quotation_map, map_toLower_uncased, isSome_quotation_map]

theorem length_takeWhile_uncased (same : ∀ c, p c.toLower = p c) (r : Region) (text : List Char) :
    ((uncased r text).takeWhile p).length = (text.takeWhile p).length := by
  have lower (text : List Char) : ((text.map Char.toLower).takeWhile p).length = (text.takeWhile p).length := by
    rw [List.takeWhile_map, List.length_map]
    congr 2
    funext c
    exact same c
  rw [← lower, map_toLower_uncased, lower]

/-- A quoted literal stays as it is. -/
theorem quotation_uncased {text content : List Char} {n : Nat} (h : quotation text = some (content, n)) :
    quotation (uncased .quote text) = some (content, n) ∧
      (uncased .quote text).drop n = uncased .code (text.drop n) := by
  induction text using quotation.induct generalizing content n with
  | case1 => cases h
  | case2 rest ih =>
      simp only [quotation, Option.map_eq_some_iff, Prod.mk.injEq, Prod.exists] at h
      obtain ⟨inner, m, found, rfl, rfl⟩ := h
      obtain ⟨again, left⟩ := ih found
      have whole : uncased .quote ('\'' :: '\'' :: rest) = '\'' :: '\'' :: uncased .quote rest := by
        simp [uncased, Region.next, Region.next.code, found]
      rw [whole]
      exact ⟨by simp [quotation, again], left⟩
  | case3 rest single =>
      rw [quotation.eq_3 _ single] at h
      cases h
      have whole : uncased .quote ('\'' :: rest) = '\'' :: uncased .code rest := by
        simp [uncased, Region.next]
      rw [whole]
      exact ⟨quotation.eq_3 _ (uncased_ne_cons rfl single), rfl⟩
  | case4 => cases h
  | case5 c rest _ other line ih =>
      rw [quotation.eq_5 _ _ (fun _ eq _ => other eq) other line] at h
      simp only [Option.map_eq_some_iff, Prod.mk.injEq, Prod.exists] at h
      obtain ⟨inner, m, found, rfl, rfl⟩ := h
      obtain ⟨again, left⟩ := ih found
      have whole : uncased .quote (c :: rest) = c :: uncased .quote rest := by
        have quote : c ≠ '\'' := other
        simp [uncased, Region.next, quote]
      rw [whole, quotation.eq_5 _ _ (fun _ eq _ => other eq) other line, again]
      exact ⟨rfl, left⟩

theorem small_literal (content : List Char) : small (literal content) = literal content := by
  unfold literal
  repeat' split
  all_goals rfl

theorem quoted_uncased (rest : List Char) :
    quoted (uncased (Region.next rest .code '\'') rest) = small (quoted rest) ∧
      Leaves (Region.next rest .code '\'') rest (quoted rest) := by
  cases found : quotation rest with
  | none =>
      have again := isSome_quotation_uncased (Region.next rest .code '\'') rest
      rw [found, Option.isSome_none, Option.isSome_eq_false_iff, Option.isNone_iff_eq_none] at again
      have length := length_takeWhile_uncased (p := (· != '\n')) (fun c => congrArg not (beq_toLower rfl))
        (Region.next rest .code '\'') rest
      simp only [quoted, found, again, length]
      exact ⟨rfl, .inl ⟨_, rfl⟩⟩
  | some reading =>
      obtain ⟨content, n⟩ := reading
      have region : Region.next rest .code '\'' = .quote := by
        simp [Region.next, Region.next.code, found]
      obtain ⟨again, left⟩ := quotation_uncased found
      rw [region]
      simp only [quoted, found, again]
      exact ⟨congrArg (fun t => Reading.mk n (.token t)) (small_literal content).symm, .inr left⟩

end Literals

section Comments

variable {p : Char → Bool}

theorem braceComment_uncased (text : List Char) :
    braceComment (uncased .brace text) = braceComment text ∧
      ∀ n, braceComment text = some n → (uncased .brace text).drop n = uncased .code (text.drop n) := by
  induction text using braceComment.induct with
  | case1 => exact ⟨rfl, fun n eq => by cases eq⟩
  | case2 rest =>
      refine ⟨rfl, fun n eq => ?_⟩
      cases eq
      rfl
  | case3 c rest other ih =>
      have close : c ≠ '\x7d' := other
      have whole : uncased .brace (c :: rest) = c.toLower :: uncased .brace rest := by
        simp [uncased, Region.next, close]
      have other' : c.toLower ≠ '\x7d' := fun eq => other ((toLower_eq_iff rfl).mp eq)
      rw [whole, braceComment.eq_3 _ _ other, braceComment.eq_3 _ _ other', ih.1]
      refine ⟨rfl, fun n eq => ?_⟩
      obtain ⟨m, found, rfl⟩ := Option.map_eq_some_iff.mp eq
      exact ih.2 m found

theorem starComment_uncased {r : Region} (text : List Char)
    (inside : r = .star ∨ r = .starred ∧ ∀ rest, text = ')' :: rest → False) :
    starComment (uncased r text) = starComment text ∧
      ∀ n, starComment text = some n → (uncased r text).drop n = uncased .code (text.drop n) := by
  induction text using starComment.induct generalizing r with
  | case1 => exact ⟨rfl, fun n eq => by cases eq⟩
  | case2 rest =>
      have whole : uncased r ('*' :: ')' :: rest) = '*' :: ')' :: uncased .code rest := by
        rcases inside with rfl | ⟨rfl, -⟩ <;> rfl
      rw [whole]
      refine ⟨rfl, fun n eq => ?_⟩
      cases eq
      rfl
  | case3 c rest other ih =>
      have other' : ∀ rest', c.toLower = '*' → uncased (r.next rest c) rest = ')' :: rest' → False :=
        fun rest' star => uncased_ne_cons rfl (fun rest' => other rest' ((toLower_eq_iff rfl).mp star)) rest'
      have whole : uncased r (c :: rest) = c.toLower :: uncased (r.next rest c) rest := by
        rcases inside with rfl | ⟨rfl, -⟩ <;> rfl
      have after : r.next rest c = .star ∨ r.next rest c = .starred ∧ ∀ rest', rest = ')' :: rest' → False := by
        by_cases star : c = '*'
        · subst star
          refine .inr ⟨?_, fun rest' => other rest' rfl⟩
          rcases inside with rfl | ⟨rfl, -⟩ <;> rfl
        · refine .inl ?_
          rcases inside with rfl | ⟨rfl, none⟩
          · simp [Region.next, star]
          · have close : c ≠ ')' := fun eq => none rest (by rw [eq])
            simp [Region.next, star, close]
      have later := ih after
      rw [whole, starComment.eq_3 _ _ other, starComment.eq_3 _ _ other', later.1]
      refine ⟨rfl, fun n eq => ?_⟩
      obtain ⟨m, found, rfl⟩ := Option.map_eq_some_iff.mp eq
      exact later.2 m found

theorem uncased_line {body : List Char} (inside : '\n' ∉ body) (left : List Char) :
    uncased .line (body ++ left) = body.map Char.toLower ++ uncased .line left := by
  induction body with
  | nil => rfl
  | cons c body ih =>
      rw [List.mem_cons, not_or] at inside
      have other : c ≠ '\n' := fun eq => inside.1 eq.symm
      have region : Region.next (body ++ left) .line c = .line := by simp [Region.next, other]
      rw [List.cons_append, uncased, region, ih inside.2]
      rfl

theorem lineComment_uncased (rest : List Char) :
    lineComment (uncased .slashed ('/' :: rest)) = lineComment ('/' :: rest) ∧
      (uncased .slashed ('/' :: rest)).drop (lineComment ('/' :: rest)).length =
        uncased .code (('/' :: rest).drop (lineComment ('/' :: rest)).length) := by
  have same : ((uncased .slashed ('/' :: rest)).takeWhile (· != '\n')).length =
      (('/' :: rest).takeWhile (· != '\n')).length :=
    length_takeWhile_uncased (fun c => congrArg not (beq_toLower rfl)) _ _
  refine ⟨by rw [lineComment, lineComment, same, length_uncased], ?_⟩
  obtain ⟨body, left, rfl, inside, boundary⟩ := exists_run (· != '\n') rest
  have line : '\n' ∉ body := fun mem => by simpa using inside '\n' mem
  have slash : uncased .slashed ('/' :: (body ++ left)) = '/' :: uncased .line (body ++ left) := rfl
  have length : (('/' :: (body ++ left)).takeWhile (· != '\n')).length = body.length + 1 := by
    rw [List.takeWhile_cons_of_pos (by decide), (takeWhile_run inside boundary).1, List.length_cons]
  rw [lineComment, length, slash, uncased_line line]
  cases left with
  | nil => simp [uncased]
  | cons c left =>
      obtain rfl : c = '\n' := by simpa using boundary c rfl
      have ended : uncased .line ('\n' :: left) = '\n' :: uncased .code left := rfl
      have whole : min (body.length + 1 + 1) ('/' :: (body ++ '\n' :: left)).length = body.length + 2 := by
        simp only [List.length_cons, List.length_append]
        omega
      have again := @List.drop_left _ (body.map Char.toLower ++ ['\n']) (uncased .code left)
      have dropped := @List.drop_left _ (body ++ ['\n']) left
      simp only [List.length_append, List.length_map, List.length_cons, List.length_nil, List.append_assoc,
        List.cons_append, List.nil_append] at again dropped
      rw [ended, whole, List.drop_succ_cons, List.drop_succ_cons, again, dropped]

end Comments

section Marks

variable {d : Char} {rest : List Char}

/-- A character that has no other case is ahead in both texts or in neither. -/
theorem ahead_cases (other : d.isAlpha = false) (r : Region) (rest : List Char) :
    (∃ tail, rest = d :: tail) ∨
      (∀ tail, rest = d :: tail → False) ∧ ∀ tail, uncased r rest = d :: tail → False := by
  by_cases first : ∃ tail, rest = d :: tail
  · exact .inl first
  · have none : ∀ tail, rest = d :: tail → False := fun tail eq => first ⟨tail, eq⟩
    exact .inr ⟨none, uncased_ne_cons other none⟩

theorem uncased_opened (none : ∀ tail, rest = '*' :: tail → False) :
    uncased .opened rest = uncased .code rest := by
  cases rest with
  | nil => rfl
  | cons c rest =>
      have star : c ≠ '*' := fun eq => none rest (by rw [eq])
      simp [uncased, Region.next, star]

theorem uncased_slashed (none : ∀ tail, rest = '/' :: tail → False) :
    uncased .slashed rest = uncased .code rest := by
  cases rest with
  | nil => rfl
  | cons c rest =>
      have slash : c ≠ '/' := fun eq => none rest (by rw [eq])
      simp [uncased, Region.next, slash]

theorem star_uncased (rest : List Char) :
    comment (uncased .opened ('*' :: rest)) 1 (starComment (uncased .star rest)) =
        small (comment ('*' :: rest) 1 (starComment rest)) ∧
      Leaves .opened ('*' :: rest) (comment ('*' :: rest) 1 (starComment rest)) := by
  obtain ⟨same, left⟩ := @starComment_uncased .star rest (.inl rfl)
  rw [same]
  cases found : starComment rest with
  | none =>
      refine ⟨?_, .inl ⟨_, rfl⟩⟩
      rw [comment, length_uncased]
      rfl
  | some n =>
      refine ⟨rfl, .inr ?_⟩
      have opened : uncased .opened ('*' :: rest) = '*' :: uncased .star rest := rfl
      simp only [comment, Nat.add_comm 1, opened, List.drop_succ_cons, left n found]

theorem brace_uncased (rest : List Char) :
    comment (uncased .brace rest) 0 (braceComment (uncased .brace rest)) =
        small (comment rest 0 (braceComment rest)) ∧
      Leaves .brace rest (comment rest 0 (braceComment rest)) := by
  obtain ⟨same, left⟩ := braceComment_uncased rest
  rw [same]
  cases found : braceComment rest with
  | none =>
      refine ⟨?_, .inl ⟨_, rfl⟩⟩
      rw [comment, length_uncased]
      rfl
  | some n =>
      refine ⟨rfl, .inr ?_⟩
      simp only [comment, Nat.zero_add, left n found]

end Marks

/-- Every token is recognised alike. -/
theorem recognise_uncased (c : Char) (rest : List Char) :
    recognise c.toLower (uncased (Region.next rest .code c) rest) = small (recognise c rest) ∧
      Leaves (Region.next rest .code c) rest (recognise c rest) := by
  cases letter : isLetter c with
  | true =>
      have word : isWordChar c = true := by
        simp only [isLetter, Bool.or_eq_true] at letter
        rcases letter with letter | underscore <;> simp [isWordChar, Char.isAlphanum, *]
      rw [recognise_of_isLetter letter, recognise_of_isLetter ((isLetter_toLower c).trans letter),
        next_of_isPlain (isPlain_of_isWordChar word)]
      exact word_uncased c rest
  | false =>
      have other : c.toLower = c := by
        rw [isLetter, Bool.or_eq_false_iff] at letter
        exact toLower_of_not_isAlpha letter.1
      rw [other]
      unfold recognise
      split
      case h_10 =>
        rcases ahead_cases (show '*'.isAlpha = false from rfl) .opened rest with ⟨tail, rfl⟩ | ⟨none, none'⟩
        · exact star_uncased tail
        · split
          · next tail eq => exact (none' tail eq).elim
          · exact ⟨rfl, .inr (uncased_opened none)⟩
      case h_11 | h_13 =>
        rcases ahead_cases (show '='.isAlpha = false from rfl) .code rest with ⟨tail, rfl⟩ | ⟨none, none'⟩
        · exact ⟨rfl, .inr rfl⟩
        · split
          · next tail eq => exact (none' tail eq).elim
          · exact ⟨rfl, .inr rfl⟩
      case h_12 =>
        rcases ahead_cases (show '='.isAlpha = false from rfl) .code rest with ⟨tail, rfl⟩ | ⟨none, none'⟩
        · exact ⟨rfl, .inr rfl⟩
        rcases ahead_cases (show '>'.isAlpha = false from rfl) .code rest with ⟨tail, rfl⟩ | ⟨more, more'⟩
        · exact ⟨rfl, .inr rfl⟩
        · split
          · next tail eq => exact (none' tail eq).elim
          · next tail eq => exact (more' tail eq).elim
          · exact ⟨rfl, .inr rfl⟩
      case h_14 =>
        rcases ahead_cases (show '.'.isAlpha = false from rfl) .code rest with ⟨tail, rfl⟩ | ⟨none, none'⟩
        · exact ⟨rfl, .inr rfl⟩
        · split
          · next tail eq => exact (none' tail eq).elim
          · exact ⟨rfl, .inr rfl⟩
      case h_15 =>
        rcases ahead_cases (show '/'.isAlpha = false from rfl) .slashed rest with ⟨tail, rfl⟩ | ⟨none, none'⟩
        · obtain ⟨same, left⟩ := lineComment_uncased tail
          exact ⟨same, .inr left⟩
        · split
          · next tail eq => exact (none' tail eq).elim
          · exact ⟨rfl, .inr (uncased_slashed none)⟩
      case h_16 => exact brace_uncased rest
      case h_17 => exact hex_uncased rest
      case h_18 => exact charCode_uncased rest
      case h_19 => exact quoted_uncased rest
      case h_20 =>
        rw [letter, if_neg Bool.false_ne_true, if_neg Bool.false_ne_true]
        cases digit : c.isDigit with
        | false => exact ⟨rfl, .inl ⟨_, rfl⟩⟩
        | true =>
            rw [next_of_isPlain (isPlain_of_isDigit c digit)]
            exact number_uncased c rest
      all_goals exact ⟨rfl, .inr rfl⟩

section Items

variable {p : Point} {c : Char} {rest : List Char} {ending : Ending}

/-- The text ahead in small letters. -/
def Point.uncased (p : Point) : Point := { p with ahead := Scan.uncased .code p.ahead }

theorem needsMore_small (m : Meaning) : needsMore (small m) = needsMore m := by
  cases m with
  | failed e => rfl
  | _ => rfl

theorem move_uncased {taken taken' left left' : List Char}
    (same : taken'.map Char.toLower = taken.map Char.toLower) (again : left' = Scan.uncased .code left) :
    p.uncased.move c.toLower taken' left' = (p.move c taken left).uncased := by
  have whole : (c.toLower :: taken').map Char.toLower = (c :: taken).map Char.toLower := by
    rw [List.map_cons, List.map_cons, same, toLower_toLower]
  have last : (c.toLower :: taken').dropLast.map Char.toLower = (c :: taken).dropLast.map Char.toLower := by
    rw [List.map_dropLast, List.map_dropLast, whole]
  simp only [Point.move, Point.uncased, again, walk_of_map_toLower whole, walk_of_map_toLower last]

theorem isPlain_of_isBlank (blank : Text.isBlank c = true) : isPlain c = true := by
  simp only [isPlain, Bool.and_eq_true, bne_iff_ne]
  refine ⟨⟨⟨?_, ?_⟩, ?_⟩, ?_⟩ <;> rintro rfl <;> cases blank

theorem drop_eq_nil_uncased (r : Region) (rest : List Char) (n : Nat) :
    (Scan.uncased r rest).drop n = [] ↔ rest.drop n = [] := by
  rw [List.drop_eq_nil_iff, List.drop_eq_nil_iff, length_uncased]

theorem take_uncased (r : Region) (rest : List Char) (n : Nat) :
    ((Scan.uncased r rest).take n).map Char.toLower = (rest.take n).map Char.toLower := by
  rw [List.map_take, map_toLower_uncased, List.map_take]

theorem Leaves.drop {r : Region} {reading : Reading} (h : Leaves r rest reading)
    (read : ∀ e, reading.meaning ≠ .failed e) :
    (Scan.uncased r rest).drop reading.length = Scan.uncased .code (rest.drop reading.length) :=
  h.resolve_left fun failed => failed.elim read

/-- What is ahead after a token or a comment is in small letters too. -/
theorem read_uncased (p : Point) (c : Char) {r : Region} {n : Nat}
    (left : (Scan.uncased r rest).drop n = Scan.uncased .code (rest.drop n)) :
    p.uncased.move c.toLower ((Scan.uncased r rest).take n) ((Scan.uncased r rest).drop n) =
      (p.move c (rest.take n) (rest.drop n)).uncased :=
  move_uncased (take_uncased _ _ _) left

theorem ahead_uncased (ahead : p.ahead = c :: rest) :
    p.uncased.ahead = c.toLower :: Scan.uncased (Region.next rest .code c) rest := by
  rw [Point.uncased, ahead]
  rfl

theorem visible_toLower (visible : ¬ Text.isBlank c = true) : Text.isBlank c.toLower = false :=
  (isBlank_toLower c).trans (Bool.not_eq_true _ ▸ visible)

theorem go_uncased {reading : Reading}
    (go : ¬ (ending = .unreadable ∧ rest.drop reading.length = [] ∧ needsMore reading.meaning = true)) :
    ¬ (ending = .unreadable ∧
      (Scan.uncased (Region.next rest .code c) rest).drop (small reading).length = [] ∧
      needsMore (small reading).meaning = true) := by
  rintro ⟨cut, nothing, more⟩
  exact go ⟨cut, (drop_eq_nil_uncased _ _ _).mp nothing, (needsMore_small _).symm.trans more⟩

theorem items_uncased (ending : Ending) (p : Point) : items ending p.uncased = small (items ending p) := by
  fun_induction items ending p with
  | case1 p none final =>
      subst final
      rw [items_of_nil (by rw [Point.uncased, none]; rfl)]
      rfl
  | case2 p none cut =>
      subst cut
      rw [items_of_nil (by rw [Point.uncased, none]; rfl)]
      rfl
  | case3 p c rest eq blank ih =>
      have ahead : p.uncased.ahead = c.toLower :: Scan.uncased .code rest := by
        rw [Point.uncased, eq, uncased_cons_of_isPlain (isPlain_of_isBlank blank)]
      rw [items_of_blank ahead ((isBlank_toLower c).trans blank), move_uncased rfl rfl, ih]
  | case4 p c rest eq visible reading left next stop =>
      obtain ⟨same, -⟩ := recognise_uncased c rest
      rw [items_of_stop (ahead_uncased eq) (visible_toLower visible) same
        ⟨stop.1, (drop_eq_nil_uncased _ _ _).mpr stop.2.1, (needsMore_small _).trans stop.2.2⟩]
      rfl
  | case5 p c rest eq visible reading left next go skipped ih =>
      obtain ⟨same, leaves⟩ := recognise_uncased c rest
      have steps := items_of_read (ahead_uncased eq) (visible_toLower visible) same (go_uncased go)
      have after := read_uncased p c (leaves.drop (by rw [skipped]; exact nofun))
      rw [after] at steps
      exact (steps.1 (congrArg small skipped)).trans ih
  | case6 p c rest eq visible reading left next go t token ih =>
      obtain ⟨same, leaves⟩ := recognise_uncased c rest
      have steps := items_of_read (ahead_uncased eq) (visible_toLower visible) same (go_uncased go)
      have after := read_uncased p c (leaves.drop (by rw [token]; exact nofun))
      rw [after] at steps
      exact (steps.2.1 (small t) (congrArg small token)).trans (congrArg (_ :: ·) ih)
  | case7 p c rest eq visible reading left next go t range dots ih =>
      obtain ⟨same, leaves⟩ := recognise_uncased c rest
      have steps := items_of_read (ahead_uncased eq) (visible_toLower visible) same (go_uncased go)
      have after := read_uncased p c (leaves.drop (by rw [range]; exact nofun))
      have walked (r : Region) : walk p.here (c.toLower :: (Scan.uncased r rest).take (reading.length - 2)) =
          walk p.here (c :: rest.take (reading.length - 2)) :=
        walk_of_map_toLower (by rw [List.map_cons, List.map_cons, toLower_toLower, take_uncased])
      rw [after] at steps
      have read := steps.2.2.1 (small t) (congrArg small range)
      rw [show walk p.uncased.here _ = _ from walked _] at read
      exact read.trans (congrArg (_ :: _ :: ·) ih)
  | case8 p c rest eq visible reading left next go e failed =>
      obtain ⟨same, -⟩ := recognise_uncased c rest
      have steps := items_of_read (ahead_uncased eq) (visible_toLower visible) same (go_uncased go)
      rw [steps.2.2.2 e (congrArg small failed)]
      rfl

end Items

end Scan

/-- Two texts that differ only in the case of letters outside of quoted literals are scanned alike. -/
theorem Source.small_scan (s : Source) :
    small s.scan = Scan.items s.ending (Scan.Point.initial (Scan.uncased .code s.characters)) :=
  (Scan.items_uncased s.ending (.initial s.characters)).symm

end PascalX86
