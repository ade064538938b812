import PascalX86.Proofs.Scanning.Machine
import PascalX86.Proofs.Scanning.Steps

/-!
# What a state has read

The text that a state of the machine has read of a token, and that its next move agrees with what is
recognised there all at once.
-/

set_option autoImplicit false

namespace PascalX86.Scan

/-- What is recognised where a text has been read: so many more characters belong to it. -/
inductive Means (left : List Char) (n : Nat) (meaning : Meaning) : List Char → Prop where
  | intro {c : Char} {taken : List Char} (visible : Text.isBlank c = false)
      (read : recognise c (taken ++ left) = ⟨taken.length + n, meaning⟩) : Means left n meaning (c :: taken)

/-- A text that is the number before the mark of an exponent, whatever the exponent is. -/
inductive Scientific (whole fraction : List Char) (mark : Char) : List Char → Prop where
  | intro {c : Char} {tail : List Char} (visible : Text.isBlank c = false)
      (read : ∀ rest, recognise c (tail ++ mark :: rest) =
        exponent whole fraction (c :: tail) (mark :: rest)) : Scientific whole fraction mark (c :: tail)

/-- The next character is a digit if there is none yet. -/
def Started (digits left : List Char) : Prop := digits = [] → ∃ c ∈ left.head?, c.isDigit = true

/-- A state, the text it has read and the text that is left. -/
inductive Partial (left : List Char) : State → List Char → Prop where
  | complete {t : Token} {read : List Char} (means : ∀ rest, Means rest 0 (.token t) read) :
      Partial left (.complete t) read
  | word {c : Char} {tail : List Char} (letter : isLetter c = true)
      (inside : ∀ d ∈ tail, isWordChar d = true) : Partial left (.word (c :: tail)) (c :: tail)
  | integer {digits : List Char} (inside : ∀ c ∈ digits, c.isDigit = true)
      (started : Started digits left) : Partial left (.integer digits) digits
  | integerDot {digits : List Char} (some : digits ≠ [])
      (inside : ∀ c ∈ digits, c.isDigit = true) : Partial left (.integerDot digits) (digits ++ ['.'])
  | fraction {whole digits : List Char} (some : whole ≠ []) (first : ∀ c ∈ whole, c.isDigit = true)
      (inside : ∀ c ∈ digits, c.isDigit = true) (started : Started digits left) :
      Partial left (.fraction whole digits) (whole ++ '.' :: digits)
  | exponentSign {whole fraction text : List Char} {mark : Char}
      (number : Scientific whole fraction mark text) :
      Partial left (.exponentSign whole fraction text) (text ++ [mark])
  | exponentStart {whole fraction text sign : List Char} {mark : Char}
      (number : Scientific whole fraction mark text) (signed : sign = ['+'] ∨ sign = ['-']) :
      Partial left (.exponentStart whole fraction text sign) (text ++ mark :: sign)
  | exponent {whole fraction text sign digits : List Char} {mark : Char}
      (number : Scientific whole fraction mark text) (signed : sign = [] ∨ sign = ['+'] ∨ sign = ['-'])
      (inside : ∀ c ∈ digits, c.isDigit = true) (started : Started digits left) :
      Partial left (.exponent whole fraction text sign digits) (text ++ mark :: (sign ++ digits))
  | hex {digits : List Char} (inside : ∀ c ∈ digits, isHexDigit c = true) :
      Partial left (.hex digits) ('$' :: digits)
  | charCode {digits : List Char} (inside : ∀ c ∈ digits, c.isDigit = true) :
      Partial left (.charCode digits) ('#' :: digits)
  | quoted {content body : List Char} (line : '\n' ∉ body)
      (read : ∀ rest, quotation (body ++ rest) =
        (quotation rest).map fun (text, n) => (content ++ text, body.length + n)) :
      Partial left (.quoted content) ('\'' :: body)
  | quoteEnd {content body : List Char} (line : '\n' ∉ body)
      (read : ∀ rest, quotation (body ++ rest) =
        (quotation rest).map fun (text, n) => (content ++ text, body.length + n)) :
      Partial left (.quoteEnd content) ('\'' :: (body ++ ['\'']))
  | paren : Partial left .paren ['(']
  | parenComment {body : List Char}
      (read : ∀ rest, starComment (body ++ rest) = (starComment rest).map (body.length + ·)) :
      Partial left .parenComment ('(' :: '*' :: body)
  | parenCommentStar {body : List Char}
      (read : ∀ rest, starComment (body ++ '*' :: rest) = (starComment ('*' :: rest)).map (body.length + ·)) :
      Partial left .parenCommentStar ('(' :: '*' :: (body ++ ['*']))
  | braceComment {body : List Char} (inside : '\x7d' ∉ body) :
      Partial left .braceComment ('\x7b' :: body)
  | lineComment {body : List Char} (inside : '\n' ∉ body) : Partial left .lineComment ('/' :: '/' :: body)
  | colon : Partial left .colon [':']
  | less : Partial left .less ['<']
  | greater : Partial left .greater ['>']
  | dot : Partial left .dot ['.']
  | slash : Partial left .slash ['/']

/-- A move of a state agrees with what is recognised. -/
def Sound (read left : List Char) : Move → Prop
  | .read s =>
      (∃ c rest, left = c :: rest ∧ Partial rest s (read ++ [c])) ∨
        s = .start ∧ Means left (min 1 left.length) .skipped read
  | .keep s => left ≠ [] ∧ Partial left s read
  | .ends result => Means left 0 (meaningOf result) read ∧ needsMore (meaningOf result) = true
  | .range t => Means left 1 (.rangeFrom t) read ∧ ∃ rest, left = '.' :: rest
  | .finished => False

section Moves

variable {p : Char → Bool} {next : Char → Move} {other : Move} {read left digits whole : List Char}
variable {s : State} {c : Char}

theorem sound_goesOn (first : ∀ c rest, left = c :: rest → p c = true → Sound read left (next c))
    (second : (∀ c ∈ left.head?, p c = false) → Sound read left other) :
    Sound read left (goesOn p left.head? next other) := by
  rcases goesOn_cases p left.head? next other with ⟨c, seen, holds, eq⟩ | ⟨boundary, eq⟩
  · obtain ⟨rest, rfl⟩ := List.head?_eq_some_iff.mp seen
    rw [eq]
    exact first c rest rfl holds
  · rw [eq]
    exact second boundary

theorem sound_read {rest : List Char} (goes : Partial rest s (read ++ [c])) :
    Sound read (c :: rest) (.read s) := .inl ⟨c, rest, rfl, goes⟩

theorem sound_ends {result : Except LexicalError Token} (visible : Text.isBlank c = false)
    (more : needsMore (meaningOf result) = true)
    (eq : recognise c (read ++ left) = ⟨read.length, meaningOf result⟩) :
    Sound (c :: read) left (.ends result) := ⟨.intro visible eq, more⟩

theorem forall_concat (inside : ∀ d ∈ digits, p d = true) (last : p c = true) :
    ∀ d ∈ digits ++ [c], p d = true :=
  List.forall_mem_append.mpr ⟨inside, List.forall_mem_singleton.mpr last⟩

theorem started_concat : Started (digits ++ [c]) left := fun none => by simp at none

theorem Started.ne_nil (started : Started digits left) (boundary : ∀ c ∈ left.head?, c.isDigit = false) :
    digits ≠ [] := by
  intro none
  obtain ⟨c, mem, digit⟩ := started none
  rw [boundary c mem] at digit
  cases digit

theorem needsMore_integer (base : Nat) (digits : List Char) :
    needsMore (meaningOf (integer base digits)) = true := by
  simp only [integer]
  split <;> rfl

theorem double_eq (whole fraction : List Char) (exponent : Int) (text : List Char) :
    double whole fraction exponent text = meaningOf (decimal whole fraction exponent text) := by
  unfold double decimal
  cases Decimal.nearest? (valueIn 10 (whole ++ fraction)) (exponent - fraction.length) <;> rfl

theorem needsMore_decimal (whole fraction : List Char) (exponent : Int) (text : List Char) :
    needsMore (meaningOf (decimal whole fraction exponent text)) = true := by
  unfold decimal
  split <;> rfl

end Moves

section Words

variable {left tail : List Char} {c : Char}

theorem sound_word (letter : isLetter c = true) (inside : ∀ d ∈ tail, isWordChar d = true) :
    Sound (c :: tail) left (move left.head? (.word (c :: tail))) := by
  refine sound_goesOn (fun d rest eq word => ?_) fun boundary => ?_
  · subst eq
    exact sound_read (.word letter (forall_concat inside word))
  · have visible : Text.isBlank c = false := by
      refine visible_of_isWordChar ?_
      simp only [isLetter, isWordChar, Char.isAlphanum, Bool.or_eq_true] at letter ⊢
      tauto
    refine sound_ends visible rfl ?_
    rw [recognise_of_isLetter letter, word, (takeWhile_run inside boundary).1, wordOf]
    cases Keyword.ofWord? (String.ofList (c :: tail)) <;> rfl

end Words

section Numbers

variable {left digits whole fraction text sign : List Char} {c mark : Char}

theorem recognise_digits {tail : List Char} (inside : ∀ d ∈ c :: tail, d.isDigit = true)
    (boundary : ∀ d ∈ left.head?, d.isDigit = false) :
    recognise c (tail ++ left) = numeral (c :: tail) left := by
  rw [List.forall_mem_cons] at inside
  rw [recognise_of_isDigit inside.1, number_eq_numeral, (takeWhile_run inside.2 boundary).1,
    (takeWhile_run inside.2 boundary).2]

theorem not_isDigit_of_isExponentMark (marked : isExponentMark c = true) : c.isDigit = false := by
  simp only [isExponentMark, Bool.or_eq_true, beq_iff_eq] at marked
  rcases marked with rfl | rfl <;> rfl

theorem sound_integer (inside : ∀ d ∈ digits, d.isDigit = true) (started : Started digits left) :
    Sound digits left (move left.head? (.integer digits)) := by
  refine sound_goesOn (fun d rest eq digit => ?_) fun boundary => ?_
  · subst eq
    exact sound_read (.integer (forall_concat inside digit) started_concat)
  · have some := started.ne_nil boundary
    obtain ⟨c, tail, rfl⟩ := List.exists_cons_of_ne_nil some
    have visible := visible_of_isDigit c (inside c List.mem_cons_self)
    refine sound_goesOn (fun d rest eq point => ?_) fun pointless => ?_
    · subst eq
      obtain rfl : d = '.' := by simpa using point
      exact sound_read (.integerDot some inside)
    · refine sound_goesOn (fun d rest eq marked => ?_) fun unmarked => ?_
      · subst eq
        refine sound_read (.exponentSign (.intro visible fun rest => ?_))
        have boundary : ∀ e ∈ (d :: rest).head?, e.isDigit = false := by
          simpa using not_isDigit_of_isExponentMark marked
        rw [recognise_digits inside boundary, numeral_exponent marked]
      · have stops : ∀ d ∈ left.head?, isNumeralMark d = false := fun d mem => by
          rw [isNumeralMark, pointless d mem, unmarked d mem]
          rfl
        refine sound_ends visible (needsMore_integer _ _) ?_
        rw [recognise_digits inside boundary, numeral_stop stops]
        rfl

theorem sound_integerDot (some : digits ≠ []) (inside : ∀ d ∈ digits, d.isDigit = true) :
    Sound (digits ++ ['.']) left (move left.head? (.integerDot digits)) := by
  obtain ⟨c, tail, rfl⟩ := List.exists_cons_of_ne_nil some
  have visible := visible_of_isDigit c (inside c List.mem_cons_self)
  rw [List.cons_append]
  have point : ∀ d ∈ ('.' :: left).head?, d.isDigit = false := by simp
  have read : recognise c ((tail ++ ['.']) ++ left) = numeral (c :: tail) ('.' :: left) := by
    rw [List.append_assoc, List.singleton_append, recognise_digits inside point]
  refine sound_goesOn (fun d rest eq again => ?_) fun single => ?_
  · subst eq
    obtain rfl : d = '.' := by simpa using again
    rw [numeral] at read
    cases value : integer 10 (c :: tail) with
    | ok t =>
        rw [value] at read
        refine ⟨.intro visible ?_, rest, rfl⟩
        simpa using read
    | error e =>
        rw [value] at read
        have more := needsMore_integer 10 (c :: tail)
        rw [value] at more
        refine sound_ends visible more (read.trans ?_)
        simp [meaningOf]
  · refine sound_goesOn (fun d rest eq digit => ?_) fun boundary => ?_
    · subst eq
      exact ⟨by simp, .fraction some inside (List.forall_mem_nil _) fun _ => ⟨d, rfl, digit⟩⟩
    · have other : ∀ rest, left = '.' :: rest → False := by
        rintro rest rfl
        simp at single
      have none := (takeWhile_run (List.forall_mem_nil _) boundary).1
      rw [List.nil_append] at none
      refine sound_ends visible rfl (read.trans ?_)
      rw [numeral.eq_2 _ _ other, none]
      simp [meaningOf]

theorem sound_fraction (some : whole ≠ []) (first : ∀ d ∈ whole, d.isDigit = true)
    (inside : ∀ d ∈ digits, d.isDigit = true) (started : Started digits left) :
    Sound (whole ++ '.' :: digits) left (move left.head? (.fraction whole digits)) := by
  obtain ⟨c, tail, rfl⟩ := List.exists_cons_of_ne_nil some
  have visible := visible_of_isDigit c (first c List.mem_cons_self)
  rw [List.cons_append]
  refine sound_goesOn (fun d rest eq digit => ?_) fun boundary => ?_
  · subst eq
    refine sound_read ?_
    rw [← List.cons_append, List.append_assoc]
    exact .fraction some first (forall_concat inside digit) started_concat
  · have digit := started.ne_nil boundary
    have read (left : List Char) (boundary : ∀ d ∈ left.head?, d.isDigit = false) :
        recognise c ((tail ++ '.' :: digits) ++ left) = fractional (c :: tail) digits left := by
      have point : ∀ d ∈ ('.' :: (digits ++ left)).head?, d.isDigit = false := by simp
      rw [List.append_assoc, List.cons_append, recognise_digits first point,
        numeral_fraction digit inside boundary]
    refine sound_goesOn (fun d rest eq marked => ?_) fun unmarked => ?_
    · subst eq
      refine sound_read (.exponentSign (.intro visible fun rest => ?_))
      have stops : ∀ e ∈ (d :: rest).head?, e.isDigit = false := by
        simpa using not_isDigit_of_isExponentMark marked
      exact (read _ stops).trans (if_pos marked)
    · refine sound_ends visible (needsMore_decimal ..) ?_
      rw [read left boundary, fractional_stop unmarked, double_eq]
      rfl

theorem exponent_without (signed : sign = [] ∨ sign = ['+'] ∨ sign = ['-'])
    (unsigned : sign = [] → ∀ d ∈ left.head?, (d == '+' || d == '-') = false)
    (boundary : ∀ d ∈ left.head?, d.isDigit = false) :
    exponent whole fraction text (mark :: (sign ++ left)) =
      ⟨text.length + sign.length, .failed (.malformedNumber (String.ofList (text ++ 'e' :: sign)))⟩ := by
  have found : ((sign ++ left).take 1).filter (fun c => c == '+' || c == '-') = sign := by
    rcases signed with rfl | rfl | rfl
    · cases left with
      | nil => rfl
      | cons d left => simp [unsigned rfl d rfl]
    · rfl
    · rfl
  have none := (takeWhile_run (List.forall_mem_nil _) boundary).1
  rw [List.nil_append] at none
  simp only [exponent, List.drop_succ_cons, List.drop_zero, found, Nat.add_comm 1, List.drop_left, none]
  simp

theorem Scientific.ends {rest : List Char} {result : Except LexicalError Token}
    (number : Scientific whole fraction mark text) (more : needsMore (meaningOf result) = true)
    (eq : exponent whole fraction text (mark :: (rest ++ left)) = ⟨text.length + rest.length, meaningOf result⟩) :
    Sound (text ++ mark :: rest) left (.ends result) := by
  obtain ⟨visible, read⟩ := number
  rw [List.cons_append]
  refine sound_ends visible more ?_
  rw [List.append_assoc, List.cons_append, read, eq]
  simp
  omega

theorem sound_exponentSign (number : Scientific whole fraction mark text) :
    Sound (text ++ [mark]) left (move left.head? (.exponentSign whole fraction text)) := by
  refine sound_goesOn (fun d rest eq signed => ?_) fun unsigned => ?_
  · subst eq
    refine sound_read ?_
    rw [List.append_assoc]
    exact .exponentStart number (by simpa using signed)
  · refine sound_goesOn (fun d rest eq digit => ?_) fun boundary => ?_
    · subst eq
      exact ⟨by simp, .exponent number (.inl rfl) (List.forall_mem_nil _) fun _ => ⟨d, rfl, digit⟩⟩
    · exact number.ends rfl (exponent_without (.inl rfl) (fun _ => unsigned) boundary)

theorem sound_exponentStart (number : Scientific whole fraction mark text)
    (signed : sign = ['+'] ∨ sign = ['-']) :
    Sound (text ++ mark :: sign) left (move left.head? (.exponentStart whole fraction text sign)) := by
  refine sound_goesOn (fun d rest eq digit => ?_) fun boundary => ?_
  · subst eq
    refine ⟨by simp, ?_⟩
    have goes : Partial (d :: rest) _ (text ++ mark :: (sign ++ [])) :=
      .exponent number (.inr signed) (List.forall_mem_nil _) fun _ => ⟨d, rfl, digit⟩
    rwa [List.append_nil] at goes
  · have some : sign ≠ [] := by rcases signed with rfl | rfl <;> simp
    exact number.ends rfl (exponent_without (.inr signed) (fun none => absurd none some) boundary)

theorem sound_exponent (number : Scientific whole fraction mark text)
    (signed : sign = [] ∨ sign = ['+'] ∨ sign = ['-']) (inside : ∀ d ∈ digits, d.isDigit = true)
    (started : Started digits left) :
    Sound (text ++ mark :: (sign ++ digits)) left
      (move left.head? (.exponent whole fraction text sign digits)) := by
  refine sound_goesOn (fun d rest eq digit => ?_) fun boundary => ?_
  · subst eq
    refine sound_read ?_
    simp only [List.append_assoc, List.cons_append]
    exact .exponent number signed (forall_concat inside digit) started_concat
  · refine number.ends (needsMore_decimal ..) ?_
    rw [List.append_assoc, exponent_signed mark signed (started.ne_nil boundary) inside boundary, double_eq]
    rfl

theorem sound_hex (inside : ∀ d ∈ digits, isHexDigit d = true) :
    Sound ('$' :: digits) left (move left.head? (.hex digits)) := by
  refine sound_goesOn (fun d rest eq digit => ?_) fun boundary => ?_
  · subst eq
    exact sound_read (.hex (forall_concat inside digit))
  · have read : recognise '$' (digits ++ left) = _ := congrArg (fun digits : List Char =>
      if digits.isEmpty then (⟨0, .failed (.expectedDigits '$')⟩ : Reading)
      else ⟨digits.length, meaningOf (integer 16 digits)⟩) (takeWhile_run inside boundary).1
    cases digits with
    | nil => exact sound_ends rfl rfl read
    | cons d digits => exact sound_ends rfl (needsMore_integer _ _) read

theorem sound_charCode (inside : ∀ d ∈ digits, d.isDigit = true) :
    Sound ('#' :: digits) left (move left.head? (.charCode digits)) := by
  refine sound_goesOn (fun d rest eq digit => ?_) fun boundary => ?_
  · subst eq
    exact sound_read (.charCode (forall_concat inside digit))
  · have more : needsMore (meaningOf (codeOf digits)) = true := by
      unfold codeOf
      split
      · rfl
      · dsimp only
        split <;> rfl
    refine sound_ends rfl more ?_
    change charCode (digits ++ left) = _
    rw [charCode, (takeWhile_run inside boundary).1, codeOf]
    split
    · next none =>
      rw [List.isEmpty_iff.mp none]
      rfl
    · dsimp only
      split <;> rfl

end Numbers

section Quotations

variable {left content body : List Char}

theorem sound_quoted (line : '\n' ∉ body)
    (read : ∀ rest, quotation (body ++ rest) =
      (quotation rest).map fun (text, n) => (content ++ text, body.length + n)) :
    Sound ('\'' :: body) left (move left.head? (.quoted content)) := by
  refine sound_goesOn (fun d rest eq apostrophe => ?_) fun inner => ?_
  · subst eq
    obtain rfl : d = '\'' := by simpa using apostrophe
    exact sound_read (.quoteEnd line read)
  · refine sound_goesOn (fun d rest eq visible => ?_) fun stops => ?_
    · subst eq
      have other : d ≠ '\'' := by simpa using inner
      have newline : d ≠ '\n' := by simpa using visible
      have goes : Partial rest (.quoted (content ++ [d])) ('\'' :: (body ++ [d])) := by
        refine .quoted (by simpa [line] using newline.symm) fun rest => ?_
        rw [List.append_assoc, read, List.singleton_append,
          quotation.eq_5 _ _ (fun _ eq => absurd eq other) other newline]
        simp [Function.comp_def, Nat.add_assoc, Nat.add_comm 1]
      exact sound_read goes
    · have none : quotation left = none := by
        cases left with
        | nil => rfl
        | cons d left =>
            obtain rfl : d = '\n' := by simpa using stops
            rfl
      have inside : ∀ d ∈ body, (d != '\n') = true := fun d mem =>
        bne_iff_ne.mpr fun eq => line (eq ▸ mem)
      refine sound_ends rfl rfl ?_
      change quoted (body ++ left) = _
      rw [quoted, read, none, (takeWhile_run inside stops).1]
      rfl

theorem sound_quoteEnd (line : '\n' ∉ body)
    (read : ∀ rest, quotation (body ++ rest) =
      (quotation rest).map fun (text, n) => (content ++ text, body.length + n)) :
    Sound ('\'' :: (body ++ ['\''])) left (move left.head? (.quoteEnd content)) := by
  refine sound_goesOn (fun d rest eq apostrophe => ?_) fun single => ?_
  · subst eq
    obtain rfl : d = '\'' := by simpa using apostrophe
    have goes : Partial rest (.quoted (content ++ ['\''])) ('\'' :: (body ++ ['\'', '\''])) := by
      refine .quoted (by simp [line]) fun rest => ?_
      rw [List.append_assoc, read]
      simp [quotation, Function.comp_def, Nat.add_assoc, Nat.add_comm 2]
    exact sound_read (by simpa using goes)
  · have other : ∀ rest, left = '\'' :: rest → False := by
      rintro rest rfl
      simp at single
    refine sound_ends rfl rfl ?_
    change quoted ((body ++ ['\'']) ++ left) = _
    rw [quoted, List.append_assoc, List.singleton_append, read, quotation.eq_3 _ other]
    simp [meaningOf]

end Quotations

section Comments

variable {left body : List Char}

theorem recognise_star (rest : List Char) :
    recognise '(' ('*' :: rest) = comment ('*' :: rest) 1 (starComment rest) := rfl

theorem starComment_cons {c : Char} (rest : List Char) (other : c ≠ '*' ∨ ∀ tail, rest = ')' :: tail → False) :
    starComment (c :: rest) = (starComment rest).map (· + 1) := by
  refine starComment.eq_3 _ _ fun tail star close => ?_
  rcases other with other | other
  · exact other star
  · exact other tail close

theorem sound_parenComment
    (read : ∀ rest, starComment (body ++ rest) = (starComment rest).map (body.length + ·)) :
    Sound ('(' :: '*' :: body) left (move left.head? .parenComment) := by
  cases left with
  | nil =>
      refine sound_ends rfl rfl ?_
      rw [List.cons_append, recognise_star, read]
      simp [starComment, comment, meaningOf]
  | cons c rest =>
      by_cases star : c = '*'
      · subst star
        exact sound_read (.parenCommentStar fun rest => read ('*' :: rest))
      · simp only [move, List.head?_cons, if_neg star]
        have goes : Partial rest .parenComment ('(' :: '*' :: (body ++ [c])) := by
          refine .parenComment fun rest => ?_
          rw [List.append_assoc, read, List.singleton_append, starComment_cons rest (.inl star)]
          simp [Function.comp_def, Nat.add_assoc, Nat.add_comm 1]
        exact sound_read goes

theorem sound_parenCommentStar
    (read : ∀ rest, starComment (body ++ '*' :: rest) = (starComment ('*' :: rest)).map (body.length + ·)) :
    Sound ('(' :: '*' :: (body ++ ['*'])) left (move left.head? .parenCommentStar) := by
  cases left with
  | nil =>
      refine sound_ends rfl rfl ?_
      rw [List.append_nil, recognise_star, read]
      simp [starComment, comment, meaningOf]
  | cons c rest =>
      by_cases close : c = ')'
      · subst close
        refine .inr ⟨rfl, .intro rfl ?_⟩
        simp only [List.cons_append, List.append_assoc, List.nil_append, recognise_star, read, starComment,
          comment, Option.map_some]
        simp
        omega
      · have open' : ∀ rest tail, c :: rest = ')' :: tail → False := fun rest tail eq =>
          close (List.cons_eq_cons.mp eq).1
        by_cases star : c = '*'
        · subst star
          refine sound_read (.parenCommentStar fun rest => ?_)
          rw [List.append_assoc, List.singleton_append, read, starComment_cons _ (.inr (open' rest))]
          simp [Function.comp_def, Nat.add_assoc, Nat.add_comm 1]
        · simp only [move, List.head?_cons, if_neg close, if_neg star]
          have goes : Partial rest .parenComment ('(' :: '*' :: (body ++ ['*', c])) := by
            refine .parenComment fun rest => ?_
            rw [List.append_assoc, List.cons_append, List.singleton_append, read,
              starComment_cons _ (.inr (open' rest)), starComment_cons rest (.inl star)]
            simp [Function.comp_def, Nat.add_assoc, Nat.add_comm 2]
          exact sound_read (by simpa using goes)

theorem sound_braceComment (inside : '\x7d' ∉ body) :
    Sound ('\x7b' :: body) left (move left.head? .braceComment) := by
  cases left with
  | nil =>
      have none : braceComment body = none := by
        cases found : braceComment body with
        | none => rfl
        | some n =>
            obtain ⟨front, back, rfl, -⟩ := braceComment_eq_some found
            exact absurd (List.mem_append_right front List.mem_cons_self) inside
      refine sound_ends rfl rfl ?_
      rw [List.append_nil]
      change comment body 0 (braceComment body) = _
      rw [none]
      rfl
  | cons c rest =>
      by_cases close : c = '\x7d'
      · subst close
        refine .inr ⟨rfl, .intro rfl ?_⟩
        change comment _ 0 (braceComment (body ++ '\x7d' :: rest)) = _
        rw [braceComment_closed rest inside]
        simp [comment]
      · simp only [move, List.head?_cons, if_neg close]
        exact sound_read (.braceComment (by simpa [inside] using Ne.symm close))

theorem sound_lineComment (inside : '\n' ∉ body) :
    Sound ('/' :: '/' :: body) left (move left.head? .lineComment) := by
  refine sound_goesOn (fun d rest eq visible => ?_) fun stops => ?_
  · subst eq
    have newline : d ≠ '\n' := by simpa using visible
    exact sound_read (.lineComment (by simpa [inside] using newline.symm))
  · have run : ∀ d ∈ '/' :: body, (d != '\n') = true := by
      intro d mem
      rcases List.mem_cons.mp mem with rfl | mem
      · rfl
      · exact bne_iff_ne.mpr fun eq => inside (eq ▸ mem)
    refine .inr ⟨rfl, .intro rfl ?_⟩
    change lineComment ('/' :: body ++ left) = _
    rw [lineComment, (takeWhile_run run stops).1, List.length_append]
    congr 1
    omega

end Comments

section Marks

variable {left : List Char} {other : Move} {c d : Char} {m : Mark}

theorem sound_single (visible : Text.isBlank c = false) (eq : recognise c left = sign 0 m) :
    Sound [c] left (.ends (.ok (.mark m))) := sound_ends visible rfl eq

theorem sound_pair (visible : Text.isBlank c = false) (pair : ∀ rest, recognise c (d :: rest) = sign 1 m)
    (second : (∀ tail, left = d :: tail → False) → Sound [c] left other) :
    Sound [c] left (goesOn (· == d) left.head? (fun _ => .read (.complete (.mark m))) other) := by
  refine sound_goesOn (fun e rest eq same => ?_) fun boundary => ?_
  · subst eq
    obtain rfl : e = d := by simpa using same
    exact sound_read (.complete fun rest => .intro visible (pair rest))
  · refine second fun tail eq => ?_
    subst eq
    simp at boundary

theorem sound_paren : Sound ['('] left (move left.head? .paren) := by
  refine sound_goesOn (fun d rest eq star => ?_) fun boundary => ?_
  · subst eq
    obtain rfl : d = '*' := by simpa using star
    exact sound_read (.parenComment fun rest => by simp)
  · refine sound_single rfl ?_
    simp only [recognise]
    split
    · simp at boundary
    · rfl

theorem sound_colon : Sound [':'] left (move left.head? .colon) := by
  refine sound_pair rfl (fun rest => rfl) fun other => sound_single rfl ?_
  simp only [recognise]

theorem sound_less : Sound ['<'] left (move left.head? .less) := by
  refine sound_pair rfl (fun rest => rfl) fun equal => sound_pair rfl (fun rest => rfl) fun greater =>
    sound_single rfl ?_
  simp only [recognise]

theorem sound_greater : Sound ['>'] left (move left.head? .greater) := by
  refine sound_pair rfl (fun rest => rfl) fun other => sound_single rfl ?_
  simp only [recognise]

theorem sound_dot : Sound ['.'] left (move left.head? .dot) := by
  refine sound_pair rfl (fun rest => rfl) fun other => sound_single rfl ?_
  simp only [recognise]

theorem sound_slash : Sound ['/'] left (move left.head? .slash) := by
  refine sound_goesOn (fun d rest eq slash => ?_) fun boundary => ?_
  · subst eq
    obtain rfl : d = '/' := by simpa using slash
    exact sound_read (.lineComment List.not_mem_nil)
  · refine sound_single rfl ?_
    simp only [recognise]
    split
    · simp at boundary
    · rfl

end Marks

section Start

variable {c : Char} {rest : List Char}

/-- The first move of a token agrees with what is recognised at its first character. -/
def Starts (c : Char) (rest : List Char) : Move → Prop
  | .read s => Partial rest s [c]
  | .keep s => Partial (c :: rest) s []
  | .ends result => ∃ e, result = .error e ∧ needsMore (.failed e) = false ∧ recognise c rest = ⟨0, .failed e⟩
  | .range _ | .finished => False

theorem starts_begins (visible : Text.isBlank c = false) (rest : List Char) : Starts c rest (begins c) := by
  have single (m : Mark) (eq : ∀ rest, recognise c rest = sign 0 m) :
      Starts c rest (.read (.complete (.mark m))) := .complete fun rest => .intro visible (eq rest)
  unfold begins
  rw [if_neg (Bool.eq_false_iff.mp visible)]
  split
  case h_10 => exact .paren
  case h_11 => exact .colon
  case h_12 => exact .less
  case h_13 => exact .greater
  case h_14 => exact .dot
  case h_15 => exact .slash
  case h_16 => exact .braceComment List.not_mem_nil
  case h_17 => exact .hex (List.forall_mem_nil _)
  case h_18 => exact .charCode (List.forall_mem_nil _)
  case h_19 => exact .quoted List.not_mem_nil fun rest => by simp
  case h_20 =>
    split
    · next letter => exact .word letter (List.forall_mem_nil _)
    · next letter =>
      split
      · next digit => exact .integer (List.forall_mem_nil _) fun _ => ⟨c, rfl, digit⟩
      · next digit =>
        refine ⟨_, rfl, rfl, ?_⟩
        simp only [recognise, if_neg letter, if_neg digit]
  all_goals exact single _ fun rest => rfl

end Start

/-- Each move of a state agrees with what is recognised of the text it has read and the text left. -/
theorem sound_move {left read : List Char} {s : State} (h : Partial left s read) :
    Sound read left (move left.head? s) := by
  cases h with
  | complete means => exact ⟨means left, rfl⟩
  | word letter inside => exact sound_word letter inside
  | integer inside started => exact sound_integer inside started
  | integerDot some inside => exact sound_integerDot some inside
  | fraction some first inside started => exact sound_fraction some first inside started
  | exponentSign number => exact sound_exponentSign number
  | exponentStart number signed => exact sound_exponentStart number signed
  | exponent number signed inside started => exact sound_exponent number signed inside started
  | hex inside => exact sound_hex inside
  | charCode inside => exact sound_charCode inside
  | quoted line read => exact sound_quoted line read
  | quoteEnd line read => exact sound_quoteEnd line read
  | parenComment read => exact sound_parenComment read
  | parenCommentStar read => exact sound_parenCommentStar read
  | braceComment inside => exact sound_braceComment inside
  | lineComment inside => exact sound_lineComment inside
  | paren => exact sound_paren
  | colon => exact sound_colon
  | less => exact sound_less
  | greater => exact sound_greater
  | dot => exact sound_dot
  | slash => exact sound_slash

end PascalX86.Scan
