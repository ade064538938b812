import PascalX86.Token.Scan

/-!
# Scanning one character at a time

The scanner as a machine with one character of lookahead. Its state holds what it has read of a token;
a step reads the character it sees, leaves it to another state, or answers an item. Steps within one
call for an item are bounded by what is left of the text and a rank of the state.
-/

set_option autoImplicit false

namespace PascalX86.Scan

inductive State where
  | start
  -- The token is complete whatever comes next.
  | complete (t : Token)
  | word (text : List Char)
  | integer (digits : List Char)
  -- A point that may be the first one of two.
  | integerDot (digits : List Char)
  | fraction (whole digits : List Char)
  -- A number up to the mark of its exponent, up to the sign, and with digits of the exponent.
  | exponentSign (whole fraction text : List Char)
  | exponentStart (whole fraction text sign : List Char)
  | exponent (whole fraction text sign digits : List Char)
  | hex (digits : List Char)
  | charCode (digits : List Char)
  | quoted (content : List Char)
  -- An apostrophe that may be doubled.
  | quoteEnd (content : List Char)
  | paren
  | parenComment
  | parenCommentStar
  | braceComment
  | lineComment
  | colon
  | less
  | greater
  | dot
  | slash

/-- What a state does on what it sees. -/
inductive Move where
  | read (s : State)
  -- The character is left to the other state.
  | keep (s : State)
  -- What has been read is a token, or an error.
  | ends (result : Except LexicalError Token)
  -- The character is the second one of two points behind an integer.
  | range (t : Token)
  | finished

def wordOf (text : List Char) : Token :=
  let spelling := String.ofList text
  match Keyword.ofWord? spelling with
  | some k => .keyword k
  | none => .name (.ofSpelling spelling)

def decimal (whole fraction : List Char) (exponent : Int) (text : List Char) :
    Except LexicalError Token :=
  match Decimal.nearest? (valueIn 10 (whole ++ fraction)) (exponent - fraction.length) with
  | some x => .ok (.double x)
  | none => .error (.malformedNumber (String.ofList text))

def scientific (whole fraction text sign digits : List Char) : Except LexicalError Token :=
  let size : Int := valueIn 10 digits
  decimal whole fraction (if sign == ['-'] then -size else size) (text ++ 'e' :: sign ++ digits)

def hexOf (digits : List Char) : Except LexicalError Token :=
  if digits.isEmpty then .error (.expectedDigits '$') else integer 16 digits

def codeOf (digits : List Char) : Except LexicalError Token :=
  if digits.isEmpty then .error (.expectedDigits '#')
  else
    let code := min (valueIn 10 digits) 4294967295
    if code < 256 then .ok (.char (UInt8.ofNat code)) else .error (.badCharCode code)

def begins (c : Char) : Move :=
  if Text.isBlank c then .read .start
  else
    match c with
    | '+' => .read (.complete (.mark .plus))
    | '-' => .read (.complete (.mark .minus))
    | '*' => .read (.complete (.mark .times))
    | '=' => .read (.complete (.mark .equal))
    | ';' => .read (.complete (.mark .semicolon))
    | ',' => .read (.complete (.mark .comma))
    | '[' => .read (.complete (.mark .openSquare))
    | ']' => .read (.complete (.mark .closeSquare))
    | ')' => .read (.complete (.mark .closeParen))
    | '(' => .read .paren
    | ':' => .read .colon
    | '<' => .read .less
    | '>' => .read .greater
    | '.' => .read .dot
    | '/' => .read .slash
    | '\x7b' => .read .braceComment
    | '$' => .read (.hex [])
    | '#' => .read (.charCode [])
    | '\'' => .read (.quoted [])
    | _ =>
        if isLetter c then .read (.word [c])
        else if c.isDigit then .keep (.integer [])
        else .ends (.error (.badChar c))

theorem begins_of_blank {c : Char} (blank : Text.isBlank c = true) : begins c = .read .start := by
  unfold begins
  exact if_pos blank

-- A state that goes on with some characters, and what it does on the others.
def goesOn (p : Char → Bool) (seen : Option Char) (next : Char → Move) (other : Move) : Move :=
  match seen.filter p with
  | some c => next c
  | none => other

/-- What a state does on the character ahead or on the end of the text. -/
def move (seen : Option Char) : State → Move
  | .start =>
      match seen with
      | none => .finished
      | some c => begins c
  | .complete t => .ends (.ok t)
  | .word text => goesOn isWordChar seen (fun c => .read (.word (text ++ [c]))) (.ends (.ok (wordOf text)))
  | .integer digits =>
      goesOn Char.isDigit seen (fun c => .read (.integer (digits ++ [c]))) <|
        goesOn (· == '.') seen (fun _ => .read (.integerDot digits)) <|
          goesOn isExponentMark seen (fun _ => .read (.exponentSign digits [] digits))
            (.ends (integer 10 digits))
  | .integerDot digits =>
      goesOn (· == '.') seen (fun _ =>
          match integer 10 digits with
          | .ok t => .range t
          | .error e => .ends (.error e)) <|
        goesOn Char.isDigit seen (fun _ => .keep (.fraction digits []))
          (.ends (.error (.malformedNumber (String.ofList (digits ++ ['.'])))))
  | .fraction whole digits =>
      goesOn Char.isDigit seen (fun c => .read (.fraction whole (digits ++ [c]))) <|
        goesOn isExponentMark seen (fun _ => .read (.exponentSign whole digits (whole ++ '.' :: digits)))
          (.ends (decimal whole digits 0 (whole ++ '.' :: digits)))
  | .exponentSign whole fraction text =>
      goesOn (fun c => c == '+' || c == '-') seen (fun c => .read (.exponentStart whole fraction text [c])) <|
        goesOn Char.isDigit seen (fun _ => .keep (.exponent whole fraction text [] []))
          (.ends (.error (.malformedNumber (String.ofList (text ++ ['e'])))))
  | .exponentStart whole fraction text sign =>
      goesOn Char.isDigit seen (fun _ => .keep (.exponent whole fraction text sign []))
        (.ends (.error (.malformedNumber (String.ofList (text ++ 'e' :: sign)))))
  | .exponent whole fraction text sign digits =>
      goesOn Char.isDigit seen (fun c => .read (.exponent whole fraction text sign (digits ++ [c])))
        (.ends (scientific whole fraction text sign digits))
  | .hex digits => goesOn isHexDigit seen (fun c => .read (.hex (digits ++ [c]))) (.ends (hexOf digits))
  | .charCode digits =>
      goesOn Char.isDigit seen (fun c => .read (.charCode (digits ++ [c]))) (.ends (codeOf digits))
  | .quoted content =>
      goesOn (· == '\'') seen (fun _ => .read (.quoteEnd content)) <|
        goesOn (· != '\n') seen (fun c => .read (.quoted (content ++ [c])))
          (.ends (.error .unterminatedString))
  | .quoteEnd content =>
      goesOn (· == '\'') seen (fun c => .read (.quoted (content ++ [c]))) (.ends (.ok (literal content)))
  | .paren => goesOn (· == '*') seen (fun _ => .read .parenComment) (.ends (.ok (.mark .openParen)))
  | .parenComment =>
      match seen with
      | none => .ends (.error .unclosedComment)
      | some c => .read (if c = '*' then .parenCommentStar else .parenComment)
  | .parenCommentStar =>
      match seen with
      | none => .ends (.error .unclosedComment)
      | some c => .read (if c = ')' then .start else if c = '*' then .parenCommentStar else .parenComment)
  | .braceComment =>
      match seen with
      | none => .ends (.error .unclosedComment)
      | some c => .read (if c = '\x7d' then .start else .braceComment)
  -- The end of the text closes the comment, and nothing is read.
  | .lineComment => goesOn (· != '\n') seen (fun _ => .read .lineComment) (.read .start)
  | .colon => goesOn (· == '=') seen (fun _ => .read (.complete (.mark .assign))) (.ends (.ok (.mark .colon)))
  | .less =>
      goesOn (· == '=') seen (fun _ => .read (.complete (.mark .lessOrEqual))) <|
        goesOn (· == '>') seen (fun _ => .read (.complete (.mark .notEqual))) (.ends (.ok (.mark .less)))
  | .greater =>
      goesOn (· == '=') seen (fun _ => .read (.complete (.mark .greaterOrEqual))) (.ends (.ok (.mark .greater)))
  | .dot => goesOn (· == '.') seen (fun _ => .read (.complete (.mark .doubleDot))) (.ends (.ok (.mark .period)))
  | .slash => goesOn (· == '/') seen (fun _ => .read .lineComment) (.ends (.ok (.mark .slash)))

/-- The order of states that may go on without reading. -/
def State.rank : State → Nat
  | .lineComment => 2
  | .start | .integerDot .. | .exponentSign .. | .exponentStart .. => 1
  | _ => 0

def Point.bump (p : Point) : Point :=
  match p.ahead with
  | [] => p
  | c :: rest => { p with ahead := rest, here := p.here.after c, last := .single p.here }

/-- The scanner between two steps: where it is in the text, its state, a token that it has already
read, and whether it has answered its last item. -/
structure Machine where
  point : Point
  state : State
  pending : Option (Located Token)
  done : Bool

/-- What a step of a call comes to. -/
inductive Outcome where
  | goes (m : Machine)
  | answers (item : Option Scanned) (m : Machine)

namespace Machine

def initial (text : List Char) : Machine := ⟨.initial text, .start, none, false⟩

/-- The place of a token is taken from the first character seen of it. -/
def look (m : Machine) : Point :=
  match m.state, m.point.ahead with
  | .start, _ :: _ => { m.point with start := .single m.point.here }
  | _, _ => m.point

def finish (m : Machine) (item : Scanned) : Outcome := .answers (some item) { m with done := true }

def act (m : Machine) (p : Point) : Move → Outcome
  | .read s => .goes { m with point := p.bump, state := s }
  | .keep s => .goes { m with point := p, state := s }
  | .ends (.ok t) => .answers (some (.ok ⟨t, p.start.join p.last⟩)) { m with point := p, state := .start }
  | .ends (.error e) => m.finish (.error ⟨e, p.start⟩)
  | .range t =>
      .answers (some (.ok ⟨t, p.start⟩)) { m with
        point := p.bump
        state := .start
        pending := some ⟨.mark .doubleDot, p.last.join p.bump.last⟩ }
  | .finished => m.finish (.ok ⟨.endOfFile, p.last⟩)

/-- One step of a call for the next item. -/
def step (ending : Ending) (m : Machine) : Outcome :=
  if m.done then .answers none m
  else
    match m.pending with
    | some t => .answers (some (.ok t)) { m with pending := none }
    | none =>
        if m.point.ahead = [] ∧ ending = .unreadable then m.finish (.error ⟨.unreadable, m.point.start⟩)
        else m.act m.look (move m.point.ahead.head? m.state)

end Machine

section Progress

variable {p : Char → Bool} {seen : Option Char} {next : Char → Move} {other : Move}

/-- Both ways to go on, the first one with the character seen. -/
theorem goesOn_cases (p : Char → Bool) (seen : Option Char) (next : Char → Move) (other : Move) :
    (∃ c, seen = some c ∧ p c = true ∧ goesOn p seen next other = next c) ∨
      (∀ c ∈ seen, p c = false) ∧ goesOn p seen next other = other := by
  unfold goesOn
  split
  · next c found =>
    obtain ⟨rfl, holds⟩ := Option.filter_eq_some_iff.mp found
    exact .inl ⟨c, rfl, holds, rfl⟩
  · next none =>
    exact .inr ⟨fun c mem => Bool.eq_false_iff.mpr (Option.filter_eq_none_iff.mp none c mem), rfl⟩

/-- A move that leaves the scanner where it is goes to a state of lower rank. -/
def Move.Lowers (seen : Option Char) (rank : Nat) : Move → Prop
  | .read s => seen = none → s.rank < rank
  | .keep s => s.rank < rank
  | .ends _ | .range _ | .finished => True

theorem lowers_goesOn {rank : Nat} (first : ∀ c, seen = some c → (next c).Lowers seen rank)
    (second : other.Lowers seen rank) : (goesOn p seen next other).Lowers seen rank := by
  rcases goesOn_cases p seen next other with ⟨c, rfl, -, eq⟩ | ⟨-, eq⟩
  · rw [eq]
    exact first c rfl
  · rw [eq]
    exact second

theorem lowers_begins (c : Char) : (begins c).Lowers (some c) 1 := by
  unfold begins
  split
  · exact nofun
  · split
    case h_20 =>
      split
      · exact nofun
      · split
        · exact Nat.zero_lt_one
        · trivial
    all_goals exact nofun

theorem lowers_move (seen : Option Char) (s : State) :
    (move seen s).Lowers seen s.rank := by
  have read {s' : Char → State} {rank : Nat} (c : Char) (eq : seen = some c) :
      (Move.read (s' c)).Lowers seen rank :=
    fun none => nomatch eq.symm.trans none
  cases s with
  | start =>
      cases seen with
      | none => trivial
      | some c => exact lowers_begins c
  | complete => trivial
  | word | exponent | hex | charCode | quoteEnd | paren | colon | greater | dot | slash =>
      exact lowers_goesOn read trivial
  | integer => exact lowers_goesOn read (lowers_goesOn read (lowers_goesOn read trivial))
  | integerDot digits =>
      refine lowers_goesOn (fun c eq => ?_) (lowers_goesOn (fun c eq => Nat.zero_lt_one) trivial)
      split <;> trivial
  | fraction | quoted | less => exact lowers_goesOn read (lowers_goesOn read trivial)
  | exponentSign =>
      exact lowers_goesOn read (lowers_goesOn (fun c eq => Nat.zero_lt_one) trivial)
  | exponentStart => exact lowers_goesOn (fun c eq => Nat.zero_lt_one) trivial
  | parenComment | parenCommentStar | braceComment =>
      cases seen with
      | none => trivial
      | some c => exact nofun
  | lineComment => exact lowers_goesOn read fun _ => Nat.one_lt_two

end Progress

namespace Machine

variable {ending : Ending} {m m' : Machine} {item : Option Scanned}

theorem look_ahead (m : Machine) : m.look.ahead = m.point.ahead := by
  unfold look
  split <;> rfl

/-- What is left to do in a call: reading a character outweighs every rank. -/
def size (m : Machine) : Nat := 3 * m.point.ahead.length + m.state.rank

theorem rank_le (s : State) : s.rank ≤ 2 := by
  cases s <;> simp [State.rank]

/-- A step that does not answer reads a character, or else leaves the text as it is and goes to a state
of lower rank. -/
theorem step_progress (goes : m.step ending = .goes m') :
    (∃ c, m.point.ahead = c :: m'.point.ahead) ∨
      m'.point.ahead = m.point.ahead ∧ m'.state.rank < m.state.rank := by
  unfold step at goes
  split at goes
  · cases goes
  · split at goes
    · cases goes
    · split at goes
      · cases goes
      · have lowers := lowers_move m.point.ahead.head? m.state
        generalize move m.point.ahead.head? m.state = choice at goes lowers
        cases choice with
        | read s =>
            cases goes
            cases ahead : m.point.ahead with
            | nil =>
                rw [ahead] at lowers
                refine .inr ⟨?_, lowers rfl⟩
                simp [Point.bump, look_ahead, ahead]
            | cons c rest =>
                refine .inl ⟨c, ?_⟩
                simp [Point.bump, look_ahead, ahead]
        | keep s =>
            cases goes
            exact .inr ⟨look_ahead m, lowers⟩
        | ends result => cases result <;> cases goes
        | range t => cases goes
        | finished => cases goes

theorem size_lt (goes : m.step ending = .goes m') : m'.size < m.size := by
  have first := rank_le m'.state
  rcases step_progress goes with ⟨c, ahead⟩ | ⟨same, lower⟩
  · rw [size, size, ahead, List.length_cons]
    omega
  · rw [size, size, same]
    omega

/-- What a call comes to within so many steps. -/
def after (ending : Ending) (m : Machine) : Nat → Outcome
  | 0 => .goes m
  | n + 1 =>
      match m.step ending with
      | .goes m' => m'.after ending n
      | .answers item m' => .answers item m'

/-- A call for the next item: what it answers, if there is one, and the machine it leaves. -/
def next (ending : Ending) (m : Machine) : Option Scanned × Machine :=
  match _step : m.step ending with
  | .goes m' => next ending m'
  | .answers item m' => (item, m')
termination_by m.size
decreasing_by exact size_lt _step

theorem next_of_goes (goes : m.step ending = .goes m') : m.next ending = m'.next ending := by
  rw [next.eq_def]
  split
  · next found =>
    rw [goes] at found
    cases found
    rfl
  · next found =>
    rw [goes] at found
    cases found

theorem next_of_answers (answers : m.step ending = .answers item m') : m.next ending = (item, m') := by
  rw [next.eq_def]
  split
  · next found =>
    rw [answers] at found
    cases found
  · next found =>
    rw [answers] at found
    cases found
    rfl

/-- Every call ends, and within three steps for each character and three more. -/
theorem next_ends (ending : Ending) (m : Machine) : ∃ n ≤ m.size + 1,
    m.after ending n = .answers (m.next ending).1 (m.next ending).2 := by
  induction size : m.size using Nat.strongRecOn generalizing m with
  | ind k ih =>
    cases outcome : m.step ending with
    | answers item m' =>
        refine ⟨1, by omega, ?_⟩
        rw [next_of_answers outcome, after, outcome]
    | goes m' =>
        have less := size_lt outcome
        obtain ⟨n, le, eq⟩ := ih m'.size (size ▸ less) m' rfl
        refine ⟨n + 1, by omega, ?_⟩
        rw [next_of_goes outcome, after, outcome]
        exact eq

end Machine

end PascalX86.Scan
