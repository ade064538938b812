import PascalX86.Proofs.Scanning.Location

/-!
# Scanning step by step

A text is read one blank, comment or token at a time. Returns at the ends of lines and the newline
after the last line do not change what is read.
-/

set_option autoImplicit false

namespace PascalX86

open Scan

namespace Scan

/-- A text read from a position on, one blank, comment or token at a time, and the tokens with the spans
that their characters take. -/
inductive Scans : Position → List Char → List (Located Token) → Prop where
  | done {here : Position} : Scans here [] []
  | blank {here : Position} {c : Char} {rest : List Char} {es : List (Located Token)}
      (blank : Text.isBlank c = true) (after : Scans (here.after c) rest es) : Scans here (c :: rest) es
  | comment {here : Position} {text rest : List Char} {es : List (Located Token)}
      (comment : Comment text) (after : Scans (walk here text) rest es) : Scans here (text ++ rest) es
  | token {here : Position} {text rest : List Char} {t : Token} {es : List (Located Token)}
      (found : Found t text rest) (after : Scans (walk here text) rest es) :
      Scans here (text ++ rest) (⟨t, ⟨here, walk here text⟩⟩ :: es)
  | range {here : Position} {digits rest : List Char} {n : Int32} {es : List (Located Token)}
      (lexeme : Lexeme (.integer n) digits) (inside : ∀ c ∈ digits, c.isDigit = true)
      (after : Scans (walk here (digits ++ ['.', '.'])) rest es) :
      Scans here (digits ++ (['.', '.'] ++ rest))
        (⟨.integer n, ⟨here, walk here digits⟩⟩ ::
          ⟨.mark .doubleDot, ⟨walk here digits, walk here (digits ++ ['.', '.'])⟩⟩ :: es)

/-- A text that does not start with a blank. -/
def Seen (text : List Char) : Prop := ∃ c tail, text = c :: tail ∧ Text.isBlank c = false

section Seen

variable {text rest rest' : List Char} {t : Token} {c : Char}

theorem Comment.seen (h : Comment text) : Seen text := by
  cases h <;> exact ⟨_, _, rfl, rfl⟩

theorem Lexeme.seen (h : Lexeme t text) : Seen text := by
  obtain ⟨visible, -, -⟩ := h
  exact ⟨_, _, rfl, visible⟩

theorem Found.seen (h : Found t text rest) : Seen text := h.lexeme.seen

theorem Seen.ne_nil (h : Seen text) : text ≠ [] := by
  obtain ⟨c, tail, rfl, -⟩ := h
  exact List.cons_ne_nil c tail

theorem Seen.not_blank (h : Seen text) (whole : c :: rest = text ++ rest') : Text.isBlank c = false := by
  obtain ⟨d, tail, rfl, visible⟩ := h
  obtain ⟨rfl, -⟩ := List.cons_eq_cons.mp whole
  exact visible

end Seen

section Skipped

variable {rest : List Char}

theorem braceComment_closed {body : List Char} (rest : List Char) (closed : '\x7d' ∉ body) :
    braceComment (body ++ '\x7d' :: rest) = some (body.length + 1) := by
  induction body with
  | nil => rfl
  | cons c body ih =>
      rw [List.mem_cons, not_or] at closed
      rw [List.cons_append, braceComment.eq_3 _ _ fun eq => closed.1 eq.symm, ih closed.2]
      rfl

theorem starComment_closed {body : List Char} (rest : List Char) (closed : ¬ ['*', ')'] <:+: body ++ ['*']) :
    starComment (body ++ '*' :: ')' :: rest) = some (body.length + 2) := by
  induction body with
  | nil => rfl
  | cons c body ih =>
      rw [List.cons_append, List.infix_cons_iff, not_or] at closed
      rw [List.cons_append, starComment.eq_3, ih closed.2]
      · rfl
      · rintro tail rfl eq
        refine closed.1 ?_
        cases body with
        | nil => cases eq
        | cons d body =>
            obtain ⟨rfl, -⟩ := List.cons_eq_cons.mp eq
            simp

theorem recognise_comment {c : Char} {taken : List Char} (h : Comment (c :: taken)) :
    recognise c (taken ++ rest) = ⟨taken.length, .skipped⟩ := by
  cases h with
  | @brace body closed =>
      have read := braceComment_closed rest closed
      simp [recognise, comment, read]
  | @star body closed =>
      have read := starComment_closed rest closed
      simp [recognise, comment, read, Nat.add_comm]
  | @line body closed =>
      have inside : ∀ c ∈ '/' :: body, (c != '\n') = true := by
        intro c mem
        rcases List.mem_cons.mp mem with rfl | mem
        · rfl
        · exact bne_iff_ne.mpr fun eq => closed (eq ▸ mem)
      have stops : ∀ c ∈ ('\n' :: rest).head?, (c != '\n') = false := by simp
      have run := (takeWhile_run inside stops).1
      have read : recognise '/' ('/' :: (body ++ ['\n']) ++ rest) =
          lineComment (('/' :: body) ++ '\n' :: rest) := by simp [recognise]
      rw [read, lineComment, run]
      simp

end Skipped

section Ranges

variable {digits rest : List Char} {n : Int32}

theorem Lexeme.integer_eq (h : Lexeme (.integer n) digits) (inside : ∀ c ∈ digits, c.isDigit = true) :
    integer 10 digits = .ok (.integer n) := by
  obtain ⟨visible, -, read⟩ := h
  rename_i c tail
  obtain ⟨digit, digits⟩ := List.forall_mem_cons.mp inside
  have stops : ∀ c ∈ ['\n'].head?, isNumeralMark c = false := by simp [isNumeralMark, isExponentMark]
  rw [recognise_of_isDigit digit, number_eq_numeral, (takeWhile_run digits not_digit_newline).1,
    (takeWhile_run digits not_digit_newline).2, numeral_stop stops] at read
  simp only [meaningOf] at read
  split at read
  · next value =>
    cases read
    exact value
  · cases read

theorem recognise_range {c : Char} {tail : List Char} (h : Lexeme (.integer n) (c :: tail))
    (inside : ∀ d ∈ c :: tail, d.isDigit = true) :
    recognise c (tail ++ '.' :: '.' :: rest) = ⟨tail.length + 2, .rangeFrom (.integer n)⟩ := by
  have value := h.integer_eq inside
  obtain ⟨digit, digits⟩ := List.forall_mem_cons.mp inside
  have stops : ∀ d ∈ ('.' :: '.' :: rest).head?, d.isDigit = false := by simp
  rw [recognise_of_isDigit digit, number_eq_numeral, (takeWhile_run digits stops).1,
    (takeWhile_run digits stops).2, numeral, value]
  rfl

theorem found_doubleDot (rest : List Char) : Found (.mark .doubleDot) ['.', '.'] rest := .read rfl rfl

end Ranges

section Items

variable {p : Point} {c : Char} {taken left rest : List Char}

theorem items_comment (ahead : p.ahead = c :: (taken ++ left)) (comment : Comment (c :: taken)) :
    items .endOfFile p = items .endOfFile (p.move c taken left) := by
  have visible := comment.seen.not_blank (List.append_nil _).symm
  have stays : items .endOfFile p = _ :=
    (items_of_read ahead visible (recognise_comment comment) (by simp)).1 rfl
  rwa [List.take_left, List.drop_left] at stays

theorem items_range {t : Token} {digits : List Char} (visible : Text.isBlank c = false)
    (ahead : p.ahead = c :: (digits ++ '.' :: '.' :: left))
    (read : recognise c (digits ++ '.' :: '.' :: left) = ⟨digits.length + 2, .rangeFrom t⟩) :
    ∃ span span', items .endOfFile p = .ok ⟨t, span⟩ :: .ok ⟨.mark .doubleDot, span'⟩ ::
      items .endOfFile (p.move c (digits ++ ['.', '.']) left) := by
  have split : digits ++ '.' :: '.' :: left = (digits ++ ['.', '.']) ++ left := by simp
  have length : digits.length + 2 = (digits ++ ['.', '.']).length := by simp
  have found : items .endOfFile p = _ := (items_of_read ahead visible read (by simp)).2.2.1 t rfl
  rw [split, length, List.take_left, List.drop_left] at found
  exact ⟨_, _, found⟩

end Items

section Reading

variable {here : Position} {text gap rest : List Char} {ts es : List (Located Token)}

theorem Scans.behind (filler : Filler gap) (h : Scans (walk here gap) rest es) :
    Scans here (gap ++ rest) es := by
  induction filler generalizing here with
  | nil => exact h
  | blank blank _ ih => exact .blank blank (ih h)
  | @comment text gap comment _ ih =>
      rw [List.append_assoc]
      exact .comment comment (ih (by rwa [walk_append] at h))

theorem scans_of_cuts (h : Cuts here text ts es) : Scans here text es := by
  induction h with
  | @done here text filler =>
      rw [← List.append_nil text]
      exact .behind filler .done
  | @token here gap text rest t ts es filler found after ih =>
      rw [walk_append] at ih ⊢
      exact .behind filler (.token found ih)
  | @range here gap digits rest n ts es filler lexeme inside after ih =>
      simp only [walk_append] at ih ⊢
      refine .behind filler ?_
      simpa using Scans.range lexeme inside (by simpa using ih)

/-- Scanning makes the same tokens of a text wherever it stands. -/
theorem Scans.items (h : Scans here text es) (p : Point) (ahead : p.ahead = text) :
    ∃ ts last, items .endOfFile p = (ts ++ [⟨.endOfFile, last⟩]).map .ok ∧
      ts.map Located.value = es.map Located.value := by
  induction h generalizing p with
  | done => exact ⟨[], p.last, items_of_nil ahead, rfl⟩
  | blank blank after ih =>
      obtain ⟨ts, last, eq, values⟩ := ih (p.move _ [] _) rfl
      exact ⟨ts, last, (items_of_blank ahead blank).trans eq, values⟩
  | @comment here text rest es comment after ih =>
      obtain ⟨c, taken, rfl, -⟩ := comment.seen
      obtain ⟨ts, last, eq, values⟩ := ih (p.move c taken rest) rfl
      exact ⟨ts, last, (items_comment ahead comment).trans eq, values⟩
  | @token here text rest t es found after ih =>
      obtain ⟨visible, read⟩ := found
      rename_i c tail
      obtain ⟨ts, last, eq, values⟩ := ih (p.move c tail rest) rfl
      refine ⟨_ :: ts, last, (items_token ahead visible read).trans (congrArg _ eq), ?_⟩
      simp [values]
  | @range here digits rest n es lexeme inside after ih =>
      obtain ⟨c, tail, rfl, visible⟩ := lexeme.seen
      have ahead : p.ahead = c :: (tail ++ '.' :: '.' :: rest) := ahead
      obtain ⟨ts, last, eq, values⟩ := ih (p.move c (tail ++ ['.', '.']) rest) rfl
      obtain ⟨span, span', read⟩ :=
        items_range visible ahead (recognise_range lexeme inside)
      refine ⟨⟨.integer n, span⟩ :: ⟨.mark .doubleDot, span'⟩ :: ts, last, ?_, by simp [values]⟩
      rw [read, eq]
      rfl

/-- No blank is read as anything else. -/
theorem Scans.tail {c : Char} (h : Scans here (c :: rest) es) (blank : Text.isBlank c = true) :
    Scans (here.after c) rest es := by
  generalize whole : c :: rest = text at h
  cases h with
  | done => cases whole
  | blank _ after =>
      obtain ⟨rfl, rfl⟩ := List.cons_eq_cons.mp whole
      exact after
  | comment comment => simp [comment.seen.not_blank whole] at blank
  | token found => simp [found.seen.not_blank whole] at blank
  | range lexeme => simp [lexeme.seen.not_blank whole] at blank

end Reading

/-- Texts that differ only in returns at the ends of lines. -/
inductive Alike : List Char → List Char → Prop where
  | nil : Alike [] []
  | cons (c : Char) {a b : List Char} (after : Alike a b) : Alike (c :: a) (c :: b)
  | newline {returns returns' a b : List Char} (only : ∀ c ∈ returns, c = '\r')
      (only' : ∀ c ∈ returns', c = '\r') (after : Alike a b) :
      Alike (returns ++ '\n' :: a) (returns' ++ '\n' :: b)

section Returns

variable {a b x y : List Char} {c : Char} {here : Position}

theorem Alike.symm (h : Alike a b) : Alike b a := by
  induction h with
  | nil => exact .nil
  | cons c _ ih => exact .cons c ih
  | newline only only' _ ih => exact .newline only' only ih

theorem Alike.eq_nil (h : Alike [] b) : b = [] := by
  generalize whole : [] = a at h
  cases h with
  | nil => rfl
  | cons => cases whole
  | newline => simp at whole

/-- A first character stays first, unless it is a newline or a return. -/
theorem Alike.uncons (h : Alike (c :: a) b) :
    (∃ returns b', b = returns ++ c :: b' ∧ (∀ r ∈ returns, r = '\r') ∧ (returns = [] ∨ c = '\n') ∧
      Alike a b') ∨
    c = '\r' ∧ Alike a b ∧ ∃ returns b', b = returns ++ '\n' :: b' ∧ ∀ r ∈ returns, r = '\r' := by
  generalize whole : c :: a = a' at h
  cases h with
  | nil => cases whole
  | @cons d a' b' after =>
      obtain ⟨rfl, rfl⟩ := List.cons_eq_cons.mp whole
      exact .inl ⟨[], b', rfl, by simp, .inl rfl, after⟩
  | @newline returns returns' a' b' only only' after =>
      cases returns with
      | nil =>
          obtain ⟨rfl, rfl⟩ := List.cons_eq_cons.mp whole
          exact .inl ⟨returns', b', rfl, only', .inr rfl, after⟩
      | cons r returns =>
          obtain ⟨rfl, rfl⟩ := List.cons_eq_cons.mp whole
          obtain ⟨rfl, others⟩ := List.forall_mem_cons.mp only
          exact .inr ⟨rfl, .newline others only' after, returns', b', rfl, only'⟩

theorem Alike.head (h : Alike (c :: a) b) (newline : c ≠ '\n') (other : c ≠ '\r') :
    ∃ b', b = c :: b' ∧ Alike a b' := by
  rcases h.uncons with ⟨returns, b', rfl, -, rfl | eq, after⟩ | ⟨eq, -⟩
  · exact ⟨b', rfl, after⟩
  · exact absurd eq newline
  · exact absurd eq other

theorem eq_nil_of_returns (only : ∀ c ∈ x, c = '\r') (last : ∀ c ∈ x.getLast?, c ≠ '\r') : x = [] := by
  by_contra some
  have mem := List.getLast?_eq_some_getLast some
  exact last _ mem (only _ (List.getLast_mem some))

theorem Alike.split (h : Alike (x ++ y) b) (last : ∀ c ∈ x.getLast?, c ≠ '\r') :
    ∃ x' y', b = x' ++ y' ∧ Alike x x' ∧ Alike y y' := by
  generalize whole : x ++ y = a at h
  induction h generalizing x with
  | nil =>
      obtain ⟨rfl, rfl⟩ := List.append_eq_nil_iff.mp whole
      exact ⟨[], [], rfl, .nil, .nil⟩
  | @cons c a b after ih =>
      cases x with
      | nil =>
          subst whole
          exact ⟨[], c :: b, rfl, .nil, .cons c after⟩
      | cons d x =>
          obtain ⟨rfl, rfl⟩ := List.cons_eq_cons.mp whole
          obtain ⟨x', y', rfl, first, second⟩ := ih (fun c mem => last c (List.mem_getLast?_cons mem)) rfl
          exact ⟨d :: x', y', rfl, .cons d first, second⟩
  | @newline returns returns' a b only only' after ih =>
      rcases List.append_eq_append_iff.mp whole with ⟨more, rfl, rfl⟩ | ⟨more, rfl, eq⟩
      · -- A part that ends among the returns is empty.
        obtain rfl := eq_nil_of_returns (fun c mem => only c (List.mem_append_left _ mem)) last
        exact ⟨[], _, rfl, .nil, .newline only only' after⟩
      · cases more with
        | nil =>
            rw [List.append_nil] at last
            obtain rfl := eq_nil_of_returns only last
            obtain rfl : '\n' :: a = y := eq
            exact ⟨[], _, rfl, .nil, .newline only only' after⟩
        | cons d more =>
            obtain ⟨rfl, rfl⟩ := List.cons_eq_cons.mp eq
            have last' : ∀ c ∈ more.getLast?, c ≠ '\r' := by
              intro c mem
              refine last c ?_
              rw [List.getLast?_append, List.getLast?_cons, Option.mem_def.mp mem]
              rfl
            obtain ⟨x', y', rfl, first, second⟩ := ih last' rfl
            exact ⟨returns' ++ '\n' :: x', y', by simp, .newline only only' first, second⟩

theorem Alike.concat (h : Alike (a ++ [c]) b) (newline : c ≠ '\n') : ∃ b', b = b' ++ [c] ∧ Alike a b' := by
  generalize whole : a ++ [c] = a' at h
  induction h generalizing a with
  | nil => simp at whole
  | @cons d a' b after ih =>
      cases a with
      | nil =>
          obtain ⟨rfl, rfl⟩ := List.cons_eq_cons.mp whole
          obtain rfl := after.eq_nil
          exact ⟨[], rfl, .nil⟩
      | cons e a =>
          obtain ⟨rfl, rfl⟩ := List.cons_eq_cons.mp whole
          obtain ⟨b', rfl, alike⟩ := ih rfl
          exact ⟨e :: b', rfl, .cons e alike⟩
  | @newline returns returns' a' b only only' after ih =>
      rcases a'.eq_nil_or_concat with rfl | ⟨a', d, rfl⟩
      · have last := (List.append_inj' whole rfl).2
        exact absurd (List.cons_eq_cons.mp last).1 newline
      · rw [List.concat_eq_append, ← List.cons_append, ← List.append_assoc] at whole
        obtain ⟨rfl, last⟩ := List.append_inj' whole rfl
        obtain ⟨rfl, -⟩ := List.cons_eq_cons.mp last
        obtain ⟨b', rfl, alike⟩ := ih (List.concat_eq_append ..).symm
        exact ⟨returns' ++ '\n' :: b', by simp, .newline only only' alike⟩

theorem Alike.mem_iff (h : Alike a b) (other : c ≠ '\r') : c ∈ a ↔ c ∈ b := by
  induction h with
  | nil => rfl
  | cons d _ ih => simp [ih]
  | @newline returns returns' a b only only' _ ih =>
      have none : c ∉ returns := fun mem => other (only c mem)
      have none' : c ∉ returns' := fun mem => other (only' c mem)
      simp [ih, none, none']

theorem Alike.eq (h : Alike a b) (line : '\n' ∉ a) : a = b := by
  induction h with
  | nil => rfl
  | cons c _ ih =>
      rw [List.mem_cons, not_or] at line
      rw [ih line.2]
  | newline => simp at line

theorem Alike.line (h : Alike (a ++ ['\n']) b) (line : '\n' ∉ a) : ∃ b', b = b' ++ ['\n'] ∧ '\n' ∉ b' := by
  generalize whole : a ++ ['\n'] = a' at h
  induction h generalizing a with
  | nil => simp at whole
  | @cons d a' b after ih =>
      cases a with
      | nil =>
          obtain ⟨rfl, rfl⟩ := List.cons_eq_cons.mp whole
          obtain rfl := after.eq_nil
          exact ⟨[], rfl, by simp⟩
      | cons e a =>
          obtain ⟨rfl, rfl⟩ := List.cons_eq_cons.mp whole
          rw [List.mem_cons, not_or] at line
          obtain ⟨b', rfl, line'⟩ := ih line.2 rfl
          exact ⟨e :: b', rfl, by simp [line.1, line']⟩
  | @newline returns returns' a' b only only' after ih =>
      rcases a'.eq_nil_or_concat with rfl | ⟨a', d, rfl⟩
      · obtain rfl := after.eq_nil
        exact ⟨returns', rfl, fun mem => by cases only' _ mem⟩
      · rw [List.concat_eq_append, ← List.cons_append, ← List.append_assoc] at whole
        obtain ⟨rfl, -⟩ := List.append_inj' whole rfl
        simp at line

theorem infix_of_returns {returns : List Char} (only : ∀ c ∈ returns, c = '\r')
    (h : ['*', ')'] <:+: returns ++ '\n' :: b) : ['*', ')'] <:+: b := by
  induction returns with
  | nil =>
      rcases List.infix_cons_iff.mp h with start | inner
      · cases (List.cons_prefix_cons.mp start).1
      · exact inner
  | cons r returns ih =>
      obtain ⟨rfl, others⟩ := List.forall_mem_cons.mp only
      rcases List.infix_cons_iff.mp h with start | inner
      · cases (List.cons_prefix_cons.mp start).1
      · exact ih others inner

theorem Alike.close (h : Alike a b) (inner : ['*', ')'] <:+: b) : ['*', ')'] <:+: a := by
  induction h with
  | nil => exact inner
  | @cons c a b after ih =>
      rw [List.infix_cons_iff] at inner ⊢
      refine inner.imp (fun start => ?_) ih
      obtain ⟨rfl, second⟩ := List.cons_prefix_cons.mp start
      cases b with
      | nil => cases (List.prefix_nil.mp second)
      | cons d b =>
          obtain ⟨rfl, -⟩ := List.cons_prefix_cons.mp second
          obtain ⟨a', rfl, -⟩ := after.symm.head (by decide) (by decide)
          simp
  | newline only only' _ ih =>
      have inside := ih (infix_of_returns only' inner)
      exact inside.trans ((List.suffix_cons _ _).trans (List.suffix_append _ _)).isInfix

theorem walk_returns {returns : List Char} (only : ∀ c ∈ returns, c = '\r') :
    (walk here returns).line = here.line := by
  induction returns generalizing here with
  | nil => rfl
  | cons r returns ih =>
      obtain ⟨rfl, others⟩ := List.forall_mem_cons.mp only
      exact ih others

theorem walk_newline {returns : List Char} (only : ∀ c ∈ returns, c = '\r') :
    walk here (returns ++ ['\n']) = here.newline := by
  rw [walk_append, walk_cons, walk_nil, Position.after_newline]
  exact congrArg (fun line => Position.mk (line + 1) 1) (walk_returns only)

theorem Alike.walk (h : Alike a b) : walk here a = walk here b := by
  induction h generalizing here with
  | nil => rfl
  | cons c _ ih => exact ih
  | @newline returns returns' a b only only' _ ih =>
      have eq := walk_append here (returns ++ ['\n']) a
      have eq' := walk_append here (returns' ++ ['\n']) b
      rw [walk_newline only, List.append_assoc] at eq
      rw [walk_newline only', List.append_assoc] at eq'
      exact eq.trans (ih.trans eq'.symm)

theorem Alike.follows (h : Alike a b) : Follows a b := by
  cases h with
  | nil => exact nofun
  | cons c => exact fun d mem => .inr mem
  | @newline _ returns' _ _ _ only' =>
      intro d mem
      cases returns' with
      | nil =>
          obtain rfl : '\n' = d := Option.some.inj mem
          exact .inl rfl
      | cons r returns' =>
          obtain rfl : r = d := Option.some.inj mem
          rw [only' r List.mem_cons_self]
          exact .inl rfl

theorem Comment.alike (h : Comment x) (alike : Alike x y) : Comment y := by
  cases h with
  | @brace body closed =>
      obtain ⟨y, rfl, inner⟩ := alike.head (by decide) (by decide)
      obtain ⟨body', rfl, bodies⟩ := inner.concat (by decide)
      exact .brace fun mem => closed ((bodies.mem_iff (by decide)).mpr mem)
  | @star body closed =>
      obtain ⟨y, rfl, outer⟩ := alike.head (by decide) (by decide)
      obtain ⟨y, rfl, inner⟩ := outer.head (by decide) (by decide)
      rw [show ['*', ')'] = ['*'] ++ [')'] from rfl, ← List.append_assoc] at inner
      obtain ⟨y, rfl, bodies⟩ := Alike.concat inner (by decide)
      obtain ⟨body', rfl, -⟩ := bodies.concat (by decide)
      rw [List.append_assoc]
      exact .star fun inside => closed (bodies.close inside)
  | @line body closed =>
      obtain ⟨y, rfl, outer⟩ := alike.head (by decide) (by decide)
      obtain ⟨y, rfl, inner⟩ := outer.head (by decide) (by decide)
      obtain ⟨body', rfl, closed'⟩ := Alike.line inner closed
      exact .line closed'

theorem Comment.last (h : Comment x) : ∀ c ∈ x.getLast?, c ≠ '\r' := by
  cases h with
  | @brace body => simp [List.getLast?_cons]
  | @star body => simp [List.getLast?_cons, List.getLast?_append]
  | @line body => simp [List.getLast?_cons]

theorem Lexeme.last {t : Token} (h : Lexeme t x) : ∀ c ∈ x.getLast?, c ≠ '\r' := by
  rintro c mem rfl
  cases h.closed.visible _ mem

variable {es : List (Located Token)}

theorem Scans.returns {returns : List Char} {here' : Position} (only : ∀ c ∈ returns, c = '\r')
    (h : Scans here (returns ++ '\n' :: a) es) (line : here.line = here'.line) :
    Scans here' (returns ++ '\n' :: a) es := by
  induction returns generalizing here here' with
  | nil =>
      have after := h.tail Text.isBlank_newline
      rw [Position.after_newline, Position.newline, line] at after
      exact .blank Text.isBlank_newline after
  | cons r returns ih =>
      obtain ⟨rfl, others⟩ := List.forall_mem_cons.mp only
      exact .blank rfl (ih others (h.tail rfl) line)

theorem filler_of_returns {returns : List Char} (only : ∀ c ∈ returns, c = '\r') : Filler returns := by
  induction returns with
  | nil => exact .nil
  | cons r returns ih =>
      obtain ⟨rfl, others⟩ := List.forall_mem_cons.mp only
      exact .blank rfl (ih others)

/-- Returns at the ends of lines do not matter. -/
theorem Scans.alike (h : Scans here x es) (alike : Alike x y) : Scans here y es := by
  induction h generalizing y with
  | done =>
      rw [alike.eq_nil]
      exact .done
  | @blank here c rest es blank after ih =>
      rcases alike.uncons with ⟨returns, y, rfl, only, same, later⟩ | ⟨rfl, later, returns, y, rfl, only⟩
      · have next := Scans.blank blank (ih later)
        rcases same with rfl | rfl
        · exact next
        · have moved := Scans.returns (List.forall_mem_nil _) next (walk_returns only).symm
          exact .behind (filler_of_returns only) moved
      · exact (ih later).returns only rfl
  | comment comment after ih =>
      obtain ⟨x', y', rfl, first, second⟩ := alike.split comment.last
      refine .comment (comment.alike first) ?_
      rw [← first.walk]
      exact ih second
  | token found after ih =>
      obtain ⟨x', y', rfl, first, second⟩ := alike.split found.lexeme.last
      rw [first.walk]
      obtain rfl := first.eq found.lexeme.closed.line
      exact .token (found.follow second.follows) (ih second)
  | range lexeme inside after ih =>
      obtain ⟨x', y', rfl, first, second⟩ := alike.split lexeme.last
      obtain rfl := first.eq lexeme.closed.line
      obtain ⟨dots, y', rfl, first', second'⟩ := second.split (by simp)
      obtain rfl := first'.eq (by simp)
      exact .range lexeme inside (ih second')

end Returns

section Ends

variable {here : Position} {text : List Char} {es : List (Located Token)}

theorem follows_append (text back : List Char) (blank : ∀ c ∈ back.head?, Text.isBlank c = true) :
    Follows text (text ++ back) := by
  cases text with
  | nil => exact fun c mem => .inl (blank c mem)
  | cons c text => exact fun d mem => .inr mem

theorem Scans.concat (h : Scans here text es) : Scans here (text ++ ['\n']) es := by
  induction h with
  | done => exact .blank Text.isBlank_newline .done
  | blank blank _ ih => exact .blank blank ih
  | comment comment _ ih =>
      rw [List.append_assoc]
      exact .comment comment ih
  | token found _ ih =>
      rw [List.append_assoc]
      exact .token (found.follow (follows_append _ _ (by simp))) ih
  | range lexeme inside _ ih =>
      rw [List.append_assoc, List.append_assoc]
      exact .range lexeme inside ih

theorem Scans.eq_nil (h : Scans here [] es) : es = [] := by
  generalize none : [] = text at h
  cases h with
  | done => rfl
  | blank => cases none
  | comment comment => exact absurd (List.append_eq_nil_iff.mp none.symm).1 comment.seen.ne_nil
  | token found => exact absurd (List.append_eq_nil_iff.mp none.symm).1 found.seen.ne_nil
  | range => simp at none

theorem concat_cases {x rest : List Char} {c : Char} (h : text ++ [c] = x ++ rest) :
    rest = [] ∧ x = text ++ [c] ∨ ∃ init, rest = init ++ [c] ∧ text = x ++ init := by
  rcases rest.eq_nil_or_concat with rfl | ⟨init, d, rfl⟩
  · exact .inl ⟨rfl, by simpa using h.symm⟩
  · rw [List.concat_eq_append, ← List.append_assoc] at h
    obtain ⟨rfl, last⟩ := List.append_inj' h rfl
    obtain ⟨rfl, -⟩ := List.cons_eq_cons.mp last
    exact .inr ⟨init, List.concat_eq_append .., rfl⟩

/-- A comment does not end in an empty line. -/
theorem Comment.not_lined (h : Comment (text ++ ['\n'])) : ¬ Lined text := by
  generalize whole : text ++ ['\n'] = x at h
  intro lined
  cases h with
  | brace | star =>
      have last := congrArg List.getLast? whole
      simp [List.getLast?_cons, List.getLast?_append] at last
  | @line body closed =>
      have split : text ++ ['\n'] = ('/' :: '/' :: body) ++ ['\n'] := whole
      obtain ⟨rfl, -⟩ := List.append_inj' split rfl
      rcases body.eq_nil_or_concat with rfl | ⟨body, d, rfl⟩
      · cases lined '/' rfl
      · rw [List.concat_eq_append] at lined closed
        refine closed (List.mem_append_right body (List.mem_singleton.mpr ?_))
        exact (lined d (by simp [List.getLast?_cons])).symm

/-- A newline after whole lines is not part of a comment or token. -/
theorem Scans.init (h : Scans here (text ++ ['\n']) es) (lined : Lined text) : Scans here text es := by
  generalize whole : text ++ ['\n'] = text' at h
  induction h generalizing text with
  | done => simp at whole
  | @blank here c rest es blank after ih =>
      cases text with
      | nil =>
          obtain ⟨rfl, rfl⟩ := List.cons_eq_cons.mp whole
          rw [after.eq_nil]
          exact .done
      | cons d text =>
          obtain ⟨rfl, rfl⟩ := List.cons_eq_cons.mp whole
          exact .blank blank (ih (Lined.right [d] lined) rfl)
  | comment comment after ih =>
      rcases concat_cases whole with ⟨rfl, rfl⟩ | ⟨init, rfl, rfl⟩
      · exact absurd lined comment.not_lined
      · exact .comment comment (ih (Lined.right _ lined) rfl)
  | token found after ih =>
      rcases concat_cases whole with ⟨rfl, rfl⟩ | ⟨init, rfl, rfl⟩
      · exact absurd (List.mem_append_right text List.mem_cons_self) found.lexeme.closed.line
      · refine .token (found.follow fun c mem => .inr ?_) (ih (Lined.right _ lined) rfl)
        obtain ⟨rest, rfl⟩ := List.head?_eq_some_iff.mp mem
        rfl
  | @range here digits rest n es lexeme inside after ih =>
      rw [← List.append_assoc] at whole
      rcases concat_cases whole with ⟨rfl, same⟩ | ⟨init, rfl, rfl⟩
      · cases (List.append_inj' (same.symm.trans (List.append_assoc digits ['.'] ['.']).symm) rfl).2
      · rw [List.append_assoc] at lined ⊢
        exact .range lexeme inside (ih (Lined.right _ (Lined.right _ lined)) rfl)

end Ends

section Lines

theorem exists_returns (line : List Char) :
    ∃ returns, line = Source.trimReturns line ++ returns ∧ ∀ c ∈ returns, c = '\r' := by
  refine ⟨(line.reverse.takeWhile (· == '\r')).reverse, ?_, fun c mem => ?_⟩
  · rw [Source.trimReturns, ← List.reverse_append, List.takeWhile_append_dropWhile, List.reverse_reverse]
  · have inside := List.mem_takeWhile_imp (List.mem_reverse.mp mem)
    exact beq_iff_eq.mp inside

theorem Alike.prepend {a b : List Char} (h : Alike a b) (front : List Char) :
    Alike (front ++ a) (front ++ b) := by
  induction front with
  | nil => exact h
  | cons c front ih => exact .cons c ih

theorem alike_lines (lines : List (List Char)) :
    Alike (lines.flatMap fun line => line ++ ['\n'])
      (lines.flatMap fun line => Source.trimReturns line ++ ['\n']) := by
  induction lines with
  | nil => exact .nil
  | cons line lines ih =>
      obtain ⟨returns, eq, only⟩ := exists_returns line
      have ends := (Alike.newline only (List.forall_mem_nil _) ih).prepend (Source.trimReturns line)
      rw [← List.append_assoc, ← eq] at ends
      simpa using ends

theorem Lined.cons {c : Char} {text : List Char} (h : Lined text) (last : text = [] → c = '\n') :
    Lined (c :: text) := by
  intro d mem
  cases text with
  | nil =>
      obtain rfl : c = d := Option.some.inj mem
      exact last rfl
  | cons e text => exact h d mem

/-- Only a last line may lack its newline. -/
theorem pieces_cases (text : List Char) :
    ((Source.pieces text).flatMap fun line => line ++ ['\n']) = text ∧ Lined text ∨
      ((Source.pieces text).flatMap fun line => line ++ ['\n']) = text ++ ['\n'] := by
  induction text using Source.pieces.induct with
  | case1 => exact .inl ⟨rfl, nofun⟩
  | case2 rest ih =>
      rw [Source.pieces_newline, List.flatMap_cons]
      exact ih.imp (fun h => ⟨congrArg _ h.1, h.2.cons fun _ => rfl⟩) (congrArg _)
  | case3 c rest other none ih =>
      obtain ⟨rfl, -⟩ : rest = [] ∧ Lined rest := by simpa [none] using ih
      rw [Source.pieces.eq_3 _ _ other, none]
      exact .inr rfl
  | case4 c rest other line lines eq ih =>
      rw [Source.pieces.eq_3 _ _ other]
      rw [eq] at ih ⊢
      refine ih.imp (fun h => ⟨congrArg (c :: ·) h.1, h.2.cons ?_⟩) (congrArg (c :: ·))
      rintro rfl
      simp at h

variable {here : Position} {es : List (Located Token)}

theorem scans_characters_iff (name text : String) :
    Scans here (Source.ofText name text).characters es ↔ Scans here (text.toList ++ ['\n']) es := by
  have lines : (Source.ofText name text).characters =
      (Source.pieces text.toList).flatMap fun line => Source.trimReturns line ++ ['\n'] := by
    simp [Source.ofText, Source.linesOf, Source.characters, List.flatMap_map]
  have alike := alike_lines (Source.pieces text.toList)
  rw [lines]
  rcases pieces_cases text.toList with ⟨whole, lined⟩ | whole <;> rw [whole] at alike
  · exact ⟨fun h => (h.alike alike.symm).concat, fun h => (h.init lined).alike alike⟩
  · exact ⟨fun h => h.alike alike.symm, fun h => h.alike alike⟩

end Lines

end Scan

end PascalX86
