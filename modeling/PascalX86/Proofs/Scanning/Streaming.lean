import PascalX86.Proofs.Checking.Reading
import PascalX86.Proofs.Scanning.Lexeme

/-!
# Streams of tokens

Scanning answers tokens and then, once, the end of the file or an error. A cursor that moves over
these items shows the same tokens as scanning the whole text at once, and stays at their end.
-/

set_option autoImplicit false

namespace PascalX86

namespace Scan

/-- Only the end of a text is the end of the file. -/
def Meaning.Inner : Meaning → Prop
  | .token t | .rangeFrom t => t.isEndOfFile = false
  | .skipped | .failed _ => True

theorem inner_integer (base : Nat) (digits : List Char) : (meaningOf (integer base digits)).Inner := by
  simp only [integer]
  split
  · rfl
  · trivial

theorem inner_double (whole fraction : List Char) (exponent : Int) (text : List Char) :
    (double whole fraction exponent text).Inner := by
  unfold double
  split
  · rfl
  · trivial

theorem inner_exponent (whole fraction text rest : List Char) :
    (exponent whole fraction text rest).meaning.Inner := by
  unfold exponent
  dsimp only
  split
  · trivial
  · exact inner_double ..

theorem inner_number (c : Char) (rest : List Char) : (number c rest).meaning.Inner := by
  unfold number
  dsimp only
  split
  · split
    · next value =>
      obtain ⟨m, rfl⟩ := exists_of_integer value
      rfl
    · trivial
  · split
    · trivial
    · split
      · split
        · exact inner_exponent ..
        · exact inner_double ..
      · exact inner_double ..
  · split
    · exact inner_exponent ..
    · exact inner_integer ..
  · exact inner_integer ..

theorem inner_word (c : Char) (rest : List Char) : (word c rest).meaning.Inner := by
  unfold word
  dsimp only
  split <;> rfl

theorem inner_hex (rest : List Char) : (hex rest).meaning.Inner := by
  unfold hex
  dsimp only
  split
  · trivial
  · exact inner_integer ..

theorem inner_charCode (rest : List Char) : (charCode rest).meaning.Inner := by
  unfold charCode
  dsimp only
  split
  · trivial
  · split
    · rfl
    · trivial

theorem inner_literal (content : List Char) : (literal content).isEndOfFile = false := by
  unfold literal
  split
  · split <;> rfl
  · rfl

theorem inner_quoted (rest : List Char) : (quoted rest).meaning.Inner := by
  unfold quoted
  split
  · exact inner_literal _
  · trivial

theorem inner_comment (rest : List Char) (opening : Nat) (length : Option Nat) :
    (comment rest opening length).meaning.Inner := by
  unfold comment
  split <;> trivial

theorem inner_recognise (c : Char) (rest : List Char) : (recognise c rest).meaning.Inner := by
  unfold recognise
  split
  case h_10 =>
    split
    · exact inner_comment ..
    · rfl
  case h_11 | h_12 | h_13 | h_14 => split <;> rfl
  case h_15 =>
    split
    · trivial
    · rfl
  case h_16 => exact inner_comment ..
  case h_17 => exact inner_hex rest
  case h_18 => exact inner_charCode rest
  case h_19 => exact inner_quoted rest
  case h_20 =>
    split
    · exact inner_word ..
    · split
      · exact inner_number ..
      · trivial
  all_goals rfl

/-- The items of a whole text: tokens, of which none is the end of the file, and one last item, which
is the end of the file or an error. -/
structure Complete (items : List Scanned) (tokens : List (Located Token)) (last : Scanned) : Prop where
  eq : items = tokens.map .ok ++ [last]
  inner : ∀ t ∈ tokens, t.value.isEndOfFile = false
  final : ∀ t, last = .ok t → t.value.isEndOfFile = true

section Complete

variable {items' : List Scanned} {tokens : List (Located Token)} {last : Scanned} {t : Located Token}

theorem Complete.cons (h : Complete items' tokens last) (inner : t.value.isEndOfFile = false) :
    Complete (.ok t :: items') (t :: tokens) last :=
  ⟨by rw [h.eq]; rfl, List.forall_mem_cons.mpr ⟨inner, h.inner⟩, h.final⟩

theorem complete_error (e : Located LexicalError) : Complete [.error e] [] (.error e) :=
  ⟨rfl, by simp, nofun⟩

theorem items_complete (ending : Ending) (p : Point) :
    ∃ tokens last, Complete (items ending p) tokens last := by
  fun_induction items ending p with
  | case1 p none =>
      refine ⟨[], _, rfl, by simp, ?_⟩
      rintro t ⟨⟩
      rfl
  | case2 | case4 | case8 => exact ⟨[], _, complete_error _⟩
  | case3 p c rest eq blank ih => exact ih
  | case5 p c rest eq visible reading ahead next whole skipped ih => exact ih
  | case6 p c rest eq visible reading ahead next whole t token ih =>
      obtain ⟨tokens, last, complete⟩ := ih
      have inner := inner_recognise c rest
      rw [show (recognise c rest).meaning = .token t from token] at inner
      exact ⟨_, last, complete.cons inner⟩
  | case7 p c rest eq visible reading ahead next whole t range dots ih =>
      obtain ⟨tokens, last, complete⟩ := ih
      have inner := inner_recognise c rest
      rw [show (recognise c rest).meaning = .rangeFrom t from range] at inner
      exact ⟨_, last, (complete.cons rfl).cons inner⟩

/-- Scanning all at once answers the tokens and the end of the file, or else the error. -/
theorem Complete.mapM (h : Complete items' tokens last) :
    items'.mapM id = last.map fun t => tokens ++ [t] := by
  rw [h.eq]
  clear h
  induction tokens with
  | nil => cases last <;> rfl
  | cons t tokens ih =>
      rw [List.map_cons, List.cons_append, List.mapM_cons, ih]
      cases last <;> rfl

/-- The end of the file only stands at the end. -/
theorem Complete.last_eq (h : Complete items' tokens last) (mem : .ok t ∈ items')
    (ends : t.value.isEndOfFile = true) : last = .ok t := by
  rw [h.eq, List.mem_append, List.mem_singleton] at mem
  rcases mem with mem | rfl
  · obtain ⟨u, inside, eq⟩ := List.mem_map.mp mem
    cases eq
    rw [h.inner t inside] at ends
    cases ends
  · rfl

end Complete

end Scan

namespace Cursor

/-- The cursor after so many moves, whatever these answered. -/
def after (c : Cursor) : Nat → Cursor
  | 0 => c
  | n + 1 => (c.after n).advance.2

/-- What a cursor shows and answers, move after move. Its moves are numbered from zero. -/
structure Shows (c : Cursor) (tokens : List (Located Token)) (last : Scanned) : Prop where
  token : ∀ n < tokens.length, tokens[n]? = some (c.after n).current
  moves : ∀ n, n + 1 < tokens.length → (c.after n).advance.1 = .ok true
  ends : ∀ t, last = .ok t → ∀ n, tokens.length ≤ n → (c.after n).current = t
  stops : ∀ t, last = .ok t → ∀ n, tokens.length ≤ n + 1 → (c.after n).advance.1 = .ok false
  fails : ∀ e, last = .error e → ∀ n, tokens.length = n + 1 → (c.after n).advance.1 = .error e
  stays : ∀ e, last = .error e → ∀ n, tokens.length ≤ n → tokens.getLast? = some (c.after n).current
  silent : ∀ e, last = .error e → ∀ n, tokens.length ≤ n → (c.after n).advance.1 = .ok true

/-- The cursor stands on the token of a number, with the items after it still to come. -/
structure At (tokens : List (Located Token)) (last : Scanned) (n : Nat) (c : Cursor) : Prop where
  current : tokens[n]? = some c.current
  coming : c.coming = (tokens.drop (n + 1)).map .ok ++ [last]

section Moves

variable {tokens : List (Located Token)} {last : Scanned} {items : List Scanned} {c : Cursor} {n : Nat}

theorem advance_token {t : Located Token} {coming : List Scanned}
    (inner : c.current.value.isEndOfFile = false) (eq : c.coming = .ok t :: coming) :
    c.advance.1 = .ok !t.value.isEndOfFile ∧ c.advance.2.current = t ∧ c.advance.2.coming = coming := by
  unfold advance
  rw [inner, if_neg Bool.false_ne_true]
  split
  · next none => simp [eq] at none
  · next found =>
    rw [eq] at found
    cases found
    exact ⟨rfl, rfl, rfl⟩
  · next found => simp [eq] at found

theorem advance_error {e : Located LexicalError} {coming : List Scanned}
    (inner : c.current.value.isEndOfFile = false) (eq : c.coming = .error e :: coming) :
    c.advance.1 = .error e ∧ c.advance.2.current = c.current ∧ c.advance.2.coming = coming := by
  unfold advance
  rw [inner, if_neg Bool.false_ne_true]
  split
  · next none => simp [eq] at none
  · next found => simp [eq] at found
  · next found =>
    rw [eq] at found
    cases found
    exact ⟨rfl, rfl, rfl⟩

theorem advance_exhausted (inner : c.current.value.isEndOfFile = false) (none : c.coming = []) :
    c.advance = (.ok true, c) := by
  unfold advance
  rw [inner, if_neg Bool.false_ne_true]
  split
  · rfl
  · next found => simp [none] at found
  · next found => simp [none] at found

theorem At.inner (h : At tokens last n c) (complete : Scan.Complete items tokens last) :
    c.current.value.isEndOfFile = false :=
  complete.inner _ (List.mem_of_getElem? h.current)

theorem At.next (h : At tokens last n c) (complete : Scan.Complete items tokens last)
    (more : n + 1 < tokens.length) : c.advance.1 = .ok true ∧ At tokens last (n + 1) c.advance.2 := by
  have eq := h.coming
  rw [List.drop_eq_getElem_cons more] at eq
  obtain ⟨answer, current, coming⟩ := advance_token (h.inner complete) eq
  rw [complete.inner _ (List.getElem_mem more)] at answer
  exact ⟨answer, by rw [current, List.getElem?_eq_getElem more], coming⟩

theorem At.final (h : At tokens last n c) (none : tokens.length = n + 1) : c.coming = [last] := by
  rw [h.coming, ← none, List.drop_length]
  rfl

theorem At.getLast (h : At tokens last n c) (none : tokens.length = n + 1) :
    tokens.getLast? = some c.current := by
  rw [List.getLast?_eq_getElem?, none]
  exact h.current

/-- As long as there are tokens, each move comes to the next one. -/
theorem At.after (h : At tokens last 0 c) (complete : Scan.Complete items tokens last)
    (inside : n < tokens.length) : At tokens last n (c.after n) := by
  induction n with
  | zero => exact h
  | succ n ih => exact ((ih (Nat.lt_of_succ_lt inside)).next complete inside).2

theorem after_of_isEndOfFile {k : Nat} (ends : (c.after k).current.value.isEndOfFile = true)
    (le : k ≤ n) : c.after n = c.after k := by
  induction le with
  | refl => rfl
  | step le ih => rw [Cursor.after, ih, advance_of_isEndOfFile ends]

theorem after_exhausted {k : Nat} (inner : (c.after k).current.value.isEndOfFile = false)
    (none : (c.after k).coming = []) (le : k ≤ n) : c.after n = c.after k := by
  induction le with
  | refl => rfl
  | step le ih => rw [Cursor.after, ih, advance_exhausted inner none]

/-- A text that does not start with an error, from its first item on. -/
theorem ofItems_eq (complete : Scan.Complete items tokens last) (h : ofItems items = .ok c) :
    At tokens last 0 c ∨ tokens = [] ∧ last = .ok c.current := by
  rw [complete.eq] at h
  cases tokens with
  | cons t tokens =>
      cases h
      exact .inl ⟨rfl, rfl⟩
  | nil =>
      cases last with
      | error e => cases h
      | ok t =>
          cases h
          exact .inr ⟨rfl, rfl⟩

/-- After as many moves as there are tokens the cursor stands on the end of the file, if there is
one. -/
theorem after_tokens {t : Located Token} (complete : Scan.Complete items tokens (.ok t))
    (h : At tokens (.ok t) 0 c ∨ tokens = [] ∧ Except.ok t = (.ok c.current : Scanned)) :
    (c.after tokens.length).current = t := by
  rcases h with start | ⟨rfl, eq⟩
  · obtain ⟨n, length⟩ : ∃ n, tokens.length = n + 1 :=
      Nat.exists_eq_add_one.mpr (List.getElem?_eq_some_iff.mp start.current).1
    have final := start.after complete (n := n) (by omega)
    rw [length]
    exact (advance_token (final.inner complete) (final.final length)).2.1
  · cases eq
    rfl

theorem shows_tokens {t : Located Token} (complete : Scan.Complete items tokens (.ok t))
    (h : At tokens (.ok t) 0 c ∨ tokens = [] ∧ Except.ok t = (.ok c.current : Scanned)) :
    c.Shows tokens (.ok t) := by
  have current := after_tokens complete h
  have ends : (c.after tokens.length).current.value.isEndOfFile = true :=
    current ▸ complete.final t rfl
  have start (n : Nat) (inside : n < tokens.length) : At tokens (.ok t) n (c.after n) := by
    rcases h with start | ⟨rfl, -⟩
    · exact start.after complete inside
    · simp at inside
  refine ⟨fun n inside => (start n inside).current,
    fun n more => ((start n (by omega)).next complete more).1, ?_, ?_, nofun, nofun, nofun⟩
  · rintro u ⟨⟩ n le
    rw [after_of_isEndOfFile ends le, current]
  · rintro u ⟨⟩ n le
    rcases Nat.eq_or_lt_of_le le with length | later
    · have final := start n (by omega)
      rw [(advance_token (final.inner complete) (final.final length)).1, complete.final _ rfl]
      rfl
    · rw [after_of_isEndOfFile ends (Nat.le_of_lt_succ later), advance_of_isEndOfFile ends]

theorem shows_error {e : Located LexicalError} (complete : Scan.Complete items tokens (.error e))
    (start : At tokens (.error e) 0 c) : c.Shows tokens (.error e) := by
  obtain ⟨k, length⟩ : ∃ k, tokens.length = k + 1 :=
    Nat.exists_eq_add_one.mpr (List.getElem?_eq_some_iff.mp start.current).1
  have final := start.after complete (n := k) (by omega)
  obtain ⟨answer, same, none⟩ := advance_error (final.inner complete) (final.final length)
  have current : (c.after (k + 1)).current = (c.after k).current := same
  have inner : (c.after (k + 1)).current.value.isEndOfFile = false :=
    current ▸ final.inner complete
  refine ⟨fun n inside => (start.after complete inside).current,
    fun n more => ((start.after complete (by omega)).next complete more).1, nofun, nofun, ?_, ?_, ?_⟩
  · rintro _ ⟨⟩ n eq
    obtain rfl : n = k := by omega
    exact answer
  · rintro _ ⟨⟩ n le
    rw [after_exhausted inner none (length ▸ le), current]
    exact final.getLast length
  · rintro _ ⟨⟩ n le
    rw [after_exhausted inner none (length ▸ le), advance_exhausted inner none]

end Moves

end Cursor

theorem Source.scan_complete (source : Source) : ∃ tokens last, Scan.Complete source.scan tokens last :=
  Scan.items_complete source.ending (.initial source.characters)

/-- A text that is parsed to its end is scanned to its end. -/
theorem Source.tokens_of_program {source : Source} {p : Program} (h : source.program = .ok p) :
    ∃ ts, source.tokens = .ok ts := by
  obtain ⟨tokens, last, complete⟩ := source.scan_complete
  obtain ⟨-, c, ⟨within, -⟩, ends⟩ := Source.read_whole h
  rcases within with mem | ⟨none, -⟩
  · refine ⟨tokens ++ [c.current], ?_⟩
    rw [Source.tokens, complete.mapM, complete.last_eq mem ends]
    rfl
  · rw [complete.eq] at none
    simp at none

/-- Reading tokens one at a time agrees with scanning all of them. The first item decides whether
there is a cursor; if there is one, its moves show each token once and in order, and what comes last
is answered once. -/
theorem Source.streams_agree (source : Source) :
    ∃ tokens last, Scan.Complete source.scan tokens last ∧
      source.tokens = last.map (fun t => tokens ++ [t]) ∧
      (∀ e, Cursor.ofItems source.scan = .error e ↔ source.scan.head? = some (.error e)) ∧
      (∀ c, Cursor.ofItems source.scan = .ok c → c.Shows tokens last) ∧
      ∀ p, source.program = .ok p → ∃ ts, source.tokens = .ok ts := by
  obtain ⟨tokens, last, complete⟩ := source.scan_complete
  refine ⟨tokens, last, complete, complete.mapM, fun e => ?_, fun c start => ?_, fun p =>
    Source.tokens_of_program⟩
  · cases source.scan with
    | nil => simp [Cursor.ofItems]
    | cons item coming => cases item <;> simp [Cursor.ofItems]
  · cases last with
    | ok t => exact Cursor.shows_tokens complete (Cursor.ofItems_eq complete start)
    | error e =>
        rcases Cursor.ofItems_eq complete start with start | ⟨-, eq⟩
        · exact Cursor.shows_error complete start
        · cases eq

end PascalX86
