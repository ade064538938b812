import PascalX86.Proofs.Scanning.State
import PascalX86.Proofs.Scanning.Streaming

/-!
# Scanning ends

The machine answers the items of its text one call at a time, and nothing after the last one.
-/

set_option autoImplicit false

namespace PascalX86.Scan

/-- The point inside a token, of which a text has been read. -/
def Point.past (p : Point) (read left : List Char) : Point :=
  match read with
  | [] => { p with start := .single p.here }
  | c :: taken => p.move c taken left

section Points

variable {p : Point} {read left : List Char} {c : Char}

theorem past_ahead (ahead : p.ahead = read ++ left) : (p.past read left).ahead = left := by
  cases read with
  | nil => exact ahead
  | cons d taken => rfl

theorem past_start : (p.past read left).start = .single p.here := by
  cases read <;> rfl

theorem past_bump (ahead : p.ahead = read ++ c :: left) :
    (p.past read (c :: left)).bump = p.past (read ++ [c]) left := by
  cases read with
  | nil =>
      obtain ⟨text, here, start, last⟩ := p
      cases ahead
      rfl
  | cons d taken =>
      have init : (d :: (taken ++ [c])).dropLast = d :: taken := by
        rw [← List.cons_append, List.dropLast_concat]
      have walked : walk p.here (d :: (taken ++ [c])) = (walk p.here (d :: taken)).after c :=
        walk_append p.here (d :: taken) [c]
      simp only [Point.past, List.cons_append, Point.move, init, walked]
      rfl

end Points

/-- A machine between two steps and the items that it still answers. -/
inductive Tracks (ending : Ending) : Machine → List Scanned → Prop where
  | start (p : Point) : Tracks ending ⟨p, .start, none, false⟩ (items ending p)
  | inside {p : Point} {read left : List Char} {s : State} (ahead : p.ahead = read ++ left)
      (state : Partial left s read) : Tracks ending ⟨p.past read left, s, none, false⟩ (items ending p)
  | pending (p : Point) (t : Located Token) :
      Tracks ending ⟨p, .start, some t, false⟩ (.ok t :: items ending p)
  | done {m : Machine} (done : m.done = true) : Tracks ending m []

/-- What a step comes to agrees with the items still to be answered. -/
def Outcome.Tracks (ending : Ending) (l : List Scanned) : Outcome → Prop
  | .goes m => Scan.Tracks ending m l
  | .answers item m => item = l.head? ∧ Scan.Tracks ending m l.tail

section Steps

variable {ending : Ending} {p : Point} {read left rest : List Char} {c : Char} {s : State} {m : Machine}

theorem tracks_nil (nil : p.ahead = []) :
    (Machine.step ending ⟨p, .start, none, false⟩).Tracks ending (items ending p) := by
  rw [items_of_nil nil]
  cases ending with
  | unreadable =>
      simp only [Machine.step, nil]
      exact ⟨rfl, .done rfl⟩
  | endOfFile =>
      simp only [Machine.step, nil, Machine.look, List.head?_nil, move]
      exact ⟨rfl, .done rfl⟩

theorem tracks_cons (ahead : p.ahead = c :: rest) :
    (Machine.step ending ⟨p, .start, none, false⟩).Tracks ending (items ending p) := by
  have whole : p.ahead = [] ++ c :: rest := ahead
  have look : Machine.look ⟨p, .start, none, false⟩ = p.past [] (c :: rest) := by
    simp only [Machine.look, ahead, Point.past]
  have step : Machine.step ending ⟨p, .start, none, false⟩ =
      Machine.act ⟨p, .start, none, false⟩ (p.past [] (c :: rest)) (begins c) := by
    simp [Machine.step, ahead, look, move]
  rw [step]
  by_cases blank : Text.isBlank c = true
  · rw [begins_of_blank blank, items_of_blank ahead blank, Machine.act, past_bump whole]
    exact .start _
  · have visible : Text.isBlank c = false := by simpa using blank
    have starts := starts_begins visible rest
    generalize begins c = choice at starts
    cases choice with
    | read s =>
        rw [Machine.act, past_bump whole]
        exact .inside ahead starts
    | keep s => exact .inside whole starts
    | ends result =>
        obtain ⟨e, rfl, certain, read⟩ := starts
        have last : items ending p = _ := (items_of_read ahead visible read (by simp [certain])).2.2.2 e rfl
        rw [last]
        exact ⟨rfl, .done rfl⟩
    | range t => exact starts.elim
    | finished => exact starts.elim

/-- What scanning answers from the start of a token, of which a text has been read and some more belongs
to it. -/
theorem items_of_means (ending : Ending) (front back : List Char) {meaning : Meaning}
    (ahead : p.ahead = read ++ (front ++ back)) (means : Means (front ++ back) front.length meaning read)
    (go : ¬ (ending = .unreadable ∧ back = [] ∧ needsMore meaning = true)) :
    (meaning = .skipped → items ending p = items ending (p.past (read ++ front) back)) ∧
    (∀ t, meaning = .token t → items ending p =
      .ok ⟨t, (p.past (read ++ front) back).start.join (p.past (read ++ front) back).last⟩ ::
        items ending (p.past (read ++ front) back)) ∧
    (∀ t, meaning = .rangeFrom t → items ending p =
      .ok ⟨t, (p.past (read ++ front) back).start⟩ ::
        .ok ⟨.mark .doubleDot, walk p.here (read ++ front).dropLast.dropLast,
          (p.past (read ++ front) back).last.stop⟩ :: items ending (p.past (read ++ front) back)) ∧
    (∀ e, meaning = .failed e → items ending p = [.error ⟨e, (p.past (read ++ front) back).start⟩]) := by
  obtain ⟨visible, eq⟩ := means
  rename_i c taken
  have whole : p.ahead = c :: ((taken ++ front) ++ back) := by simpa using ahead
  rw [← List.append_assoc, ← List.length_append] at eq
  have found := items_of_read whole visible eq (by rwa [List.drop_left])
  rw [List.take_left, List.drop_left] at found
  refine ⟨found.1, found.2.1, fun t range => ?_, found.2.2.2⟩
  subst range
  obtain ⟨-, digits, left, -, length, -⟩ := recognise_rangeFrom eq
  have dots : c :: ((taken ++ front) ++ back).take ((taken ++ front).length - 2) =
      (c :: taken ++ front).dropLast.dropLast := by
    rw [List.take_append_of_le_length (by omega), List.cons_append, List.dropLast_eq_take,
      List.dropLast_eq_take, List.take_take, List.length_take, List.length_cons, ← List.take_succ_cons]
    congr 1
    omega
  rw [found.2.2.1 t rfl, dots]
  rfl

/-- The end of an unreadable text inside a token. -/
theorem tracks_unreadable (ahead : p.ahead = read ++ []) (state : Partial [] s read) :
    Outcome.Tracks .unreadable (items .unreadable p)
      (Machine.step .unreadable ⟨p.past read [], s, none, false⟩) := by
  have step : Machine.step .unreadable ⟨p.past read [], s, none, false⟩ =
      Machine.finish ⟨p.past read [], s, none, false⟩ (.error ⟨.unreadable, .single p.here⟩) := by
    simp [Machine.step, past_ahead ahead, past_start]
  have items : items .unreadable p = [.error ⟨.unreadable, .single p.here⟩] := by
    have sound := sound_move state
    generalize move ([] : List Char).head? s = choice at sound
    cases choice with
    | read s =>
        obtain ⟨c, rest, nil, -⟩ | ⟨-, means⟩ := sound
        · cases nil
        · have next := (items_of_means .unreadable [] [] ahead means (by simp [needsMore])).1 rfl
          rw [List.append_nil] at next ahead
          rw [next, items_of_nil (past_ahead (ahead.trans (List.append_nil _).symm)), past_start]
          rfl
    | keep s => exact absurd rfl sound.1
    | ends result =>
        obtain ⟨means, more⟩ := sound
        obtain ⟨visible, eq⟩ := means
        rename_i c taken
        rw [List.append_nil] at eq ahead
        exact items_of_stop ahead visible eq ⟨rfl, List.drop_length, more⟩
    | range t =>
        obtain ⟨-, rest, nil⟩ := sound
        cases nil
    | finished => exact sound.elim
  rw [step, items]
  exact ⟨rfl, .done rfl⟩

/-- A comment ends at the character seen, or at the end of the text. -/
theorem items_skipped (ahead : p.ahead = read ++ left)
    (means : Means left (min 1 left.length) .skipped read) :
    items ending p = items ending (p.past read left).bump := by
  cases left with
  | nil =>
      have next := (items_of_means ending [] [] ahead means (by simp [needsMore])).1 rfl
      have stays : (p.past read []).bump = p.past read [] := by
        simp [Point.bump, past_ahead ahead]
      rwa [List.append_nil, ← stays] at next
  | cons c rest =>
      have least : min 1 (c :: rest).length = [c].length := by simp
      rw [least] at means
      have next := (items_of_means ending [c] rest ahead means (by simp [needsMore])).1 rfl
      rw [next, past_bump ahead]

theorem tracks_ends {result : Except LexicalError Token} (ahead : p.ahead = read ++ left)
    (means : Means left 0 (meaningOf result) read) (go : ¬ (left = [] ∧ ending = .unreadable)) :
    (Machine.act ⟨p.past read left, s, none, false⟩ (p.past read left) (.ends result)).Tracks ending
      (items ending p) := by
  have found := items_of_means ending [] left ahead means fun stop => go ⟨stop.2.1, stop.1⟩
  rw [List.append_nil] at found
  cases result with
  | ok t =>
      rw [found.2.1 t rfl]
      exact ⟨rfl, .start _⟩
  | error e =>
      rw [found.2.2.2 e rfl]
      exact ⟨rfl, .done rfl⟩

theorem tracks_range {t : Token} (ahead : p.ahead = read ++ '.' :: rest)
    (means : Means ('.' :: rest) 1 (.rangeFrom t) read) :
    (Machine.act ⟨p.past read ('.' :: rest), s, none, false⟩ (p.past read ('.' :: rest)) (.range t)).Tracks
      ending (items ending p) := by
  have found := (items_of_means ending ['.'] rest ahead means (by simp [needsMore])).2.2.1 t rfl
  have first : (p.past read ('.' :: rest)).last.start = walk p.here (read ++ ['.']).dropLast.dropLast := by
    obtain ⟨visible, eq⟩ := means
    rw [List.dropLast_concat]
    rfl
  rw [found, Machine.act, past_bump ahead, ← first]
  refine ⟨?_, .pending ..⟩
  rw [past_start, past_start]
  rfl

/-- A step inside a token, with a character to see or the end of the file. -/
theorem tracks_inside (ahead : p.ahead = read ++ left) (state : Partial left s read)
    (go : ¬ (left = [] ∧ ending = .unreadable)) :
    (Machine.step ending ⟨p.past read left, s, none, false⟩).Tracks ending (items ending p) := by
  have look : Machine.look ⟨p.past read left, s, none, false⟩ = p.past read left := by
    cases state <;> rfl
  have step : Machine.step ending ⟨p.past read left, s, none, false⟩ =
      Machine.act ⟨p.past read left, s, none, false⟩ (p.past read left) (move left.head? s) := by
    simp [Machine.step, past_ahead ahead, look, go]
  rw [step]
  have sound := sound_move state
  generalize move left.head? s = choice at sound
  cases choice with
  | read s =>
      obtain ⟨c, rest, rfl, goes⟩ | ⟨rfl, means⟩ := sound
      · rw [Machine.act, past_bump ahead]
        exact .inside (by simpa using ahead) goes
      · rw [Machine.act, items_skipped ahead means]
        exact .start _
  | keep s => exact .inside ahead sound.2
  | ends result => exact tracks_ends ahead sound.1 go
  | range t =>
      obtain ⟨means, rest, rfl⟩ := sound
      exact tracks_range ahead means
  | finished => exact sound.elim

end Steps

section Runs

variable {ending : Ending} {m : Machine} {l : List Scanned}

/-- One step answers the next item, or keeps those still to be answered. -/
theorem Tracks.step (h : Tracks ending m l) : (m.step ending).Tracks ending l := by
  cases h with
  | start p =>
      cases ahead : p.ahead with
      | nil => exact tracks_nil ahead
      | cons c rest => exact tracks_cons ahead
  | @inside p read left s ahead state =>
      by_cases stop : left = [] ∧ ending = .unreadable
      · obtain ⟨rfl, rfl⟩ := stop
        exact tracks_unreadable ahead state
      · exact tracks_inside ahead state stop
  | pending p t => exact ⟨rfl, .start p⟩
  | done done =>
      rw [Machine.step, if_pos done]
      exact ⟨rfl, .done done⟩

/-- A call answers the next item, and leaves the others to be answered. -/
theorem Tracks.next (h : Tracks ending m l) :
    (m.next ending).1 = l.head? ∧ Tracks ending (m.next ending).2 l.tail := by
  induction m using Machine.next.induct ending with
  | case1 m m' goes ih =>
      have step := h.step
      rw [goes] at step
      rw [Machine.next_of_goes goes]
      exact ih step
  | case2 m item m' answers =>
      have step := h.step
      rw [answers] at step
      rwa [Machine.next_of_answers answers]

end Runs

/-- The machine after so many calls. -/
def Machine.calls (ending : Ending) (m : Machine) : Nat → Machine
  | 0 => m
  | n + 1 => ((m.next ending).2.calls ending n)

theorem Tracks.calls {ending : Ending} {m : Machine} {l : List Scanned} (h : Tracks ending m l) (n : Nat) :
    ((m.calls ending n).next ending).1 = l[n]? := by
  induction n generalizing m l with
  | zero =>
      rw [← List.head?_eq_getElem?]
      exact h.next.1
  | succ n ih =>
      rw [Machine.calls, ih h.next.2, List.getElem?_tail]

theorem length_items (ending : Ending) (p : Point) : (items ending p).length ≤ p.ahead.length + 1 := by
  fun_induction items ending p with
  | case1 | case2 => simp
  | case3 p c rest eq blank ih =>
      rw [eq]
      exact Nat.le_succ_of_le ih
  | case4 | case8 => simp
  | case5 p c rest eq visible reading ahead next whole skipped ih =>
      have shorter : next.ahead.length ≤ rest.length := by simp [next, ahead, Point.move]
      rw [eq, List.length_cons]
      omega
  | case6 p c rest eq visible reading ahead next whole t token ih =>
      have shorter : next.ahead.length ≤ rest.length := by simp [next, ahead, Point.move]
      rw [eq, List.length_cons, List.length_cons]
      omega
  | case7 p c rest eq visible reading ahead next whole t range dots ih =>
      -- The token of the two points stands for at least one more character.
      obtain ⟨-, digits, left, split, length, -⟩ := recognise_rangeFrom (n := reading.length) (t := t)
        (show recognise c rest = ⟨reading.length, .rangeFrom t⟩ by rw [← range])
      have shorter : next.ahead.length + 1 ≤ rest.length := by
        simp only [next, ahead, Point.move, List.length_drop, split, List.length_append, List.length_cons]
        omega
      rw [eq, List.length_cons, List.length_cons, List.length_cons]
      omega

/-- Every call for an item ends, whatever state the machine is in, and the calls answer no more tokens
than there are characters, then the end of the file or an error, and nothing after that. -/
theorem scanning_ends (ending : Ending) (text : List Char) :
    (∀ m : Machine, ∃ n ≤ 3 * m.point.ahead.length + 3,
      m.after ending n = .answers (m.next ending).1 (m.next ending).2) ∧
    ∃ tokens last, Complete (items ending (.initial text)) tokens last ∧ tokens.length ≤ text.length ∧
      ∀ n, (((Machine.initial text).calls ending n).next ending).1 = (tokens.map .ok ++ [last])[n]? := by
  constructor
  · intro m
    obtain ⟨n, le, eq⟩ := m.next_ends ending
    have rank := Machine.rank_le m.state
    exact ⟨n, by rw [Machine.size] at le; omega, eq⟩
  · obtain ⟨tokens, last, complete⟩ := items_complete ending (.initial text)
    refine ⟨tokens, last, complete, ?_, fun n => ?_⟩
    · have length := length_items ending (.initial text)
      rw [complete.eq] at length
      simpa [Point.initial] using length
    · rw [← complete.eq]
      exact (Tracks.start (.initial text)).calls n

end PascalX86.Scan
