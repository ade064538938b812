import Mathlib.Data.List.Forall2
import PascalX86.Proofs.Answer
import PascalX86.Proofs.Scanning.Items
import PascalX86.Proofs.Scanning.Lexeme

/-!
# Locations of tokens

Every accepted text is cut into tokens with blanks and comments between them, and each token carries
the positions from its first character to just past its last one. Only an integer that is directly
followed by two points carries no more than its first digit.
-/

set_option autoImplicit false

namespace PascalX86

namespace Position

/-- Earlier in the text. -/
def Before (p q : Position) : Prop := p.line < q.line ∨ p.line = q.line ∧ p.column < q.column

instance (p q : Position) : Decidable (p.Before q) := by
  unfold Before
  infer_instance

theorem not_before_self (p : Position) : ¬ p.Before p := by
  unfold Before
  omega

theorem Before.trans {p q r : Position} (h : p.Before q) (h' : q.Before r) : p.Before r := by
  unfold Before at *
  omega

theorem before_after (p : Position) (c : Char) : p.Before (p.after c) := by
  unfold after Before
  split
  · exact .inl (Nat.lt_succ_self _)
  · split
    · refine .inr ⟨rfl, ?_⟩
      simp only [tab]
      omega
    · exact .inr ⟨rfl, Nat.lt_succ_self _⟩

end Position

/-- Whether a character there is part of the span. -/
def Span.Holds (s : Span) (p : Position) : Prop := ¬ p.Before s.start ∧ p.Before s.stop

instance (s : Span) (p : Position) : Decidable (s.Holds p) := by
  unfold Span.Holds
  infer_instance

namespace Scan

section Walks

@[simp] theorem walk_nil (here : Position) : walk here [] = here := rfl

@[simp] theorem walk_cons (here : Position) (c : Char) (text : List Char) :
    walk here (c :: text) = walk (here.after c) text := rfl

@[simp] theorem walk_append (here : Position) (first second : List Char) :
    walk here (first ++ second) = walk (walk here first) second := List.foldl_append

/-- The last character of a token takes one column. -/
theorem walk_dropLast {here : Position} {text : List Char} (some : text ≠ [])
    (visible : ∀ c ∈ text.getLast?, Text.isBlank c = false) :
    (walk here text.dropLast).advance = walk here text := by
  have last := List.dropLast_concat_getLast some
  have shown := visible _ (List.getLast?_eq_some_getLast some)
  rw [← last, walk_append, List.dropLast_concat]
  generalize text.getLast some = c at shown
  simp only [walk_cons, walk_nil, Position.after]
  split
  · next eq =>
    subst eq
    cases shown
  · split
    · next eq =>
      subst eq
      cases shown
    · rfl

theorem place_append (here : Position) (first second : List Char) :
    Source.place here (first ++ second) =
      Source.place here first ++ Source.place (walk here first) second := by
  induction first generalizing here with
  | nil => rfl
  | cons c first ih => simp [Source.place, ih]

theorem map_fst_place (here : Position) (text : List Char) :
    (Source.place here text).map Prod.fst = text := by
  induction text generalizing here with
  | nil => rfl
  | cons c text ih => simp [Source.place, ih]

theorem getLast?_place {here : Position} {text : List Char} (some : text ≠ []) :
    (Source.place here text).getLast?.map (fun x => x.2) = .some (walk here text.dropLast) := by
  obtain ⟨init, c, rfl⟩ := text.eq_nil_or_concat.resolve_left some
  rw [List.concat_eq_append, place_append, List.dropLast_concat]
  simp [Source.place]

theorem not_before_walk (here : Position) (text : List Char) : ¬ (walk here text).Before here := by
  induction text generalizing here with
  | nil => exact here.not_before_self
  | cons c text ih => exact fun before => ih (here.after c) (before.trans (here.before_after c))

theorem holds_of_mem_place {here : Position} {text : List Char} {x : Char × Position}
    (mem : x ∈ Source.place here text) : (Span.mk here (walk here text)).Holds x.2 := by
  induction text generalizing here with
  | nil => cases mem
  | cons c text ih =>
      rw [Source.place, List.mem_cons] at mem
      have later := not_before_walk (here.after c) text
      have next := here.before_after c
      rcases mem with rfl | mem
      · refine ⟨here.not_before_self, ?_⟩
        show here.Before (walk (here.after c) text)
        unfold Position.Before at *
        omega
      · obtain ⟨after, inside⟩ := ih mem
        exact ⟨fun before => after (before.trans next), inside⟩

end Walks

end Scan

/-- The characters in a span, with their positions. -/
def Source.between (source : Source) (s : Span) : List (Char × Position) :=
  source.placed.filter fun x => decide (s.Holds x.2)

open Scan

section Between

variable {source : Source} {front text back : List Char}

theorem Source.between_eq (split : source.characters = front ++ (text ++ back)) :
    source.between ⟨walk .first front, walk .first (front ++ text)⟩ =
      place (walk .first front) text := by
  rw [between, placed, split, place_append, place_append, List.filter_append, List.filter_append,
    ← walk_append]
  have before : (place .first front).filter (fun x => decide
      ((Span.mk (walk .first front) (walk .first (front ++ text))).Holds x.2)) = [] := by
    rw [List.filter_eq_nil_iff]
    intro x mem
    rw [decide_eq_true_eq]
    exact fun holds => holds.1 (holds_of_mem_place mem).2
  have after : (place (walk .first (front ++ text)) back).filter (fun x => decide
      ((Span.mk (walk .first front) (walk .first (front ++ text))).Holds x.2)) = [] := by
    rw [List.filter_eq_nil_iff]
    intro x mem
    rw [decide_eq_true_eq]
    exact fun holds => (holds_of_mem_place mem).1 holds.2
  have inside : (place (walk .first front) text).filter (fun x => decide
      ((Span.mk (walk .first front) (walk .first (front ++ text))).Holds x.2)) =
        place (walk .first front) text := by
    rw [List.filter_eq_self]
    intro x mem
    rw [decide_eq_true_eq, walk_append]
    exact holds_of_mem_place mem
  rw [before, after, inside, List.nil_append, List.append_nil]

end Between

section Alone

theorem pieces_of_line {text : List Char} (some : text ≠ []) (line : '\n' ∉ text) :
    Source.pieces text = [text] := by
  induction text with
  | nil => exact absurd rfl some
  | cons c text ih =>
      rw [List.mem_cons, not_or] at line
      rw [Source.pieces.eq_3 _ _ fun eq => line.1 eq.symm]
      cases text with
      | nil => rfl
      | cons d text => rw [ih (by simp) line.2]

theorem trimReturns_of_visible {text : List Char}
    (visible : ∀ c ∈ text.getLast?, Text.isBlank c = false) : Source.trimReturns text = text := by
  cases reversed : text.reverse with
  | nil => simp [Source.trimReturns, List.reverse_eq_nil_iff.mp reversed]
  | cons c rest =>
      obtain rfl : text = rest.reverse ++ [c] := by
        rw [← List.reverse_reverse text, reversed, List.reverse_cons]
      have shown : Text.isBlank c = false := visible c (by simp)
      have other : c ≠ '\r' := by
        rintro rfl
        cases shown
      simp [Source.trimReturns, other]

/-- A text of a single line, cut as a source of its own. -/
theorem characters_ofText (name : String) {text : List Char} (some : text ≠ []) (closed : Closed text) :
    (Source.ofText name (String.ofList text)).characters = text ++ ['\n'] := by
  simp [Source.ofText, Source.linesOf, Source.characters, pieces_of_line some closed.line,
    trimReturns_of_visible closed.visible]

theorem items_token {p : Point} {c : Char} {taken left : List Char} {t : Token}
    (ahead : p.ahead = c :: (taken ++ left)) (visible : Text.isBlank c = false)
    (read : recognise c (taken ++ left) = ⟨taken.length, .token t⟩) :
    items .endOfFile p = .ok ⟨t, (p.move c taken left).start.join (p.move c taken left).last⟩ ::
      items .endOfFile (p.move c taken left) := by
  have go (last : Prop) : ¬ (Ending.endOfFile = .unreadable ∧ last) := fun stop => by cases stop.1
  have found := (items_of_read ahead visible read (go _)).2.1 t rfl
  rwa [List.take_left, List.drop_left] at found

theorem items_newline {p : Point} (ahead : p.ahead = ['\n']) :
    ∃ span, items .endOfFile p = [.ok ⟨.endOfFile, span⟩] :=
  ⟨_, (items_of_blank ahead Text.isBlank_newline).trans (items_of_nil rfl)⟩

end Alone

/-- A text cut into tokens, with the spans that their characters take from a position on. -/
inductive Tiled : Position → List Char → List (Located Token) → Prop where
  | done {here : Position} {text : List Char} (filler : Filler text) : Tiled here text []
  | token {here : Position} {gap text rest : List Char} {t : Token} {ts : List (Located Token)}
      (filler : Filler gap) (lexeme : Lexeme t text) (after : Tiled (walk here (gap ++ text)) rest ts) :
      Tiled here (gap ++ (text ++ rest)) (⟨t, ⟨walk here gap, walk here (gap ++ text)⟩⟩ :: ts)

/-- The tokens that scanning makes of a text, beside the same ones with the spans that their
characters take. -/
inductive Cuts : Position → List Char → List (Located Token) → List (Located Token) → Prop where
  | done {here : Position} {text : List Char} (filler : Filler text) : Cuts here text [] []
  | token {here : Position} {gap text rest : List Char} {t : Token} {ts es : List (Located Token)}
      (filler : Filler gap) (found : Found t text rest)
      (after : Cuts (walk here (gap ++ text)) rest ts es) :
      Cuts here (gap ++ (text ++ rest))
        (⟨t, ⟨walk here gap, walk here (gap ++ text)⟩⟩ :: ts)
        (⟨t, ⟨walk here gap, walk here (gap ++ text)⟩⟩ :: es)
  | range {here : Position} {gap digits rest : List Char} {n : Int32} {ts es : List (Located Token)}
      (filler : Filler gap) (lexeme : Lexeme (.integer n) digits)
      (inside : ∀ c ∈ digits, c.isDigit = true)
      (after : Cuts (walk here (gap ++ (digits ++ ['.', '.']))) rest ts es) :
      Cuts here (gap ++ (digits ++ (['.', '.'] ++ rest)))
        (⟨.integer n, .single (walk here gap)⟩ ::
          ⟨.mark .doubleDot, ⟨walk here (gap ++ digits), walk here (gap ++ (digits ++ ['.', '.']))⟩⟩ :: ts)
        (⟨.integer n, ⟨walk here gap, walk here (gap ++ digits)⟩⟩ ::
          ⟨.mark .doubleDot, ⟨walk here (gap ++ digits), walk here (gap ++ (digits ++ ['.', '.']))⟩⟩ :: es)

section Tiling

variable {here : Position} {text gap rest : List Char} {ts es : List (Located Token)}

theorem Cuts.behind (filler : Filler gap) (h : Cuts (walk here gap) rest ts es) :
    Cuts here (gap ++ rest) ts es := by
  cases h with
  | done rest => exact .done (filler.append rest)
  | @token _ gap' text rest t ts es inner found after =>
      simp only [← walk_append, ← List.append_assoc gap] at after ⊢
      exact .token (filler.append inner) found after
  | @range _ gap' digits rest n ts es inner lexeme inside after =>
      simp only [← walk_append, ← List.append_assoc gap] at after ⊢
      exact .range (filler.append inner) lexeme inside after

/-- Scanning cuts what it accepts into tokens. -/
theorem cuts_of_items {ending : Ending} {p : Point} (h : items ending p = ts.map .ok)
    (line : Lined p.ahead) :
    ∃ body last es, ts = body ++ [⟨.endOfFile, last⟩] ∧ Cuts p.here p.ahead body es := by
  fun_induction items ending p generalizing ts with
  | case1 p none =>
      obtain ⟨t, rfl, eq⟩ := List.map_eq_singleton_iff.mp h.symm
      rw [none, Except.ok.inj eq]
      exact ⟨[], _, [], rfl, .done .nil⟩
  | case2 p none =>
      obtain ⟨t, -, eq⟩ := List.map_eq_singleton_iff.mp h.symm
      cases eq
  | case3 p c rest eq blank ih =>
      rw [eq] at line ⊢
      obtain ⟨body, last, es, rfl, cuts⟩ := ih h (Lined.right [c] line)
      exact ⟨body, last, es, rfl, Cuts.behind (.blank blank .nil : Filler [c]) cuts⟩
  | case4 p c rest eq visible reading ahead next =>
      obtain ⟨t, -, eq⟩ := List.map_eq_singleton_iff.mp h.symm
      cases eq
  | case5 p c rest eq visible reading ahead next whole skipped =>
      rename_i ih
      rw [eq] at line ⊢
      have read : recognise c rest = ⟨reading.length, .skipped⟩ := by rw [← skipped]
      obtain ⟨taken, left, rfl, length, comment⟩ := recognise_skipped read (Lined.right [c] line)
      have moved : next = p.move c taken left := by
        simp only [next, ahead, ← length, List.take_left, List.drop_left]
      rw [moved] at ih h
      obtain ⟨body, last, es, rfl, cuts⟩ := ih h (Lined.right (c :: taken) line)
      exact ⟨body, last, es, rfl, Cuts.behind comment.filler cuts⟩
  | case6 p c rest eq visible reading ahead next whole t token =>
      rename_i ih
      rw [eq] at line ⊢
      have read : recognise c rest = ⟨reading.length, .token t⟩ := by rw [← token]
      obtain ⟨taken, left, rfl, length, -, -⟩ := stands_recognise c _ _ _ read
      have moved : next = p.move c taken left := by
        simp only [next, ahead, ← length, List.take_left, List.drop_left]
      have found : Found t (c :: taken) left := .read (Bool.eq_false_iff.mpr visible) (length ▸ read)
      have stop : (walk p.here (c :: taken).dropLast).advance = walk p.here (c :: taken) :=
        walk_dropLast (by simp) found.lexeme.closed.visible
      have span : next.start.join next.last = ⟨p.here, walk p.here (c :: taken)⟩ := by
        rw [moved]
        exact congrArg (Span.mk p.here) stop
      rw [span] at h
      rw [moved] at ih h
      obtain ⟨first, more, rfl, same, later⟩ := List.map_eq_cons_iff.mp h.symm
      obtain ⟨body, last, es, rfl, cuts⟩ := ih later.symm (Lined.right (c :: taken) line)
      obtain rfl := Except.ok.inj same
      exact ⟨_ :: body, last, _, rfl, .token .nil found cuts⟩
  | case7 p c rest eq visible reading ahead next whole t range dots =>
      rename_i ih
      rw [eq] at line ⊢
      have read : recognise c rest = ⟨reading.length, .rangeFrom t⟩ := by rw [← range]
      obtain ⟨digit, digits, left, rfl, length, inside, ⟨n, rfl⟩, again⟩ := recognise_rangeFrom read
      have split : digits ++ '.' :: '.' :: left = (digits ++ ['.', '.']) ++ left := by simp
      have both : reading.length = (digits ++ ['.', '.']).length := by simp [← length]
      have moved : next = p.move c (digits ++ ['.', '.']) left := by
        simp only [next, ahead, split, both, List.take_left, List.drop_left]
      have lexeme : Lexeme (.integer n) (c :: digits) :=
        .read (Bool.eq_false_iff.mpr visible) (closed_of_digits inside) again
      have place : dots = ⟨walk p.here (c :: digits), walk p.here (c :: (digits ++ ['.', '.']))⟩ := by
        have first : List.take (reading.length - 2) (digits ++ '.' :: '.' :: left) = digits := by
          rw [← length, Nat.add_sub_cancel, List.take_left]
        have stop : next.last.stop = walk p.here (c :: (digits ++ ['.', '.'])) := by
          rw [moved]
          exact walk_dropLast (by simp) (by rw [← List.cons_append, List.getLast?_append]; simp; rfl)
        simp only [dots, first, stop]
      rw [place] at h
      rw [moved] at ih h
      obtain ⟨first, more, rfl, same, later⟩ := List.map_eq_cons_iff.mp h.symm
      obtain ⟨second, more, rfl, same', later⟩ := List.map_eq_cons_iff.mp later
      obtain ⟨body, last, es, rfl, cuts⟩ :=
        ih later.symm (Lined.right (c :: (digits ++ ['.', '.'])) (by rwa [split] at line))
      obtain rfl := Except.ok.inj same
      obtain rfl := Except.ok.inj same'
      have digits' : ∀ d ∈ c :: digits, d.isDigit = true := List.forall_mem_cons.mpr ⟨digit, inside⟩
      exact ⟨_ :: _ :: body, last, _, rfl, .range .nil lexeme digits' cuts⟩
  | case8 p c rest eq visible reading ahead next whole e =>
      obtain ⟨t, -, eq⟩ := List.map_eq_singleton_iff.mp h.symm
      cases eq

theorem lined_characters (source : Source) : Lined source.characters := by
  intro c mem
  rw [Source.characters] at mem
  rcases source.lines.eq_nil_or_concat with none | ⟨lines, line, some⟩
  · rw [none] at mem
    cases mem
  · rw [some] at mem
    simpa using mem.symm

theorem Source.cuts {source : Source} (h : source.tokens = .ok ts) :
    ∃ body last es, ts = body ++ [⟨.endOfFile, last⟩] ∧
      Cuts .first source.characters body es :=
  cuts_of_items (p := .initial source.characters) (map_ok_of_mapM h) (lined_characters source)

end Tiling

/-- The characters in the span of the token are those of the token: they start and end where the
span does, and scanned as a source of their own they give just this token. -/
structure Source.Shows (source : Source) (t : Located Token) : Prop where
  first : ((source.between t.span).head?.map fun x => x.2) = some t.span.start
  last : ((source.between t.span).getLast?.map fun x => x.2.advance) = some t.span.stop
  alone : ∀ name,
    (Source.ofText name (String.ofList ((source.between t.span).map Prod.fst))).tokens.map
      (List.map Located.value) = .ok [t.value, .endOfFile]

def Source.stop (source : Source) : Position := walk .first source.characters

/-- Only blanks and comments stand before, between and after the spans of the tokens. -/
def Source.Gaps (source : Source) (here : Position) : List (Located Token) → Prop
  | [] => Filler ((source.between ⟨here, source.stop⟩).map Prod.fst)
  | t :: ts => Filler ((source.between ⟨here, t.span.start⟩).map Prod.fst) ∧ source.Gaps t.span.stop ts

/-- The tokens carry exactly the positions that their characters have. -/
structure Source.Locates (source : Source) (ts : List (Located Token)) : Prop where
  shows : ∀ t ∈ ts, source.Shows t
  ordered : ts.Pairwise fun t u => ¬ u.span.start.Before t.span.stop
  gaps : source.Gaps .first ts

/-- Tokens with the positions of their characters: those that they carry, except that digits directly
followed by two points reach up to these. -/
def Source.extents (source : Source) : List (Located Token) → List (Located Token)
  | t :: u :: ts =>
      let whole := Span.mk t.span.start u.span.start
      let digits := (source.between whole).all fun x => x.1.isDigit
      (if u.value.isMark .doubleDot ∧ digits then ⟨t.value, whole⟩ else t) :: source.extents (u :: ts)
  | ts => ts

section Located

variable {source : Source} {front text back : List Char} {t : Token}

theorem Scan.Lexeme.tokens {text : List Char} (h : Lexeme t text) (name : String) :
    (Source.ofText name (String.ofList text)).tokens.map (List.map Located.value) =
      .ok [t, .endOfFile] := by
  have closed := h.closed
  obtain ⟨visible, inner, read⟩ := h
  rename_i c tail
  have characters := characters_ofText name (by simp) closed
  obtain ⟨span, last⟩ :=
    items_newline (p := (Point.initial (c :: (tail ++ ['\n']))).move c tail ['\n']) rfl
  have scan := items_token (p := .initial (c :: (tail ++ ['\n']))) rfl visible read
  rw [last] at scan
  rw [Source.tokens, Source.scan, characters]
  show Except.map _ ((items .endOfFile (.initial (c :: (tail ++ ['\n'])))).mapM id) = _
  rw [scan]
  rfl

theorem Source.shows_of_lexeme (split : source.characters = front ++ (text ++ back))
    (lexeme : Lexeme t text) :
    source.Shows ⟨t, ⟨walk .first front, walk .first (front ++ text)⟩⟩ := by
  have closed := lexeme.closed
  constructor
  all_goals simp only [Source.between_eq split]
  · obtain ⟨visible, -, -⟩ := lexeme
    rfl
  · have some : text ≠ [] := by
      obtain ⟨-, -, -⟩ := lexeme
      simp
    have advance : ((place (walk .first front) text).getLast?.map fun x => x.2.advance) =
        ((place (walk .first front) text).getLast?.map fun x => x.2).map Position.advance := by
      rw [Option.map_map]
      rfl
    rw [advance, getLast?_place some, Option.map_some, walk_dropLast some closed.visible, walk_append]
  · rw [map_fst_place]
    exact lexeme.tokens

variable {here : Position} {ts es : List (Located Token)}

theorem lexeme_doubleDot : Lexeme (.mark .doubleDot) ['.', '.'] :=
  .read rfl (closed_singleton rfl) rfl

theorem Cuts.tiled (h : Cuts here text ts es) : Tiled here text es := by
  induction h with
  | done filler => exact .done filler
  | token filler found _ ih => exact .token filler found.lexeme ih
  | @range here gap digits rest n ts es filler lexeme inside _ ih =>
      refine .token filler lexeme ?_
      have dots : Tiled (walk here (gap ++ digits)) ([] ++ (['.', '.'] ++ rest)) _ :=
        .token .nil lexeme_doubleDot (by simpa using ih)
      simpa using dots

theorem Tiled.shows (h : Tiled here text es) (front : List Char) (place : walk .first front = here)
    (split : source.characters = front ++ text) : ∀ t ∈ es, source.Shows t := by
  induction h generalizing front with
  | done => simp
  | @token here gap text rest t es filler lexeme after ih =>
      subst place
      rw [← List.append_assoc] at split
      rw [List.forall_mem_cons, ← walk_append, ← walk_append, ← List.append_assoc]
      refine ⟨Source.shows_of_lexeme split lexeme, ih (front ++ gap ++ text) ?_ ?_⟩
      · simp
      · simp [split]

theorem Tiled.not_before (h : Tiled here text es) : ∀ t ∈ es, ¬ t.span.start.Before here := by
  induction h with
  | done => simp
  | @token here gap text rest t es filler lexeme after ih =>
      rw [List.forall_mem_cons]
      refine ⟨not_before_walk here gap, fun u mem before => ?_⟩
      have := ih u mem
      have := not_before_walk here (gap ++ text)
      unfold Position.Before at *
      omega

theorem Tiled.ordered (h : Tiled here text es) :
    es.Pairwise fun t u => ¬ u.span.start.Before t.span.stop := by
  induction h with
  | done => exact .nil
  | token _ _ after ih => exact .cons after.not_before ih

theorem Tiled.gaps (h : Tiled here text es) (front : List Char) (place : walk .first front = here)
    (split : source.characters = front ++ text) : source.Gaps here es := by
  induction h generalizing front with
  | @done here text filler =>
      subst place
      have whole : source.stop = walk .first (front ++ text) := by rw [Source.stop, split]
      have last : source.characters = front ++ (text ++ []) := by simpa using split
      rw [Source.Gaps, whole, Source.between_eq last, map_fst_place]
      exact filler
  | @token here gap text rest t es filler lexeme after ih =>
      subst place
      rw [Source.Gaps, ← walk_append, ← walk_append, Source.between_eq split, map_fst_place,
        ← List.append_assoc]
      refine ⟨filler, ?_⟩
      have later := ih (front ++ gap ++ text) (by simp) (by simp [split])
      rwa [← walk_append, ← List.append_assoc] at later

theorem Tiled.locates (h : Tiled .first source.characters es) : source.Locates es :=
  ⟨h.shows [] rfl rfl, h.ordered, h.gaps [] rfl rfl⟩

theorem Cuts.next {u : Located Token} (h : Cuts here text (u :: ts) es) :
    ∃ gap rest, text = gap ++ rest ∧ Filler gap ∧ u.span.start = walk here gap := by
  cases h with
  | token filler => exact ⟨_, _, rfl, filler, rfl⟩
  | range filler => exact ⟨_, _, rfl, filler, rfl⟩

/-- If all characters up to the next token are digits, then that token follows directly. -/
theorem Source.extents_cons {rest : List Char}
    (split : source.characters = front ++ (text ++ rest))
    (after : Cuts (walk .first (front ++ text)) rest ts es) :
    source.extents (⟨t, ⟨walk .first front, walk .first (front ++ text)⟩⟩ :: ts) =
      ⟨t, ⟨walk .first front, walk .first (front ++ text)⟩⟩ :: source.extents ts := by
  cases ts with
  | nil => rfl
  | cons u ts =>
      obtain ⟨gap, left, rfl, filler, start⟩ := after.next
      have wide : source.characters = front ++ ((text ++ gap) ++ left) := by simpa using split
      have whole := Source.between_eq wide
      rw [← List.append_assoc, walk_append _ (front ++ text), ← start] at whole
      rw [Source.extents]
      split
      · next digits =>
        have inside : ∀ c ∈ text ++ gap, c.isDigit = true := by
          have all := digits.2
          rw [whole, List.all_eq_true] at all
          intro c mem
          rw [← map_fst_place (walk .first front) (text ++ gap)] at mem
          obtain ⟨x, inside, rfl⟩ := List.mem_map.mp mem
          exact all x inside
        have direct := filler.eq_nil fun c mem => inside c (List.mem_append_right text mem)
        rw [start, direct]
        rfl
      · rfl

/-- Digits that stand right before two points reach up to these. -/
theorem Cuts.extents (h : Cuts here text ts es) (front : List Char) (place : walk .first front = here)
    (split : source.characters = front ++ text) : source.extents ts = es := by
  induction h generalizing front with
  | done => rfl
  | @token here gap text rest t ts es filler found after ih =>
      subst place
      have later := ih (front ++ gap ++ text) (by simp) (by simp [split])
      rw [← walk_append, ← walk_append, ← List.append_assoc] at *
      rw [Source.extents_cons split after, later]
  | @range here gap digits rest n ts es filler lexeme inside after ih =>
      subst place
      have later := ih (front ++ gap ++ (digits ++ ['.', '.'])) (by simp) (by simp [split])
      have before : source.characters = (front ++ gap) ++ (digits ++ (['.', '.'] ++ rest)) := by
        simp [split]
      have dots : source.characters = (front ++ gap ++ digits) ++ (['.', '.'] ++ rest) := by
        simp [split]
      have reach := Source.between_eq before
      have all : ((Source.place (walk .first (front ++ gap)) digits).all fun x => x.1.isDigit) =
          true := by
        rw [List.all_eq_true]
        intro x mem
        refine inside x.1 ?_
        rw [← map_fst_place (walk .first (front ++ gap)) digits]
        exact List.mem_map_of_mem mem
      simp only [← walk_append, ← List.append_assoc] at after later ⊢
      rw [Source.extents, Source.extents_cons dots after, later, if_pos]
      · rfl
      · exact ⟨rfl, (congrArg (fun xs => xs.all fun x => x.1.isDigit) reach).trans all⟩

theorem Cuts.trimmed (h : Cuts here text ts es) :
    List.Forall₂ (fun t e => t = e ∨ (∃ n, t.value = .integer n) ∧ e.value = t.value ∧
      t.span = .single e.span.start) ts es := by
  induction h with
  | done => exact .nil
  | token _ _ _ ih => exact .cons (.inl rfl) ih
  | range _ _ _ _ ih => exact .cons (.inr ⟨⟨_, rfl⟩, rfl, rfl⟩) (.cons (.inl rfl) ih)

/-- Every token but the last one, which is the end of the file, is located exactly where it stands,
apart from integers right before two points: these are located at their first digit. -/
theorem Source.tokens_located {source : Source} {ts : List (Located Token)}
    (h : source.tokens = .ok ts) :
    ∃ body last, ts = body ++ [⟨.endOfFile, last⟩] ∧ source.Locates (source.extents body) ∧
      List.Forall₂ (fun t e => t = e ∨ (∃ n, t.value = .integer n) ∧ e.value = t.value ∧
        t.span = .single e.span.start) body (source.extents body) := by
  obtain ⟨body, last, es, rfl, cuts⟩ := Source.cuts h
  refine ⟨body, last, rfl, ?_⟩
  rw [cuts.extents [] rfl rfl]
  exact ⟨cuts.tiled.locates, cuts.trimmed⟩

/-- A range whose lower bound has two digits. -/
def Source.bounds : Source := .ofText "bounds.pas" "12..15"

theorem Source.bounds_spans :
    (Source.bounds.tokens.toOption.map fun ts => ts.map Located.span) =
      some [⟨⟨1, 1⟩, ⟨1, 2⟩⟩, ⟨⟨1, 3⟩, ⟨1, 5⟩⟩, ⟨⟨1, 5⟩, ⟨1, 7⟩⟩, ⟨⟨1, 7⟩, ⟨1, 8⟩⟩] := by
  decide +kernel

theorem Source.bounds_accepted : ∃ a b c d, Source.bounds.tokens = .ok [a, b, c, d] ∧
    a.span = ⟨⟨1, 1⟩, ⟨1, 2⟩⟩ ∧ b.span = ⟨⟨1, 3⟩, ⟨1, 5⟩⟩ := by
  obtain ⟨ts, accepted, spans⟩ := exists_of_map_toOption Source.bounds_spans
  obtain ⟨a, ts, rfl, first, spans⟩ := List.map_eq_cons_iff.mp spans
  obtain ⟨b, ts, rfl, second, spans⟩ := List.map_eq_cons_iff.mp spans
  obtain ⟨c, ts, rfl, -, spans⟩ := List.map_eq_cons_iff.mp spans
  obtain ⟨d, rfl, -⟩ := List.map_eq_singleton_iff.mp spans
  exact ⟨a, b, c, d, accepted, first, second⟩

theorem Source.bounds_located : ∃ ts, Source.bounds.tokens = .ok ts ∧ ts.length = 4 ∧
    ∃ body last, ts = body ++ [⟨.endOfFile, last⟩] ∧
      Source.bounds.Locates (Source.bounds.extents body) ∧
      List.Forall₂ (fun t e => t = e ∨ (∃ n, t.value = .integer n) ∧ e.value = t.value ∧
        t.span = .single e.span.start) body (Source.bounds.extents body) := by
  obtain ⟨a, b, c, d, accepted, -⟩ := Source.bounds_accepted
  exact ⟨_, accepted, rfl, Source.tokens_located accepted⟩

/-- The second digit of the lower bound is in no span. -/
theorem Source.bounds_not_located :
    ∃ ts, Source.bounds.tokens = .ok ts ∧ ¬ Source.bounds.Locates ts.dropLast := by
  obtain ⟨a, b, c, d, accepted, first, second⟩ := Source.bounds_accepted
  refine ⟨_, accepted, fun locates => ?_⟩
  obtain ⟨-, filler, -⟩ : Source.bounds.Gaps .first [a, b, c] := locates.gaps
  have between : (Source.bounds.between ⟨⟨1, 2⟩, ⟨1, 3⟩⟩).map Prod.fst = ['2'] := by decide +kernel
  rw [first, second, between] at filler
  cases filler.eq_nil (by simp)

end Located

end PascalX86
