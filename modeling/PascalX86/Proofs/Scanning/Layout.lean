import PascalX86.Proofs.Scanning.Steps

/-!
# Layout

Blanks and comments between tokens do not matter: what is put before or after a token, and starts
with a blank, leaves all tokens as they are.
-/

set_option autoImplicit false

namespace PascalX86

open Scan

namespace Scan

/-- The text spells the tokens wherever it stands. -/
def Spells (text : List Char) (tokens : List Token) : Prop :=
  ∀ here, ∃ es, Scans here text es ∧ es.map Located.value = tokens

section Spelling

variable {text gap rest : List Char} {t : Token} {tokens : List Token}

theorem Spells.behind (filler : Filler gap) (h : Spells rest tokens) : Spells (gap ++ rest) tokens := by
  intro here
  obtain ⟨es, scans, values⟩ := h (walk here gap)
  exact ⟨es, .behind filler scans, values⟩

theorem Spells.token (found : Found t text rest) (h : Spells rest tokens) :
    Spells (text ++ rest) (t :: tokens) := by
  intro here
  obtain ⟨es, scans, rfl⟩ := h (walk here text)
  exact ⟨_, .token found scans, rfl⟩

theorem Spells.range {digits : List Char} {n : Int32} (lexeme : Lexeme (.integer n) digits)
    (inside : ∀ c ∈ digits, c.isDigit = true) (h : Spells rest tokens) :
    Spells (digits ++ (['.', '.'] ++ rest)) (.integer n :: .mark .doubleDot :: tokens) := by
  intro here
  obtain ⟨es, scans, rfl⟩ := h (walk here (digits ++ ['.', '.']))
  exact ⟨_, .range lexeme inside scans, rfl⟩

end Spelling

/-- The text with something put before each of its characters. -/
def weave (ins : Position → List Char) (here : Position) (text : List Char) : List Char :=
  (Source.place here text).flatMap fun x => ins x.2 ++ [x.1]

/-- Blanks and comments are put where tokens start or stop, at positions after the one that is given. A
comment that the last newline closes may be put before that newline. -/
structure Inserts (ins : Position → List Char) (here : Position) (text : List Char)
    (es : List (Located Token)) : Prop where
  boundary : ∀ p, here.Before p → ins p ≠ [] → ∃ t ∈ es, p = t.span.start ∨ p = t.span.stop
  blank : ∀ p, ∀ c ∈ (ins p).head?, Text.isBlank c = true
  filler : ∀ front c back, text = front ++ c :: back →
    Filler (ins (walk here front)) ∨ back = [] ∧ c = '\n' ∧ Filler (ins (walk here front) ++ ['\n'])

section Weaving

variable {ins : Position → List Char} {here : Position} {text front rest : List Char}
  {es es' : List (Located Token)} {c : Char}

theorem weave_cons (ins : Position → List Char) (here : Position) (c : Char) (text : List Char) :
    weave ins here (c :: text) = ins here ++ c :: weave ins (here.after c) text := by
  simp [weave, Source.place]

theorem weave_append (ins : Position → List Char) (here : Position) (first second : List Char) :
    weave ins here (first ++ second) = weave ins here first ++ weave ins (walk here first) second := by
  simp [weave, place_append]

theorem before_of_not_before {p q r : Position} (h : p.Before q) (h' : ¬ r.Before q) : p.Before r := by
  unfold Position.Before at *
  omega

theorem before_walk_cons (here : Position) (c : Char) (text : List Char) :
    here.Before (walk here (c :: text)) :=
  before_of_not_before (here.before_after c) (not_before_walk (here.after c) text)

theorem weave_nothing (none : ∀ p, ¬ p.Before here → p.Before (walk here text) → ins p = []) :
    weave ins here text = text := by
  induction text generalizing here with
  | nil => rfl
  | cons c text ih =>
      have first := none here here.not_before_self (before_walk_cons here c text)
      have later := ih fun p start stop =>
        none p (fun before => start (before.trans (here.before_after c))) stop
      rw [weave_cons, first, later]
      rfl

/-- Nothing stands within a text where nothing is put in after its start. -/
theorem weave_whole (none : ∀ p, here.Before p → p.Before (walk here text) → ins p = [])
    (some : text ≠ []) : weave ins here text = ins here ++ text := by
  obtain ⟨c, text, rfl⟩ := List.exists_cons_of_ne_nil some
  have later : weave ins (here.after c) text = text :=
    weave_nothing fun p start stop => none p (before_of_not_before (here.before_after c) start) stop
  rw [weave_cons, later]

theorem follows_weave (blank : ∀ p, ∀ c ∈ (ins p).head?, Text.isBlank c = true) (here : Position)
    (rest : List Char) : Follows rest (weave ins here rest) := by
  cases rest with
  | nil => exact nofun
  | cons d rest =>
      rw [weave_cons]
      intro c mem
      cases put : ins here with
      | nil =>
          rw [put] at mem
          exact .inr mem
      | cons e more =>
          rw [put] at mem
          exact .inl (blank here c (put ▸ mem))

theorem Scans.not_before (h : Scans here text es) :
    ∀ t ∈ es, ¬ t.span.start.Before here ∧ ¬ t.span.stop.Before here := by
  have trans {p : Position} (front : List Char) {here : Position} (h : ¬ p.Before (walk here front)) :
      ¬ p.Before here :=
    fun before => h (before_of_not_before before (not_before_walk here front))
  induction h with
  | done => simp
  | @blank here c rest es blank after ih => exact fun t mem => (ih t mem).imp (trans [c]) (trans [c])
  | comment comment after ih => exact fun t mem => (ih t mem).imp (trans _) (trans _)
  | @token here text rest t es found after ih =>
      rw [List.forall_mem_cons]
      exact ⟨⟨here.not_before_self, not_before_walk here text⟩,
        fun t mem => (ih t mem).imp (trans _) (trans _)⟩
  | @range here digits rest n es lexeme inside after ih =>
      rw [List.forall_mem_cons, List.forall_mem_cons]
      exact ⟨⟨here.not_before_self, not_before_walk here digits⟩,
        ⟨not_before_walk here digits, not_before_walk here _⟩,
        fun t mem => (ih t mem).imp (trans _) (trans _)⟩

namespace Inserts

theorem first (h : Inserts ins here (c :: rest) es) (blank : Text.isBlank c = true) :
    Filler (ins here ++ [c]) := by
  rcases h.filler [] c rest rfl with filler | ⟨-, rfl, filler⟩
  · exact filler.append (.blank blank .nil)
  · exact filler

theorem seen (h : Inserts ins here (front ++ rest) es) (seen : Seen front) : Filler (ins here) := by
  obtain ⟨c, front, rfl, visible⟩ := seen
  rcases h.filler [] c (front ++ rest) rfl with filler | ⟨-, rfl, -⟩
  · exact filler
  · cases visible

theorem after (front : List Char) (es : List (Located Token))
    (h : Inserts ins here (front ++ rest) (es ++ es'))
    (old : ∀ t ∈ es, ¬ (walk here front).Before t.span.start ∧ ¬ (walk here front).Before t.span.stop) :
    Inserts ins (walk here front) rest es' := by
  refine ⟨fun p later some => ?_, h.blank, fun front' c back split => ?_⟩
  · have early : here.Before p := by
      have := not_before_walk here front
      unfold Position.Before at *
      omega
    obtain ⟨t, mem, placed⟩ := h.boundary p early some
    rcases List.mem_append.mp mem with mem | mem
    · obtain ⟨start, stop⟩ := old t mem
      rcases placed with rfl | rfl
      · exact absurd later start
      · exact absurd later stop
    · exact ⟨t, mem, placed⟩
  · subst split
    have filler := h.filler (front ++ front') c back (by simp)
    rwa [walk_append] at filler

/-- Nothing is put where no token starts or stops. -/
theorem whole (h : Inserts ins here text es) (some : front ≠ [])
    (apart : ∀ t ∈ es, ∀ p, p = t.span.start ∨ p = t.span.stop → here.Before p →
      ¬ p.Before (walk here front)) :
    weave ins here front = ins here ++ front := by
  refine weave_whole (fun p start stop => ?_) some
  by_contra put
  obtain ⟨t, mem, placed⟩ := h.boundary p start put
  exact apart t mem p placed start stop

end Inserts

/-- Nothing that is put between tokens changes them. -/
theorem Scans.insert (h : Scans here text es) (inserts : Inserts ins here text es) :
    Spells (weave ins here text) (es.map Located.value) := by
  have apart {here : Position} {rest : List Char} {es : List (Located Token)} (h : Scans here rest es) :
      ∀ t ∈ es, ∀ p, p = t.span.start ∨ p = t.span.stop → ¬ p.Before here := by
    rintro t mem p (rfl | rfl)
    · exact (h.not_before t mem).1
    · exact (h.not_before t mem).2
  induction h with
  | done => exact fun here => ⟨[], .done, rfl⟩
  | @blank here c rest es blank after ih =>
      have later := ih (inserts.after [c] [] (by simp))
      have whole := Spells.behind (inserts.first blank) later
      rw [weave_cons]
      simpa using whole
  | @comment here text rest es comment after ih =>
      have later := ih (inserts.after text [] (by simp))
      have inside := inserts.whole comment.seen.ne_nil fun t mem p placed _ => apart after t mem p placed
      rw [weave_append, inside]
      exact .behind ((inserts.seen comment.seen).append comment.filler) later
  | @token here text rest t es found after ih =>
      have later := ih (inserts.after text [_] (by simp [not_before_walk, Position.not_before_self]))
      have follows := found.follow (follows_weave inserts.blank (walk here text) rest)
      have inside : weave ins here text = ins here ++ text := by
        refine inserts.whole found.seen.ne_nil (List.forall_mem_cons.mpr ⟨?_, ?_⟩)
        · rintro p (rfl | rfl) start stop
          · exact Position.not_before_self _ start
          · exact Position.not_before_self _ stop
        · exact fun t mem p placed _ => apart after t mem p placed
      rw [weave_append, inside, List.append_assoc]
      exact .behind (inserts.seen found.seen) (.token follows later)
  | @range here digits rest n es lexeme inside after ih =>
      have dots := inserts.after digits [_] (by simp [not_before_walk, Position.not_before_self])
      rw [walk_append] at ih after dots inserts
      have stop := not_before_walk (walk here digits) ['.', '.']
      have later := ih (dots.after ['.', '.'] [_]
        (List.forall_mem_singleton.mpr ⟨stop, Position.not_before_self _⟩))
      have first : weave ins here digits = ins here ++ digits := by
        refine inserts.whole lexeme.seen.ne_nil
          (List.forall_mem_cons.mpr ⟨?_, List.forall_mem_cons.mpr ⟨?_, ?_⟩⟩)
        · rintro p (rfl | rfl) after before
          · exact Position.not_before_self _ after
          · exact Position.not_before_self _ before
        · rintro p (rfl | rfl) - before
          · exact Position.not_before_self _ before
          · exact stop before
        · exact fun t mem p placed _ before => apart after t mem p placed (before_of_not_before before stop)
      have second : weave ins (walk here digits) ['.', '.'] = ins (walk here digits) ++ ['.', '.'] := by
        refine dots.whole (by simp) (List.forall_mem_cons.mpr ⟨?_, ?_⟩)
        · rintro p (rfl | rfl) after before
          · exact Position.not_before_self _ after
          · exact Position.not_before_self _ before
        · exact fun t mem p placed _ => apart after t mem p placed
      rw [weave_append, weave_append, first, second, List.append_assoc, List.append_assoc]
      refine .behind (inserts.seen lexeme.seen) ?_
      cases put : ins (walk here digits) with
      | nil => exact .range lexeme inside later
      | cons c more =>
          -- Before a blank, the digits are a number of their own.
          have blank := inserts.blank (walk here digits) c (by rw [put]; rfl)
          have apart : Follows ['\n'] (c :: more ++
              (['.', '.'] ++ weave ins (walk (walk here digits) ['.', '.']) rest)) := by
            intro d mem
            obtain rfl : c = d := Option.some.inj mem
            exact .inl blank
          have filler : Filler (c :: more) := put ▸ dots.seen ⟨_, _, rfl, rfl⟩
          exact .token (lexeme.found apart) (.behind filler (.token (found_doubleDot _) later))

end Weaving

end Scan

/-- The text with something put in at positions, that at its end included. -/
def Source.insert (ins : Position → List Char) (text : List Char) : List Char :=
  weave ins .first text ++ ins (walk .first text)

/-- What may be put into a text with the given tokens: blanks and comments that start with a blank,
where a token starts or stops. The end of the text closes a comment like the end of a line. -/
structure Source.Layout (ins : Position → List Char) (text : List Char) (ts : List (Located Token)) :
    Prop where
  boundary : ∀ p, ins p ≠ [] → ∃ t ∈ ts, p = t.span.start ∨ p = t.span.stop
  blank : ∀ p, ∀ c ∈ (ins p).head?, Text.isBlank c = true
  filler : ∀ p, Filler (ins p) ∨ p = walk .first text ∧ Filler (ins p ++ ['\n'])

section Sources

variable {ins : Position → List Char} {text : List Char} {ts es : List (Located Token)}

theorem Source.Layout.inserts (h : Source.Layout ins text es) :
    Inserts ins .first (text ++ ['\n']) es := by
  refine ⟨fun p _ => h.boundary p, h.blank, fun front c back split => ?_⟩
  rcases h.filler (walk .first front) with filler | ⟨stop, filler⟩
  · exact .inl filler
  · rcases concat_cases (split.trans (List.append_cons ..)) with ⟨rfl, same⟩ | ⟨init, rfl, rfl⟩
    · obtain ⟨rfl, last⟩ := List.append_inj' same rfl
      exact .inr ⟨rfl, (List.cons_eq_cons.mp last).1, filler⟩
    · -- The end of the text comes after the positions of its characters.
      have before := before_walk_cons (walk .first front) c init
      have whole : walk (walk .first front) (c :: init) = walk .first (front ++ [c] ++ init) := by simp
      rw [whole, ← stop] at before
      exact absurd before (Position.not_before_self _)

theorem Cuts.values {here : Position} (h : Cuts here text ts es) :
    ts.map Located.value = es.map Located.value := by
  induction h with
  | done => rfl
  | token _ _ _ ih => simp [ih]
  | range _ _ _ _ ih => simp [ih]

theorem Source.tokens_of_scans {source : Source} {here : Position} (h : Scans here source.characters es)
    (ends : source.ending = .endOfFile) :
    ∃ ts last, source.tokens = .ok (ts ++ [⟨.endOfFile, last⟩]) ∧
      ts.map Located.value = es.map Located.value := by
  obtain ⟨ts, last, eq, values⟩ := h.items (.initial source.characters) rfl
  refine ⟨ts, last, ?_, values⟩
  rw [Source.tokens, Source.scan, ends, eq, mapM_map_ok]

theorem exists_error (p : Point) : ∃ e, .error e ∈ items .unreadable p := by
  generalize unreadable : Ending.unreadable = ending
  fun_induction items ending p with
  | case1 p none final => cases unreadable.trans final
  | case2 | case4 | case8 => exact ⟨_, List.mem_cons_self⟩
  | case3 p c rest eq blank ih => exact ih
  | case5 p c rest eq visible reading ahead next whole skipped ih => exact ih
  | case6 p c rest eq visible reading ahead next whole t token ih =>
      obtain ⟨e, mem⟩ := ih
      exact ⟨e, List.mem_cons_of_mem _ mem⟩
  | case7 p c rest eq visible reading ahead next whole t range dots ih =>
      obtain ⟨e, mem⟩ := ih
      exact ⟨e, List.mem_cons_of_mem _ (List.mem_cons_of_mem _ mem)⟩

theorem fromUTF8?_toUTF8 (text : String) : String.fromUTF8? text.toUTF8 = some text := by
  rw [String.fromUTF8?]
  exact dif_pos text.isValidUTF8

theorem Source.ofBytes_toUTF8 (name text : String) : Source.ofBytes name text.toUTF8 = .ofText name text := by
  rw [ofBytes, fromUTF8?_toUTF8]

/-- Only texts are scanned to their end. -/
theorem Source.readable_of_tokens {name : String} {bytes : ByteArray}
    (h : (Source.ofBytes name bytes).tokens = .ok ts) :
    ∃ text, String.fromUTF8? bytes = some text ∧ Source.ofBytes name bytes = .ofText name text := by
  rw [ofBytes] at h ⊢
  cases decoded : String.fromUTF8? bytes with
  | some text => exact ⟨text, rfl, rfl⟩
  | none =>
      rw [decoded] at h
      obtain ⟨e, mem⟩ := exists_error (.initial (Source.ofText name (readable bytes.toList)).characters)
      have all : items .unreadable (.initial (Source.ofText name (readable bytes.toList)).characters) =
          ts.map .ok := map_ok_of_mapM h
      rw [all] at mem
      simp at mem

/-- Layout does not matter: a file that is accepted is accepted with blanks and comments between its
tokens, and they have the same values. -/
theorem Source.layout_free {name : String} {bytes : ByteArray} {ts : List (Located Token)}
    (h : (Source.ofBytes name bytes).tokens = .ok ts) :
    ∃ text, String.fromUTF8? bytes = some text ∧
      ∀ ins, Source.Layout ins text.toList ((Source.ofBytes name bytes).extents ts.dropLast) →
        ∃ ts', (Source.ofBytes name (String.ofList (Source.insert ins text.toList)).toUTF8).tokens = .ok ts' ∧
          ts'.map Located.value = ts.map Located.value := by
  obtain ⟨text, decoded, eq⟩ := Source.readable_of_tokens h
  rw [eq] at h ⊢
  refine ⟨text, decoded, fun ins layout => ?_⟩
  obtain ⟨body, last, es, rfl, cuts⟩ := Source.cuts h
  rw [List.dropLast_concat, cuts.extents [] rfl rfl] at layout
  have scans := (scans_characters_iff name text).mp (scans_of_cuts cuts)
  obtain ⟨es', scans', values⟩ := scans.insert layout.inserts .first
  have woven : weave ins .first (text.toList ++ ['\n']) =
      (String.ofList (Source.insert ins text.toList)).toList ++ ['\n'] := by
    rw [weave_append, weave_cons, String.toList_ofList, Source.insert, List.append_assoc]
    rfl
  rw [woven, ← scans_characters_iff name] at scans'
  obtain ⟨ts, last', accepted, values'⟩ := Source.tokens_of_scans scans' rfl
  rw [Source.ofBytes_toUTF8]
  exact ⟨_, accepted, by simp [values', values, cuts.values]⟩

/-- Remarks between the bounds of a range. -/
def Source.remarks : Position → List Char
  | ⟨1, 3⟩ => [' ', '(', '*', '.', '*', ')']
  | ⟨1, 5⟩ => ['\n', '\x7b', '.', '.', '\x7d', '\t']
  | ⟨1, 7⟩ => [' ', '/', '/', '5']
  | _ => []

theorem Source.bounds_extents :
    (Source.bounds.tokens.toOption.map fun ts => (Source.bounds.extents ts.dropLast).map Located.span) =
      some [⟨⟨1, 1⟩, ⟨1, 3⟩⟩, ⟨⟨1, 3⟩, ⟨1, 5⟩⟩, ⟨⟨1, 5⟩, ⟨1, 7⟩⟩] := by
  decide +kernel

theorem Source.filler_remarks (p : Position) : Filler (Source.remarks p) ∨
    p = walk .first "12..15".toList ∧ Filler (Source.remarks p ++ ['\n']) := by
  unfold remarks
  split
  · exact .inl (.blank rfl (Comment.filler (@Comment.star ['.'] (by decide))))
  · exact .inl (.blank rfl (.comment (@Comment.brace ['.', '.'] (by decide)) (.blank rfl .nil)))
  · exact .inr ⟨by decide, .blank rfl (Comment.filler (@Comment.line ['5'] (by decide)))⟩
  · exact .inl .nil

theorem Source.bounds_layout {es : List (Located Token)}
    (spans : es.map Located.span = [⟨⟨1, 1⟩, ⟨1, 3⟩⟩, ⟨⟨1, 3⟩, ⟨1, 5⟩⟩, ⟨⟨1, 5⟩, ⟨1, 7⟩⟩]) :
    Source.Layout Source.remarks "12..15".toList es := by
  refine ⟨fun p put => ?_, fun p c mem => ?_, Source.filler_remarks⟩
  · have stop : ∃ s ∈ es.map Located.span, p = s.stop := by
      rw [spans]
      unfold remarks at put
      split at put <;> simp_all
    obtain ⟨s, mem, at_⟩ := stop
    obtain ⟨t, inside, rfl⟩ := List.mem_map.mp mem
    exact ⟨t, inside, .inr at_⟩
  · unfold remarks at mem
    split at mem <;> simp at mem <;> subst mem <;> rfl

theorem Source.bounds_layout_free : ∃ ts, (Source.ofBytes "bounds.pas" "12..15".toUTF8).tokens = .ok ts ∧
    Source.Layout Source.remarks "12..15".toList
      ((Source.ofBytes "bounds.pas" "12..15".toUTF8).extents ts.dropLast) ∧
    ∃ ts', (Source.ofBytes "bounds.pas"
        (String.ofList (Source.insert Source.remarks "12..15".toList)).toUTF8).tokens = .ok ts' ∧
      ts'.map Located.value = ts.map Located.value := by
  have bounds : Source.ofBytes "bounds.pas" "12..15".toUTF8 = .bounds := Source.ofBytes_toUTF8 _ _
  have spans := Source.bounds_extents
  cases accepted : Source.bounds.tokens with
  | error e =>
      rw [accepted] at spans
      cases spans
  | ok ts =>
      rw [accepted] at spans
      rw [← bounds] at accepted
      have layout := Source.bounds_layout (Option.some.inj spans)
      obtain ⟨text, decoded, free⟩ := Source.layout_free accepted
      obtain rfl : "12..15" = text := Option.some.inj ((fromUTF8?_toUTF8 _).symm.trans decoded)
      rw [bounds] at free
      rw [bounds]
      exact ⟨ts, bounds ▸ accepted, layout, free Source.remarks layout⟩

end Sources

end PascalX86
