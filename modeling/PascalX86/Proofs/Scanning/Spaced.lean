import PascalX86.Proofs.Scanning.Layout

/-!
# Tokens written apart

A text of tokens with a blank between any two is scanned back into these tokens.
-/

set_option autoImplicit false

namespace PascalX86

open Scan

/-- Tokens that are scanned back from how they are shown. -/
def Token.Legible (t : Token) : Prop := Lexeme t t.lexeme.toList

/-- The text of tokens with one blank between any two of them. -/
def Token.spaced (tokens : List Token) : List Char :=
  [' '].intercalate (tokens.map fun t => t.lexeme.toList)

/-- A letter and then letters, digits and underscores. -/
def IsWord (spelling : String) : Prop := ∃ c tail, spelling.toList = c :: tail ∧ isLetter c = true ∧
  ∀ d ∈ tail, isWordChar d = true

/-- Names that can be written in a text. -/
def Name.IsIdentifier (name : Name) : Prop :=
  IsWord name.spelling ∧ Keyword.ofWord? name.spelling = none

/-- A keyword where a word is one, and otherwise a name. -/
def Token.ofWord (spelling : String) : Token :=
  match Keyword.ofWord? spelling with
  | some k => .keyword k
  | none => .name (.ofSpelling spelling)

section Legible

theorem IsWord.legible {t : Token} (h : IsWord t.lexeme) (known : Token.ofWord t.lexeme = t) :
    t.Legible := by
  obtain ⟨c, tail, letters, letter, inside⟩ := h
  have word : isWordChar c = true := by
    simp only [isLetter, isWordChar, Char.isAlphanum, Bool.or_eq_true] at letter ⊢
    tauto
  have spelling : String.ofList (c :: tail) = t.lexeme := by rw [← letters, String.ofList_toList]
  have newline : ∀ d ∈ ['\n'].head?, isWordChar d = false := fun d mem => by
    obtain rfl : '\n' = d := Option.some.inj mem
    rfl
  have found : recognise c (tail ++ ['\n']) = ⟨tail.length, .token (.ofWord t.lexeme)⟩ := by
    rw [recognise_of_isLetter letter, Scan.word, Token.ofWord]
    simp only [(takeWhile_run inside newline).1, spelling]
    cases Keyword.ofWord? t.lexeme <;> rfl
  rw [known] at found
  rw [Token.Legible, letters]
  exact .read (visible_of_isWordChar word) (closed_of_words inside) found

theorem Keyword.isWord (k : Keyword) : IsWord k.text := by
  cases k <;> exact ⟨_, _, rfl, rfl, List.all_eq_true.mp rfl⟩

theorem Keyword.legible (k : Keyword) : (Token.keyword k).Legible := by
  have known : Token.ofWord k.text = .keyword k := by rw [Token.ofWord, ofWord?_text]
  exact IsWord.legible (t := .keyword k) k.isWord known

theorem Name.IsIdentifier.legible {name : Name} (h : name.IsIdentifier) :
    (Token.name name).Legible := by
  have known : Token.ofWord name.spelling = .name name := by
    rw [Token.ofWord, h.2]
    exact congrArg Token.name (Name.ext rfl)
  exact IsWord.legible (t := .name name) h.1 known

theorem Mark.legible (m : Mark) : (Token.mark m).Legible := by
  cases m
  all_goals
    refine .read rfl ?_ rfl
    first
    | exact closed_nil
    | exact closed_singleton rfl

end Legible

section Spelling

theorem spells_newline : Spells ['\n'] [] := fun _ => ⟨[], .blank Text.isBlank_newline .done, rfl⟩

theorem spells_spaced {tokens : List Token} (legible : ∀ t ∈ tokens, t.Legible) :
    Spells (Token.spaced tokens ++ ['\n']) tokens := by
  induction tokens with
  | nil => exact spells_newline
  | cons t tokens ih =>
      rw [List.forall_mem_cons] at legible
      cases tokens with
      | nil =>
          have text : Token.spaced [t] = t.lexeme.toList := by simp [Token.spaced]
          rw [text]
          exact .token (legible.1.found (follows_newline _)) spells_newline
      | cons u tokens =>
          have text : Token.spaced (t :: u :: tokens) ++ ['\n'] =
              t.lexeme.toList ++ (' ' :: (Token.spaced (u :: tokens) ++ ['\n'])) := by
            simp [Token.spaced, List.intercalate_cons_cons]
          have blank : Filler [' '] := .blank rfl .nil
          have apart : Follows ['\n'] (' ' :: (Token.spaced (u :: tokens) ++ ['\n'])) := by
            intro c mem
            obtain rfl : ' ' = c := Option.some.inj mem
            exact .inl rfl
          rw [text]
          exact .token (legible.1.found apart) (.behind blank (ih legible.2))

/-- What is scanned of a text of tokens written apart: the same tokens, and the end of the file. -/
theorem Source.scan_spaced (name : String) {tokens : List Token}
    (legible : ∀ t ∈ tokens, t.Legible) :
    ∃ ts last, (Source.ofText name (String.ofList (Token.spaced tokens))).scan =
      (ts ++ [⟨.endOfFile, last⟩]).map .ok ∧ ts.map Located.value = tokens := by
  obtain ⟨es, scans, rfl⟩ := spells_spaced legible .first
  rw [← String.toList_ofList (l := Token.spaced _), ← scans_characters_iff name] at scans
  exact scans.items (.initial _) rfl

end Spelling

end PascalX86
