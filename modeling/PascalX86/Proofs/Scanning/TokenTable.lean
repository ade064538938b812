import PascalX86.Proofs.Scanning.SourceForm

/-!
# Token tables as lines

A table of tokens has a line of its own for each token of a text, unless the token is the newline
character: no other text in a row can break its line.
-/

set_option autoImplicit false

namespace PascalX86

open Scan

/-- The lines of a text and what is after its last newline. -/
def Text.lines (text : String) : List String := (text.toList.splitOn '\n').map String.ofList

namespace Located

/-- How the row of a token begins: with its line and its column. -/
def place (t : Located Token) : String := s!"{t.span.start.line} | {t.span.start.column} | "

def row (t : Located Token) : String :=
  t.place ++ s!"{t.value.kind} | {t.value.lexeme} | {t.value.content}"

/-- The lines that a token takes in a table. The newline is quoted as it is, so its row is broken
between the apostrophes. -/
def rows (t : Located Token) : List String :=
  match t.value with
  | .char code => if code = 10 then [t.place ++ "char | '", "' | 10"] else [t.row]
  | _ => [t.row]

end Located

/-- A table has a header and then, in order, one line a token, which begins with where that token
starts. -/
def Tabulated (tokens : List (Located Token)) : Prop :=
  ∃ rows, Text.lines (tokenTable tokens) = "row | col | kind | text | value" :: (rows ++ [""]) ∧
    List.Forall₂ (fun t row => t.place.toList <+: row.toList) tokens rows

section Lines

/-- Whether a text stays within one line. -/
def Text.Inline (text : String) : Prop := '\n' ∉ text.toList

theorem inline_append {first second : String} :
    Text.Inline (first ++ second) ↔ Text.Inline first ∧ Text.Inline second := by
  simp [Text.Inline]

theorem inline_nat (n : Nat) : Text.Inline (toString n) := by
  intro mem
  have digits : (toString n).toList = Nat.toDigits 10 n := Nat.toList_repr
  rw [digits] at mem
  have digit := Decimal.digits_toDigits n _ mem
  cases digit

theorem lines_of_inline {lines : List String} (inline : ∀ line ∈ lines, Text.Inline line) :
    Text.lines (String.join (lines.map (· ++ "\n"))) = lines ++ [""] := by
  rw [Text.lines]
  induction lines with
  | nil => rfl
  | cons line lines ih =>
      rw [List.forall_mem_cons] at inline
      have text : (String.join ((line :: lines).map (· ++ "\n"))).toList =
          line.toList ++ '\n' :: (String.join (lines.map (· ++ "\n"))).toList := by
        simp
      rw [text, List.splitOn_append_cons_self_of_not_mem inline.1, List.map_cons, ih inline.2]
      simp

end Lines

section Rows

variable {t : Located Token} {tokens : List (Located Token)}

theorem inline_mark (m : Mark) : Text.Inline m.text := by
  cases m <;> exact nofun

theorem inline_kind (t : Token) : Text.Inline t.kind := by
  unfold Token.kind
  split
  case h_7 m => cases m <;> exact nofun
  all_goals exact nofun

theorem inline_quoted {text : String} (line : '\n' ∉ text.toList) :
    Text.Inline (Text.quotedText text) := by
  have content := lexeme_literal line
  simpa [Text.Inline, Text.quotedText] using content.closed.line

theorem inline_word {spelling : String} (word : IsWord spelling) : Text.Inline spelling := by
  obtain ⟨c, tail, letters, letter, inside⟩ := word
  have first : '\n' ≠ c := by
    rintro rfl
    cases letter
  rw [Text.Inline, letters, List.mem_cons, not_or]
  exact ⟨first, (closed_of_words inside).line⟩

theorem inline_parts (p : Decimal.Parts) : '\n' ∉ p.text := by
  have whole := (closed_of_digits p.digits.1).line
  have fraction := (closed_of_digits p.digits.2.1).line
  have exponent := (closed_of_digits p.digits.2.2).line
  simp only [Decimal.Parts.text, Decimal.Parts.point, Decimal.Parts.power, Decimal.Parts.minus]
  split_ifs <;> simp [whole, fraction, exponent]

/-- Of the tokens that scanning finds only the newline character leaves its line. -/
theorem Token.Scannable.inline {t : Token} (h : t.Scannable) (newline : t ≠ .char 10) :
    Text.Inline t.lexeme ∧ Text.Inline t.content := by
  cases h with
  | name word => exact ⟨inline_word word.1, inline_word word.1⟩
  | keyword k => exact ⟨inline_word k.isWord, inline_word k.isWord⟩
  | integer small =>
      have line := (legible_integer small).closed.line
      exact ⟨line, line⟩
  | double nearest =>
      obtain ⟨p, text⟩ := Decimal.exists_parts_of_finite (Decimal.isFinite_of_nearest? nearest)
        (Decimal.sign_of_nearest? nearest)
      have line := inline_parts p
      rw [← text] at line
      exact ⟨line, line⟩
  | char code =>
      have other : '\n' ≠ Char.ofNat code.toNat := fun eq =>
        ofNat_ne (fun same : code = 10 => newline (congrArg Token.char same)) eq.symm
      refine ⟨?_, inline_nat _⟩
      simpa [Text.Inline, Token.lexeme, Text.quotedCode] using other
  | string line long => exact ⟨inline_quoted line, line⟩
  | mark m => exact ⟨inline_mark m, inline_mark m⟩

theorem inline_place (t : Located Token) : Text.Inline t.place := by
  simp only [Located.place, inline_append]
  exact ⟨⟨⟨inline_nat _, nofun⟩, inline_nat _⟩, nofun⟩

theorem inline_row (inline : Text.Inline t.value.lexeme ∧ Text.Inline t.value.content) :
    Text.Inline t.row := by
  simp only [Located.row, inline_append]
  exact ⟨inline_place t, ⟨⟨⟨inline_kind _, nofun⟩, inline.1⟩, nofun⟩, inline.2⟩

/-- The row of a token with the lines it takes. -/
theorem rows_cases (t : Located Token) :
    t.value = .char 10 ∧ t.rows = [t.place ++ "char | '", "' | 10"] ∧
        t.row = t.place ++ "char | '" ++ "\n" ++ "' | 10" ∨
      t.value ≠ .char 10 ∧ t.rows = [t.row] := by
  obtain ⟨value, span⟩ := t
  by_cases newline : value = .char 10
  · subst newline
    refine .inl ⟨rfl, rfl, ?_⟩
    rw [String.append_assoc, String.append_assoc]
    rfl
  · refine .inr ⟨newline, ?_⟩
    cases value with
    | char code => exact if_neg fun same => newline (congrArg Token.char same)
    | _ => rfl

theorem join_rows (t : Located Token) : String.join (t.rows.map (· ++ "\n")) = t.row ++ "\n" := by
  rcases rows_cases t with ⟨-, rows, row⟩ | ⟨-, rows⟩
  · simp [rows, row, String.join, String.append_assoc]
  · simp [rows, String.join]

theorem inline_rows (known : t.value = .endOfFile ∨ t.value.Scannable) :
    ∀ line ∈ t.rows, Text.Inline line := by
  rcases rows_cases t with ⟨-, rows, -⟩ | ⟨newline, rows⟩
  · simp only [rows, List.forall_mem_cons, inline_append]
    exact ⟨⟨inline_place t, nofun⟩, nofun, nofun⟩
  · rw [rows, List.forall_mem_singleton]
    rcases known with ends | scannable
    · exact inline_row (by rw [ends]; exact ⟨nofun, nofun⟩)
    · exact inline_row (scannable.inline newline)

theorem tokenTable_eq (tokens : List (Located Token)) :
    tokenTable tokens = String.join
      (("row | col | kind | text | value" :: tokens.flatMap Located.rows).map (· ++ "\n")) := by
  have header : "row | col | kind | text | value\n" = "row | col | kind | text | value" ++ "\n" := rfl
  rw [tokenTable, List.map_cons, String.join_cons, String.join_cons, header]
  refine congrArg (String.append _) ?_
  induction tokens with
  | nil => rfl
  | cons t tokens ih =>
      rw [List.map_cons, String.join_cons, ih, List.flatMap_cons, List.map_append, String.join_append,
        join_rows]
      refine congrArg (fun row : String => row ++ _) ?_
      simp [Located.row, Located.place, String.append_assoc]
      rfl

theorem lines_tokenTable (known : ∀ t ∈ tokens, t.value = .endOfFile ∨ t.value.Scannable) :
    Text.lines (tokenTable tokens) =
      "row | col | kind | text | value" :: (tokens.flatMap Located.rows ++ [""]) := by
  rw [tokenTable_eq, lines_of_inline, List.cons_append]
  rw [List.forall_mem_cons]
  refine ⟨nofun, fun line mem => ?_⟩
  obtain ⟨t, inside, mem⟩ := List.mem_flatMap.mp mem
  exact inline_rows (known t inside) line mem

/-- No token takes less than a line, and the newline takes more. -/
theorem length_rows (tokens : List (Located Token)) :
    tokens.length ≤ (tokens.flatMap Located.rows).length ∧
      ((tokens.flatMap Located.rows).length = tokens.length → ∀ t ∈ tokens, t.value ≠ .char 10) := by
  induction tokens with
  | nil => simp
  | cons t tokens ih =>
      obtain ⟨least, exact⟩ := ih
      rw [List.flatMap_cons, List.length_append, List.length_cons, List.forall_mem_cons]
      rcases rows_cases t with ⟨-, rows, -⟩ | ⟨newline, rows⟩
      · rw [rows, List.length_cons, List.length_singleton]
        exact ⟨by omega, fun eq => by omega⟩
      · rw [rows, List.length_singleton]
        exact ⟨by omega, fun eq => ⟨newline, exact (by omega)⟩⟩

theorem flatMap_rows (other : ∀ t ∈ tokens, t.value ≠ .char 10) :
    tokens.flatMap Located.rows = tokens.map Located.row := by
  rw [List.map_eq_flatMap]
  exact List.flatMap_congr fun t mem => ((rows_cases t).resolve_left fun h => other t mem h.1).2

theorem tabulated_iff (known : ∀ t ∈ tokens, t.value = .endOfFile ∨ t.value.Scannable) :
    Tabulated tokens ↔ ∀ t ∈ tokens, t.value ≠ .char 10 := by
  have lines := lines_tokenTable known
  constructor
  · rintro ⟨rows, eq, each⟩
    have same : rows = tokens.flatMap Located.rows := by simpa [lines] using eq.symm
    rw [same] at each
    exact (length_rows tokens).2 each.length_eq.symm
  · intro other
    rw [flatMap_rows other] at lines
    refine ⟨_, lines, ?_⟩
    rw [List.forall₂_map_right_iff, List.forall₂_same]
    exact fun t _ => ⟨_, (String.toList_append ..).symm⟩

end Rows

/-- The table of an accepted text has its header, then the lines that each token takes, in order, and
nothing else; so every token has exactly one line if and only if none is the newline character. -/
theorem Source.tokens_tabulated {source : Source} {tokens : List (Located Token)}
    (accepted : source.tokens = .ok tokens) :
    Text.lines (tokenTable tokens) =
        "row | col | kind | text | value" :: (tokens.flatMap Located.rows ++ [""]) ∧
      (Tabulated tokens ↔ ∀ t ∈ tokens, t.value ≠ .char 10) := by
  have scanned := map_ok_of_mapM accepted
  have known : ∀ t ∈ tokens, t.value = .endOfFile ∨ t.value.Scannable := fun t mem =>
    scannable_of_items (scanned ▸ List.mem_map_of_mem mem)
  exact ⟨lines_tokenTable known, tabulated_iff known⟩

/-- A text of the newline character by its code. -/
theorem Source.newline_accepted : ∃ t last : Located Token,
    (Source.ofText "input.pas" "#10").tokens = .ok [t, last] ∧ t.value = .char 10 ∧
      last.value = .endOfFile := by
  have visible : ∀ c ∈ ['1', '0'], c.isDigit = true := by simp
  have lexeme : Lexeme (.char 10) ['#', '1', '0'] := .read rfl (closed_of_digits visible) rfl
  have values : (Source.ofText "input.pas" "#10").tokens.map _ = _ := lexeme.tokens "input.pas"
  obtain ⟨ts, accepted, values⟩ := exists_of_map_eq_ok values
  obtain ⟨t, rest, rfl, first, values⟩ := List.map_eq_cons_iff.mp values
  obtain ⟨last, rfl, ends⟩ := List.map_eq_singleton_iff.mp values
  exact ⟨t, last, accepted, first, ends⟩

theorem Source.newline_tabulated : ∃ tokens,
    (Source.ofText "input.pas" "#10").tokens = .ok tokens ∧ tokens.length = 2 ∧
      Text.lines (tokenTable tokens) =
        "row | col | kind | text | value" :: (tokens.flatMap Located.rows ++ [""]) ∧
      (Tabulated tokens ↔ ∀ t ∈ tokens, t.value ≠ .char 10) := by
  obtain ⟨t, last, accepted, -⟩ := Source.newline_accepted
  exact ⟨_, accepted, rfl, Source.tokens_tabulated accepted⟩

/-- Its row is broken, so the table has three lines for two tokens. -/
theorem Source.newline_not_tabulated : ¬ ∀ (source : Source) (tokens : List (Located Token)),
    source.tokens = .ok tokens → Tabulated tokens := by
  intro tabulated
  obtain ⟨t, last, accepted, newline, ends⟩ := Source.newline_accepted
  have known : ∀ u ∈ [t, last], u.value = .endOfFile ∨ u.value.Scannable := by
    simp [newline, ends, Token.Scannable.char]
  have other := (tabulated_iff known).mp (tabulated _ _ accepted)
  exact other t List.mem_cons_self newline

end PascalX86
