import Mathlib.Data.List.DropRight
import Mathlib.Order.Bounds.Defs
import PascalX86.Invocation.Run
import PascalX86.Proofs.Scanning.Location

/-!
# Lines

A text is cut after each newline, and scanning sees the lines without what ends them, each closed by one
newline. The place of a character is the number of its line and the column that the characters before it
lead to, so that texts which only differ in how their lines end are scanned, parsed and lowered alike.
-/

set_option autoImplicit false

namespace PascalX86

namespace Source

/-- The lines of a text as they stand in it, each up to its newline and with it. The last one may lack
the newline, and then it is not empty. -/
inductive Cut : List Char → List (List Char) → Prop where
  | nil : Cut [] []
  | unended {line : List Char} (some : line ≠ []) (single : '\n' ∉ line) : Cut line [line]
  | ended {line rest : List Char} {lines : List (List Char)} (single : '\n' ∉ line)
      (more : Cut rest lines) : Cut (line ++ '\n' :: rest) ((line ++ ['\n']) :: lines)

/-- A line without the carriage returns and newlines at its end. -/
def content (line : List Char) : List Char := line.rdropWhile fun c => c == '\r' || c == '\n'

/-- The first column after this one that has the form 4k + 1. -/
def tabStop (column : Nat) : Nat := 4 * ((column + 3) / 4) + 1

/-- The column that a line's first characters lead to. -/
def columnAfter (before : List Char) : Nat :=
  before.foldl (fun column c => if c = '\t' then tabStop column else column + 1) 1

/-- What is scanned of the line with this number. -/
def placedLine (number : Nat) (line : List Char) : List (Char × Position) :=
  (line ++ ['\n']).mapIdx fun i c => (c, ⟨number, columnAfter (line.take i)⟩)

/-- Texts of the same lines, each of them ended by a newline or by a carriage return and a newline. A
last line that is not empty may also lack its end. -/
inductive SameLines : List Char → List Char → Prop where
  | nil : SameLines [] []
  | last {line ending ending' : List Char} (some : line ≠ []) (single : '\n' ∉ line)
      (first : ending ∈ [[], ['\n'], ['\r', '\n']]) (second : ending' ∈ [[], ['\n'], ['\r', '\n']]) :
      SameLines (line ++ ending) (line ++ ending')
  | line {line ending ending' rest rest' : List Char} (single : '\n' ∉ line)
      (first : ending ∈ [['\n'], ['\r', '\n']]) (second : ending' ∈ [['\n'], ['\r', '\n']])
      (more : SameLines rest rest') : SameLines (line ++ (ending ++ rest)) (line ++ (ending' ++ rest'))

section Lines

variable {line text rest : List Char} {lines : List (List Char)}

theorem exists_cut (text : List Char) : ∃ lines, Cut text lines := by
  induction text with
  | nil => exact ⟨[], .nil⟩
  | cons c text ih =>
      obtain ⟨lines, cut⟩ := ih
      by_cases newline : c = '\n'
      · subst newline
        exact ⟨_, .ended (List.not_mem_nil) cut⟩
      · -- The character goes to the front of the first line.
        have single {line : List Char} (h : '\n' ∉ line) : '\n' ∉ c :: line := by
          simp [h, Ne.symm newline]
        cases cut with
        | nil => exact ⟨_, .unended (List.cons_ne_nil c []) (single List.not_mem_nil)⟩
        | unended _ inside => exact ⟨_, .unended (List.cons_ne_nil c text) (single inside)⟩
        | ended inside more => exact ⟨_, .ended (single inside) more⟩

theorem pieces_append (single : '\n' ∉ line) (rest : List Char) :
    pieces (line ++ '\n' :: rest) = line :: pieces rest := by
  induction line with
  | nil => rfl
  | cons c line ih =>
      rw [List.mem_cons, not_or] at single
      rw [List.cons_append, pieces.eq_3 _ _ fun eq => single.1 eq.symm, ih single.2]

theorem trimReturns_concat (line : List Char) : trimReturns (line ++ ['\r']) = trimReturns line := by
  simp [trimReturns]

theorem content_of_single (single : '\n' ∉ line) : content line = trimReturns line := by
  induction line using List.reverseRecOn with
  | nil => rfl
  | append_singleton line c ih =>
      rw [List.mem_append, List.mem_singleton, not_or] at single
      by_cases returns : c = '\r'
      · subst returns
        rw [trimReturns_concat, ← ih single.1, content, List.rdropWhile_concat_pos _ _ _ rfl]
        rfl
      · simp [content, trimReturns, returns, Ne.symm single.2]

theorem content_concat (single : '\n' ∉ line) : content (line ++ ['\n']) = trimReturns line := by
  rw [← content_of_single single, content, List.rdropWhile_concat_pos _ _ _ rfl]
  rfl

theorem single_trimReturns (single : '\n' ∉ line) : '\n' ∉ trimReturns line := by
  intro mem
  have inside := (List.dropWhile_sublist _).subset (List.mem_reverse.mp mem)
  exact single (List.mem_reverse.mp inside)

theorem Cut.linesOf (cut : Cut text lines) :
    linesOf text = lines.map fun line => String.ofList (content line) := by
  induction cut with
  | nil => rfl
  | unended some single => simp [Source.linesOf, pieces_of_line some single, content_of_single single]
  | ended single _ ih =>
      rw [Source.linesOf, pieces_append single, List.map_cons, List.map_cons, content_concat single]
      exact congrArg _ ih

theorem Cut.single (cut : Cut text lines) : ∀ line ∈ lines, '\n' ∉ content line := by
  induction cut with
  | nil => simp
  | unended _ single =>
      rw [List.forall_mem_singleton, content_of_single single]
      exact single_trimReturns single
  | ended single _ ih =>
      rw [List.forall_mem_cons, content_concat single]
      exact ⟨single_trimReturns single, ih⟩

end Lines

section Places

theorem isLeast_tabStop (column : Nat) : IsLeast {n | column < n ∧ n % 4 = 1} (tabStop column) := by
  unfold tabStop
  refine ⟨⟨by omega, by omega⟩, ?_⟩
  rintro n ⟨after, stops⟩
  omega

/-- Each character stands where the ones before it lead. -/
theorem place_eq_mapIdx (here : Position) (text : List Char) :
    place here text = text.mapIdx fun i c => (c, Scan.walk here (text.take i)) := by
  induction text generalizing here with
  | nil => rfl
  | cons c text ih => simp [place, ih, List.mapIdx_cons]

theorem columnAfter_concat (before : List Char) (c : Char) : columnAfter (before ++ [c]) =
    if c = '\t' then tabStop (columnAfter before) else columnAfter before + 1 := by
  simp [columnAfter]

theorem columnAfter_pos (before : List Char) : 0 < columnAfter before := by
  induction before using List.reverseRecOn with
  | nil => exact Nat.one_pos
  | append_singleton before c ih =>
      rw [columnAfter_concat]
      split
      · exact Nat.succ_pos _
      · exact Nat.succ_pos _

theorem walk_line {before : List Char} (single : '\n' ∉ before) (number : Nat) :
    Scan.walk ⟨number, 1⟩ before = ⟨number, columnAfter before⟩ := by
  induction before using List.reverseRecOn with
  | nil => rfl
  | append_singleton before c ih =>
      rw [List.mem_append, List.mem_singleton, not_or] at single
      have pos := columnAfter_pos before
      rw [Scan.walk_append, ih single.1, columnAfter_concat, Scan.walk_cons, Scan.walk_nil,
        Position.after, if_neg (Ne.symm single.2)]
      split
      · simp only [Position.tab, tabStop, Position.mk.injEq, true_and]
        omega
      · rfl

theorem place_line {line : List Char} (single : '\n' ∉ line) (number : Nat) :
    place ⟨number, 1⟩ (line ++ ['\n']) = placedLine number line := by
  rw [place_eq_mapIdx, placedLine]
  refine List.mapIdx_eq_mapIdx_iff.mpr fun i inside => ?_
  have before : (line ++ ['\n']).take i = line.take i :=
    List.take_append_of_le_length (by simpa [Nat.lt_succ_iff] using inside)
  rw [before, walk_line (fun mem => single (List.mem_of_mem_take mem))]

theorem place_lines {lines : List (List Char)} (single : ∀ line ∈ lines, '\n' ∉ line) (number : Nat) :
    place ⟨number, 1⟩ (lines.flatMap fun line => line ++ ['\n']) =
      (lines.mapIdx fun i line => placedLine (number + i) line).flatten := by
  induction lines generalizing number with
  | nil => rfl
  | cons line lines ih =>
      rw [List.forall_mem_cons] at single
      have next : Scan.walk ⟨number, 1⟩ (line ++ ['\n']) = ⟨number + 1, 1⟩ := by
        rw [Scan.walk_append, walk_line single.1]
        rfl
      rw [List.flatMap_cons, Scan.place_append, place_line single.1, next, ih single.2,
        List.mapIdx_cons, List.flatten_cons]
      simp [Nat.add_assoc, Nat.add_comm 1]

end Places

section Bytes

theorem ofBytes_utf8Encode (name : String) (text : List Char) :
    ofBytes name text.utf8Encode = ofText name (String.ofList text) := by
  have valid : String.fromUTF8? text.utf8Encode = some (String.ofList text) := by
    simp only [String.fromUTF8?, Option.dite_none_right_eq_some]
    exact ⟨⟨text, rfl⟩, rfl⟩
  rw [ofBytes, valid]

variable {text text' : List Char} {lines : List (List Char)}

theorem Cut.placed (cut : Cut text lines) (name : String) :
    (ofBytes name text.utf8Encode).placed =
      ((lines.map content).mapIdx fun i line => placedLine (i + 1) line).flatten := by
  have characters : (ofBytes name text.utf8Encode).characters =
      (lines.map content).flatMap fun line => line ++ ['\n'] := by
    simp [ofBytes_utf8Encode, ofText, Source.characters, cut.linesOf, List.flatMap_map]
  have single : ∀ line ∈ lines.map content, '\n' ∉ line := by
    simpa using cut.single
  rw [Source.placed, characters]
  refine (place_lines single 1).trans ?_
  simp only [Nat.add_comm 1]

theorem Cut.line? (cut : Cut text lines) (name : String) (i : Nat) :
    (ofBytes name text.utf8Encode).line? (i + 1) =
      lines[i]?.map fun line => String.ofList (content line) := by
  simp [ofBytes_utf8Encode, ofText, Source.line?, cut.linesOf]

theorem linesOf_ended {line ending rest : List Char} (single : '\n' ∉ line)
    (ended : ending ∈ [['\n'], ['\r', '\n']]) :
    linesOf (line ++ (ending ++ rest)) = String.ofList (trimReturns line) :: linesOf rest := by
  simp only [List.mem_cons, List.not_mem_nil, or_false] at ended
  rcases ended with rfl | rfl
  · rw [linesOf, List.singleton_append, pieces_append single]
    rfl
  · have returned : '\n' ∉ line ++ ['\r'] := by simp [single]
    have split : line ++ (['\r', '\n'] ++ rest) = line ++ ['\r'] ++ '\n' :: rest := by simp
    rw [linesOf, split, pieces_append returned, List.map_cons, trimReturns_concat]
    rfl

theorem linesOf_last {line ending : List Char} (some : line ≠ []) (single : '\n' ∉ line)
    (ended : ending ∈ [[], ['\n'], ['\r', '\n']]) :
    linesOf (line ++ ending) = [String.ofList (trimReturns line)] := by
  rcases List.mem_cons.mp ended with rfl | ended
  · simp [linesOf, pieces_of_line some single]
  · rw [← List.append_nil ending, linesOf_ended single ended]
    rfl

theorem SameLines.linesOf (same : SameLines text text') : Source.linesOf text = Source.linesOf text' := by
  induction same with
  | nil => rfl
  | last some single first second => rw [linesOf_last some single first, linesOf_last some single second]
  | line single first second _ ih => rw [linesOf_ended single first, linesOf_ended single second, ih]

theorem SameLines.ofBytes (same : SameLines text text') (name : String) :
    Source.ofBytes name text.utf8Encode = Source.ofBytes name text'.utf8Encode := by
  simp [ofBytes_utf8Encode, ofText, same.linesOf]

end Bytes

/-- What scanning sees of a file: its lines one after the other, without what ends them and each closed
by one newline, every character with the number of its line and its column there. These lines are also
what a report quotes. How they end in the file leaves no trace in what a compilation answers. -/
theorem characters_placed (name : String) (text : List Char) :
    (∃ lines, Cut text lines) ∧
    (∀ lines, Cut text lines →
      (ofBytes name text.utf8Encode).placed =
          ((lines.map content).mapIdx fun i line => placedLine (i + 1) line).flatten ∧
        (ofBytes name text.utf8Encode).ending = .endOfFile ∧
        (ofBytes name text.utf8Encode).line? 0 = none ∧
        ∀ i, (ofBytes name text.utf8Encode).line? (i + 1) =
          lines[i]?.map fun line => String.ofList (content line)) ∧
    (∀ column, IsLeast {n | column < n ∧ n % 4 = 1} (tabStop column)) ∧
    ∀ text', SameLines text text' →
      (ofBytes name text.utf8Encode).placed = (ofBytes name text'.utf8Encode).placed ∧
        (ofBytes name text.utf8Encode).tokens = (ofBytes name text'.utf8Encode).tokens ∧
        (ofBytes name text.utf8Encode).program = (ofBytes name text'.utf8Encode).program ∧
        ∀ product, (ofBytes name text.utf8Encode).compile product =
          (ofBytes name text'.utf8Encode).compile product := by
  refine ⟨exists_cut text, fun lines cut => ?_, isLeast_tabStop, fun text' same => ?_⟩
  · refine ⟨cut.placed name, ?_, line?_zero _, cut.line? name⟩
    rw [ofBytes_utf8Encode]
    rfl
  · rw [same.ofBytes name]
    exact ⟨rfl, rfl, rfl, fun _ => rfl⟩

/-- A line that a carriage return ends, and one with a tab that nothing ends. -/
def tabbed : List Char := ['a', '\r', '\n', 'b', '\t', 'c']

theorem tabbed_placed :
    (ofBytes "tabs.pas" tabbed.utf8Encode).placed =
        [('a', ⟨1, 1⟩), ('\n', ⟨1, 2⟩), ('b', ⟨2, 1⟩), ('\t', ⟨2, 2⟩), ('c', ⟨2, 5⟩), ('\n', ⟨2, 6⟩)] ∧
      (ofBytes "tabs.pas" tabbed.utf8Encode).line? 2 = some "b\tc" ∧
      (ofBytes "tabs.pas" tabbed.utf8Encode).line? 3 = none ∧
      (ofBytes "tabs.pas" tabbed.utf8Encode).tokens =
        (ofBytes "tabs.pas" ['a', '\n', 'b', '\t', 'c', '\r', '\n'].utf8Encode).tokens := by
  obtain ⟨-, cuts, -, alike⟩ := characters_placed "tabs.pas" tabbed
  have cut : Cut tabbed [['a', '\r', '\n'], ['b', '\t', 'c']] :=
    @Cut.ended ['a', '\r'] _ _ (by decide) (.unended (by decide) (by decide))
  have same : SameLines tabbed ['a', '\n', 'b', '\t', 'c', '\r', '\n'] :=
    @SameLines.line ['a'] ['\r', '\n'] ['\n'] _ _ (by decide) (by decide) (by decide)
      (@SameLines.last ['b', '\t', 'c'] [] ['\r', '\n'] (by decide) (by decide) (by decide) (by decide))
  obtain ⟨placed, -, -, quoted⟩ := cuts _ cut
  refine ⟨placed.trans (by decide), (quoted 1).trans (by decide), (quoted 2).trans (by decide), ?_⟩
  exact (alike _ same).2.1

end Source

end PascalX86
