import Mathlib.Data.String.Basic
import PascalX86.Invocation.FileTree

/-!
# Paths

Where the text of a path leads. Files named in one directory stand in it side by side, and writing one of
them moves neither the directories nor the other files.
-/

set_option autoImplicit false

namespace PascalX86

section Components

open String

theorem atEnd_ofList (before after : List Char) :
    Pos.Raw.atEnd (ofList (before ++ after)) ⟨utf8Len before⟩ = after.isEmpty := by
  rw [Bool.eq_iff_iff, atEnd_iff, rawEndPos_ofList, utf8Len_append, List.isEmpty_iff,
    ← utf8Len_eq_zero]
  simp only [Pos.Raw.mk_le_mk]
  omega

/-- Cutting at slashes, where `before` has been cut and `here` is the component that is being read. -/
theorem splitOnAux_slash (before here after : List Char) (found : List String) :
    splitOnAux (ofList (before ++ here ++ after)) "/" ⟨utf8Len before⟩
        ⟨utf8Len before + utf8Len here⟩ 0 found =
      found.reverse ++ (List.splitOnPPrepend (· == '/') after here.reverse).map ofList := by
  have slash : Pos.Raw.get "/" 0 = '/' := by decide
  have next : Pos.Raw.next "/" 0 = ⟨1⟩ := by decide
  have ended : Pos.Raw.atEnd "/" ⟨1⟩ = true := by decide
  induction after generalizing before here found with
  | nil =>
      have done : _ = true := atEnd_ofList (before ++ here) []
      rw [utf8Len_append] at done
      rw [splitOnAux, if_pos done, extract_of_valid]
      simp
  | cons c after ih =>
      have more : _ = false := atEnd_ofList (before ++ here) (c :: after)
      have read := get_of_valid (before ++ here) (c :: after)
      have moved := next_of_valid (before ++ here) c after
      rw [utf8Len_append] at more read moved
      rw [splitOnAux, more, if_neg Bool.false_ne_true, read, slash, List.headD_cons]
      by_cases cut : c = '/'
      · subst cut
        have rest := ih (before ++ here ++ ['/']) [] (ofList here :: found)
        have same : before ++ here ++ ['/'] ++ [] ++ after = before ++ here ++ '/' :: after := by simp
        have size : '/'.utf8Size = 1 := by decide
        have back : (Pos.Raw.mk (utf8Len before + utf8Len here + 1)).unoffsetBy ⟨1⟩ =
            ⟨utf8Len before + utf8Len here⟩ := rfl
        rw [same, utf8Len_append, utf8Len_append, utf8Len_cons, utf8Len_nil, Nat.zero_add, Nat.add_zero, size] at rest
        simp only [beq_self_eq_true, if_true, moved, next, ended, size, back, extract_of_valid]
        rw [rest]
        simp [List.splitOnPPrepend_cons_eq_if]
      · have rest := ih before (here ++ [c]) found
        have same : before ++ (here ++ [c]) ++ after = before ++ here ++ c :: after := by simp
        have stay : (Pos.Raw.mk (utf8Len before + utf8Len here)).unoffsetBy 0 =
            ⟨utf8Len before + utf8Len here⟩ := rfl
        rw [same, utf8Len_append, utf8Len_cons, utf8Len_nil, Nat.zero_add, ← Nat.add_assoc] at rest
        rw [if_neg (by simpa using cut), stay, moved, rest]
        simp [List.splitOnPPrepend_cons_eq_if, cut]

theorem splitOn_slash (text : String) :
    text.splitOn "/" = (text.toList.splitOnP (· == '/')).map ofList := by
  rw [splitOn, if_neg (by decide)]
  simpa using splitOnAux_slash [] [] text.toList []

/-- A name that stands for a file of its own in any directory. -/
structure Plain (name : String) : Prop where
  whole : '/' ∉ name.toList
  own : name ≠ "" ∧ name ≠ "." ∧ name ≠ ".."

theorem splitOnP_of_plain {name : String} (plain : Plain name) :
    name.toList.splitOnP (· == '/') = [name.toList] := by
  refine List.splitOnP_eq_singleton fun c mem => ?_
  rw [beq_eq_false_iff_ne]
  rintro rfl
  exact plain.whole mem

theorem splitOn_below {name : String} (plain : Plain name) (above : List Char) :
    (ofList (above ++ '/' :: name.toList)).splitOn "/" =
      (above.splitOnP (· == '/')).map ofList ++ [name] := by
  rw [splitOn_slash, toList_ofList, List.splitOnP_append_cons _ _ rfl, splitOnP_of_plain plain]
  simp

/-- The name of a file is the last component of its path, after those of the directory. -/
theorem exists_components (directory : String) : ∃ above, ∀ name, Plain name →
    (pathIn directory name).splitOn "/" = above ++ [name] := by
  by_cases bare : directory.isEmpty = true
  · refine ⟨[], fun name plain => ?_⟩
    have path : pathIn directory name = name := by
      simp [pathIn, String.isEmpty_iff.mp bare]
    rw [path, splitOn_slash, splitOnP_of_plain plain]
    simp
  · by_cases ends : directory.endsWith "/" = true
    · -- The slash at the end of the directory stands before the name.
      have slash := ends
      rw [endsWith_eq_endsWith_toSlice, Slice.endsWith_string_iff] at slash
      obtain ⟨above, split⟩ := slash
      have split : directory.toList = above ++ ['/'] := by simpa using split.symm
      refine ⟨(above.splitOnP (· == '/')).map ofList, fun name plain => ?_⟩
      have path : pathIn directory name = ofList (above ++ '/' :: name.toList) := by
        apply String.toList_injective
        simp [pathIn, ends, split]
      rw [path, splitOn_below plain]
    · refine ⟨(directory.toList.splitOnP (· == '/')).map ofList, fun name plain => ?_⟩
      have path : pathIn directory name = ofList (directory.toList ++ '/' :: name.toList) := by
        apply String.toList_injective
        simp [pathIn, ends, bare]
      rw [path, splitOn_below plain]

end Components

namespace FileTree

variable {t t' : FileTree} {here path place : Path} {name text : String}

theorem isDirectory_of_prefix (above : path <+: here) (directory : t.isDirectory here = true) :
    t.isDirectory path = true := by
  simp only [isDirectory, Bool.or_eq_true, List.any_eq_true, List.all_eq_true, Bool.and_eq_true,
    List.isPrefixOf_iff_prefix, bne_iff_ne] at directory ⊢
  rcases directory with (outside | ⟨other, mem, within⟩) | ⟨file, mem, within, other⟩
  · exact .inl (.inl fun component mem => outside component (above.subset mem))
  · exact .inl (.inr ⟨other, mem, above.trans within⟩)
  · refine .inr ⟨file, mem, above.trans within, ?_⟩
    rintro rfl
    exact other (within.eq_of_length_le above.length_le)

/-- The names of all files, of which writing may add one. -/
theorem any_put (p : Path → Bool) : (t.put place text).files.any (fun file => p file.1) =
    (t.files.any (fun file => p file.1) || p place) := by
  unfold put
  split
  · next known =>
    obtain ⟨file, mem, eq⟩ := List.any_eq_true.mp known
    have found : p place = true → t.files.any (fun file => p file.1) = true := fun holds =>
      List.any_eq_true.mpr ⟨file, mem, by rwa [eq_of_beq eq]⟩
    cases holds : p place
    · simp [List.any_map, Function.comp_def]
    · simp [List.any_map, Function.comp_def, found holds]
  · simp

/-- A file that is written in a directory makes no directory. -/
theorem isDirectory_put (directory : t.isDirectory here = true) (path : Path) :
    (t.put (here ++ [name]) text).isDirectory path = t.isDirectory path := by
  have directories : (t.put (here ++ [name]) text).directories = t.directories := by
    unfold put
    split <;> rfl
  have files := @any_put t (here ++ [name]) text fun file =>
    path.isPrefixOf file && path != file
  cases inside : path.isPrefixOf (here ++ [name]) && path != here ++ [name]
  · rw [inside, Bool.or_false] at files
    simp only [isDirectory, directories, files]
  · -- What lies above the new file is a directory as it is.
    rw [Bool.and_eq_true, List.isPrefixOf_iff_prefix, bne_iff_ne, List.prefix_concat_iff] at inside
    have known := isDirectory_of_prefix (inside.1.resolve_left inside.2) directory
    rw [known]
    simp only [isDirectory, directories, files]
    simp only [isDirectory, Bool.or_eq_true] at known ⊢
    rcases known with known | known
    · exact .inl known
    · exact .inr (.inl known)

theorem resolve_congr (same : ∀ path, t'.isDirectory path = t.isDirectory path) (path : String) :
    t'.resolve path = t.resolve path := by
  have step : t'.step = t.step := by
    funext here component
    simp only [FileTree.step, same]
  simp only [resolve, step]

theorem put_eq : t.put place text =
    if (t.files.lookup place).isSome then
      { t with files := t.files.map fun (file, old) => (file, if file == place then text else old) }
    else
      { t with files := t.files ++ [(place, text)] } := by
  have known : (t.files.any fun file => file.1 == place) = (t.files.lookup place).isSome := by
    rw [Bool.eq_iff_iff, List.lookup_isSome_iff, List.any_eq_true]
    simp only [beq_iff_eq, @eq_comm _ place]
  rw [put, known]

/-- What is found under a path once the text of one file has been replaced. -/
theorem lookup_map (files : List (Path × String)) (path : Path) :
    (files.map fun (file, old) => (file, if file == place then text else old)).lookup path =
      (files.lookup path).map fun old => if path == place then text else old := by
  induction files with
  | nil => rfl
  | cons file files ih =>
      rw [List.map_cons, List.lookup_cons, List.lookup_cons, ih]
      cases same : path == file.1
      · rfl
      · simp [eq_of_beq same]

theorem lookup_put : (t.put place text).files.lookup place = some text := by
  rw [put_eq]
  cases found : t.files.lookup place with
  | none => simp [List.lookup_append, found]
  | some old =>
      rw [Option.isSome_some, if_pos rfl, lookup_map, found, Option.map_some, beq_self_eq_true, if_pos rfl]

theorem lookup_put_of_ne (other : path ≠ place) :
    (t.put place text).files.lookup path = t.files.lookup path := by
  have differs : (path == place) = false := beq_eq_false_iff_ne.mpr other
  rw [put_eq]
  split
  · rw [lookup_map, differs]
    simp
  · simp [List.lookup_append, List.lookup_cons, differs]

theorem step_of_plain (plain : Plain name) (here : Path) :
    t.step here name = if t.isDirectory here then some (here ++ [name]) else none := by
  obtain ⟨empty, dot, dots⟩ := plain.own
  unfold FileTree.step
  split
  · split <;> simp_all
  · rfl

/-- All files of a directory stand at one place, which is a directory. -/
theorem exists_base (t : FileTree) (directory : String) : ∃ base : Option Path,
    (∀ here, base = some here → t.isDirectory here = true) ∧
      ∀ name, Plain name → t.resolve (pathIn directory name) = base.map (· ++ [name]) := by
  obtain ⟨above, components⟩ := exists_components directory
  refine ⟨(if above.head? = some "" then none else above.foldlM t.step []).filter t.isDirectory, by simp,
    fun name plain => ?_⟩
  have last (place : Option Path) : (place.bind fun here => t.step here name) =
      (place.filter t.isDirectory).map (· ++ [name]) := by
    cases place with
    | none => rfl
    | some here =>
        rw [Option.bind_some, step_of_plain plain, Option.filter_some]
        split <;> rfl
  have relative : (above ++ [name]).foldlM t.step [] =
      (above.foldlM t.step []).bind fun here => t.step here name := by
    rw [List.foldlM_append]
    simp
  rw [resolve, components name plain]
  cases above with
  | nil =>
      rw [List.nil_append] at relative ⊢
      split
      · next absolute => exact absurd (List.cons.inj absolute).1 plain.own.1
      · exact relative.trans (last _)
  | cons first above =>
      by_cases absolute : first = ""
      · subst absolute
        rfl
      · rw [List.cons_append] at relative ⊢
        split
        · next found => exact absurd (List.cons.inj found).1 absolute
        · have relates : (first :: above).head? ≠ some "" := fun same => absolute (Option.some.inj same)
          rw [relative, last, if_neg relates]

end FileTree

end PascalX86
