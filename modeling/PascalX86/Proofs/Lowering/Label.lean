import Mathlib.Data.List.Nodup
import PascalX86.Proofs.Lowering.Statement

/-!
# Labels of code

The labels of a statement carry numbers of their own, so that no two of them are the same.
-/

set_option autoImplicit false

namespace PascalX86

section Numbers

/-- The digits after the last underscore of a label. -/
def labelNumber (name : String) : Nat :=
  Nat.ofDigitChars 10 (name.toList.reverse.takeWhile (· != '_')).reverse 0

theorem toList_numbered (word : String) (n : Nat) :
    (numbered word n).toList = word.toList ++ '_' :: Nat.toDigits 10 n := by
  simp [numbered, toString]

theorem labelNumber_numbered (word : String) (n : Nat) : labelNumber (numbered word n) = n := by
  have digits : ∀ c ∈ (Nat.toDigits 10 n).reverse, (c != '_') = true := by
    intro c mem
    rw [List.mem_reverse] at mem
    rw [bne_iff_ne]
    intro underscore
    rw [underscore] at mem
    exact Nat.underscore_not_in_toDigits mem
  have text : (numbered word n).toList.reverse =
      (Nat.toDigits 10 n).reverse ++ '_' :: word.toList.reverse := by
    simp [toList_numbered]
  rw [labelNumber, text, List.takeWhile_append_of_pos digits]
  simp

theorem numbered_ne_startLabel (word : String) (n : Nat) : numbered word n ≠ startLabel := by
  intro h
  have mem : '_' ∈ (numbered word n).toList := by simp [toList_numbered]
  rw [h] at mem
  revert mem
  decide

end Numbers

section Names

def Command.label? : Command → Option String
  | .label name => some name
  | .instruction .. => none

def Code.labels (code : Code) : List String := code.filterMap Command.label?

@[simp] theorem Code.labels_append (first second : Code) :
    Code.labels (first ++ second) = Code.labels first ++ Code.labels second :=
  List.filterMap_append

@[simp] theorem Code.labels_label (name : String) (code : Code) :
    Code.labels (.label name :: code) = name :: Code.labels code := rfl

@[simp] theorem Code.labels_instruction (op : Opcode) (operands : List Operand) (code : Code) :
    Code.labels (.instruction op operands :: code) = Code.labels code := rfl

@[simp] theorem Code.labels_nil : Code.labels [] = [] := rfl

theorem Moves.labels {code : Code} {a b : Nat} (h : Moves code a b) : Code.labels code = [] := by
  rw [Code.labels, List.filterMap_eq_nil_iff]
  intro c mem
  have straight := h.straight c mem
  cases c with
  | label name => cases straight
  | instruction op operands => rfl

mutual

/-- The labels of the code of a statement, given the first free one. -/
def Stmt.names (label : Nat) : Stmt → List String
  | .ifThen _ _ body =>
      body.names (label + 2) ++ ([numbered "else" label] ++ [numbered "endif" (label + 1)])
  | .ifElse _ _ body otherwise =>
      body.names (label + 2) ++ ([numbered "else" label] ++
        (otherwise.names (label + 2 + body.labels) ++ [numbered "endif" (label + 1)]))
  | .while _ _ body =>
      [numbered "while_body" (label + 1)] ++ (body.names (label + 3) ++
        ([numbered "while_cond" label] ++ [numbered "while_end" (label + 2)]))
  | .for _ _ _ _ _ body =>
      [numbered "for_body" (label + 1)] ++ (body.names (label + 4) ++
        ([numbered "for_next" (label + 2)] ++
          ([numbered "for_cond" label] ++ [numbered "for_end" (label + 3)])))
  | .block _ statements => namesOf label statements
  | .assign .. | .continue _ | .break _ | .read .. | .write .. | .call .. => []

def namesOf (label : Nat) : List Stmt → List String
  | [] => []
  | s :: statements => s.names label ++ namesOf (label + s.labels) statements

end

theorem numbers_around {before inner after : List String} {label own nested : Nat}
    (outer : ((before ++ after).map labelNumber).Perm (List.range' label own))
    (rest : (inner.map labelNumber).Perm (List.range' (label + own) nested)) :
    ((before ++ (inner ++ after)).map labelNumber).Perm (List.range' label (own + nested)) := by
  -- Counted one by one, since the own numbers stand on both sides of the nested ones.
  rw [← List.range'_append_1]
  rw [List.map_append] at outer ⊢
  rw [List.map_append, List.perm_iff_count]
  intro k
  have counts := outer.count_eq k
  have counts' := rest.count_eq k
  simp only [List.count_append] at counts ⊢
  omega

mutual

/-- Each number from the first free one on is used once. -/
theorem Stmt.numbers_perm : ∀ (s : Stmt) (label : Nat),
    ((s.names label).map labelNumber).Perm (List.range' label s.labels)
  | .ifThen _ _ body, label => by
      refine @numbers_around [] _ _ label 2 _ ?_ (body.numbers_perm (label + 2))
      simp [labelNumber_numbered, List.range'_succ]
  | .ifElse _ _ body otherwise, label => by
      have inner := (body.numbers_perm (label + 2)).append
        (otherwise.numbers_perm (label + 2 + body.labels))
      rw [← List.map_append, List.range'_append_1] at inner
      -- The label of the second branch comes before its body but the numbers of both bodies follow.
      have both := @numbers_around [numbered "else" label] _ [numbered "endif" (label + 1)] label 2 _
        (by simp [labelNumber_numbered, List.range'_succ]) inner
      rw [← Nat.add_assoc, List.append_assoc] at both
      exact (List.perm_append_comm_assoc _ _ _).map labelNumber |>.trans both
  | .while _ _ body, label => by
      refine numbers_around ?_ (body.numbers_perm (label + 3))
      simp only [List.map_append, List.map_cons, List.map_nil, labelNumber_numbered,
        List.range'_succ, List.range'_zero]
      exact .swap label (label + 1) _
  | .for _ _ _ _ _ body, label => by
      refine numbers_around ?_ (body.numbers_perm (label + 4))
      simp only [List.map_append, List.map_cons, List.map_nil, labelNumber_numbered,
        List.range'_succ, List.range'_zero]
      exact (List.Perm.cons _ (.swap label (label + 2) _)).trans (.swap label (label + 1) _)
  | .block _ statements, label => by
      rw [Stmt.names, Stmt.labels]
      exact numbersOf_perm statements label
  | .assign .., label | .continue _, label | .break _, label | .read .., label | .write .., label
  | .call .., label => .refl []

theorem numbersOf_perm : ∀ (statements : List Stmt) (label : Nat),
    ((namesOf label statements).map labelNumber).Perm (List.range' label (labelsOf statements))
  | [], label => .refl []
  | s :: statements, label => by
      rw [namesOf, labelsOf, List.map_append, ← List.range'_append_1]
      exact (s.numbers_perm label).append (numbersOf_perm statements (label + s.labels))

end

theorem Stmt.names_nodup (s : Stmt) (label : Nat) : (s.names label).Nodup := by
  -- Labels with different numbers differ, whatever their words are.
  apply List.Nodup.of_map labelNumber
  rw [(s.numbers_perm label).nodup_iff]
  exact List.nodup_range'

-- What the labels of statements start with.
def labelWords : List String :=
  ["else", "endif", "while_cond", "while_body", "while_end", "for_cond", "for_body", "for_next",
   "for_end"]

mutual

theorem Stmt.exists_numbered : ∀ {s : Stmt} {label : Nat} {name : String}, name ∈ s.names label →
    ∃ word ∈ labelWords, ∃ n, name = numbered word n
  | .ifThen _ _ body, label, name, mem => by
      simp only [Stmt.names, List.mem_append, List.mem_singleton] at mem
      rcases mem with mem | rfl | rfl
      · exact Stmt.exists_numbered mem
      · exact ⟨_, by decide, _, rfl⟩
      · exact ⟨_, by decide, _, rfl⟩
  | .ifElse _ _ body otherwise, label, name, mem => by
      simp only [Stmt.names, List.mem_append, List.mem_singleton] at mem
      rcases mem with mem | rfl | mem | rfl
      · exact Stmt.exists_numbered mem
      · exact ⟨_, by decide, _, rfl⟩
      · exact Stmt.exists_numbered mem
      · exact ⟨_, by decide, _, rfl⟩
  | .while _ _ body, label, name, mem => by
      simp only [Stmt.names, List.mem_append, List.mem_singleton] at mem
      rcases mem with rfl | mem | rfl | rfl
      · exact ⟨_, by decide, _, rfl⟩
      · exact Stmt.exists_numbered mem
      · exact ⟨_, by decide, _, rfl⟩
      · exact ⟨_, by decide, _, rfl⟩
  | .for _ _ _ _ _ body, label, name, mem => by
      simp only [Stmt.names, List.mem_append, List.mem_singleton] at mem
      rcases mem with rfl | mem | rfl | rfl | rfl
      · exact ⟨_, by decide, _, rfl⟩
      · exact Stmt.exists_numbered mem
      · exact ⟨_, by decide, _, rfl⟩
      · exact ⟨_, by decide, _, rfl⟩
      · exact ⟨_, by decide, _, rfl⟩
  | .block _ statements, label, name, mem => exists_numbered_of_mem_namesOf mem

theorem exists_numbered_of_mem_namesOf : ∀ {statements : List Stmt} {label : Nat} {name : String},
    name ∈ namesOf label statements → ∃ word ∈ labelWords, ∃ n, name = numbered word n
  | s :: statements, label, name, mem => by
      rw [namesOf, List.mem_append] at mem
      rcases mem with mem | mem
      · exact Stmt.exists_numbered mem
      · exact exists_numbered_of_mem_namesOf mem

end

end Names

section Code

variable {f : Frames} {σ : Scopes} {bound : Nat}

mutual

theorem Stmt.lowers_labels : ∀ {s : Stmt} (loop? : Option Loop) (used label : Nat),
    s.Sound σ bound →
    Lowers False (s.code f loop? used label) fun code => Code.labels code = s.names label
  | .assign info target value, _, _, _, sound =>
      ((lowers_assignment sound).mono fun _ => Moves.labels).assuming False.elim
  | .ifThen info condition body, loop?, used, label, sound => by
      obtain ⟨⟨checked, test⟩, inner⟩ := Stmt.all_ifThen.mp sound
      refine ((lowers_conditionCode test checked.obeys).assuming False.elim).bind fun test tested => ?_
      refine (Stmt.lowers_labels loop? used (label + 2) inner).bind fun body names => .pure ?_
      simp [jump, tested.labels, names, Stmt.names]
  | .ifElse info condition body otherwise, loop?, used, label, sound => by
      obtain ⟨⟨checked, test⟩, inner, inner'⟩ := Stmt.all_ifElse.mp sound
      refine ((lowers_conditionCode test checked.obeys).assuming False.elim).bind fun test tested => ?_
      refine (Stmt.lowers_labels loop? used (label + 2) inner).bind fun code names => ?_
      refine (Stmt.lowers_labels loop? used (label + 2 + body.labels) inner').bind
        fun code' names' => .pure ?_
      simp [jump, tested.labels, names, names', Stmt.names]
  | .while info condition body, loop?, used, label, sound => by
      obtain ⟨⟨checked, test⟩, inner⟩ := Stmt.all_while.mp sound
      refine (Stmt.lowers_labels _ used (label + 3) inner).bind fun body names => ?_
      refine ((lowers_conditionCode test checked.obeys).assuming False.elim).bind fun test tested => .pure ?_
      simp [jump, tested.labels, names, Stmt.names]
  | .for info counter first last direction body, loop?, used, label, sound => by
      obtain ⟨⟨checked, hcounter, hfirst, hlast⟩, inner⟩ := Stmt.all_for.mp sound
      obtain ⟨target, -⟩ := checked.obeys
      refine ((Expr.lowers_code hfirst).assuming False.elim).bind fun first pushed => ?_
      refine ((Expr.lowers_reference hcounter target.isReference).assuming False.elim).bind
        fun r finds => ?_
      refine ((Expr.lowers_code hlast).assuming False.elim).bind fun last pushed' => ?_
      refine (Stmt.lowers_labels _ (used + dwordSize) (label + 4) inner).bind fun body names => .pure ?_
      have store := (finds.store counter.type.dvd_size).labels
      have found := finds.resolve.labels
      unfold Reference.resolve at found
      simp [jump, pushed.labels, pushed'.labels, store, found, names, Stmt.names]
  | .continue info, loop?, _, _, _ => by
      cases loop? with
      | none => exact .malformed id
      | some loop => exact .pure rfl
  | .break info, loop?, _, _, _ => by
      cases loop? with
      | none => exact .malformed id
      | some loop => exact .pure rfl
  | .read info targets newline, _, _, _, sound =>
      ((lowers_input sound).mono fun _ => Moves.labels).assuming False.elim
  | .write info arguments newline, _, _, _, sound =>
      ((lowers_output sound).mono fun _ => Moves.labels).assuming False.elim
  | .call info function arguments, _, _, _, sound =>
      ((lowers_calling sound).mono fun _ => Moves.labels).assuming False.elim
  | .block info statements, loop?, used, label, sound => by
      obtain ⟨checked, each⟩ := Stmt.all_block.mp sound
      exact lowers_blockLabels loop? used label each

theorem lowers_blockLabels : ∀ {statements : List Stmt} (loop? : Option Loop) (used label : Nat),
    (∀ s ∈ statements, s.Sound σ bound) →
    Lowers False (blockCode f loop? used label statements)
      fun code => Code.labels code = namesOf label statements
  | [], _, _, _, _ => .pure rfl
  | s :: statements, loop?, used, label, each => by
      obtain ⟨head, rest⟩ := List.forall_mem_cons.mp each
      refine (Stmt.lowers_labels loop? used label head).bind fun code names => ?_
      refine (lowers_blockLabels loop? used (label + s.labels) rest).bind fun code' names' => .pure ?_
      rw [Code.labels_append, names, names', namesOf]

end

end Code

end PascalX86
