import PascalX86.Proofs.Lowering.Label
import PascalX86.Proofs.Machine.Basic

/-!
# Runs of parts of code

What the machine does in a part of its code, wherever the part stands.
-/

set_option autoImplicit false

namespace PascalX86

namespace Code

variable {whole first second part rest : Code} {i j : Nat} {name : String} {op : Opcode}
  {m m' : Machine}

def Has (whole : Code) (i : Nat) (part : Code) : Prop := part <+: whole.drop i

theorem Has.left (h : Has whole i (first ++ second)) : Has whole i first :=
  (List.prefix_append first second).trans h

theorem Has.right (h : Has whole i (first ++ second)) : Has whole (i + first.length) second := by
  obtain ⟨after, eq⟩ := h
  refine ⟨after, ?_⟩
  rw [← List.drop_drop, ← eq, List.append_assoc, List.drop_left]

theorem Has.head {command : Command} (h : Has whole i (command :: rest)) :
    whole[i]? = some command := by
  obtain ⟨after, eq⟩ := h
  rw [← List.head?_drop, ← eq]
  rfl

theorem Has.tail {command : Command} (h : Has whole i (command :: rest)) :
    Has whole (i + 1) rest :=
  @Has.right whole [command] rest i h

theorem has_middle (before part after : Code) : Has (before ++ part ++ after) before.length part := by
  rw [Has, List.append_assoc, List.drop_left]
  exact List.prefix_append part after

theorem target?_of_has (distinct : (labels whole).Nodup) (h : Has whole i (.label name :: rest)) :
    target? whole name = some i := by
  have here := h.head
  clear h
  induction whole generalizing i with
  | nil => simp at here
  | cons command whole ih =>
      cases i with
      | zero =>
          rw [List.getElem?_cons_zero, Option.some.injEq] at here
          subst here
          simp [target?, List.findIdx?_cons]
      | succ i =>
          rw [List.getElem?_cons_succ] at here
          -- The label stands further on, so it is not the one in front.
          have inside : name ∈ labels whole := by
            rw [labels, List.mem_filterMap]
            exact ⟨_, List.mem_of_getElem? here, rfl⟩
          cases command with
          | label other =>
              rw [labels_label, List.nodup_cons] at distinct
              have differs : other ≠ name := fun same => distinct.1 (same ▸ inside)
              have found := ih distinct.2 here
              simp only [target?] at found ⊢
              simp [List.findIdx?_cons, differs, found]
          | instruction op operands =>
              rw [labels_instruction] at distinct
              have found := ih distinct here
              simp only [target?] at found ⊢
              simp [List.findIdx?_cons, found]

theorem Reaches.step {c c' c'' : Config} (h : step? whole c = some c') (rest : Reaches whole c' c'') :
    Reaches whole c c'' :=
  .head h rest

theorem reaches_of_eq (same : i = j) : Reaches whole ⟨i, m⟩ ⟨j, m⟩ := by
  rw [same]
  exact .refl

theorem step_label (h : Has whole i (.label name :: rest)) :
    step? whole ⟨i, m⟩ = some ⟨i + 1, m⟩ := by
  simp [step?, h.head]

theorem step_jmp (h : Has whole i (jump .jmp name :: rest)) (target : target? whole name = some j) :
    step? whole ⟨i, m⟩ = some ⟨j, m⟩ := by
  simp [step?, h.head, jump, taken?, target]

theorem step_jump {flags : Flags} {condition : Flags.Condition}
    (h : Has whole i (jump op name :: rest)) (awaits : op.awaited? = some condition)
    (known : m.flags = some flags) (target : target? whole name = some j) :
    step? whole ⟨i, m⟩ = some ⟨if flags.meets condition then j else i + 1, m⟩ := by
  have conditional : op ≠ .jmp := by
    intro h
    rw [h] at awaits
    cases awaits
  cases taken : flags.meets condition <;>
    simp [step?, h.head, jump, taken?, conditional, known, awaits, taken, target]

theorem instruction?_raw (op : Opcode) (name : String) : m.instruction? op [.raw name] = none := by
  cases op <;> rfl

theorem step_instruction {operands : List Operand}
    (h : Has whole i (.instruction op operands :: rest))
    (executed : m.instruction? op operands = some m') :
    step? whole ⟨i, m⟩ = some ⟨i + 1, m'⟩ := by
  -- Jumps have a text as their operand, which is no operand of any other instruction.
  unfold step?
  rw [h.head]
  split
  · next missing => cases missing
  · next found => cases found
  · next other name found =>
    cases found
    rw [instruction?_raw] at executed
    cases executed
  · next found =>
    cases found
    simp [executed]

theorem reaches_run (h : Has whole i part) (run : m.run? part = some m') :
    Reaches whole ⟨i, m⟩ ⟨i + part.length, m'⟩ := by
  induction part generalizing i m with
  | nil =>
      cases run
      exact .refl
  | cons command part ih =>
      rw [List.length_cons, Nat.add_comm part.length, ← Nat.add_assoc]
      cases command with
      | label name => exact .head (step_label h) (ih h.tail run)
      | instruction op operands =>
          obtain ⟨next, executed, run⟩ := Option.bind_eq_some_iff.mp run
          exact .head (step_instruction h executed) (ih h.tail run)

theorem Reaches.next {c c' c'' : Config} (h : Reaches whole c c'') (moves : c.position ≠ c''.position)
    (step : step? whole c = some c') : Reaches whole c' c'' := by
  rcases Relation.ReflTransGen.cases_head h with rfl | ⟨other, first, rest⟩
  · exact absurd rfl moves
  · have same : some other = some c' := first.symm.trans step
    cases same
    exact rest

end Code

end PascalX86
