import PascalX86.Proofs.Calling.Stack
import PascalX86.Proofs.Machine.Run

/-!
# Processes

A machine at work on a listing, with its surroundings: the registers for doubles, and the routines of
the runtime with all that they keep. Calls push the position to come back to, and returns go there.
-/

set_option autoImplicit false

namespace PascalX86

/-- Instructions that have no meaning for the machine alone. -/
def Opcode.isOutside (op : Opcode) : Bool := op.isDouble || op = .printf || op = .invoke

/-- Whatever performs the instructions that lie outside of the machine. -/
structure Environment where
  State : Type
  perform? : Opcode → List Operand → Machine → State → Option (Machine × State)

structure Environment.Process (env : Environment) where
  position : Nat
  machine : Machine
  state : env.State

namespace Environment

variable (env : Environment) (code : Code)

def step? (c : env.Process) : Option env.Process :=
  match code[c.position]? with
  | some (.instruction .call [.raw name]) => do
      return ⟨← code.target? name, c.machine.push (.ofNat 32 (c.position + 1)), c.state⟩
  | some (.instruction .ret []) =>
      return ⟨c.machine.pop.1.toNat, c.machine.pop.2, c.state⟩
  | some (.instruction op operands) =>
      if op.isOutside then do
        let (machine, state) ← env.perform? op operands c.machine c.state
        return ⟨c.position + 1, machine, state⟩
      else do
        let next ← code.step? ⟨c.position, c.machine⟩
        return ⟨next.position, next.machine, c.state⟩
  | some (.label _) => some { c with position := c.position + 1 }
  | none => none

/-- A run of the listing, with what a watch shows along it in turn. -/
inductive Visits {α : Type} (watch : env.Process → Option α) : env.Process → List α → env.Process → Prop
  | refl (c : env.Process) : Visits watch c [] c
  | step {c c' c'' : env.Process} {seen : List α} (next : env.step? code c = some c')
      (rest : Visits watch c' seen c'') : Visits watch c ((watch c).toList ++ seen) c''

variable {env code} {α : Type} {watch : env.Process → Option α} {c c' c'' : env.Process}
  {seen seen' : List α} {i j : Nat} {m m' : Machine} {s : env.State} {part rest : Code}

theorem Visits.trans (first : env.Visits code watch c seen c')
    (second : env.Visits code watch c' seen' c'') : env.Visits code watch c (seen ++ seen') c'' := by
  induction first with
  | refl => exact second
  | step next _ ih =>
      rw [List.append_assoc]
      exact .step next (ih second)

theorem Visits.unseen (first : env.Visits code watch c [] c')
    (second : env.Visits code watch c' seen c'') : env.Visits code watch c seen c'' :=
  first.trans second

/-- A step where there is nothing to see. -/
theorem Visits.pass (next : env.step? code c = some c') (blind : watch c = none) :
    env.Visits code watch c [] c' := by
  have visits : env.Visits code watch c ((watch c).toList ++ []) c' := .step next (.refl c')
  rwa [blind] at visits

theorem Visits.see {a : α} (next : env.step? code c = some c') (shown : watch c = some a) :
    env.Visits code watch c [a] c' := by
  have visits : env.Visits code watch c ((watch c).toList ++ []) c' := .step next (.refl c')
  rwa [shown] at visits

theorem step_label {name : String} (h : Code.Has code i (.label name :: rest)) :
    env.step? code ⟨i, m, s⟩ = some ⟨i + 1, m, s⟩ := by
  simp [step?, h.head]

theorem instruction?_eq_none_of_isOutside {op : Opcode} {operands : List Operand}
    (outside : op.isOutside = true) : m.instruction? op operands = none := by
  have plain : op.stored? = none ∧ op ≠ .cdq ∧ ∀ a b, Machine.arithmetic? op a b = none := by
    revert outside
    cases op <;> first | exact fun _ => ⟨rfl, by decide, fun _ _ => rfl⟩ | (intro outside; cases outside)
  obtain ⟨unset, other, undefined⟩ := plain
  unfold Machine.instruction?
  split
  · rw [if_neg other]
  · unfold Machine.unary?
    split <;> first | cases outside | skip
    cases m.flags <;> simp [unset]
  · unfold Machine.binary?
    split <;> first | cases outside | skip
    simp [undefined]
  · rfl

/-- What the machine does by itself it also does in its surroundings. -/
theorem step_of_machine {next : Config} (step : code.step? ⟨i, m⟩ = some next) :
    env.step? code ⟨i, m, s⟩ = some ⟨next.position, next.machine, s⟩ := by
  unfold step?
  dsimp only
  split
  · next name found => simp [Code.step?, found, Code.taken?, Opcode.awaited?] at step
  · next found => simp [Code.step?, found, Machine.instruction?] at step
  · next op operands _ _ found =>
    split
    · next outside =>
      have undefined : m.instruction? op operands = none := instruction?_eq_none_of_isOutside outside
      unfold Code.step? at step
      rw [found] at step
      split at step
      · next missing => cases missing
      · next label => cases label
      · next other name same =>
        cases same
        have jumps : Code.taken? op m.flags = none := by
          revert outside
          cases op <;> first | (intro _; cases m.flags <;> rfl) | (intro outside; cases outside)
        simp [jumps] at step
      · next other operands same =>
        cases same
        simp [undefined] at step
    · rw [step]
      rfl
  · next name found =>
    simp only [Code.step?, found, Option.some.injEq] at step
    rw [← step]
  · next missing => simp [Code.step?, missing] at step

theorem step_instruction {op : Opcode} {operands : List Operand}
    (h : Code.Has code i (.instruction op operands :: rest))
    (executed : m.instruction? op operands = some m') :
    env.step? code ⟨i, m, s⟩ = some ⟨i + 1, m', s⟩ :=
  step_of_machine (Code.step_instruction h executed)

theorem step_jmp {name : String} (h : Code.Has code i (jump .jmp name :: rest))
    (target : code.target? name = some j) : env.step? code ⟨i, m, s⟩ = some ⟨j, m, s⟩ :=
  step_of_machine (Code.step_jmp h target)

theorem step_jump {op : Opcode} {name : String} {flags : Flags} {condition : Flags.Condition}
    (h : Code.Has code i (jump op name :: rest)) (awaits : op.awaited? = some condition)
    (known : m.flags = some flags) (target : code.target? name = some j) :
    env.step? code ⟨i, m, s⟩ = some ⟨if flags.meets condition then j else i + 1, m, s⟩ :=
  step_of_machine (Code.step_jump h awaits known target)

end Environment

end PascalX86
