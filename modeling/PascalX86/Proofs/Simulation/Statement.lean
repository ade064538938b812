import PascalX86.Proofs.Answer
import PascalX86.Proofs.Machine.Run
import PascalX86.Proofs.Simulation.Expression

/-!
# Statements at run time

Every terminating run of a statement has a run of its code, by induction on the run of the
statement. The machine arrives where the exit of the statement leads: behind the code, or at one of
the labels of the loop around it.
-/

set_option autoImplicit false

namespace PascalX86

open Register

section Shapes

variable {f : Frames} {loop? : Option Loop} {used label : Nat} {info : NodeInfo} {code : Code}

theorem shape_assign {target value : Expr}
    (h : (Stmt.assign info target value).code f loop? used label = .ok code) :
    ∃ pushed r, value.code f = .ok pushed ∧ target.reference f = .ok r ∧
      code = pushed ++ r.store target.type.size := by
  obtain ⟨pushed, evaluated, h⟩ := bind_eq_ok.mp h
  obtain ⟨r, found, h⟩ := bind_eq_ok.mp h
  cases h
  exact ⟨pushed, r, evaluated, found, rfl⟩

theorem shape_ifThen {condition : Expr} {body : Stmt}
    (h : (Stmt.ifThen info condition body).code f loop? used label = .ok code) :
    ∃ test inner, conditionCode f condition = .ok test ∧
      body.code f loop? used (label + 2) = .ok inner ∧
      code = test ++ jump .jz (numbered "else" label) ::
        (inner ++ [.label (numbered "else" label), .label (numbered "endif" (label + 1))]) := by
  obtain ⟨test, tested, h⟩ := bind_eq_ok.mp h
  obtain ⟨inner, lowered, h⟩ := bind_eq_ok.mp h
  cases h
  exact ⟨test, inner, tested, lowered, by simp⟩

theorem shape_ifElse {condition : Expr} {body otherwise : Stmt}
    (h : (Stmt.ifElse info condition body otherwise).code f loop? used label = .ok code) :
    ∃ test first second, conditionCode f condition = .ok test ∧
      body.code f loop? used (label + 2) = .ok first ∧
      otherwise.code f loop? used (label + 2 + body.labels) = .ok second ∧
      code = test ++ jump .jz (numbered "else" label) :: (first ++
        jump .jmp (numbered "endif" (label + 1)) :: .label (numbered "else" label) ::
          (second ++ [.label (numbered "endif" (label + 1))])) := by
  obtain ⟨test, tested, h⟩ := bind_eq_ok.mp h
  obtain ⟨first, lowered, h⟩ := bind_eq_ok.mp h
  obtain ⟨second, lowered', h⟩ := bind_eq_ok.mp h
  cases h
  exact ⟨test, first, second, tested, lowered, lowered', by simp⟩

/-- A loop, whose condition stands behind its body. -/
def whileCode (label : Nat) (test inner : Code) : Code :=
  jump .jmp (numbered "while_cond" label) :: .label (numbered "while_body" (label + 1)) ::
    (inner ++ .label (numbered "while_cond" label) :: (test ++
      [jump .jnz (numbered "while_body" (label + 1)), .label (numbered "while_end" (label + 2))]))

theorem shape_while {condition : Expr} {body : Stmt}
    (h : (Stmt.while info condition body).code f loop? used label = .ok code) :
    ∃ test inner, conditionCode f condition = .ok test ∧
      body.code f (some ⟨numbered "while_cond" label, numbered "while_end" (label + 2)⟩) used
        (label + 3) = .ok inner ∧
      code = whileCode label test inner := by
  obtain ⟨inner, lowered, h⟩ := bind_eq_ok.mp h
  obtain ⟨test, tested, h⟩ := bind_eq_ok.mp h
  cases h
  exact ⟨test, inner, tested, lowered, by simp [whileCode]⟩

theorem shape_cons {s : Stmt} {statements : List Stmt}
    (h : (Stmt.block info (s :: statements)).code f loop? used label = .ok code) :
    ∃ first rest, s.code f loop? used label = .ok first ∧
      (Stmt.block info statements).code f loop? used (label + s.labels) = .ok rest ∧
      code = first ++ rest := by
  obtain ⟨first, lowered, h⟩ := bind_eq_ok.mp h
  obtain ⟨rest, lowered', h⟩ := bind_eq_ok.mp h
  cases h
  exact ⟨first, rest, lowered, lowered', rfl⟩

end Shapes

section Tests

variable {a : Activation} {σ : Store} {m : Machine} {n : Int32} {e : Expr}

theorem and_self_eq_zero (n : Int32) : (n.toBitVec &&& n.toBitVec = 0) ↔ n = 0 := by
  rw [BitVec.and_self]
  exact @Int32.toBitVec_inj n 0

theorem runs_conditionCode {test : Code} (plain : e.All (Expr.Runnable a.table))
    (tested : conditionCode Function.mainFrames e = .ok test) (value : e.eval? σ = some n)
    (holds : a.Holds σ [] m) (room : a.size + 4 * e.height ≤ 2 ^ 32) :
    ∃ m' flags, m.run? test = some m' ∧ a.Holds σ [] m' ∧ m'.flags = some flags ∧
      flags.zero = decide (n = 0) := by
  obtain ⟨code, lowered, pushed⟩ := Expr.pushes plain
  obtain ⟨code', lowered', eq⟩ := bind_eq_ok.mp tested
  cases eq
  obtain rfl : code = code' := by simpa [lowered] using lowered'
  obtain ⟨m₁, run, holds₁⟩ := pushed.run value holds (by simpa using room)
  obtain ⟨top, holds₂⟩ := holds₁.pop
  refine ⟨{ m₁.pop.2 with
    eax := m₁.pop.1, flags := some (.ofLogic (m₁.pop.1 &&& m₁.pop.1)) }, _, ?_, ?_, rfl, ?_⟩
  · rw [Machine.run?_append, run]
    rfl
  · exact holds₂.congr rfl rfl rfl
  · rw [top]
    exact decide_eq_decide.mpr (and_self_eq_zero n)

theorem reaches_branch {whole test rest : Code} {op : Opcode} {condition : Flags.Condition} {name : String}
    {i j : Nat} (plain : e.All (Expr.Runnable a.table))
    (tested : conditionCode Function.mainFrames e = .ok test) (value : e.eval? σ = some n)
    (holds : a.Holds σ [] m) (room : a.size + 4 * e.height ≤ 2 ^ 32)
    (here : whole.Has i (test ++ jump op name :: rest)) (awaits : op.awaited? = some condition)
    (target : whole.target? name = some j) :
    ∃ (m' : Machine) (flags : Flags), whole.Reaches ⟨i, m⟩
        ⟨if flags.meets condition then j else i + test.length + 1, m'⟩ ∧
      a.Holds σ [] m' ∧ flags.zero = decide (n = 0) := by
  obtain ⟨m', flags, run, holds', known, zero⟩ := runs_conditionCode plain tested value holds room
  have jumped := Code.step_jump here.right awaits known target
  exact ⟨m', flags, (Code.reaches_run here.left run).tail jumped, holds', zero⟩

theorem reaches_jz {whole test rest : Code} {name : String} {i j : Nat}
    (plain : e.All (Expr.Runnable a.table))
    (tested : conditionCode Function.mainFrames e = .ok test) (value : e.eval? σ = some n)
    (holds : a.Holds σ [] m) (room : a.size + 4 * e.height ≤ 2 ^ 32)
    (here : whole.Has i (test ++ jump .jz name :: rest)) (target : whole.target? name = some j) :
    ∃ m', a.Holds σ [] m' ∧
      whole.Reaches ⟨i, m⟩ ⟨if n = 0 then j else i + test.length + 1, m'⟩ := by
  obtain ⟨m', flags, reaches, holds', zero⟩ :=
    reaches_branch plain tested value holds room here rfl target
  refine ⟨m', holds', ?_⟩
  by_cases h : n = 0
  · simpa only [Flags.meets, zero, h, decide_true, if_true] using reaches
  · simpa only [Flags.meets, zero, h, decide_false, Bool.false_eq_true, if_false] using reaches

theorem reaches_jnz {whole test rest : Code} {name : String} {i j : Nat}
    (plain : e.All (Expr.Runnable a.table))
    (tested : conditionCode Function.mainFrames e = .ok test) (value : e.eval? σ = some n)
    (holds : a.Holds σ [] m) (room : a.size + 4 * e.height ≤ 2 ^ 32)
    (here : whole.Has i (test ++ jump .jnz name :: rest)) (target : whole.target? name = some j) :
    ∃ m', a.Holds σ [] m' ∧
      whole.Reaches ⟨i, m⟩ ⟨if n = 0 then i + test.length + 1 else j, m'⟩ := by
  obtain ⟨m', flags, reaches, holds', zero⟩ :=
    reaches_branch plain tested value holds room here rfl target
  refine ⟨m', holds', ?_⟩
  by_cases h : n = 0
  · simpa only [Flags.meets, zero, h, decide_true, Bool.not_true, Bool.false_eq_true, if_true,
      if_false] using reaches
  · simpa only [Flags.meets, zero, h, decide_false, Bool.not_false, if_true, if_false] using reaches

end Tests

section Runs

structure Stmt.Runnable (a : Activation) (s : Stmt) : Prop where
  plain : s.isPlain = true
  target : ∀ {info : NodeInfo} {target value : Expr},
    s = .assign info target value → target.isReference = true
  room : ∀ e ∈ s.operands, a.size + 4 * e.height ≤ 2 ^ 32

/-- Where the exit of a statement leads. -/
def Lands (whole : Code) (loop? : Option Loop) (after j : Nat) : Exit → Prop
  | .normal => j = after
  | .continued => ∃ loop, loop? = some loop ∧ whole.target? loop.next = some j
  | .broken => ∃ loop, loop? = some loop ∧ whole.target? loop.stop = some j

def Arrives (whole : Code) (a : Activation) (loop? : Option Loop) (after : Nat) (exit : Exit)
    (σ : Store) (c : Config) : Prop :=
  ∃ j m, whole.Reaches c ⟨j, m⟩ ∧ a.Holds σ [] m ∧ Lands whole loop? after j exit

variable {whole : Code} {a : Activation} {loop? : Option Loop} {σ σ' : Store} {exit : Exit}
  {after after' : Nat} {c c' : Config}

theorem Arrives.prepend (h : Arrives whole a loop? after exit σ c') (reaches : whole.Reaches c c') :
    Arrives whole a loop? after exit σ c := by
  obtain ⟨j, m, rest, holds, lands⟩ := h
  exact ⟨j, m, reaches.trans rest, holds, lands⟩

theorem Arrives.onward (h : Arrives whole a loop? after exit σ c)
    (reaches : ∀ m, whole.Reaches ⟨after, m⟩ ⟨after', m⟩) :
    Arrives whole a loop? after' exit σ c := by
  obtain ⟨j, m, first, holds, lands⟩ := h
  cases exit with
  | normal =>
      cases lands
      exact ⟨after', m, first.trans (reaches m), holds, rfl⟩
  | continued => exact ⟨j, m, first, holds, lands⟩
  | broken => exact ⟨j, m, first, holds, lands⟩

theorem Arrives.jump (h : Arrives whole a loop? after exit σ c) (jumps : exit ≠ .normal) :
    Arrives whole a loop? after' exit σ c := by
  obtain ⟨j, m, first, holds, lands⟩ := h
  cases exit with
  | normal => exact absurd rfl jumps
  | continued => exact ⟨j, m, first, holds, lands⟩
  | broken => exact ⟨j, m, first, holds, lands⟩

def Loop.Placed (whole : Code) (loop? : Option Loop) : Prop :=
  ∀ loop, loop? = some loop →
    (∃ j, whole.target? loop.next = some j) ∧ ∃ j, whole.target? loop.stop = some j

/-- A run of a statement has runs of its code wherever that stands. -/
structure Simulated (whole : Code) (a : Activation) (σ : Store) (s : Stmt) (exit : Exit)
    (σ' : Store) : Prop where
  arrives : ∀ {loop? : Option Loop} {used label i : Nat} {code : Code} {m : Machine},
    s.All (Expr.Runnable a.table) (Stmt.Runnable a) →
    s.code Function.mainFrames loop? used label = .ok code → whole.Has i code →
    Loop.Placed whole loop? → a.Holds σ [] m →
      Arrives whole a loop? (i + code.length) exit σ' ⟨i, m⟩

variable {info node : NodeInfo} {symbol : Symbol} {condition value : Expr} {body otherwise s : Stmt}
  {statements : List Stmt} {v n : Int32} {σ₁ : Store}

theorem simulated_assign (evaluated : value.eval? σ = some v) :
    Simulated whole a σ (.assign info (.var node symbol) value) .normal (σ.set symbol v) := by
  constructor
  intro loop? used label i code m plain lowered here _ holds
  obtain ⟨runnable, target, right⟩ := Stmt.all_assign.mp plain
  obtain ⟨integer, mem, type, x, role, level, area⟩ := Expr.all_var.mp target
  obtain ⟨pushed, r, evaluation, found, rfl⟩ := shape_assign lowered
  obtain ⟨pushed', lowered', pushes⟩ := Expr.pushes right
  obtain rfl : pushed' = pushed := by simpa [evaluation] using lowered'.symm
  have reference := reference_variable node.span role type level area
  obtain rfl : r = ⟨[], .memory (cellOf x)⟩ := by
    simpa [Expr.reference, reference] using found.symm
  have room := runnable.room value (by simp [Stmt.operands])
  obtain ⟨m₁, run, holds₁⟩ := pushes.run evaluated holds (by simpa using room)
  obtain ⟨top, holds₂⟩ := holds₁.pop
  have stored := holds₂.store (v := v) (by simp; omega) mem role
  rw [← holds₂.base, ← top] at stored
  have size : (Expr.var node symbol).type.size = 4 := by
    rw [show (Expr.var node symbol).type = .integer from integer]
    rfl
  have assigned := assign?_memory m₁.pop.1 rfl (address?_cellOf m₁.pop.2 x)
  refine ⟨_, _, Code.reaches_run here ?_, stored, rfl⟩
  rw [Machine.run?_append, run, Option.bind_some, size, store_cell, Machine.run?_pop, assigned]

variable (distinct : (Code.labels whole).Nodup)

include distinct

theorem simulated_ifThen (evaluated : condition.eval? σ = some n) (nonzero : n ≠ 0)
    (inner : Simulated whole a σ body exit σ') :
    Simulated whole a σ (.ifThen info condition body) exit σ' := by
  constructor
  intro loop? used label i code m plain lowered here placed holds
  obtain ⟨⟨runnable, tests⟩, bodies⟩ := Stmt.all_ifThen.mp plain
  obtain ⟨test, inside, tested, lowered', rfl⟩ := shape_ifThen lowered
  have room := runnable.room condition (by simp [Stmt.operands])
  have ends := here.right.tail.right
  have target := Code.target?_of_has distinct ends
  obtain ⟨m₁, holds₁, reaches⟩ := reaches_jz tests tested evaluated holds room here target
  rw [if_neg nonzero] at reaches
  have arrives := inner.arrives bodies lowered' here.right.tail.left placed holds₁
  refine (arrives.onward fun m' => ?_).prepend reaches
  refine .head (Code.step_label ends) (.head (Code.step_label ends.tail) (Code.reaches_of_eq ?_))
  simp only [List.length_append, List.length_cons, List.length_nil]
  omega

theorem simulated_skip (evaluated : condition.eval? σ = some 0) :
    Simulated whole a σ (.ifThen info condition body) .normal σ := by
  constructor
  intro loop? used label i code m plain lowered here placed holds
  obtain ⟨⟨runnable, tests⟩, bodies⟩ := Stmt.all_ifThen.mp plain
  obtain ⟨test, inside, tested, lowered', rfl⟩ := shape_ifThen lowered
  have room := runnable.room condition (by simp [Stmt.operands])
  have ends := here.right.tail.right
  have target := Code.target?_of_has distinct ends
  obtain ⟨m₁, holds₁, reaches⟩ := reaches_jz tests tested evaluated holds room here target
  rw [if_pos rfl] at reaches
  refine ⟨_, m₁, reaches.trans ?_, holds₁, rfl⟩
  refine .head (Code.step_label ends) (.head (Code.step_label ends.tail) (Code.reaches_of_eq ?_))
  simp only [List.length_append, List.length_cons, List.length_nil]
  omega

theorem simulated_ifElse (evaluated : condition.eval? σ = some n) (nonzero : n ≠ 0)
    (inner : Simulated whole a σ body exit σ') :
    Simulated whole a σ (.ifElse info condition body otherwise) exit σ' := by
  constructor
  intro loop? used label i code m plain lowered here placed holds
  obtain ⟨⟨runnable, tests⟩, bodies, -⟩ := Stmt.all_ifElse.mp plain
  obtain ⟨test, first, second, tested, lowered', -, rfl⟩ := shape_ifElse lowered
  have room := runnable.room condition (by simp [Stmt.operands])
  have leaves := here.right.tail.right
  have ends := leaves.tail.tail.right
  have target := Code.target?_of_has distinct leaves.tail
  obtain ⟨m₁, holds₁, reaches⟩ := reaches_jz tests tested evaluated holds room here target
  rw [if_neg nonzero] at reaches
  have arrives := inner.arrives bodies lowered' here.right.tail.left placed holds₁
  refine (arrives.onward fun m' => ?_).prepend reaches
  have jumped := Code.step_jmp (m := m') leaves (Code.target?_of_has distinct ends)
  refine .head jumped (.head (Code.step_label ends) (Code.reaches_of_eq ?_))
  simp only [List.length_append, List.length_cons, List.length_nil]
  omega

theorem simulated_otherwise (evaluated : condition.eval? σ = some 0)
    (inner : Simulated whole a σ otherwise exit σ') :
    Simulated whole a σ (.ifElse info condition body otherwise) exit σ' := by
  constructor
  intro loop? used label i code m plain lowered here placed holds
  obtain ⟨⟨runnable, tests⟩, -, bodies⟩ := Stmt.all_ifElse.mp plain
  obtain ⟨test, first, second, tested, -, lowered', rfl⟩ := shape_ifElse lowered
  have room := runnable.room condition (by simp [Stmt.operands])
  have leaves := here.right.tail.right
  have ends := leaves.tail.tail.right
  have target := Code.target?_of_has distinct leaves.tail
  obtain ⟨m₁, holds₁, reaches⟩ := reaches_jz tests tested evaluated holds room here target
  rw [if_pos rfl] at reaches
  have arrives := inner.arrives bodies lowered' leaves.tail.tail.left placed holds₁
  refine (arrives.onward fun m' => ?_).prepend (reaches.tail (Code.step_label leaves.tail))
  refine .head (Code.step_label ends) (Code.reaches_of_eq ?_)
  simp only [List.length_append, List.length_cons, List.length_nil]
  omega

section Loops

variable {label i : Nat} {test inside : Code} {m : Machine}

omit distinct in
theorem length_whileCode : (whileCode label test inside).length = inside.length + test.length + 5 := by
  simp only [whileCode, List.length_append, List.length_cons, List.length_nil]
  omega

theorem while_enters (here : whole.Has i (whileCode label test inside)) :
    whole.step? ⟨i, m⟩ = some ⟨i + 1 + 1 + inside.length, m⟩ :=
  Code.step_jmp here (Code.target?_of_has distinct here.tail.tail.right)

theorem while_stop (here : whole.Has i (whileCode label test inside)) :
    whole.target? (numbered "while_end" (label + 2)) =
      some (i + 1 + 1 + inside.length + 1 + test.length + 1) :=
  Code.target?_of_has distinct here.tail.tail.right.tail.right.tail

theorem while_placed (here : whole.Has i (whileCode label test inside)) :
    Loop.Placed whole (some ⟨numbered "while_cond" label, numbered "while_end" (label + 2)⟩) := by
  intro loop eq
  cases eq
  exact ⟨⟨_, Code.target?_of_has distinct here.tail.tail.right⟩, _, while_stop distinct here⟩

omit distinct in
theorem while_leaves (here : whole.Has i (whileCode label test inside)) :
    whole.Reaches ⟨i + 1 + 1 + inside.length + 1 + test.length + 1, m⟩
      ⟨i + (whileCode label test inside).length, m⟩ := by
  have stop := here.tail.tail.right.tail.right.tail
  refine .head (Code.step_label stop) (Code.reaches_of_eq ?_)
  rw [length_whileCode]
  omega

theorem while_tests (tests : condition.All (Expr.Runnable a.table))
    (tested : conditionCode Function.mainFrames condition = .ok test)
    (evaluated : condition.eval? σ = some n) (holds : a.Holds σ [] m)
    (room : a.size + 4 * condition.height ≤ 2 ^ 32)
    (here : whole.Has i (whileCode label test inside)) :
    ∃ m', a.Holds σ [] m' ∧ whole.Reaches ⟨i + 1 + 1 + inside.length, m⟩
      ⟨if n = 0 then i + 1 + 1 + inside.length + 1 + test.length + 1 else i + 1 + 1, m'⟩ := by
  have again := here.tail.tail.right
  have target := Code.target?_of_has distinct here.tail
  obtain ⟨m₁, holds₁, reaches⟩ := reaches_jnz tests tested evaluated holds room again.tail target
  have entered : whole.Reaches ⟨i + 1 + 1 + inside.length, m⟩ _ := .head (Code.step_label again) reaches
  refine ⟨m₁, holds₁, ?_⟩
  by_cases h : n = 0
  · rw [if_pos h] at entered ⊢
    exact entered
  · rw [if_neg h] at entered ⊢
    exact entered.tail (Code.step_label here.tail)

/-- The machine first goes to the condition, and from there into the body or to the end. -/
theorem while_tested {loop? : Option Loop} {used : Nat} {code : Code} (evaluated : condition.eval? σ = some n)
    (plain : (Stmt.while info condition body).All (Expr.Runnable a.table) (Stmt.Runnable a))
    (lowered : (Stmt.while info condition body).code Function.mainFrames loop? used label = .ok code)
    (here : whole.Has i code) (holds : a.Holds σ [] m) :
    ∃ test inside m₁, code = whileCode label test inside ∧
      body.All (Expr.Runnable a.table) (Stmt.Runnable a) ∧
      body.code Function.mainFrames (some ⟨numbered "while_cond" label, numbered "while_end" (label + 2)⟩)
        used (label + 3) = .ok inside ∧ a.Holds σ [] m₁ ∧
      whole.Reaches ⟨i + 1 + 1 + inside.length, m⟩
        ⟨if n = 0 then i + 1 + 1 + inside.length + 1 + test.length + 1 else i + 1 + 1, m₁⟩ := by
  obtain ⟨⟨runnable, tests⟩, bodies⟩ := Stmt.all_while.mp plain
  obtain ⟨test, inside, tested, lowered', rfl⟩ := shape_while lowered
  have room := runnable.room condition (by simp [Stmt.operands])
  obtain ⟨m₁, holds₁, reaches⟩ := while_tests distinct tests tested evaluated holds room here
  exact ⟨test, inside, m₁, rfl, bodies, lowered', holds₁, reaches⟩

theorem simulated_done (evaluated : condition.eval? σ = some 0) :
    Simulated whole a σ (.while info condition body) .normal σ := by
  constructor
  intro loop? used label i code m plain lowered here placed holds
  obtain ⟨test, inside, m₁, rfl, bodies, lowered', holds₁, reaches⟩ :=
    while_tested distinct evaluated plain lowered here holds
  rw [if_pos rfl] at reaches
  have run := (Code.Reaches.step (while_enters distinct here) reaches).trans (while_leaves here)
  exact ⟨_, m₁, run, holds₁, rfl⟩

theorem simulated_left (evaluated : condition.eval? σ = some n) (nonzero : n ≠ 0)
    (inner : Simulated whole a σ body .broken σ') :
    Simulated whole a σ (.while info condition body) .normal σ' := by
  constructor
  intro loop? used label i code m plain lowered here placed holds
  obtain ⟨test, inside, m₁, rfl, bodies, lowered', holds₁, reaches⟩ :=
    while_tested distinct evaluated plain lowered here holds
  rw [if_neg nonzero] at reaches
  obtain ⟨j, m₂, reaches', holds₂, loop, eq, stop⟩ :=
    inner.arrives bodies lowered' here.tail.tail.left (while_placed distinct here) holds₁
  cases eq
  rw [while_stop distinct here, Option.some.injEq] at stop
  subst stop
  have run := ((Code.Reaches.step (while_enters distinct here) reaches).trans reaches').trans
    (while_leaves here)
  exact ⟨_, m₂, run, holds₂, rfl⟩

theorem simulated_again (evaluated : condition.eval? σ = some n) (nonzero : n ≠ 0)
    (inner : Simulated whole a σ body exit σ₁) (stays : exit ≠ .broken)
    (rest : Simulated whole a σ₁ (.while info condition body) .normal σ') :
    Simulated whole a σ (.while info condition body) .normal σ' := by
  constructor
  intro loop? used label i code m plain lowered here placed holds
  obtain ⟨test, inside, m₁, rfl, bodies, lowered', holds₁, reaches⟩ :=
    while_tested distinct evaluated plain lowered here holds
  rw [if_neg nonzero] at reaches
  obtain ⟨j, m₂, reaches', holds₂, lands⟩ :=
    inner.arrives bodies lowered' here.tail.tail.left (while_placed distinct here) holds₁
  -- Both a normal exit and a jump to the next iteration lead to the condition.
  have back : j = i + 1 + 1 + inside.length := by
    cases exit with
    | normal => exact lands
    | continued =>
        obtain ⟨loop, eq, next⟩ := lands
        cases eq
        rw [Code.target?_of_has distinct here.tail.tail.right, Option.some.injEq] at next
        exact next.symm
    | broken => exact absurd rfl stays
  subst back
  obtain ⟨j', m₃, reaches'', holds₃, ends⟩ := rest.arrives plain lowered here placed holds₂
  cases ends
  -- The rest of the run would jump to the condition first, where the machine already is.
  have onward := reaches''.next (by simp [length_whileCode]) (while_enters distinct here)
  have run := ((Code.Reaches.step (while_enters distinct here) reaches).trans reaches').trans onward
  exact ⟨_, m₃, run, holds₃, rfl⟩

end Loops

omit distinct in
theorem simulated_continue : Simulated whole a σ (.continue info) .continued σ := by
  constructor
  intro loop? used label i code m plain lowered here placed holds
  cases loop? with
  | none => cases lowered
  | some loop =>
      cases lowered
      obtain ⟨⟨j, next⟩, -⟩ := placed loop rfl
      exact ⟨j, m, .step (Code.step_jmp here next) .refl, holds, loop, rfl, next⟩

omit distinct in
theorem simulated_break : Simulated whole a σ (.break info) .broken σ := by
  constructor
  intro loop? used label i code m plain lowered here placed holds
  cases loop? with
  | none => cases lowered
  | some loop =>
      cases lowered
      obtain ⟨-, j, stop⟩ := placed loop rfl
      exact ⟨j, m, .step (Code.step_jmp here stop) .refl, holds, loop, rfl, stop⟩

omit distinct in
theorem simulated_nil : Simulated whole a σ (.block info []) .normal σ := by
  constructor
  intro loop? used label i code m plain lowered here placed holds
  cases lowered
  exact ⟨i, m, .refl, holds, rfl⟩

omit distinct in
theorem simulated_cons (first : Simulated whole a σ s .normal σ₁)
    (rest : Simulated whole a σ₁ (.block info statements) exit σ') :
    Simulated whole a σ (.block info (s :: statements)) exit σ' := by
  constructor
  intro loop? used label i code m plain lowered here placed holds
  obtain ⟨runnable, each⟩ := Stmt.all_block.mp plain
  obtain ⟨head, others⟩ := List.forall_mem_cons.mp each
  obtain ⟨code₁, code₂, lowered₁, lowered₂, rfl⟩ := shape_cons lowered
  obtain ⟨j, m₁, reaches, holds₁, ends⟩ := first.arrives head lowered₁ here.left placed holds
  cases ends
  have plain' : (Stmt.block info statements).All (Expr.Runnable a.table) (Stmt.Runnable a) :=
    Stmt.all_block.mpr ⟨⟨rfl, nofun, by simp [Stmt.operands]⟩, others⟩
  have arrives := rest.arrives plain' lowered₂ here.right placed holds₁
  rw [List.length_append, ← Nat.add_assoc]
  exact arrives.prepend reaches

omit distinct in
theorem simulated_jump (first : Simulated whole a σ s exit σ') (jumps : exit ≠ .normal) :
    Simulated whole a σ (.block info (s :: statements)) exit σ' := by
  constructor
  intro loop? used label i code m plain lowered here placed holds
  obtain ⟨runnable, each⟩ := Stmt.all_block.mp plain
  obtain ⟨code₁, code₂, lowered₁, lowered₂, rfl⟩ := shape_cons lowered
  exact (first.arrives (each s List.mem_cons_self) lowered₁ here.left placed holds).jump jumps

/-- Every terminating run of a statement has a run of its code. -/
theorem Stmt.Runs.simulated {σ σ' : Store} {s : Stmt} {exit : Exit} (run : s.Runs σ exit σ') :
    Simulated whole a σ s exit σ' := by
  induction run with
  | assign evaluated => exact simulated_assign evaluated
  | ifThen evaluated nonzero _ ih => exact simulated_ifThen distinct evaluated nonzero ih
  | skip evaluated => exact simulated_skip distinct evaluated
  | ifElse evaluated nonzero _ ih => exact simulated_ifElse distinct evaluated nonzero ih
  | otherwise evaluated _ ih => exact simulated_otherwise distinct evaluated ih
  | done evaluated => exact simulated_done distinct evaluated
  | left evaluated nonzero _ ih => exact simulated_left distinct evaluated nonzero ih
  | again evaluated nonzero _ stays _ ih ih' =>
      exact simulated_again distinct evaluated nonzero ih stays ih'
  | «continue» => exact simulated_continue
  | «break» => exact simulated_break
  | nil => exact simulated_nil
  | cons _ _ ih ih' => exact simulated_cons ih ih'
  | jump _ jumps ih => exact simulated_jump ih jumps

end Runs

section Lowering

variable {a : Activation}

theorem conditionCode_ok {e : Expr} (plain : e.All (Expr.Runnable a.table)) :
    ∃ test, conditionCode Function.mainFrames e = .ok test := by
  obtain ⟨code, lowered, -⟩ := Expr.pushes plain
  exact ⟨code ++ [.instruction .pop [eax], .instruction .test [eax, eax]], by
    rw [conditionCode, lowered]
    rfl⟩

theorem reference_ok {e : Expr} (plain : e.All (Expr.Runnable a.table)) (reference : e.isReference = true) :
    ∃ r, e.reference Function.mainFrames = .ok r := by
  obtain ⟨integer, kind⟩ := plain.self
  cases e with
  | var info s =>
      obtain ⟨mem, type, x, role, level, area⟩ := kind
      exact ⟨_, reference_variable info.span role type level area⟩
  | const | negate | complement | binary => cases reference
  | index | field | aggregate | cast | call => exact kind.elim

mutual

theorem Stmt.code_ok : ∀ {s : Stmt} (loop? : Option Loop) (used label : Nat),
    s.All (Expr.Runnable a.table) (Stmt.Runnable a) → (s.jumps = true → loop?.isSome = true) →
    ∃ code, s.code Function.mainFrames loop? used label = .ok code
  | .assign info target value, _, _, _, plain, _ => by
      obtain ⟨runnable, left, right⟩ := Stmt.all_assign.mp plain
      obtain ⟨code, lowered, -⟩ := Expr.pushes right
      obtain ⟨r, found⟩ := reference_ok left (runnable.target rfl)
      simp only [Stmt.code, lowered, found]
      exact ⟨_, rfl⟩
  | .ifThen info condition body, loop?, used, label, plain, jumps => by
      obtain ⟨⟨-, tests⟩, inner⟩ := Stmt.all_ifThen.mp plain
      obtain ⟨test, tested⟩ := conditionCode_ok tests
      obtain ⟨code, lowered⟩ := Stmt.code_ok loop? used (label + 2) inner jumps
      simp only [Stmt.code, tested, lowered]
      exact ⟨_, rfl⟩
  | .ifElse info condition body otherwise, loop?, used, label, plain, jumps => by
      obtain ⟨⟨-, tests⟩, inner, inner'⟩ := Stmt.all_ifElse.mp plain
      simp only [Stmt.jumps, Bool.or_eq_true] at jumps
      obtain ⟨test, tested⟩ := conditionCode_ok tests
      obtain ⟨code, lowered⟩ := Stmt.code_ok loop? used (label + 2) inner fun h => jumps (.inl h)
      obtain ⟨code', lowered'⟩ :=
        Stmt.code_ok loop? used (label + 2 + body.labels) inner' fun h => jumps (.inr h)
      simp only [Stmt.code, tested, lowered, lowered']
      exact ⟨_, rfl⟩
  | .while info condition body, loop?, used, label, plain, _ => by
      obtain ⟨⟨-, tests⟩, inner⟩ := Stmt.all_while.mp plain
      obtain ⟨test, tested⟩ := conditionCode_ok tests
      obtain ⟨code, lowered⟩ :=
        Stmt.code_ok (some ⟨numbered "while_cond" label, numbered "while_end" (label + 2)⟩) used
          (label + 3) inner fun _ => rfl
      simp only [Stmt.code, tested, lowered]
      exact ⟨_, rfl⟩
  | .continue info, loop?, _, _, _, jumps => by
      obtain ⟨loop, rfl⟩ := Option.isSome_iff_exists.mp (jumps rfl)
      exact ⟨_, rfl⟩
  | .break info, loop?, _, _, _, jumps => by
      obtain ⟨loop, rfl⟩ := Option.isSome_iff_exists.mp (jumps rfl)
      exact ⟨_, rfl⟩
  | .block info statements, loop?, used, label, plain, jumps => by
      obtain ⟨-, each⟩ := Stmt.all_block.mp plain
      exact blockCode_ok loop? used label each jumps
  | .for .., _, _, _, plain, _ | .read .., _, _, _, plain, _ | .write .., _, _, _, plain, _
  | .call .., _, _, _, plain, _ => by
      have runnable := plain.self.1.plain
      cases runnable

theorem blockCode_ok : ∀ {statements : List Stmt} (loop? : Option Loop) (used label : Nat),
    (∀ s ∈ statements, s.All (Expr.Runnable a.table) (Stmt.Runnable a)) →
    (Stmt.jumpsOf statements = true → loop?.isSome = true) →
    ∃ code, blockCode Function.mainFrames loop? used label statements = .ok code
  | [], _, _, _, _, _ => ⟨[], rfl⟩
  | s :: statements, loop?, used, label, each, jumps => by
      obtain ⟨head, rest⟩ := List.forall_mem_cons.mp each
      simp only [Stmt.jumpsOf, Bool.or_eq_true] at jumps
      obtain ⟨code, lowered⟩ := Stmt.code_ok loop? used label head fun h => jumps (.inl h)
      obtain ⟨code', lowered'⟩ :=
        blockCode_ok loop? used (label + s.labels) rest fun h => jumps (.inr h)
      simp only [blockCode, lowered, lowered']
      exact ⟨_, rfl⟩

end

end Lowering

end PascalX86
