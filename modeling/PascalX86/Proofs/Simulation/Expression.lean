import PascalX86.Lowering.Program
import PascalX86.Proofs.Simulation.Frame
import PascalX86.Proofs.Simulation.Operation

/-!
# Expressions at run time

The code of an integer expression pushes its value, by induction on the tree. The machine holds the
same store before and after, with one more operand.
-/

set_option autoImplicit false

namespace PascalX86

open Register

/-- The most operands that are on the stack at a time. -/
def Expr.height : Expr → Nat
  | .negate _ operand | .complement _ operand => operand.height
  | .binary _ _ left right => max left.height (right.height + 1)
  | _ => 1

def Symbol.Stored (t : Table) (s : Symbol) : Prop :=
  s ∈ t.symbols ∧ s.type = .integer ∧ ∃ x, s.role = .variable x ∧ x.level = 0 ∧ x.area = .locals

def Expr.Runnable (t : Table) (e : Expr) : Prop :=
  e.type = .integer ∧
    match e with
    | .var _ s => s.Stored t
    | .const _ value => ∃ n, value = .integer n
    | .negate .. | .complement .. | .binary .. => True
    | _ => False

section Cells

variable {t : Table} {s : Symbol} {x : Slot}

def cellOf (x : Slot) : Memory := .dword ebp (-Int32.ofNat (x.offset + 4))

theorem reference_variable (span : Span) (role : s.role = .variable x) (type : s.type = .integer)
    (level : x.level = 0) (area : x.area = .locals) :
    Function.mainFrames.reference span s = .ok ⟨[], .memory (cellOf x)⟩ := by
  have size : s.storage = 4 := by simp [Symbol.storage, role, type, Ty.size]
  have kind : s.kind = .var := by simp [Symbol.kind, role]
  simp [Frames.reference, Symbol.slot?, role, kind, level, Frames.pointer, Frames.displacement, area,
    size, cellOf, Function.mainFrames]
  rfl

theorem address?_cellOf (m : Machine) (x : Slot) :
    m.address? (cellOf x) = some (below m.ebp (x.offset + 4)) := by
  simp only [cellOf, Memory.dword, Machine.address?, Machine.register?, Option.map_some, below,
    Int32.toBitVec_neg, Option.some.injEq]
  rw [← BitVec.sub_eq_add_neg]
  rfl

theorem value?_memory {m : Machine} {y : Memory} {p : Word} (dword : y.width = .dword)
    (address : m.address? y = some p) : m.value? y = some (m.bytes.dword p) := by
  simp [Machine.value?, dword, address]

theorem assign?_memory {m : Machine} {y : Memory} {p : Word} (v : Word) (dword : y.width = .dword)
    (address : m.address? y = some p) : m.assign? v y = some (m.store p v) := by
  simp [Machine.assign?, dword, address]

theorem address?_stackTop (m : Machine) : m.address? (stackTop 0) = some m.esp := by
  simp [Machine.address?, stackTop, Memory.dword, Machine.register?]

theorem pushMemory_cell (m : Memory) (dword : m.width = .dword) :
    pushMemory m 4 = [.instruction .push [m]] := by
  obtain ⟨width, base, displacement⟩ := m
  cases dword
  simp [pushMemory, Memory.dwords, dwordSize, Memory.sized, Memory.offset]

theorem popMemory_cell (m : Memory) (dword : m.width = .dword) :
    popMemory m 4 = [.instruction .pop [m]] := by
  obtain ⟨width, base, displacement⟩ := m
  cases dword
  simp [popMemory, Memory.dwords, dwordSize, Memory.sized, Memory.offset]

theorem store_cell (x : Slot) :
    Reference.store ⟨[], .memory (cellOf x)⟩ 4 = [.instruction .pop [cellOf x]] :=
  popMemory_cell (cellOf x) rfl

end Cells

/-- The code pushes the value of the expression, given room for the operands. -/
structure Activation.Pushes (a : Activation) (e : Expr) (code : Code) : Prop where
  run : ∀ {σ : Store} {stack : List Int32} {m : Machine} {v : Int32},
    e.eval? σ = some v → a.Holds σ stack m → a.size + 4 * (stack.length + e.height) ≤ 2 ^ 32 →
      ∃ m', m.run? code = some m' ∧ a.Holds σ (v :: stack) m'

namespace Expr

variable {a : Activation} {info : NodeInfo} {operand left right : Expr} {code code' : Code}

theorem code_var {s : Symbol} {x : Slot} (integer : info.type = .integer)
    (role : s.role = .variable x) (type : s.type = .integer) (level : x.level = 0)
    (area : x.area = .locals) :
    (Expr.var info s).code Function.mainFrames = .ok [.instruction .push [cellOf x]] := by
  rw [Expr.code, reference_variable info.span role type level area]
  simp only [bind, Except.bind, pure, Except.pure, Reference.load, Reference.resolve, integer, Ty.size]
  rw [pushMemory_cell _ rfl]
  rfl

theorem pushes_var {s : Symbol} {x : Slot} (mem : s ∈ a.table.symbols)
    (role : s.role = .variable x) : a.Pushes (.var info s) [.instruction .push [cellOf x]] := by
  constructor
  intro σ stack m v value holds room
  cases value
  have kept := holds.values s mem x role
  rw [← holds.base] at kept
  have loaded := value?_memory rfl (address?_cellOf m x)
  refine ⟨m.push (σ s.key).toBitVec, ?_, holds.push room⟩
  rw [Machine.run?_push, loaded, kept]
  rfl

theorem pushes_const {n : Int32} :
    a.Pushes (.const info (.integer n)) [.instruction .push [.immediate n]] := by
  constructor
  intro σ stack m v value holds room
  cases value
  exact ⟨m.push n.toBitVec, rfl, holds.push room⟩

theorem height_pos : ∀ e : Expr, 0 < e.height
  | .negate _ operand | .complement _ operand => operand.height_pos
  | .binary _ _ left _ => Nat.lt_of_lt_of_le left.height_pos (Nat.le_max_left _ _)
  | .var .. | .index .. | .field .. | .const .. | .aggregate .. | .cast .. | .call .. => Nat.one_pos

theorem pushes_replaced {e : Expr} {command : Command} {f : Int32 → Int32}
    (pushed : a.Pushes operand code) (height : operand.height = e.height)
    (value : ∀ σ, e.eval? σ = (operand.eval? σ).map f)
    (run : ∀ (m : Machine) (n : Int32), m.value? (stackTop 0) = some n.toBitVec →
      ∃ m', m.run? [command] = some m' ∧ (m.store m.esp (f n).toBitVec).Alike m') :
    a.Pushes e (code ++ [command]) := by
  constructor
  intro σ stack m v evaluated holds room
  rw [value, Option.map_eq_some_iff] at evaluated
  obtain ⟨n, inner, rfl⟩ := evaluated
  rw [← height] at room
  have positive := operand.height_pos
  obtain ⟨m', first, holds'⟩ := pushed.run inner holds room
  have top : m'.value? (stackTop 0) = some n.toBitVec := by
    rw [value?_memory rfl (address?_stackTop m'), ← holds'.pop.1]
    rfl
  obtain ⟨m'', second, alike⟩ := run m' n top
  refine ⟨m'', ?_, ?_⟩
  · rw [Machine.run?_append, first]
    exact second
  · exact (holds'.replace (by omega)).congr alike.base alike.top alike.bytes

theorem pushes_negate (pushed : a.Pushes operand code) :
    a.Pushes (.negate info operand) (code ++ [.instruction .neg [stackTop 0]]) := by
  refine pushes_replaced (f := fun n => -n) pushed rfl (fun _ => rfl) fun m n top => ?_
  have assigned := assign?_memory (-n).toBitVec rfl (address?_stackTop m)
  rw [Int32.toBitVec_neg] at assigned
  refine ⟨(m.store m.esp (-n).toBitVec).setFlags (some (.ofSub 0 n.toBitVec)), ?_, rfl, rfl, rfl⟩
  rw [Machine.run?_neg, top, Option.bind_some, assigned]
  rfl

theorem pushes_complement (pushed : a.Pushes operand code) :
    a.Pushes (.complement info operand) (code ++ [.instruction .not [stackTop 0]]) := by
  refine pushes_replaced (f := fun n => ~~~n) pushed rfl (fun _ => rfl) fun m n top => ?_
  have assigned := assign?_memory (~~~n).toBitVec rfl (address?_stackTop m)
  rw [Int32.toBitVec_not] at assigned
  refine ⟨m.store m.esp (~~~n).toBitVec, ?_, rfl, rfl, rfl⟩
  rw [Machine.run?_not, top, Option.bind_some, assigned, Int32.toBitVec_not]

theorem pops_operands {σ : Store} {stack : List Int32} {m : Machine} {l r : Int32}
    (holds : a.Holds σ (r :: l :: stack) m) :
    ∃ m', m.run? [.instruction .pop [ebx], .instruction .pop [eax]] = some m' ∧
      a.Holds σ stack m' ∧ Operator.Loaded m' l r := by
  obtain ⟨right, holds₁⟩ := holds.pop
  have holds₂ : a.Holds σ (l :: stack) { m.pop.2 with ebx := m.pop.1 } := holds₁.congr rfl rfl rfl
  obtain ⟨left, holds₃⟩ := holds₂.pop
  exact ⟨_, rfl, holds₃.congr rfl rfl rfl, left, right⟩

theorem pushes_binary {op : Operator} (pushed : a.Pushes left code) (pushed' : a.Pushes right code') :
    a.Pushes (.binary info op left right) (code ++ code' ++ op.integerCode) := by
  constructor
  intro σ stack m v evaluated holds room
  simp only [eval?, Option.bind_eq_some_iff] at evaluated
  obtain ⟨l, hl, r, hr, applied⟩ := evaluated
  simp only [height] at room
  have positive := left.height_pos
  -- The left operand stays on the stack while the right one is computed.
  obtain ⟨m₁, first, holds₁⟩ := pushed.run hl holds (by omega)
  obtain ⟨m₂, second, holds₂⟩ := pushed'.run hr holds₁ (by rw [List.length_cons]; omega)
  obtain ⟨m₃, popped, holds₃, loaded⟩ := pops_operands holds₂
  obtain ⟨m₄, computed, result, alike⟩ := op.computes_integerCore loaded applied
  have holds₄ := holds₃.congr alike.base alike.top alike.bytes
  refine ⟨m₄.push v.toBitVec, ?_, holds₄.push (by omega)⟩
  have last : m₄.run? [.instruction .push [eax]] = some (m₄.push v.toBitVec) := by
    rw [← result]
    rfl
  rw [Machine.run?_append, Machine.run?_append, first, Option.bind_some, second, Option.bind_some,
    Operator.integerCode, Machine.run?_append, Machine.run?_append, popped, Option.bind_some,
    computed, Option.bind_some, last]

theorem pushes : ∀ {e : Expr}, e.All (Expr.Runnable a.table) →
    ∃ code, e.code Function.mainFrames = .ok code ∧ a.Pushes e code
  | .var info s, plain => by
      obtain ⟨integer, mem, type, x, role, level, area⟩ := all_var.mp plain
      exact ⟨_, code_var integer role type level area, pushes_var mem role⟩
  | .const info value, plain => by
      obtain ⟨integer, n, rfl⟩ := all_const.mp plain
      refine ⟨_, ?_, pushes_const⟩
      simp [Expr.code, constantCode, show info.type = .integer from integer, Value.push, Value.image]
      rfl
  | .negate info operand, plain => by
      obtain ⟨⟨integer, -⟩, inner⟩ := all_negate.mp plain
      obtain ⟨code, lowered, pushed⟩ := pushes inner
      refine ⟨_, ?_, pushes_negate pushed⟩
      simp [Expr.code, lowered, negateCode, show info.type = .integer from integer]
  | .complement info operand, plain => by
      obtain ⟨-, inner⟩ := all_complement.mp plain
      obtain ⟨code, lowered, pushed⟩ := pushes inner
      refine ⟨_, ?_, pushes_complement pushed⟩
      simp [Expr.code, lowered, complementCode, inner.self.1]
  | .binary info op left right, plain => by
      obtain ⟨-, inner, inner'⟩ := all_binary.mp plain
      obtain ⟨code, lowered, pushed⟩ := pushes inner
      obtain ⟨code', lowered', pushed'⟩ := pushes inner'
      refine ⟨_, ?_, pushes_binary pushed pushed'⟩
      simp [Expr.code, lowered, lowered', binaryCode, inner.self.1]
      rfl
  | .index .., plain | .field .., plain | .aggregate .., plain | .cast .., plain | .call .., plain =>
      absurd plain.self.2 id

end Expr

end PascalX86
