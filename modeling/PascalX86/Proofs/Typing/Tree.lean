import Mathlib.Data.List.Forall2
import PascalX86.Proofs.Typing.Size
import PascalX86.Proofs.Typing.Value
import PascalX86.Tree.Basic

/-!
# Typing of trees

One rule for each node, about its own type and those of the nodes right below it. No pass after
checking looks at types again, so these rules are what the passes rely on.
-/

set_option autoImplicit false

namespace PascalX86

namespace Expr

mutual

@[simp] def nodes : Expr → List Expr
  | e@(.var ..) | e@(.const ..) | e@(.aggregate ..) => [e]
  | e@(.index _ array subscript) => e :: (array.nodes ++ subscript.nodes)
  | e@(.field _ inner _) | e@(.negate _ inner) | e@(.complement _ inner) | e@(.cast _ inner) =>
      e :: inner.nodes
  | e@(.binary _ _ left right) => e :: (left.nodes ++ right.nodes)
  | e@(.call _ _ arguments) => e :: nodesOf arguments

@[simp] def nodesOf : List Expr → List Expr
  | [] => []
  | e :: arguments => e.nodes ++ nodesOf arguments

end

def operands : Expr → List Expr
  | .var .. | .const .. | .aggregate .. => []
  | .field _ operand _ | .negate _ operand | .complement _ operand | .cast _ operand => [operand]
  | .index _ left right | .binary _ _ left right => [left, right]
  | .call _ _ arguments => arguments

def All (P : Expr → Prop) (e : Expr) : Prop := ∀ x ∈ e.nodes, P x

section All

variable {P Q : Expr → Prop} {info : NodeInfo} {e left right : Expr}

theorem mem_nodesOf {x : Expr} {arguments : List Expr} :
    x ∈ nodesOf arguments ↔ ∃ e ∈ arguments, x ∈ e.nodes := by
  induction arguments with
  | nil => simp [nodesOf]
  | cons e arguments ih => simp [nodesOf, ih]

theorem All.self (h : e.All P) : P e := by
  apply h
  cases e <;> simp [nodes]

theorem All.mono (h : e.All P) (each : ∀ x, P x → Q x) : e.All Q := fun x mem => each x (h x mem)

@[simp] theorem all_var {symbol : Symbol} : (var info symbol).All P ↔ P (.var info symbol) := by
  simp [All, nodes]

@[simp] theorem all_const {value : Value} : (const info value).All P ↔ P (.const info value) := by
  simp [All, nodes]

@[simp] theorem all_aggregate {value : Value} :
    (aggregate info value).All P ↔ P (.aggregate info value) := by
  simp [All, nodes]

@[simp] theorem all_index :
    (index info left right).All P ↔ P (.index info left right) ∧ left.All P ∧ right.All P := by
  simp [All, nodes, or_imp, forall_and]

@[simp] theorem all_field {f : Field} : (field info e f).All P ↔ P (.field info e f) ∧ e.All P := by
  simp [All, nodes]

@[simp] theorem all_negate : (negate info e).All P ↔ P (.negate info e) ∧ e.All P := by
  simp [All, nodes]

@[simp] theorem all_complement : (complement info e).All P ↔ P (.complement info e) ∧ e.All P := by
  simp [All, nodes]

@[simp] theorem all_cast : (cast info e).All P ↔ P (.cast info e) ∧ e.All P := by
  simp [All, nodes]

@[simp] theorem all_binary {op : Operator} :
    (binary info op left right).All P ↔ P (.binary info op left right) ∧ left.All P ∧ right.All P := by
  simp [All, nodes, or_imp, forall_and]

@[simp] theorem all_call {function : Signature} {arguments : List Expr} :
    (call info function arguments).All P ↔
      P (.call info function arguments) ∧ ∀ e ∈ arguments, e.All P := by
  simp only [All, nodes, List.forall_mem_cons, mem_nodesOf]
  exact and_congr_right fun _ =>
    ⟨fun h e mem x inside => h x ⟨e, mem, inside⟩, fun h x ⟨e, mem, inside⟩ => h e mem x inside⟩

mutual

theorem mem_nodes_trans {x y : Expr} (inner : y ∈ x.nodes) : ∀ {e : Expr}, x ∈ e.nodes → y ∈ e.nodes
  | .var .., mem | .const .., mem | .aggregate .., mem => by
      obtain rfl := List.mem_singleton.mp mem
      exact inner
  | .index _ left right, mem | .binary _ _ left right, mem => by
      rcases List.mem_cons.mp mem with rfl | mem
      · exact inner
      · rcases List.mem_append.mp mem with mem | mem
        · exact List.mem_cons_of_mem _ (List.mem_append_left _ (mem_nodes_trans inner mem))
        · exact List.mem_cons_of_mem _ (List.mem_append_right _ (mem_nodes_trans inner mem))
  | .field _ operand _, mem | .negate _ operand, mem | .complement _ operand, mem
  | .cast _ operand, mem => by
      rcases List.mem_cons.mp mem with rfl | mem
      · exact inner
      · exact List.mem_cons_of_mem _ (mem_nodes_trans inner mem)
  | .call _ _ arguments, mem => by
      rcases List.mem_cons.mp mem with rfl | mem
      · exact inner
      · exact List.mem_cons_of_mem _ (mem_nodesOf_trans inner mem)

theorem mem_nodesOf_trans {x y : Expr} (inner : y ∈ x.nodes) : ∀ {arguments : List Expr},
    x ∈ nodesOf arguments → y ∈ nodesOf arguments
  | e :: arguments, mem => by
      rcases List.mem_append.mp mem with mem | mem
      · exact List.mem_append_left _ (mem_nodes_trans inner mem)
      · exact List.mem_append_right _ (mem_nodesOf_trans inner mem)

end

theorem All.of_mem {x : Expr} (h : e.All P) (mem : x ∈ e.nodes) : x.All P :=
  fun y inner => h y (mem_nodes_trans inner mem)

end All

def IsTarget (e : Expr) : Prop := ∃ symbol, e.root? = some symbol ∧ symbol.isAssignable = true

theorem IsTarget.isReference {e : Expr} (h : e.IsTarget) : e.isReference = true := by
  obtain ⟨symbol, root, -⟩ := h
  simp [Expr.isReference, root]

end Expr

/-- Whether expressions refer to the storage of the symbol; scalar constants are copied instead. -/
def Symbol.IsReferable (symbol : Symbol) : Prop :=
  match symbol.role with
  | .variable _ | .parameter .. => True
  | .constant .. => symbol.type.isScalar = false
  | .typeName | .function _ => False

/-- Arguments have the type of their parameter, and those by reference may be assigned to. -/
structure Parameter.Takes (p : Parameter) (e : Expr) : Prop where
  same : p.type.same e.type = true
  target : p.mode = .byReference → e.IsTarget

inductive Ty.Converts : Ty → Ty → Prop where
  | ofCode : Ty.Converts .integer .char
  | code : Ty.Converts .char .integer
  | widen : Ty.Converts .integer .double
  | widenCode : Ty.Converts .char .double
  | text : Ty.Converts .char .string

def Expr.Obeys : Expr → Prop
  | .var info symbol => info.type = symbol.type ∧ symbol.IsReferable
  | .index info array subscript =>
      array.isReference = true ∧ subscript.type = .integer ∧
        ∃ low high, array.type = .array low high info.type ∧
          ∀ n, subscript.value?.bind Value.integer? = some n → low ≤ n ∧ n ≤ high
  | .field info record f =>
      record.isReference = true ∧ info.type = f.type ∧
        ∃ fields, record.type = .record fields ∧ f ∈ fields.layout 0
  | .const info value => info.type.isScalar = true ∧ value.Fits info.type
  | .aggregate info value => info.type.isScalar = false ∧ value.Fits info.type
  | .negate info operand =>
      info.type = operand.type ∧ (operand.type = .integer ∨ operand.type = .double)
  | .complement info operand =>
      info.type = .integer ∧ (operand.type = .integer ∨ operand.type = .double)
  | .binary info op left right =>
      left.type = right.type ∧ left.type.isScalar = true ∧
        op.type left.type right.type = .ok ⟨left.type, info.type⟩
  | .cast info operand => operand.type.Converts info.type
  | .call info function arguments =>
      info.type = function.result ∧ function.result ≠ .nil ∧
        List.Forall₂ Parameter.Takes function.parameters arguments

namespace Stmt

mutual

@[simp] def nodes : Stmt → List Stmt
  | s@(.assign ..) | s@(.continue _) | s@(.break _) | s@(.read ..) | s@(.write ..)
  | s@(.call ..) => [s]
  | s@(.ifThen _ _ body) | s@(.while _ _ body) | s@(.for _ _ _ _ _ body) => s :: body.nodes
  | s@(.ifElse _ _ body otherwise) => s :: (body.nodes ++ otherwise.nodes)
  | s@(.block _ statements) => s :: nodesOf statements

@[simp] def nodesOf : List Stmt → List Stmt
  | [] => []
  | s :: statements => s.nodes ++ nodesOf statements

end

/-- The expressions of a statement, apart from those of the statements in it. -/
def operands : Stmt → List Expr
  | .assign _ target value => [target, value]
  | .ifThen _ condition _ | .ifElse _ condition _ _ | .while _ condition _ => [condition]
  | .for _ counter first last _ _ => [counter, first, last]
  | .read _ targets _ => targets
  | .write _ arguments _ | .call _ _ arguments => arguments
  | .continue _ | .break _ | .block .. => []

def Obeys : Stmt → Prop
  | .assign _ target value => target.isReference = true ∧ target.type.same value.type = true
  | .ifThen _ condition _ | .ifElse _ condition _ _ | .while _ condition _ =>
      condition.type = .integer
  | .for _ counter first last _ _ =>
      counter.IsTarget ∧ counter.type.isIntegerLike = true ∧ first.type = counter.type ∧
        last.type = counter.type ∧ ∃ info symbol, counter = .var info symbol
  | .read _ targets _ =>
      ∀ e ∈ targets, e.IsTarget ∧ (e.type = .integer ∨ e.type = .double ∨ e.type = .char)
  | .write _ arguments _ => ∀ e ∈ arguments, e.type.isScalar = true
  | .call info function arguments =>
      info.type = function.result ∧ List.Forall₂ Parameter.Takes function.parameters arguments
  | .continue _ | .break _ | .block .. => True

mutual

def jumps : Stmt → Bool
  | .continue _ | .break _ => true
  | .ifThen _ _ body => body.jumps
  | .ifElse _ _ body otherwise => body.jumps || otherwise.jumps
  | .block _ statements => jumpsOf statements
  | .assign .. | .while .. | .for .. | .read .. | .write .. | .call .. => false

def jumpsOf : List Stmt → Bool
  | [] => false
  | s :: statements => s.jumps || jumpsOf statements

end

def All (P : Expr → Prop) (Q : Stmt → Prop) (s : Stmt) : Prop :=
  ∀ x ∈ s.nodes, Q x ∧ ∀ e ∈ x.operands, e.All P

section All

variable {P P' : Expr → Prop} {Q Q' : Stmt → Prop} {info : NodeInfo} {s : Stmt}

theorem mem_nodesOf {x : Stmt} {statements : List Stmt} :
    x ∈ nodesOf statements ↔ ∃ s ∈ statements, x ∈ s.nodes := by
  induction statements with
  | nil => simp [nodesOf]
  | cons s statements ih => simp [nodesOf, ih]

theorem All.self (h : s.All P Q) : Q s ∧ ∀ e ∈ s.operands, e.All P := by
  apply h
  cases s <;> simp [nodes]

theorem All.mono (h : s.All P Q) (expression : ∀ e, P e → P' e) (statement : ∀ x, Q x → Q' x) :
    s.All P' Q' :=
  fun x mem => ⟨statement x (h x mem).1, fun e operand => ((h x mem).2 e operand).mono expression⟩

@[simp] theorem all_assign {target value : Expr} :
    (assign info target value).All P Q ↔
      Q (.assign info target value) ∧ target.All P ∧ value.All P := by
  simp [All, nodes, operands]

@[simp] theorem all_ifThen {condition : Expr} {body : Stmt} :
    (ifThen info condition body).All P Q ↔
      (Q (.ifThen info condition body) ∧ condition.All P) ∧ body.All P Q := by
  simp [All, nodes, operands]

@[simp] theorem all_ifElse {condition : Expr} {body otherwise : Stmt} :
    (ifElse info condition body otherwise).All P Q ↔
      (Q (.ifElse info condition body otherwise) ∧ condition.All P) ∧
        body.All P Q ∧ otherwise.All P Q := by
  simp only [All, nodes, operands, List.forall_mem_cons, List.forall_mem_append]
  simp

@[simp] theorem all_while {condition : Expr} {body : Stmt} :
    (Stmt.while info condition body).All P Q ↔
      (Q (.while info condition body) ∧ condition.All P) ∧ body.All P Q := by
  simp [All, nodes, operands]

@[simp] theorem all_for {counter first last : Expr} {direction : Direction} {body : Stmt} :
    (Stmt.for info counter first last direction body).All P Q ↔
      (Q (.for info counter first last direction body) ∧
        counter.All P ∧ first.All P ∧ last.All P) ∧ body.All P Q := by
  simp [All, nodes, operands]

@[simp] theorem all_continue : (Stmt.continue info).All P Q ↔ Q (.continue info) := by
  simp [All, nodes, operands]

@[simp] theorem all_break : (Stmt.break info).All P Q ↔ Q (.break info) := by
  simp [All, nodes, operands]

@[simp] theorem all_read {targets : List Expr} {newline : Bool} :
    (read info targets newline).All P Q ↔
      Q (.read info targets newline) ∧ ∀ e ∈ targets, e.All P := by
  simp [All, nodes, operands]

@[simp] theorem all_write {arguments : List Expr} {newline : Bool} :
    (write info arguments newline).All P Q ↔
      Q (.write info arguments newline) ∧ ∀ e ∈ arguments, e.All P := by
  simp [All, nodes, operands]

@[simp] theorem all_call {function : Signature} {arguments : List Expr} :
    (call info function arguments).All P Q ↔
      Q (.call info function arguments) ∧ ∀ e ∈ arguments, e.All P := by
  simp [All, nodes, operands]

@[simp] theorem all_block {statements : List Stmt} :
    (block info statements).All P Q ↔
      Q (.block info statements) ∧ ∀ s ∈ statements, s.All P Q := by
  simp only [All, nodes, operands, List.forall_mem_cons, mem_nodesOf]
  constructor
  · exact fun h => ⟨h.1.1, fun s mem x inside => h.2 x ⟨s, mem, inside⟩⟩
  · exact fun h => ⟨⟨h.1, by simp⟩, fun x ⟨s, mem, inside⟩ => h.2 s mem x inside⟩

mutual

theorem mem_nodes_trans {x y : Stmt} (inner : y ∈ x.nodes) : ∀ {s : Stmt}, x ∈ s.nodes → y ∈ s.nodes
  | .assign .., mem | .continue _, mem | .break _, mem | .read .., mem | .write .., mem
  | .call .., mem => by
      obtain rfl := List.mem_singleton.mp mem
      exact inner
  | .ifThen _ _ body, mem | .while _ _ body, mem | .for _ _ _ _ _ body, mem => by
      rcases List.mem_cons.mp mem with rfl | mem
      · exact inner
      · exact List.mem_cons_of_mem _ (mem_nodes_trans inner mem)
  | .ifElse _ _ body otherwise, mem => by
      rcases List.mem_cons.mp mem with rfl | mem
      · exact inner
      · rcases List.mem_append.mp mem with mem | mem
        · exact List.mem_cons_of_mem _ (List.mem_append_left _ (mem_nodes_trans inner mem))
        · exact List.mem_cons_of_mem _ (List.mem_append_right _ (mem_nodes_trans inner mem))
  | .block _ statements, mem => by
      rcases List.mem_cons.mp mem with rfl | mem
      · exact inner
      · exact List.mem_cons_of_mem _ (mem_nodesOf_trans inner mem)

theorem mem_nodesOf_trans {x y : Stmt} (inner : y ∈ x.nodes) : ∀ {statements : List Stmt},
    x ∈ nodesOf statements → y ∈ nodesOf statements
  | s :: statements, mem => by
      rcases List.mem_append.mp mem with mem | mem
      · exact List.mem_append_left _ (mem_nodes_trans inner mem)
      · exact List.mem_append_right _ (mem_nodesOf_trans inner mem)

end

theorem All.of_mem {x : Stmt} (h : s.All P Q) (mem : x ∈ s.nodes) : x.All P Q :=
  fun y inner => h y (mem_nodes_trans inner mem)

end All

theorem jumpsOf_eq_false {statements : List Stmt} :
    jumpsOf statements = false ↔ ∀ s ∈ statements, s.jumps = false := by
  induction statements with
  | nil => simp [jumpsOf]
  | cons s statements ih => simp [jumpsOf, ih]

end Stmt

end PascalX86
