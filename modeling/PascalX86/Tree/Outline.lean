import PascalX86.Tree.Basic

/-!
# Outlines

Expressions and statements seen alike, as labelled trees.
-/

set_option autoImplicit false

namespace PascalX86

inductive Shape where
  | var (symbol : Symbol)
  | negate
  | complement
  | binary (op : Operator)
  | const (value : Value)
  | aggregate (value : Value)
  | cast
  | index
  | field (f : Field)
  | assign
  | if
  | while
  | for (direction : Direction)
  | continue
  | break
  | read (newline : Bool)
  | write (newline : Bool)
  | call (function : Signature)
  | block

inductive NodeCategory where
  | plain | const | var
  deriving DecidableEq, Repr

structure Entry where
  info : NodeInfo
  shape : Shape
  category : NodeCategory
  root : Option Symbol

inductive Outline where
  | node (entry : Entry) (children : List Outline)

def Expr.category : Expr → NodeCategory
  | .const .. | .aggregate .. => .const
  | e => if e.isReference then .var else .plain

def Expr.entry (e : Expr) (shape : Shape) : Entry := ⟨e.info, shape, e.category, e.root?⟩

mutual

def Expr.outline (e : Expr) : Outline :=
  match e with
  | .var _ symbol => .node (e.entry (.var symbol)) []
  | .index _ array subscript => .node (e.entry .index) [array.outline, subscript.outline]
  | .field _ record f => .node (e.entry (.field f)) [record.outline]
  | .const _ value => .node (e.entry (.const value)) []
  | .aggregate _ value => .node (e.entry (.aggregate value)) []
  | .negate _ operand => .node (e.entry .negate) [operand.outline]
  | .complement _ operand => .node (e.entry .complement) [operand.outline]
  | .binary _ op left right => .node (e.entry (.binary op)) [left.outline, right.outline]
  | .cast _ operand => .node (e.entry .cast) [operand.outline]
  | .call _ function arguments => .node (e.entry (.call function)) (Expr.outlines arguments)

def Expr.outlines : List Expr → List Outline
  | [] => []
  | e :: rest => e.outline :: Expr.outlines rest

end

def Stmt.entry (s : Stmt) (shape : Shape) : Entry := ⟨s.info, shape, .plain, none⟩

mutual

def Stmt.outline (s : Stmt) : Outline :=
  match s with
  | .assign _ target value => .node (s.entry .assign) [target.outline, value.outline]
  | .ifThen _ condition body => .node (s.entry .if) [condition.outline, body.outline]
  | .ifElse _ condition body otherwise =>
      .node (s.entry .if) [condition.outline, body.outline, otherwise.outline]
  | .while _ condition body => .node (s.entry .while) [condition.outline, body.outline]
  | .for _ counter first last direction body =>
      .node (s.entry (.for direction))
        [counter.outline, first.outline, last.outline, body.outline]
  | .continue _ => .node (s.entry .continue) []
  | .break _ => .node (s.entry .break) []
  | .read _ targets newline => .node (s.entry (.read newline)) (Expr.outlines targets)
  | .write _ arguments newline => .node (s.entry (.write newline)) (Expr.outlines arguments)
  | .call _ function arguments => .node (s.entry (.call function)) (Expr.outlines arguments)
  | .block _ statements => .node (s.entry .block) (Stmt.outlines statements)

def Stmt.outlines : List Stmt → List Outline
  | [] => []
  | s :: rest => s.outline :: Stmt.outlines rest

end

mutual

def Outline.preorder (depth : Nat) : Outline → List (Nat × Entry)
  | .node entry children => (depth, entry) :: Outline.preorders (depth + 1) children

def Outline.preorders (depth : Nat) : List Outline → List (Nat × Entry)
  | [] => []
  | o :: rest => o.preorder depth ++ Outline.preorders depth rest

end

def Outline.entry : Outline → Entry
  | .node entry _ => entry

def Outline.children : Outline → List Outline
  | .node _ children => children

def Function.nodes (f : Function) : List (Nat × Entry) := f.body.outline.preorder 0

end PascalX86
