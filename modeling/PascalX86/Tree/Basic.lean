import PascalX86.Operator.Basic
import PascalX86.Symbol.Table

/-!
# Typed trees

Expressions and statements after checking. Every node carries its number, in order of creation, its
span and its type; constants are values, and every conversion is a node of its own.
-/

set_option autoImplicit false

namespace PascalX86

structure NodeInfo where
  id : Nat
  span : Span
  type : Ty

inductive Expr where
  | var (info : NodeInfo) (symbol : Symbol)
  | index (info : NodeInfo) (array index : Expr)
  | field (info : NodeInfo) (record : Expr) (field : Field)
  | const (info : NodeInfo) (value : Value)
  -- A structured constant, the value of an initializer or of an argument that was left out.
  | aggregate (info : NodeInfo) (value : Value)
  | negate (info : NodeInfo) (operand : Expr)
  | complement (info : NodeInfo) (operand : Expr)
  | binary (info : NodeInfo) (op : Operator) (left right : Expr)
  | cast (info : NodeInfo) (operand : Expr)
  | call (info : NodeInfo) (function : Signature) (arguments : List Expr)

inductive Direction where
  | up | down
  deriving DecidableEq, Repr

inductive Stmt where
  | assign (info : NodeInfo) (target value : Expr)
  | ifThen (info : NodeInfo) (condition : Expr) (body : Stmt)
  | ifElse (info : NodeInfo) (condition : Expr) (body otherwise : Stmt)
  | while (info : NodeInfo) (condition : Expr) (body : Stmt)
  | for (info : NodeInfo) (counter first last : Expr) (direction : Direction) (body : Stmt)
  | continue (info : NodeInfo)
  | break (info : NodeInfo)
  | read (info : NodeInfo) (targets : List Expr) (newline : Bool)
  | write (info : NodeInfo) (arguments : List Expr) (newline : Bool)
  -- A call whose result, if any, is dropped.
  | call (info : NodeInfo) (function : Signature) (arguments : List Expr)
  | block (info : NodeInfo) (statements : List Stmt)

namespace Expr

def info : Expr → NodeInfo
  | .var info _ | .index info .. | .field info .. | .const info _ | .aggregate info _
  | .negate info _ | .complement info _ | .binary info .. | .cast info _ | .call info .. => info

def type (e : Expr) : Ty := e.info.type

def span (e : Expr) : Span := e.info.span

def value? : Expr → Option Value
  | .const _ value | .aggregate _ value => some value
  | _ => none

def root? : Expr → Option Symbol
  | .var _ symbol => some symbol
  | .index _ array _ => array.root?
  | .field _ record _ => record.root?
  | _ => none

def isReference (e : Expr) : Bool := e.root?.isSome

end Expr

namespace Stmt

def info : Stmt → NodeInfo
  | .assign info .. | .ifThen info .. | .ifElse info .. | .while info .. | .for info ..
  | .continue info | .break info | .read info .. | .write info .. | .call info ..
  | .block info _ => info

end Stmt

structure Function where
  signature : Signature
  locals : Table
  body : Stmt

structure Program where
  -- Functions in the order in which they were completed, so that nested ones come first.
  functions : List Function
  main : Function
  -- How many nodes were made, those included that later ones replaced.
  nodes : Nat

def Signature.table (s : Signature) : Table :=
  ⟨s.parameters.map Parameter.symbol, s.block, s.level, .parameters⟩

end PascalX86
