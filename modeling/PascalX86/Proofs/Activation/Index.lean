import PascalX86.Lowering.Statement
import PascalX86.Proofs.Checking.Nesting
import PascalX86.Proofs.Machine.Basic

/-!
# Dynamic indexes

Which arrays a program takes elements of at indexes that are computed, in the order in which its
code adds these indexes to addresses.
-/

set_option autoImplicit false

namespace PascalX86

open Register

/-- The bounds of a dynamic index, with the size of an element. -/
structure Range where
  low : Int32
  high : Int32
  size : Nat

/-- What is added to the address of an array stands for an index within the bounds. -/
def Range.Admits (r : Range) (offset : Word) : Prop :=
  ∃ n, r.low ≤ n ∧ n ≤ r.high ∧ offset = ((n - r.low) * Int32.ofNat r.size).toBitVec

def Ty.range? : Ty → Option Range
  | .array low high element => some ⟨low, high, element.size⟩
  | _ => none

mutual

def Expr.ranges : Expr → List Range
  | .var .. | .const .. | .aggregate .. => []
  | .index _ array index =>
      if (index.value?.bind Value.integer?).isSome then array.ranges
      else array.ranges ++ index.ranges ++ array.type.range?.toList
  | .field _ operand _ | .negate _ operand | .complement _ operand | .cast _ operand =>
      operand.ranges
  | .binary _ _ left right => left.ranges ++ right.ranges
  | .call _ _ arguments => rangesOf arguments

def rangesOf : List Expr → List Range
  | [] => []
  | e :: arguments => e.ranges ++ rangesOf arguments

end

mutual

/-- Operands whose code stands twice in that of a statement count twice. -/
def Stmt.ranges : Stmt → List Range
  | .assign _ target value => value.ranges ++ target.ranges
  | .ifThen _ condition body => condition.ranges ++ body.ranges
  | .ifElse _ condition body otherwise => condition.ranges ++ body.ranges ++ otherwise.ranges
  | .while _ condition body => body.ranges ++ condition.ranges
  | .for _ counter first last _ body =>
      first.ranges ++ counter.ranges ++ last.ranges ++ body.ranges ++ counter.ranges ++ counter.ranges
  | .continue _ | .break _ => []
  | .read _ arguments _ | .write _ arguments _ | .call _ _ arguments => rangesOf arguments
  | .block _ statements => rangesOfBlock statements

def rangesOfBlock : List Stmt → List Range
  | [] => []
  | s :: statements => s.ranges ++ rangesOfBlock statements

end

/-- The instruction that adds a dynamic index to an address. -/
def Command.indexing : Command := .instruction .add [stackTop 0, ebx]

end PascalX86
