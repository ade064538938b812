import PascalX86.Error.Semantic

/-!
# Evaluation of operators

Operators on values that have already been brought to a common operand type.
-/

set_option autoImplicit false

namespace PascalX86.Operator

/-- Operators on 32-bit words; division by zero has no value. Shift counts are taken modulo 32, and
right shifts fill with zeros. -/
def onIntegers? (op : Operator) (l r : Int32) : Option Int32 :=
  match op with
  | .add => some (l + r)
  | .sub => some (l - r)
  | .mul => some (l * r)
  | .divide | .div => if r = 0 then none else some (l / r)
  | .mod => if r = 0 then none else some (l % r)
  | .and => some (l &&& r)
  | .or => some (l ||| r)
  | .xor => some (l ^^^ r)
  | .shl => some (l <<< r)
  | .shr => some (l.toUInt32 >>> r.toUInt32).toInt32
  | .equal => some (Value.truth (l == r))
  | .notEqual => some (Value.truth (l != r))
  | .less => some (Value.truth (l < r))
  | .lessOrEqual => some (Value.truth (l ≤ r))
  | .greater => some (Value.truth (r < l))
  | .greaterOrEqual => some (Value.truth (r ≤ l))

def orderOfDoubles? (l r : Float) : Option Ordering :=
  if l < r then some .lt
  else if l == r then some .eq
  else if r < l then some .gt
  else none

def compared? (op : Operator) (order : Ordering) : Option Value :=
  (op.holds? order).map fun b => .integer (Value.truth b)

-- Operators on doubles; `unsupported` is answered where an operator has no meaning.
def onDoubles (op : Operator) (l r : Float) (unsupported : SemanticError) :
    Except SemanticError Value :=
  match op with
  | .add => .ok (.double (l + r))
  | .sub => .ok (.double (l - r))
  | .mul => .ok (.double (l * r))
  | .divide => if r == 0 then .error .divisionByZero else .ok (.double (l / r))
  | _ =>
      match (orderOfDoubles? l r).bind op.compared? with
      | some v => .ok v
      | none => .error unsupported

-- Strings are joined, and compared by the code points of their characters.
def onStrings (op : Operator) (l r : String) (unsupported : SemanticError) :
    Except SemanticError Value :=
  match op with
  | .add => .ok (.string (l ++ r))
  | _ =>
      match op.compared? (compare l r) with
      | some v => .ok v
      | none => .error unsupported

def eval (op : Operator) (operands : Ty) (left right : Value) : Except SemanticError Value :=
  let unsupported := .unsupportedOperands op operands.category operands.category
  match operands.isIntegerLike, left.integer?, right.integer? with
  | true, some l, some r =>
      match op.onIntegers? l r with
      | some n => .ok (.integer n)
      | none => .error .divisionByZero
  | _, _, _ =>
      match left, right with
      | .double l, .double r => op.onDoubles l r unsupported
      | .string l, .string r => op.onStrings l r unsupported
      | _, _ => .error unsupported

end PascalX86.Operator
