import PascalX86.Token.Basic

/-!
# Binary operators

Their classes, which decide how operands are typed, and their levels of precedence.
-/

set_option autoImplicit false

namespace PascalX86

inductive Operator where
  | add | sub | mul | divide | div | mod | and | or | xor | shl | shr
  | equal | notEqual | less | lessOrEqual | greater | greaterOrEqual
  deriving DecidableEq, Repr

inductive OperatorClass where
  | comparison | integerOnly | arithmetic
  deriving DecidableEq, Repr

def OperatorClass.text : OperatorClass → String
  | .comparison => "comparison"
  | .integerOnly => "integer"
  | .arithmetic => "arithmetic"

inductive Precedence where
  | relational | additive | multiplicative
  deriving DecidableEq, Repr

def Precedence.text : Precedence → String
  | .relational => "relational"
  | .additive => "additive"
  | .multiplicative => "multiplicative"

namespace Operator

def text : Operator → String
  | .add => "+"
  | .sub => "-"
  | .mul => "*"
  | .divide => "/"
  | .div => "div"
  | .mod => "mod"
  | .and => "and"
  | .or => "or"
  | .xor => "xor"
  | .shl => "shl"
  | .shr => "shr"
  | .equal => "="
  | .notEqual => "<>"
  | .less => "<"
  | .lessOrEqual => "<="
  | .greater => ">"
  | .greaterOrEqual => ">="

def all : List Operator :=
  [.add, .sub, .mul, .divide, .div, .mod, .and, .or, .xor, .shl, .shr, .equal, .notEqual, .less,
   .lessOrEqual, .greater, .greaterOrEqual]

def kind : Operator → OperatorClass
  | .add | .sub | .mul | .divide => .arithmetic
  | .div | .mod | .and | .or | .xor | .shl | .shr => .integerOnly
  | .equal | .notEqual | .less | .lessOrEqual | .greater | .greaterOrEqual => .comparison

def precedence : Operator → Precedence
  | .mul | .divide | .div | .mod | .and | .shl | .shr => .multiplicative
  | .add | .sub | .or | .xor => .additive
  | .equal | .notEqual | .less | .lessOrEqual | .greater | .greaterOrEqual => .relational

def token : Operator → Token
  | .add => .mark .plus
  | .sub => .mark .minus
  | .mul => .mark .times
  | .divide => .mark .slash
  | .div => .keyword .div
  | .mod => .keyword .mod
  | .and => .keyword .and
  | .or => .keyword .or
  | .xor => .keyword .xor
  | .shl => .keyword .shl
  | .shr => .keyword .shr
  | .equal => .mark .equal
  | .notEqual => .mark .notEqual
  | .less => .mark .less
  | .lessOrEqual => .mark .lessOrEqual
  | .greater => .mark .greater
  | .greaterOrEqual => .mark .greaterOrEqual

def ofToken? : Token → Option Operator
  | .mark .plus => some .add
  | .mark .minus => some .sub
  | .mark .times => some .mul
  | .mark .slash => some .divide
  | .mark .equal => some .equal
  | .mark .notEqual => some .notEqual
  | .mark .less => some .less
  | .mark .lessOrEqual => some .lessOrEqual
  | .mark .greater => some .greater
  | .mark .greaterOrEqual => some .greaterOrEqual
  | .keyword .div => some .div
  | .keyword .mod => some .mod
  | .keyword .and => some .and
  | .keyword .or => some .or
  | .keyword .xor => some .xor
  | .keyword .shl => some .shl
  | .keyword .shr => some .shr
  | _ => none

def atLevel? (level : Precedence) (t : Token) : Option Operator :=
  (ofToken? t).filter fun op => op.precedence == level

@[simp] theorem ofToken?_token (op : Operator) : ofToken? op.token = some op := by
  cases op <;> rfl

/-- What a comparison says of two values in the given order; other operators say nothing. -/
def holds? (op : Operator) (order : Ordering) : Option Bool :=
  match op with
  | .equal => some (order == .eq)
  | .notEqual => some (order != .eq)
  | .less => some (order == .lt)
  | .lessOrEqual => some (order != .gt)
  | .greater => some (order == .gt)
  | .greaterOrEqual => some (order != .lt)
  | _ => none

theorem holds?_isSome_iff (op : Operator) (order : Ordering) :
    (op.holds? order).isSome = true ↔ op.kind = .comparison := by
  cases op <;> simp [holds?, kind]

end Operator

end PascalX86
