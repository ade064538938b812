import PascalX86.Operator.Evaluation
import PascalX86.Parser.Basic
import PascalX86.Ty.Rules

/-!
# Expressions

Three levels of left-associative operators over factors. Operations on constants are folded;
anywhere else operands are converted by nodes of their own.
-/

set_option autoImplicit false

namespace PascalX86.Parser

-- Converts a node to another scalar category. Constants are converted at once.
def convert (e : Expr) (target : Ty) : Parser Expr := do
  if e.type.category = target.category ∨ target.isScalar = false then
    return e
  else
    let info ← node e.span target
    match e.value?.bind fun v => v.cast? target.category with
    | some v => return .const info v
    | none => return .cast info e

def coerce (e : Expr) (target : Ty) : Parser Expr := do
  locate e.span (target.check e.type)
  convert e target

def foldable? (left right : Expr) (operands : Ty) : Option (Value × Value) := do
  let l ← left.value?
  let r ← right.value?
  return (← l.cast? operands.category, ← r.cast? operands.category)

def operation (op : Operator) (sign : Span) (left right : Expr) : Parser Expr := do
  let typing ← locate sign (op.type left.type right.type)
  let span := left.span.join right.span
  match foldable? left right typing.operands with
  | some (l, r) =>
      let value ← locate sign (op.eval typing.operands l r)
      return .const (← node span typing.result) value
  | none =>
      let left ← convert left typing.operands
      let right ← convert right typing.operands
      return .binary (← node span typing.result) op left right

-- Unary plus, which only turns characters into their codes.
def plus (sign : Span) (e : Expr) : Parser Expr := do
  if e.type.isNumeric then
    convert e (if e.type.isIntegerLike then .integer else e.type)
  else
    fail (.illegalUnary e.type.category) sign

def minus (sign : Span) (e : Expr) : Parser Expr := do
  let operand ← plus sign e
  let span := sign.join operand.span
  match operand.value?.bind Value.negate? with
  | some v => return .const (← node span operand.type) v
  | none => return .negate (← node span operand.type) operand

def complement (sign : Span) (e : Expr) : Parser Expr := do
  let operand ← plus sign e
  let span := sign.join operand.span
  match operand.value?.bind Value.complement? with
  | some v => return .const (← node span .integer) v
  | none => return .complement (← node span .integer) operand

def operatorAt (level : Precedence) : Parser (Option Operator) :=
  return Operator.atLevel? level (← token)

def chain (level : Precedence) (operand : Parser Expr) : Parser Expr := do
  iterate (fun left => do
    match ← operatorAt level with
    | none => return none
    | some op =>
        let sign ← bump
        let right ← operand
        return some (← operation op sign.span left right)) (← operand)

def levels (factor : Parser Expr) : Parser Expr :=
  chain .relational (chain .additive (chain .multiplicative factor))

-- One subscript. A constant one has to lie within the bounds.
def subscript (expression : Parser Expr) (array : Expr) : Parser Expr := do
  match array.type with
  | .array low high element =>
      let index ← coerce (← expression) .integer
      match index.value?.bind Value.integer? with
      | some n =>
          if n < low ∨ high < n then
            fail (.indexOutOfRange n low high) index.span
      | none => pure ()
      return .index (← node (array.span.join index.span) element) array index
  | type => fail (.notAnArray type) (← here)

def subscripts (expression : Parser Expr) (array : Expr) : Parser Expr := do
  let _ ← expect .openSquare
  let first ← subscript expression array
  let last ← iterate (fun array => do
    if ← eat .comma then
      return some (← subscript expression array)
    else
      return none) first
  let _ ← expect .closeSquare
  return last

def selectField (record : Expr) : Parser Expr := do
  match record.type with
  | .record fields =>
      let _ ← bump
      let name ← identifier
      match fields.get? name.value with
      | some f => return .field (← node (record.span.join name.span) f.type) record f
      | none => fail (.fieldNotFound name.value) name.span
  | type => fail (.notARecord type) (← here)

def selectors (expression : Parser Expr) (e : Expr) : Parser Expr :=
  iterate (fun e => do
    match ← token with
    | .mark .openSquare => return some (← subscripts expression e)
    | .mark .period => return some (← selectField e)
    | _ => return none) e

def variableNode (span : Span) (symbol : Symbol) : Parser Expr :=
  return .var (← node span symbol.type) symbol

def assignable (expression : Parser Expr) : Parser (Located Name × Expr) := do
  let name ← identifier
  let symbol ← lookup name
  if symbol.isAssignable then
    let target ← selectors expression (← variableNode name.span symbol)
    return (name, target)
  else
    fail (.assignToConstant name.value) name.span

def reference (parameter : Parameter) (e : Expr) : Parser Expr := do
  let assignable := (e.root?.map Symbol.isAssignable).getD false
  if assignable && e.type.same parameter.type then
    return e
  else
    fail (.varArgument parameter.name.value) e.span

-- Fits the arguments that were given to the parameters. Missing ones take the default value of
-- their parameter.
def fit (wrongCount : Parser Expr) (span : Span) : List Parameter → List Expr → Parser (List Expr)
  | [], _ => return []
  | p :: parameters, given => do
      let argument ←
        match given.head?, p.default with
        | some e, _ => pure e
        | none, some v => constantNode span p.type v
        | none, none => wrongCount
      let argument ←
        match p.mode with
        | .byReference => reference p argument
        | .byValue | .constant => coerce argument p.type
      return argument :: (← fit wrongCount span parameters given.tail)

def arguments (expression : Parser Expr) : Parser (List Expr × Option Span) := do
  if ← eat .openParen then
    let given ← if ← atMark .closeParen then pure [] else separatedBy .comma expression
    return (given, some (← expect .closeParen))
  else
    return ([], none)

def call (expression : Parser Expr) (name : Located Name) (function : Signature) :
    Parser (NodeInfo × List Expr) := do
  let (given, stop) ← arguments expression
  let span := name.span.join (stop.getD name.span)
  let wrongCount {α : Type} : Parser α :=
    fail (.argumentCount function.parameters.length given.length) span
  if function.parameters.length < given.length then
    wrongCount
  let arguments ← fit wrongCount span function.parameters given
  return (← node span function.result, arguments)

-- A name in an expression. Scalar constants are copied.
def designator (expression : Parser Expr) : Parser Expr := do
  let name ← identifier
  let symbol ← lookup name
  match symbol.role with
  | .typeName => fail .illegalExpression name.span
  | .function function =>
      match function.result with
      | .nil => fail (.noResult name.value) name.span
      | _ =>
          let (info, arguments) ← call expression name function
          return .call info function arguments
  | .constant value _ =>
      if symbol.type.isScalar then
        return .const (← node name.span symbol.type) value
      else
        selectors expression (← variableNode name.span symbol)
  | .variable _ | .parameter .. => selectors expression (← variableNode name.span symbol)

def literal (type : Ty) (value : Value) : Parser Expr := do
  let t ← bump
  return .const (← node t.span type) value

def factorOver (inner : Parser Expr) : Parser Expr := do
  match ← token with
  | .integer n => literal .integer (.integer n)
  | .double x => literal .double (.double x)
  | .char code => literal .char (.char code)
  | .string text => literal .string (.string text)
  | .mark .openParen =>
      let _ ← bump
      let e ← levels inner
      let _ ← expect .closeParen
      return e
  | .mark .plus =>
      let sign ← bump
      plus sign.span (← inner)
  | .mark .minus =>
      let sign ← bump
      minus sign.span (← inner)
  | .keyword .not =>
      let sign ← bump
      complement sign.span (← inner)
  | .name _ => designator (levels inner)
  | _ => unexpected [.expression]

def factor : Nat → Parser Expr
  | 0 => unexpected [.expression]
  | n + 1 => factorOver (factor n)

def expression : Parser Expr := do
  levels (factor (← remaining))

def constantInteger : Parser Int32 := do
  let e ← expression
  match e.value?.bind Value.integer? with
  | some n => return n
  | none => fail .expectedConstant e.span

-- Conditions are integers, of which zero is false.
def condition : Parser Expr := do
  coerce (← expression) .integer

end PascalX86.Parser
