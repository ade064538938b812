import PascalX86.Operator.Basic
import PascalX86.Ty.Basic

/-!
# Semantic errors

What can be wrong with a program whose tokens are in order.
-/

set_option autoImplicit false

namespace PascalX86

inductive SemanticError where
  | duplicate (name : Name)
  | notFound (name : Name)
  | incompatible (required found : Ty)
  | unsupportedOperands (op : Operator) (left right : Category)
  | illegalUnary (operand : Category)
  | illegalExpression
  | expectedConstant
  | expectedType (name : Name)
  | badRange (low high : Int32)
  | typeTooLarge
  | indexOutOfRange (index low high : Int32)
  | notAnArray (found : Ty)
  | notARecord (found : Ty)
  | fieldNotFound (name : Name)
  | illegalInitializationOrder (expected found : Name)
  | elementCount (expected found : Nat)
  | defaultParameterOrder
  | varParameterDefault
  | outsideLoop (jump : Keyword)
  | assignToConstant (name : Name)
  | argumentCount (expected found : Nat)
  | varArgument (parameter : Name)
  | divisionByZero
  | illegalCounter
  | noResult (name : Name)
  | unreadable (type : Ty)
  | unwritable (type : Ty)

def SemanticError.message : SemanticError → String
  | .duplicate name => s!"Duplication found `{name.spelling}`"
  | .notFound name => s!"Identifier not found `{name.spelling}`"
  | .incompatible required found =>
      s!"Incompatible types: required `{required.text}` but found `{found.text}`"
  | .unsupportedOperands op left right =>
      s!"Unsupported operand types for `{op.text}`: `{left.text}` and `{right.text}`"
  | .illegalUnary operand => s!"Illegal type `{operand.text}` for unary operator"
  | .illegalExpression => "Illegal expression"
  | .expectedConstant => "Constant expression expected"
  | .expectedType name => s!"`{name.spelling}` is not a type"
  | .badRange low high => s!"Illegal range: {low.toInt}..{high.toInt}"
  | .typeTooLarge => s!"Storage too large, at most {maxSize} bytes are allowed"
  | .indexOutOfRange index low high =>
      s!"Index {index.toInt} out of range {low.toInt}..{high.toInt}"
  | .notAnArray found => s!"Expected an array, found `{found.text}`"
  | .notARecord found => s!"Expected a record, found `{found.text}`"
  | .fieldNotFound name => s!"Unknown record field `{name.spelling}`"
  | .illegalInitializationOrder expected found =>
      "Illegal initialization order: expected field " ++
        s!"`{expected.spelling}`, found `{found.spelling}`"
  | .elementCount expected found =>
      s!"Wrong number of elements in array constant: expected {expected}, found {found}"
  | .defaultParameterOrder => "Parameters after a default value must also have defaults"
  | .varParameterDefault => "`var` parameters can't have default values"
  | .outsideLoop jump => s!"`{jump.text}` outside of a loop"
  | .assignToConstant name => s!"Can't assign to `{name.spelling}`"
  | .argumentCount expected found =>
      s!"Wrong number of arguments: expected {expected}, found {found}"
  | .varArgument parameter =>
      s!"Argument for `var` parameter `{parameter.spelling}` must be a variable of the same type"
  | .divisionByZero => "Division by zero"
  | .illegalCounter => "Illegal counter variable, an integer variable is required"
  | .noResult name => s!"Procedure `{name.spelling}` has no result"
  | .unreadable type => s!"Type `{type.text}` can't be read"
  | .unwritable type => s!"Type `{type.text}` can't be written"

end PascalX86
