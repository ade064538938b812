import PascalX86.Error.Semantic

/-!
# Typing rules

Which types may be stored where another is required, and how operators type their operands.
-/

set_option autoImplicit false

namespace PascalX86

def Category.accepts (required found : Category) : Bool :=
  match required, found with
  | .string, .char | .double, .integer | .integer, .char | .char, .integer => true
  | _, _ => required == found

def Category.isStructured : Category → Bool
  | .array | .record | .function => true
  | _ => false

/-- Structured types have to be the same; the rest is decided by category. The rule is directed: a
string accepts a character and not the other way around. -/
def Ty.accepts (required found : Ty) : Bool :=
  if required.category.isStructured || found.category.isStructured then required.same found
  else required.category.accepts found.category

def Ty.check (required found : Ty) : Except SemanticError Unit :=
  if required.accepts found then .ok () else .error (.incompatible required found)

structure OperationType where
  operands : Ty
  result : Ty

namespace Operator

def operandType? (op : Operator) (left right : Ty) : Option Ty :=
  if left.isIntegerLike && right.isIntegerLike then some .integer
  else
    match op.kind with
    | .integerOnly => none
    | .arithmetic =>
        if left.isNumeric && right.isNumeric then some .double
        else if left.isTextual && right.isTextual && op == .add then some .string
        else none
    | .comparison =>
        if left.isNumeric && right.isNumeric then some .double
        else if left.isTextual && right.isTextual then some .string
        else none

def resultType (op : Operator) (operands : Ty) : Ty :=
  match op.kind with
  | .comparison => .integer
  | _ => operands

def type (op : Operator) (left right : Ty) : Except SemanticError OperationType :=
  match op.operandType? left right with
  | some operands => .ok ⟨operands, op.resultType operands⟩
  | none => .error (.unsupportedOperands op left.category right.category)

end Operator

end PascalX86
