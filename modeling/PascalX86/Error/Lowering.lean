import PascalX86.Operator.Basic
import PascalX86.Ty.Basic

/-!
# Lowering errors

Programs that are in order and still have no machine code.
-/

set_option autoImplicit false

namespace PascalX86

/-- Trees that checking never yields, and that have no code for this reason. -/
inductive TreeFault where
  | noConversion (source target : Ty)
  | noDoubleOperation (op : Operator)
  | notAReference
  | notAnArray (type : Ty)
  | noStorage (name : Name)
  | fieldAsVariable (name : Name)
  | noEnclosingFunction (level : Nat)
  | jumpOutsideLoop
  | unreadable (type : Ty)
  | structuredText

def TreeFault.message : TreeFault → String
  | .noConversion source target => s!"no conversion from {source.text} to {target.text}"
  | .noDoubleOperation op => s!"`{op.text}` is not defined for doubles"
  | .notAReference => "not a memory reference"
  | .notAnArray type => s!"indexing a {type.text}"
  | .noStorage name => s!"`{name.spelling}` has no storage"
  | .fieldAsVariable name => s!"record field `{name.spelling}` used as a variable"
  | .noEnclosingFunction level => s!"no enclosing function at level {level}"
  | .jumpOutsideLoop => "jump outside of a loop"
  | .unreadable type => s!"cannot read into {type.text}"
  | .structuredText => "structured values are not written"

inductive LoweringError where
  | runtimeString
  | aggregateResult (type : Ty)
  | malformed (fault : TreeFault)

def LoweringError.message : LoweringError → String
  | .runtimeString => "String values can only be written as constants"
  | .aggregateResult type => s!"Functions cannot return values of type {type.text}"
  | .malformed fault => s!"Malformed tree: {fault.message}"

end PascalX86
