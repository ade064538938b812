import PascalX86.Lowering.Image
import PascalX86.Lowering.Operation
import PascalX86.Tree.Basic

/-!
# Code of expressions

The code of an expression pushes its value, in as many dwords as its type takes. It is free of
labels and jumps.
-/

set_option autoImplicit false

namespace PascalX86

open Register

def runtimeString {α : Type} (span : Span) : Lowered α := .error ⟨.runtimeString, span⟩

def Signature.label (s : Signature) : String := s!"fn_{s.name.value.spelling}_{s.id}"

def constantCode (info : NodeInfo) (value : Value) : Lowered Code :=
  match info.type with
  | .string => runtimeString info.span
  | _ => return value.push

def castCode (info : NodeInfo) (source : Ty) (operand : Lowered Code) : Lowered Code :=
  match source, info.type with
  | .integer, .integer | .integer, .char | .char, .integer | .char, .char => operand
  | .integer, .double | .char, .double => return (← operand) ++ widenCode
  | _, .string => runtimeString info.span
  | _, target => malformed info.span (.noConversion source target)

def binaryCode (info : NodeInfo) (op : Operator) (operands : Ty) (left right : Lowered Code) :
    Lowered Code :=
  match operands with
  | .string => runtimeString info.span
  | .double => do
      let values := (← left) ++ (← right)
      match op.doubleCode? with
      | some code => return values ++ code
      | none => malformed info.span (.noDoubleOperation op)
  | _ => return (← left) ++ (← right) ++ op.integerCode

def resultCode (span : Span) : Ty → Lowered Code
  | .nil => return []
  | .integer | .char => return [.instruction .push [eax]]
  | .double => return pushDouble xmm0
  | type => .error ⟨.aggregateResult type, span⟩

/-- An element of an array, given the array and how its index is found. A constant index moves the
reference; any other is scaled and added to the address. -/
def elementReference (info : NodeInfo) (array : Ty) (base : Lowered Reference)
    (constant? : Option Int32) (index : Lowered Code) : Lowered Reference :=
  match array with
  | .array low _ element =>
      let size := Int32.ofNat element.size
      match constant? with
      | some n => return (← base).displaced ((n - low) * size)
      | none => do
          let operands := (← base).address ++ (← index)
          let fromLow := if low = 0 then [] else [.instruction .sub [ebx, .immediate low]]
          let scaled := if size = 1 then [] else [.instruction .imul [ebx, .immediate size]]
          let sum :=
            .instruction .pop [ebx] :: fromLow ++ scaled ++ [.instruction .add [stackTop 0, ebx]]
          return ⟨operands ++ sum, .stack⟩
  | _ => malformed info.span (.notAnArray array)

def callCode (info : NodeInfo) (function : Signature) (arguments : Lowered Code) :
    Lowered Code := do
  let call := .instruction .call [.raw function.label] :: discard function.block
  return (← arguments) ++ call ++ (← resultCode info.span function.result)

mutual

def Expr.reference (f : Frames) : Expr → Lowered Reference
  | .var info symbol => f.reference info.span symbol
  | .index info array index =>
      elementReference info array.type (array.reference f) (index.value?.bind Value.integer?)
        (index.code f)
  | .field _ record field => return (← record.reference f).displaced (Int32.ofNat field.offset)
  | e => malformed e.span .notAReference

def Expr.code (f : Frames) : Expr → Lowered Code
  | .var info symbol => return (← f.reference info.span symbol).load info.type.size
  | .index info array index => do
      let element ← elementReference info array.type (array.reference f)
        (index.value?.bind Value.integer?) (index.code f)
      return element.load info.type.size
  | .field info record field =>
      return ((← record.reference f).displaced (Int32.ofNat field.offset)).load info.type.size
  | .const info value | .aggregate info value => constantCode info value
  | .negate info operand => return (← operand.code f) ++ negateCode info.type
  | .complement _ operand => return (← operand.code f) ++ complementCode operand.type
  | .binary info op left right => binaryCode info op left.type (left.code f) (right.code f)
  | .cast info operand => castCode info operand.type (operand.code f)
  | .call info function arguments =>
      callCode info function (argumentsCode f function.parameters arguments)

-- The code of the arguments of a call, from left to right.
def argumentsCode (f : Frames) : List Parameter → List Expr → Lowered Code
  | p :: parameters, e :: arguments => do
      let argument ←
        match p.mode with
        | .byReference => Reference.address <$> e.reference f
        | .byValue | .constant => e.code f
      return argument ++ (← argumentsCode f parameters arguments)
  | _, _ => return []

end

end PascalX86
