import PascalX86.Source.Position
import PascalX86.Ty.Basic

/-!
# Symbols

What a declared name stands for, and where its storage lies.
-/

set_option autoImplicit false

namespace PascalX86

inductive Area where
  | locals | parameters | fields
  deriving DecidableEq, Repr

def Area.text : Area → String
  | .locals => "local"
  | .parameters => "parameter"
  | .fields => "field"

/-- Storage of a symbol: bytes from the start of its area, in the frames of a lexical level. -/
structure Slot where
  level : Nat
  offset : Nat
  area : Area
  deriving DecidableEq, Repr

inductive Mode where
  | byValue | byReference | constant
  deriving DecidableEq, Repr

structure Parameter where
  name : Located Name
  type : Ty
  mode : Mode
  default : Option Value
  slot : Slot

-- The bytes of an address, which is what a parameter by reference holds.
def addressSize : Nat := 4

def Mode.size (mode : Mode) (type : Ty) : Nat :=
  match mode with
  | .byReference => addressSize
  | .byValue | .constant => type.size

structure Signature where
  id : Nat
  name : Located Name
  parameters : List Parameter
  -- The bytes of all arguments.
  block : Nat
  result : Ty
  -- The level of the function's own locals.
  level : Nat

def Signature.ref (s : Signature) : FunctionRef := ⟨s.id, s.name.value⟩

inductive Role where
  | typeName
  | constant (value : Value) (slot : Option Slot)
  | variable (slot : Slot)
  | parameter (mode : Mode) (default : Option Value) (slot : Slot)
  | function (signature : Signature)

structure Symbol where
  name : Located Name
  type : Ty
  role : Role

inductive SymbolKind where
  | typeName | const | var | varParameter | function
  deriving DecidableEq, Repr

namespace Symbol

def kind (s : Symbol) : SymbolKind :=
  match s.role with
  | .typeName => .typeName
  | .constant .. | .parameter .constant .. => .const
  | .variable _ | .parameter .byValue .. => .var
  | .parameter .byReference .. => .varParameter
  | .function _ => .function

def value? (s : Symbol) : Option Value :=
  match s.role with
  | .constant value _ => some value
  | _ => none

def default? (s : Symbol) : Option Value :=
  match s.role with
  | .parameter _ default _ => default
  | _ => none

def slot? (s : Symbol) : Option Slot :=
  match s.role with
  | .constant _ slot => slot
  | .variable slot | .parameter _ _ slot => some slot
  | _ => none

def isAssignable (s : Symbol) : Bool :=
  match s.kind with
  | .var | .varParameter => true
  | _ => false

def storage (s : Symbol) : Nat :=
  match s.role with
  | .parameter mode .. => mode.size s.type
  | _ => s.type.size

end Symbol

def Parameter.symbol (p : Parameter) : Symbol :=
  ⟨p.name, p.type, .parameter p.mode p.default p.slot⟩

def Symbol.parameter? (s : Symbol) : Option Parameter :=
  match s.role with
  | .parameter mode default slot => some ⟨s.name, s.type, mode, default, slot⟩
  | _ => none

@[simp] theorem Parameter.parameter?_symbol (p : Parameter) : p.symbol.parameter? = some p := rfl

end PascalX86
