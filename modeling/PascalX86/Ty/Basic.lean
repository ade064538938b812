import PascalX86.Name
import PascalX86.Value

/-!
# Types

Scalar types, arrays, records and functions. Sizes are in bytes and multiples of four.
-/

set_option autoImplicit false

namespace PascalX86

/-- A function as types see it: no two functions of a program share their number. -/
structure FunctionRef where
  id : Nat
  name : Name
  deriving Repr

def maxSize : Nat := 1073741824

-- Strings are stored with their terminator in a fixed space.
def stringSize : Nat := 256

-- Sizes are computed with 32 bits.
def wordRange : Nat := 4294967296

def extent (low high : Int32) : Nat := ((high.toInt - low.toInt + 1) % wordRange).toNat

-- Sizes are kept beside the constructors: a type that occurs in many places is measured once.
mutual

inductive Ty where
  | integer
  | double
  | char
  | string
  | nil
  | array (low high : Int32) (element : Ty)
  | record (fields : Fields)
  | function (f : FunctionRef)
with
  @[computed_field] size : Ty → Nat
    | .integer | .char => 4
    | .double => 8
    | .string => stringSize
    | .nil | .function _ => 0
    | .array low high element => extent low high * element.size % wordRange
    | .record fields => fields.size

inductive Fields where
  | empty
  | more (name : Name) (type : Ty) (rest : Fields)
with
  @[computed_field] size : Fields → Nat
    | .empty => 0
    | .more _ type rest => type.size + rest.size

end

mutual

def Ty.same : Ty → Ty → Bool
  | .integer, .integer | .double, .double | .char, .char | .string, .string | .nil, .nil => true
  | .array low high element, .array low' high' element' =>
      low == low' && high == high' && element.same element'
  | .record fields, .record fields' => fields.same fields'
  | .function f, .function g => f.id == g.id
  | _, _ => false

def Fields.same : Fields → Fields → Bool
  | .empty, .empty => true
  | .more name type rest, .more name' type' rest' =>
      name.same name' && type.same type' && rest.same rest'
  | _, _ => false

end

mutual

def Ty.text : Ty → String
  | .integer => "integer"
  | .double => "double"
  | .char => "char"
  | .string => "string"
  | .nil => "nil"
  | .array low high element => s!"array[{low.toInt}..{high.toInt}] of {element.text}"
  | .record fields => s!"record{fields.text} end"
  | .function f => s!"function {f.name.spelling}"

def Fields.text : Fields → String
  | .empty => ""
  | .more name type rest => s!" {name.spelling}: {type.text};" ++ rest.text

end

namespace Ty

def category : Ty → Category
  | .integer => .integer
  | .double => .double
  | .char => .char
  | .string => .string
  | .nil => .nil
  | .array .. => .array
  | .record _ => .record
  | .function _ => .function

def simple? : Category → Option Ty
  | .integer => some .integer
  | .double => some .double
  | .char => some .char
  | .string => some .string
  | .nil => some .nil
  | .array | .record | .function => none

def isIntegerLike : Ty → Bool
  | .integer | .char => true
  | _ => false

def isNumeric : Ty → Bool
  | .integer | .char | .double => true
  | _ => false

def isTextual : Ty → Bool
  | .char | .string => true
  | _ => false

def isScalar : Ty → Bool
  | .integer | .char | .double | .string => true
  | _ => false

end Ty

structure Field where
  name : Name
  type : Ty
  offset : Nat

namespace Fields

def ofList : List (Name × Ty) → Fields
  | [] => .empty
  | (name, type) :: rest => .more name type (ofList rest)

def layout (offset : Nat) : Fields → List Field
  | .empty => []
  | .more name type rest => ⟨name, type, offset⟩ :: rest.layout (offset + type.size)

def get? (fields : Fields) (name : Name) : Option Field :=
  (fields.layout 0).find? fun f => f.name.same name

def length : Fields → Nat
  | .empty => 0
  | .more _ _ rest => rest.length + 1

@[simp] theorem layout_empty (offset : Nat) : layout offset .empty = [] := rfl

@[simp] theorem layout_more (offset : Nat) (name : Name) (type : Ty) (rest : Fields) :
    layout offset (.more name type rest) =
      ⟨name, type, offset⟩ :: layout (offset + type.size) rest := rfl

end Fields

end PascalX86
