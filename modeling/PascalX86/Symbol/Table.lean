import PascalX86.Error.Semantic
import PascalX86.Symbol.Basic

/-!
# Symbol tables

Symbols in order of declaration, with the storage that has been handed out to them.
-/

set_option autoImplicit false

namespace PascalX86

structure Table where
  symbols : List Symbol
  size : Nat
  level : Nat
  area : Area

/-- A declaration answers its symbol or what is wrong with it, and leaves a table either way. -/
abbrev Declaring (α : Type) := ExceptT SemanticError (StateM Table) α

namespace Table

def empty (area : Area) (level : Nat) : Table := ⟨[], 0, level, area⟩

def get? (t : Table) (name : Name) : Option Symbol :=
  t.symbols.find? fun s => s.name.value.same name

def checkNew (t : Table) (name : Name) : Except SemanticError Unit :=
  match t.get? name with
  | some _ => .error (.duplicate name)
  | none => .ok ()

def parameters (t : Table) : List Parameter := t.symbols.filterMap Symbol.parameter?

end Table

namespace Declaring

def allocate (bytes : Nat) : Declaring Slot := do
  let t ← get
  if t.size + bytes ≤ maxSize then
    set { t with size := t.size + bytes }
    return ⟨t.level, t.size, t.area⟩
  else
    throw .typeTooLarge

/-- Adds a symbol under a new name. Storage it was given before stays reserved if that fails. -/
def add (symbol : Symbol) : Declaring Symbol := do
  let t ← get
  match t.checkNew symbol.name.value with
  | .ok () =>
      set { t with symbols := t.symbols ++ [symbol] }
      return symbol
  | .error e => throw e

def addVariable (name : Located Name) (type : Ty) : Declaring Symbol := do
  let slot ← allocate type.size
  add ⟨name, type, .variable slot⟩

def addParameter (name : Located Name) (type : Ty) (mode : Mode) (default : Option Value) :
    Declaring Symbol := do
  let slot ← allocate (mode.size type)
  add ⟨name, type, .parameter mode default slot⟩

-- A constant that has to be addressed at run time gets storage like a variable.
def addConstant (name : Located Name) (type : Ty) (value : Value) (stored : Bool) :
    Declaring Symbol := do
  let slot ← if stored then some <$> allocate type.size else pure none
  add ⟨name, type, .constant value slot⟩

def addType (name : Located Name) (type : Ty) : Declaring Symbol :=
  add ⟨name, type, .typeName⟩

def addFunction (signature : Signature) : Declaring Symbol :=
  add ⟨signature.name, .function signature.ref, .function signature⟩

def runOn {α : Type} (t : Table) (d : Declaring α) : Except SemanticError α × Table :=
  StateT.run (ExceptT.run d) t

end Declaring

def Table.record (t : Table) : Ty :=
  .record (.ofList (t.symbols.map fun s => (s.name.value, s.type)))

end PascalX86
