import PascalX86.Parser.Expression

/-!
# Types and structured constants
-/

set_option autoImplicit false

namespace PascalX86.Parser

structure Bounds where
  low : Int32
  high : Int32

-- The bounds of one dimension. Errors that concern both are reported where the lower one begins.
def bounds : Parser (Located Bounds) := do
  let span ← here
  let low ← constantInteger
  let _ ← expect .doubleDot
  let high ← constantInteger
  if high < low then
    fail (.badRange low high) span
  if (maxSize : Int) < high.toInt - low.toInt + 1 then
    fail .typeTooLarge span
  return ⟨⟨low, high⟩, span⟩

-- An array over an element type; its dimensions come innermost first.
def arrayOver (element : Ty) : List (Located Bounds) → Parser Ty
  | [] => return element
  | b :: outer => do
      let low := b.value.low
      let high := b.value.high
      if maxSize < extent low high * element.size then
        fail .typeTooLarge b.span
      arrayOver (.array low high element) outer

-- Several dimensions at once are arrays of arrays.
def arrayType (type : Parser Ty) : Parser Ty := do
  let _ ← keyword .array
  let _ ← expect .openSquare
  let dimensions ← separatedBy .comma bounds
  let _ ← expect .closeSquare
  let _ ← keyword .of
  arrayOver (← type) dimensions.reverse

def declareFields (type : Ty) : List (Located Name) → Parser Unit
  | [] => return ()
  | name :: rest => do
      let _ ← declare name (Declaring.addVariable name type)
      declareFields type rest

def fieldGroup (type : Parser Ty) : Parser (Option Unit) := do
  if ← atName then
    let names ← identifiers
    let _ ← expect .colon
    declareFields (← type) names
    if ← eat .semicolon then
      return some ()
  return none

-- Fields are declared in a scope of their own, which is the current one while they are read.
def recordType (type : Parser Ty) : Parser Ty := do
  let _ ← keyword .record
  pushScope (.empty .fields 0)
  let _ ← many (fieldGroup type)
  let fields ← popScope
  let _ ← keyword .«end»
  return fields.record

def namedType : Parser Ty := do
  let name ← identifier
  let symbol ← lookup name
  match symbol.role with
  | .typeName => return symbol.type
  | _ => fail (.expectedType name.value) name.span

def typeOver (inner : Parser Ty) : Parser Ty := do
  match ← token with
  | .keyword .integer => let _ ← bump; return .integer
  | .keyword .double => let _ ← bump; return .double
  | .keyword .char => let _ ← bump; return .char
  | .keyword .string => let _ ← bump; return .string
  | .keyword .array => arrayType inner
  | .keyword .record => recordType inner
  | .name _ => namedType
  | _ => unexpected [.type]

def typeUpTo : Nat → Parser Ty
  | 0 => unexpected [.type]
  | n + 1 => typeOver (typeUpTo n)

def type : Parser Ty := do
  typeUpTo (← remaining)

def fieldName (fields : Fields) (due : Name) : Parser Unit := do
  let name ← identifier
  match fields.get? name.value with
  | none => fail (.fieldNotFound name.value) name.span
  | some f =>
      if f.name.same due then
        return ()
      else
        fail (.illegalInitializationOrder due name.value) name.span

mutual

def typedConstant : Ty → Parser Value
  | .array low high element => do
      let span ← here
      let _ ← expect .openParen
      let values ← separatedBy .comma (typedConstant element)
      let _ ← expect .closeParen
      if values.length = extent low high then
        return .array values
      else
        fail (.elementCount (extent low high) values.length) span
  | .record fields => do
      let _ ← expect .openParen
      let values ← fieldConstants fields fields
      let _ ← eat .semicolon
      let _ ← expect .closeParen
      return .record values
  | type => do
      let e ← expression
      locate e.span (type.check e.type)
      match e.value?.bind fun v => v.cast? type.category with
      | some v => return v
      | none => fail .expectedConstant e.span

def fieldConstants (all : Fields) : Fields → Parser (List Value)
  | .empty => return []
  | .more name type rest => do
      fieldName all name
      let _ ← expect .colon
      let value ← typedConstant type
      match rest with
      | .empty => return [value]
      | .more .. =>
          let _ ← expect .semicolon
          return value :: (← fieldConstants all rest)

end

end PascalX86.Parser
