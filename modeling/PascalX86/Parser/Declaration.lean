import PascalX86.Parser.Statement
import PascalX86.Parser.Type

/-!
# Declarations

Blocks: declarations of types, constants, variables and functions, then a compound statement.
Variables with an initial value and structured constants become assignments in front of it.
-/

set_option autoImplicit false

namespace PascalX86.Parser

def typeDeclaration : Parser Unit := do
  let name ← identifier
  let _ ← expect .equal
  let type ← type
  let _ ← expect .semicolon
  let _ ← declare name (Declaring.addType name type)

def initializer (symbol : Symbol) (span : Span) (value : Value) : Parser Stmt := do
  let target ← variableNode span symbol
  let value ← constantNode span symbol.type value
  return .assign (← node span .nil) target value

-- Structured constants are stored, scalar ones are copied wherever they are used.
def typedConstantDeclaration (name : Located Name) : Parser (List Stmt) := do
  let type ← type
  let _ ← expect .equal
  let span ← here
  let value ← typedConstant type
  let stored := !type.isScalar
  let symbol ← declare name (Declaring.addConstant name type value stored)
  if stored then
    return [← initializer symbol span value]
  else
    return []

def plainConstantDeclaration (name : Located Name) : Parser Unit := do
  let _ ← expect .equal
  let e ← expression
  match e.value? with
  | some value =>
      let _ ← declare name (Declaring.addConstant name e.type value false)
  | none => fail .expectedConstant e.span

def constantDeclaration : Parser (List Stmt) := do
  let name ← identifier
  let initializers ←
    if ← eat .colon then
      typedConstantDeclaration name
    else
      plainConstantDeclaration name
      pure []
  let _ ← expect .semicolon
  return initializers

def initialValue (type : Ty) (count : Nat) : Parser (Option (Span × Value)) := do
  if count = 1 then
    if ← eat .equal then
      let span ← here
      return some (span, ← typedConstant type)
  return none

def declareVariables (type : Ty) (initial : Option (Span × Value)) :
    List (Located Name) → Parser (List Stmt)
  | [] => return []
  | name :: rest => do
      let symbol ← declare name (Declaring.addVariable name type)
      match initial with
      | some (span, value) =>
          let s ← initializer symbol span value
          return s :: (← declareVariables type initial rest)
      | none => declareVariables type initial rest

def variableDeclaration : Parser (List Stmt) := do
  let names ← identifiers
  let _ ← expect .colon
  let type ← type
  let initial ← initialValue type names.length
  let _ ← expect .semicolon
  declareVariables type initial names

def mode : Parser Mode := do
  if ← eatKeyword .var then
    return .byReference
  else if ← eatKeyword .const then
    return .constant
  else
    return .byValue

def defaultValue (mode : Mode) (type : Ty) : Parser (Option Value) := do
  if ← atMark .equal then
    let t ← bump
    if mode = .byReference then
      fail .varParameterDefault t.span
    else
      return some (← typedConstant type)
  else
    return none

structure ParameterList where
  table : Table
  -- Whether a default value has been seen, so that later parameters need one as well.
  defaults : Bool

def addParameters (type : Ty) (mode : Mode) (default : Option Value) (t : Table) :
    List (Located Name) → Parser Table
  | [] => return t
  | name :: rest => do
      let (answer, t) := (Declaring.addParameter name type mode default).runOn t
      let _ ← locate name.span answer
      addParameters type mode default t rest

def parameterGroup (list : ParameterList) : Parser ParameterList := do
  let mode ← mode
  let names ← identifiers
  let _ ← expect .colon
  let type ← type
  let default ← defaultValue mode type
  if list.defaults && default.isNone then
    fail .defaultParameterOrder ((names.head?.map Located.span).getD (← here))
  let table ← addParameters type mode default list.table names
  return ⟨table, list.defaults || default.isSome⟩

def parameterGroups (t : Table) : Parser Table := do
  let first ← parameterGroup ⟨t, false⟩
  let last ← iterate (fun list => do
    if ← eat .semicolon then
      return some (← parameterGroup list)
    else
      return none) first
  return last.table

def parameters (level : Nat) : Parser Table := do
  let t := Table.empty .parameters level
  if ← eat .openParen then
    let t ← if ← atMark .closeParen then pure t else parameterGroups t
    let _ ← expect .closeParen
    return t
  else
    return t

-- A heading up to its semicolon. The function gets its number after that.
def signature : Parser Signature := do
  let isProcedure := (← bump).value.isKeyword .procedure
  let name ← identifier
  let level := (← get).level + 1
  let table ← parameters level
  let result ←
    if isProcedure then
      pure .nil
    else
      let _ ← expect .colon
      type
  let _ ← expect .semicolon
  let s ← get
  set { s with nextFunction := s.nextFunction + 1 }
  return ⟨s.nextFunction, name, table.parameters, table.size, result, level⟩

-- The table of a function's locals. The first one holds the result, if there is one.
def localsOf (signature : Signature) : Parser Table := do
  let t := Table.empty .locals signature.level
  match signature.result with
  | .nil => return t
  | result =>
      let name : Located Name := ⟨.ofSpelling "result", signature.name.span⟩
      let (answer, t) := (Declaring.addVariable name result).runOn t
      let _ ← locate name.span answer
      return t

/-- A function may call itself, so it is declared before its block is read. Its parameters and then
its locals are scopes of their own. -/
def functionOver (block : Parser Stmt) : Parser Unit := do
  let signature ← signature
  let _ ← declare signature.name (Declaring.addFunction signature)
  let locals ← localsOf signature
  pushScope signature.table
  pushScope locals
  let outerLoops := (← get).loops
  modify fun s => { s with loops := 0, level := signature.level }
  let body ← block
  modify fun s => { s with loops := outerLoops, level := signature.level - 1 }
  let locals ← popScope
  let _ ← popScope
  let _ ← expect .semicolon
  modify fun s => { s with functions := s.functions ++ [⟨signature, locals, body⟩] }

def sectionOver (block : Parser Stmt) : Parser (Option (List Stmt)) := do
  match ← token with
  | .keyword .type =>
      let _ ← bump
      let _ ← whileNames typeDeclaration
      return some []
  | .keyword .const =>
      let _ ← bump
      return some (← whileNames constantDeclaration).flatten
  | .keyword .var =>
      let _ ← bump
      return some (← whileNames variableDeclaration).flatten
  | .keyword .function | .keyword .procedure =>
      functionOver block
      return some []
  | _ => return none

def blockOver (block : Parser Stmt) : Parser Stmt := do
  let initializers ← many (sectionOver block)
  let (span, statements) ← compound
  return .block (← node span .nil) (initializers.flatten ++ statements)

def block : Nat → Parser Stmt
  | 0 => unexpected [.keyword .«begin»]
  | n + 1 => blockOver (block n)

-- The name of a program; one without a heading is called `Main`.
def programName : Parser (Located Name) := do
  let span ← here
  if ← eatKeyword .program then
    let name ← identifier
    let _ ← expect .semicolon
    return name
  else
    return ⟨.ofSpelling "Main", span⟩

def program : Parser Program := do
  let name ← programName
  let body ← block (← remaining)
  let _ ← expect .period
  if !(← token).isEndOfFile then
    unexpected [.endOfFile]
  let s ← get
  let signature : Signature := ⟨0, name, [], 0, .nil, 0⟩
  return ⟨s.functions, ⟨signature, s.scopes.outermost, body⟩, s.nodes⟩

def initialState (cursor : Cursor) : ParserState where
  cursor := cursor
  scopes := .start (.empty .locals 0)
  nodes := 0
  functions := []
  nextFunction := 1
  loops := 0
  level := 0

end Parser

def Program.ofItems (items : List Scanned) : Except CompileError Program :=
  match Cursor.ofItems items with
  | .error e => .error (.lexical e)
  | .ok cursor => Prod.fst <$> (Parser.program.run (Parser.initialState cursor))

/-- Parses and checks a source. -/
def Source.program (source : Source) : Except CompileError Program :=
  Program.ofItems source.scan

end PascalX86
