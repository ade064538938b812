import PascalX86.Error.Compile
import PascalX86.Symbol.Scopes
import PascalX86.Token.Cursor
import PascalX86.Tree.Basic

/-!
# Parsers

Parsing looks one token ahead and never goes back. Names are resolved, types are checked and
constants are folded while the tokens are read, so what a parser carries is the place in the text
together with everything declared so far.
-/

set_option autoImplicit false

namespace PascalX86

structure ParserState where
  cursor : Cursor
  scopes : Scopes
  nodes : Nat
  functions : List Function
  nextFunction : Nat
  loops : Nat
  level : Nat

abbrev Parser (α : Type) := StateT ParserState (Except CompileError) α

namespace Parser

variable {α β : Type}

def current : Parser (Located Token) := return (← get).cursor.current

def token : Parser Token := return (← current).value

def here : Parser Span := return (← current).span

/-- How many tokens can still be read. Every recursion of the grammar reads one first, so this
bounds its depth, and where nothing is left every production ends by itself. -/
def remaining : Parser Nat := return (← get).cursor.remaining

def fail (e : SemanticError) (span : Span) : Parser α := throw (.semantic ⟨e, span⟩)

def locate (span : Span) : Except SemanticError α → Parser α
  | .ok a => return a
  | .error e => fail e span

def unexpected (expected : List Expectation) : Parser α := do
  let found ← current
  throw (.grammatical ⟨⟨expected, found.value⟩, found.span⟩)

def bump : Parser (Located Token) := do
  let s ← get
  match s.cursor.advance with
  | (.ok _, cursor) =>
      set { s with cursor := cursor }
      return s.cursor.current
  | (.error e, _) => throw (.lexical e)

def atMark (m : Mark) : Parser Bool := return (← token).isMark m

def atKeyword (k : Keyword) : Parser Bool := return (← token).isKeyword k

def atName : Parser Bool := return (← token).isName

def eat (m : Mark) : Parser Bool := do
  if ← atMark m then
    let _ ← bump
    return true
  else
    return false

def eatKeyword (k : Keyword) : Parser Bool := do
  if ← atKeyword k then
    let _ ← bump
    return true
  else
    return false

def expect (m : Mark) : Parser Span := do
  if ← atMark m then
    return (← bump).span
  else
    unexpected [.mark m]

def keyword (k : Keyword) : Parser Span := do
  if ← atKeyword k then
    return (← bump).span
  else
    unexpected [.keyword k]

def identifier : Parser (Located Name) := do
  match ← token with
  | .name n => return ⟨n, (← bump).span⟩
  | _ => unexpected [.identifier]

def iterateUpTo (step : α → Parser (Option α)) : Nat → α → Parser α
  | 0, a => return a
  | n + 1, a => do
      match ← step a with
      | none => return a
      | some next => iterateUpTo step n next

-- Repeats a step that reads a token whenever it answers something.
def iterate (step : α → Parser (Option α)) (a : α) : Parser α := do
  iterateUpTo step (← remaining) a

def manyUpTo (p : Parser (Option α)) : Nat → Parser (List α)
  | 0 => return []
  | n + 1 => do
      match ← p with
      | none => return []
      | some a => return a :: (← manyUpTo p n)

def many (p : Parser (Option α)) : Parser (List α) := do
  manyUpTo p (← remaining)

def separatedBy (m : Mark) (item : Parser α) : Parser (List α) := do
  let first ← item
  let rest ← many do
    if ← eat m then
      return some (← item)
    else
      return none
  return first :: rest

-- Items that follow each other for as long as the next token is a name; there is at least one.
def whileNames (item : Parser α) : Parser (List α) := do
  let first ← item
  let rest ← many do
    if ← atName then
      return some (← item)
    else
      return none
  return first :: rest

def identifiers : Parser (List (Located Name)) := separatedBy .comma identifier

def node (span : Span) (type : Ty) : Parser NodeInfo := do
  let s ← get
  set { s with nodes := s.nodes + 1 }
  return ⟨s.nodes, span, type⟩

def lookup (name : Located Name) : Parser Symbol := do
  locate name.span ((← get).scopes.lookup name.value)

def declare (name : Located Name) (d : Declaring α) : Parser α := do
  let s ← get
  let (answer, scopes) := s.scopes.declare d
  set { s with scopes := scopes }
  locate name.span answer

def pushScope (t : Table) : Parser Unit :=
  modify fun s => { s with scopes := s.scopes.push t }

def popScope : Parser Table := do
  let s ← get
  match s.scopes.pop? with
  | some (t, scopes) =>
      set { s with scopes := scopes }
      return t
  | none => return s.scopes.current

-- Types without structure have plain constants.
def constantNode (span : Span) (type : Ty) (value : Value) : Parser Expr := do
  let info ← node span type
  return if type.isScalar then .const info value else .aggregate info value

end Parser

end PascalX86
