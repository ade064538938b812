import PascalX86.Parser.Expression

/-!
# Statements
-/

set_option autoImplicit false

namespace PascalX86.Parser

-- Statements between `begin` and `end`, given how one is read, and the span of `begin`. Empty ones
-- leave nothing behind.
def compoundOver (statement : Parser (Option Stmt)) : Parser (Span × List Stmt) := do
  let span ← keyword .«begin»
  let statements ← separatedBy .semicolon statement
  let _ ← keyword .«end»
  return (span, statements.filterMap id)

-- A statement at a place where an empty one becomes an empty block.
def bodyOver (statement : Parser (Option Stmt)) : Parser Stmt := do
  let span ← here
  match ← statement with
  | some s => return s
  | none => return .block (← node span .nil) []

def loopBodyOver (statement : Parser (Option Stmt)) : Parser Stmt := do
  modify fun s => { s with loops := s.loops + 1 }
  let body ← bodyOver statement
  modify fun s => { s with loops := s.loops - 1 }
  return body

def ifOver (statement : Parser (Option Stmt)) : Parser Stmt := do
  let span ← keyword .«if»
  let test ← condition
  let _ ← keyword .«then»
  let body ← bodyOver statement
  if ← eatKeyword .«else» then
    let otherwise ← bodyOver statement
    return .ifElse (← node span .nil) test body otherwise
  else
    return .ifThen (← node span .nil) test body

def whileOver (statement : Parser (Option Stmt)) : Parser Stmt := do
  let span ← keyword .«while»
  let test ← condition
  let _ ← keyword .«do»
  let body ← loopBodyOver statement
  return .while (← node span .nil) test body

-- The counter of a loop: a whole variable of type integer or char.
def counter : Parser Expr := do
  let (name, target) ← assignable expression
  match target with
  | .var info _ =>
      if info.type.isIntegerLike then
        return target
      else
        fail .illegalCounter name.span
  | _ => fail .illegalCounter name.span

def direction : Parser Direction := do
  match ← token with
  | .keyword .«to» => let _ ← bump; return .up
  | .keyword .downto => let _ ← bump; return .down
  | _ => unexpected [.keyword .«to», .keyword .downto]

def forOver (statement : Parser (Option Stmt)) : Parser Stmt := do
  let span ← keyword .«for»
  let target ← counter
  let _ ← expect .assign
  let first ← coerce (← expression) target.type
  let way ← direction
  let last ← coerce (← expression) target.type
  let _ ← keyword .«do»
  let body ← loopBodyOver statement
  return .for (← node span .nil) target first last way body

def jump (k : Keyword) : Parser Span := do
  let t ← bump
  if (← get).loops = 0 then
    fail (.outsideLoop k) t.span
  else
    return t.span

def readTarget : Parser Expr := do
  let (_, target) ← assignable expression
  match target.type with
  | .integer | .double | .char => return target
  | type => fail (.unreadable type) target.span

def readStatement (newline : Bool) : Parser Stmt := do
  let t ← bump
  let targets ←
    if ← eat .openParen then
      let targets ← separatedBy .comma readTarget
      let _ ← expect .closeParen
      pure targets
    else
      pure []
  return .read (← node t.span .nil) targets newline

def writeArgument : Parser Expr := do
  let e ← expression
  if e.type.isScalar then
    return e
  else
    fail (.unwritable e.type) e.span

def writeStatement (newline : Bool) : Parser Stmt := do
  let t ← bump
  let arguments ←
    if ← eat .openParen then
      let arguments ← if ← atMark .closeParen then pure [] else separatedBy .comma writeArgument
      let _ ← expect .closeParen
      pure arguments
    else
      pure []
  return .write (← node t.span .nil) arguments newline

def assignment (target : Expr) : Parser Stmt := do
  let sign ← expect .assign
  let value ← coerce (← expression) target.type
  return .assign (← node (target.span.join sign) .nil) target value

-- A statement that starts with a name: a call, unless `:=` follows, or an assignment.
def namedStatement : Parser Stmt := do
  let name ← identifier
  let symbol ← lookup name
  let assigns ← atMark .assign
  match symbol.role, assigns with
  | .function function, false =>
      let (info, arguments) ← call expression name function
      return .call info function arguments
  | .typeName, _ => fail .illegalExpression name.span
  | _, _ =>
      if symbol.isAssignable then
        assignment (← selectors expression (← variableNode name.span symbol))
      else
        fail (.assignToConstant name.value) name.span

def statementOver (inner : Parser (Option Stmt)) : Parser (Option Stmt) := do
  match ← token with
  | .keyword .«begin» =>
      let (span, statements) ← compoundOver inner
      return some (.block (← node span .nil) statements)
  | .keyword .«if» => some <$> ifOver inner
  | .keyword .«while» => some <$> whileOver inner
  | .keyword .«for» => some <$> forOver inner
  | .keyword .«continue» => return some (.continue (← node (← jump .«continue») .nil))
  | .keyword .«break» => return some (.break (← node (← jump .«break») .nil))
  | .keyword .read => some <$> readStatement false
  | .keyword .readln => some <$> readStatement true
  | .keyword .write => some <$> writeStatement false
  | .keyword .writeln => some <$> writeStatement true
  | .name _ => some <$> namedStatement
  | .mark .semicolon | .keyword .«end» | .keyword .«else» => return none
  | _ => unexpected [.statement]

def statement : Nat → Parser (Option Stmt)
  | 0 => unexpected [.statement]
  | n + 1 => statementOver (statement n)

def compound : Parser (Span × List Stmt) := do
  compoundOver (statement (← remaining))

end PascalX86.Parser
