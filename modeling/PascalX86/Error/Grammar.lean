import PascalX86.Token.Basic

/-!
# Grammar errors

A token that fits no production at its place.
-/

set_option autoImplicit false

namespace PascalX86

inductive Expectation where
  | mark (m : Mark)
  | keyword (k : Keyword)
  | endOfFile
  | identifier
  | expression
  | type
  | statement
  deriving DecidableEq, Repr

def Expectation.text : Expectation → String
  | .mark m => (Token.mark m).describe
  | .keyword k => (Token.keyword k).describe
  | .endOfFile => Token.endOfFile.describe
  | .identifier => "identifier"
  | .expression => "expression"
  | .type => "type"
  | .statement => "statement"

structure GrammarError where
  expected : List Expectation
  found : Token

def GrammarError.message (e : GrammarError) : String :=
  let expected := " or ".intercalate (e.expected.map Expectation.text)
  s!"Required {expected} but found {e.found.describe}"

end PascalX86
