import PascalX86.Error.Grammar
import PascalX86.Error.Lowering
import PascalX86.Error.Semantic
import PascalX86.Token.Scan

/-!
# Compile errors

The first error of a compilation, in whichever phase it arose, and its classes as users see them.
-/

set_option autoImplicit false

namespace PascalX86

inductive ErrorClass where
  | lexical | grammatical | lowering
  deriving DecidableEq, Repr

namespace ErrorClass

def name : ErrorClass → String
  | .lexical => "Lexical"
  | .grammatical => "Syntax"
  | .lowering => "Generation"

def label : ErrorClass → String
  | .lexical => "lexical error"
  | .grammatical => "syntax error"
  | .lowering => "generation error"

def exitCode : ErrorClass → Nat
  | .lexical => 2
  | .grammatical => 3
  | .lowering => 4

end ErrorClass

inductive CompileError where
  | lexical (e : Located LexicalError)
  | semantic (e : Located SemanticError)
  | grammatical (e : Located GrammarError)
  | lowering (e : Located LoweringError)

namespace CompileError

-- Users see semantic errors as lexical ones.
def kind : CompileError → ErrorClass
  | .lexical _ | .semantic _ => .lexical
  | .grammatical _ => .grammatical
  | .lowering _ => .lowering

def exitCode (e : CompileError) : Nat := e.kind.exitCode

def span : CompileError → Span
  | .lexical e => e.span
  | .semantic e => e.span
  | .grammatical e => e.span
  | .lowering e => e.span

def reason : CompileError → String
  | .lexical e => e.value.message
  | .semantic e => e.value.message
  | .grammatical e => e.value.message
  | .lowering e => e.value.message

def message (e : CompileError) : String :=
  s!"{e.kind.name} error at {e.span.start.text}: {e.reason}"

end CompileError

end PascalX86
