import PascalX86.Parser.Expression
import PascalX86.Proofs.Parsing.Outcome

/-!
# Phrases

An expression as it is written, with its parentheses and the places of its signs, and with operands
of operators that bind tightly enough. Beside the tokens of a phrase stands what parsing does with
them in the order in which operators apply, with no word about levels and lookahead.
-/

set_option autoImplicit false

namespace PascalX86

def Precedence.rank : Precedence → Nat
  | .multiplicative => 1
  | .additive => 2
  | .relational => 3

/-- How loosely an operator binds. -/
def Operator.rank (op : Operator) : Nat := op.precedence.rank

theorem Operator.rank_le (op : Operator) : op.rank ≤ 3 := by
  cases op <;> decide

theorem Operator.type_of_isIntegerLike {op : Operator} {t u : Ty} (first : t.isIntegerLike = true)
    (second : u.isIntegerLike = true) : op.type t u = .ok ⟨.integer, .integer⟩ := by
  have result : op.resultType .integer = .integer := by
    cases kind : op.kind <;> simp [Operator.resultType, kind]
  simp [Operator.type, Operator.operandType?, first, second, result]

inductive Sign where
  | plus | minus | not
  deriving DecidableEq, Repr

namespace Sign

def token : Sign → Token
  | .plus => .mark .plus
  | .minus => .mark .minus
  | .not => .keyword .not

def apply : Sign → Span → Expr → Parser Expr
  | .plus => Parser.plus
  | .minus => Parser.minus
  | .not => Parser.complement

end Sign

inductive Phrase where
  | atom (t : Located Token)
  | group (opening : Span) (inner : Phrase) (closing : Span)
  | signed (sign : Sign) (span : Span) (operand : Phrase)
  | binary (op : Operator) (sign : Span) (left right : Phrase)

namespace Phrase

def tokens : Phrase → List (Located Token)
  | atom t => [t]
  | group opening inner closing =>
      ⟨.mark .openParen, opening⟩ :: (inner.tokens ++ [⟨.mark .closeParen, closing⟩])
  | signed sign span operand => ⟨sign.token, span⟩ :: operand.tokens
  | binary op sign left right => left.tokens ++ ⟨op.token, sign⟩ :: right.tokens

def rank : Phrase → Nat
  | binary op .. => op.rank
  | _ => 0

theorem rank_le (p : Phrase) : p.rank ≤ 3 := by
  cases p with
  | binary op => exact op.rank_le
  | _ => exact Nat.zero_le 3

/-- Operands bind as tightly as their operator does, the right one more tightly, and signs belong to
a single factor. -/
def Ranked : Phrase → Prop
  | atom _ => True
  | group _ inner _ => inner.Ranked
  | signed _ _ operand => operand.rank = 0 ∧ operand.Ranked
  | binary op _ left right =>
      left.rank ≤ op.rank ∧ right.rank < op.rank ∧ left.Ranked ∧ right.Ranked

/-- How deep parentheses and signs are nested around the innermost factor. -/
def depth : Phrase → Nat
  | atom _ => 1
  | group _ operand _ | signed _ _ operand => operand.depth + 1
  | binary _ _ left right => max left.depth right.depth

theorem depth_le_length (p : Phrase) : p.depth ≤ p.tokens.length := by
  induction p with
  | atom => simp [depth, tokens]
  | group _ _ _ ih | signed _ _ _ ih =>
      simp only [depth, tokens, List.length_cons, List.length_append]
      omega
  | binary _ _ _ _ left right =>
      simp only [depth, tokens, List.length_cons, List.length_append]
      omega

def leaves : Phrase → List (Located Token)
  | atom t => [t]
  | group _ operand _ | signed _ _ operand => operand.leaves
  | binary _ _ left right => left.leaves ++ right.leaves

/-- Builds the tree of a phrase from those of its leaves. -/
def build (leaf : Located Token → Parser Expr) : Phrase → Parser Expr
  | atom t => leaf t
  | group _ inner _ => inner.build leaf
  | signed sign span operand => do sign.apply span (← operand.build leaf)
  | binary op sign left right => do
      let l ← left.build leaf
      let r ← right.build leaf
      Parser.operation op sign l r

end Phrase

end PascalX86
