import PascalX86.Parser.Statement
import PascalX86.Proofs.Checking.Expression

/-!
# Checking of statements

The parsers of statements build the trees that the rules describe. Loops are counted while their
bodies are read.
-/

set_option autoImplicit false

namespace PascalX86.Parser

open Checking

variable {s : ParserState} {n : Nat}

/-- A statement where one was read; empty ones leave nothing. -/
def Formed (s : ParserState) (n : Nat) (r : Option Stmt) (n' : Nat) : Prop :=
  match r with
  | none => n' = n
  | some statement => Statement s.scopes s.loops n statement n'

def Forms (p : Parser (Option Stmt)) : Prop := ∀ s n, p.Yields s n (Formed s n)

theorem Formed.chain {statements : List (Option Stmt)} {n' : Nat}
    (h : Chain (Formed s) n statements n') :
    Chain (Statement s.scopes s.loops) n (statements.filterMap id) n' := by
  induction h with
  | nil n => exact .nil n
  | @cons n n₁ n₂ statement statements head _ ih =>
      cases statement with
      | none =>
          obtain rfl : n₁ = n := head
          simpa using ih
      | some statement => exact Chain.cons (R := Statement s.scopes s.loops) head ih

section Parts

variable {statement : Parser (Option Stmt)}

theorem yields_compoundOver (h : Forms statement) :
    (compoundOver statement).Yields s n fun body n' =>
      Chain (Statement s.scopes s.loops) n body.2 n' := by
  refine (reads_keyword .begin).bind fun span => ?_
  refine (yields_separatedBy .semicolon (h s)).bind fun statements n' each => ?_
  exact (reads_keyword .end).bind fun _ => .pure (Formed.chain each.1)

theorem block_of_chain {σ : Scopes} {loops n n' : Nat} {statements : List Stmt} {span : Span}
    (h : Chain (Statement σ loops) n statements n') :
    Statement σ loops n (.block ⟨n', span, .nil⟩ statements) (n' + 1) := by
  obtain ⟨stage, rfl, rfl, each⟩ := h.stages
  exact .block each

theorem yields_bodyOver (h : Forms statement) :
    (bodyOver statement).Yields s n (Statement s.scopes s.loops n) := by
  refine reads_here.bind fun span => (h s n).bind fun r n' formed => ?_
  cases r with
  | none =>
      obtain rfl : n' = n := formed
      exact .node (.pure (block_of_chain (.nil n')))
  | some body => exact .pure formed

theorem yields_loopBodyOver (h : Forms statement) :
    (loopBodyOver statement).Yields s n (Statement s.scopes (s.loops + 1) n) := by
  intro c
  -- The number of open loops is not among what a parser leaves alone, so this goes below `Yields`.
  have body := yields_bodyOver (s := { s with loops := s.loops + 1 }) (n := n) h c
  refine .modify (body.bind ?_)
  rintro body _ ⟨c', n', rfl, formed⟩
  exact .modify (.pure ⟨c', n', rfl, formed⟩)

theorem yields_ifOver (h : Forms statement) :
    (ifOver statement).Yields s n (Statement s.scopes s.loops n) := by
  refine (reads_keyword .if).bind fun span => yields_condition.bind fun test n₁ htest => ?_
  refine (reads_keyword .then).bind fun _ => (yields_bodyOver h).bind fun body n₂ hbody => ?_
  refine (reads_eatKeyword .else).bind fun b => .ite (fun _ => ?_) fun _ => ?_
  · refine (yields_bodyOver h).bind fun otherwise n₃ hotherwise => ?_
    exact .node (.pure (.ifElse htest hbody hotherwise))
  · exact .node (.pure (.ifThen htest hbody))

theorem yields_whileOver (h : Forms statement) :
    (whileOver statement).Yields s n (Statement s.scopes s.loops n) := by
  refine (reads_keyword .while).bind fun span => yields_condition.bind fun test n₁ htest => ?_
  refine (reads_keyword .do).bind fun _ => (yields_loopBodyOver h).bind fun body n₂ hbody => ?_
  exact .node (.pure (.while htest hbody))

theorem yields_counter :
    counter.Yields s n fun target n' =>
      (∃ info symbol, target = .var info symbol ∧ info.type.isIntegerLike = true) ∧
        Target s.scopes n target n' := by
  refine (yields_assignable builds_expression).bind fun target n' htarget => ?_
  dsimp only
  split
  · next info symbol whole =>
    refine .ite (fun like => .pure ⟨⟨info, symbol, whole, like⟩, htarget⟩) fun _ => .fail
  · exact .fail

theorem reads_direction : direction.Reads := by
  refine reads_token.seq fun t => ?_
  split
  · exact reads_bump.seq fun _ => .pure _
  · exact reads_bump.seq fun _ => .pure _
  · exact fun _ _ => .unexpected

theorem yields_forOver (h : Forms statement) :
    (forOver statement).Yields s n (Statement s.scopes s.loops n) := by
  refine (reads_keyword .for).bind fun span => yields_counter.bind ?_
  rintro _ n₁ ⟨⟨info, symbol, rfl, like⟩, counter⟩
  refine (reads_expect .assign).bind fun _ => ?_
  refine (builds_expression s n₁).bind fun e₁ n₂ lower => ?_
  refine (yields_coerce e₁ info.type).bind fun first n₃ lower' => ?_
  refine reads_direction.bind fun way => ?_
  refine (builds_expression s n₃).bind fun e₂ n₄ upper => ?_
  refine (yields_coerce e₂ info.type).bind fun last n₅ upper' => ?_
  refine (reads_keyword .do).bind fun _ => (yields_loopBodyOver h).bind fun body n₆ hbody => ?_
  exact .node (.pure (.for counter like lower lower' upper upper' hbody))

theorem yields_jump (k : Keyword) :
    (jump k).Yields s n fun _ n' => s.loops ≠ 0 ∧ n' = n := by
  refine reads_bump.bind fun t c => .get ?_
  exact Yields.ite (fun _ => .fail) (fun inside => .pure ⟨inside, rfl⟩) c

theorem yields_readTarget : readTarget.Yields s n (Readable s.scopes n) := by
  refine (yields_assignable builds_expression).bind fun target n' htarget => ?_
  dsimp only
  split
  · next type => exact .pure ⟨htarget, .inl type⟩
  · next type => exact .pure ⟨htarget, .inr (.inl type)⟩
  · next type => exact .pure ⟨htarget, .inr (.inr type)⟩
  · exact .fail

theorem yields_readStatement (newline : Bool) :
    (readStatement newline).Yields s n (Statement s.scopes s.loops n) := by
  refine reads_bump.bind fun t => (reads_eat .openParen).bind fun b => .ite (fun _ => ?_) fun _ => ?_
  · refine (yields_separatedBy .comma fun n => yields_readTarget).bind fun targets n' each => ?_
    exact (reads_expect .closeParen).bind fun _ => .pure_bind (.node (.pure (.read each.1)))
  · exact .pure_bind (.node (.pure (.read (.nil n))))

theorem yields_writeArgument : writeArgument.Yields s n (Writable s.scopes n) :=
  (builds_expression s n).bind fun _ _ he => .ite (fun scalar => .pure ⟨he, scalar⟩) fun _ => .fail

theorem yields_writeStatement (newline : Bool) :
    (writeStatement newline).Yields s n (Statement s.scopes s.loops n) := by
  -- With and without parentheses the statement ends alike.
  have written {arguments : List Expr} {n' : Nat} (span : Span)
      (each : Chain (Writable s.scopes) n arguments n') :
      (do let arguments ← pure arguments
          return .write (← node span .nil) arguments newline : Parser Stmt).Yields s n'
        (Statement s.scopes s.loops n) := .pure_bind (.node (.pure (.write each)))
  refine reads_bump.bind fun t => (reads_eat .openParen).bind fun b => .ite (fun _ => ?_) fun _ => ?_
  · refine (reads_atMark .closeParen).bind fun b => .ite (fun _ => ?_) fun _ => ?_
    · exact (reads_expect .closeParen).bind fun _ => written t.span (.nil n)
    · refine (yields_separatedBy .comma fun n => yields_writeArgument).bind fun arguments n' each => ?_
      exact (reads_expect .closeParen).bind fun _ => written t.span each.1
  · exact written t.span (.nil n)

theorem yields_namedStatement : namedStatement.Yields s n (Statement s.scopes s.loops n) := by
  refine reads_identifier.bind fun name => .lookup fun symbol found => ?_
  refine (reads_atMark .assign).bind fun assigns => ?_
  -- Constants are refused before their selectors are read.
  have assigned (assignable : symbol.isAssignable = true) :
      (do assignment (← selectors expression (← variableNode name.span symbol))).Yields s n
        (Statement s.scopes s.loops n) := by
    have referable := isReferable_of_isAssignable assignable
    refine (yields_variableNode found referable name.span).bind fun e n₁ he => ?_
    refine (yields_selectors builds_expression he).bind fun target n₂ selected => ?_
    refine (reads_expect .assign).bind fun sign => (builds_expression s n₂).bind fun e n₃ right => ?_
    refine (yields_coerce e target.type).bind fun value n₄ coerced => ?_
    exact .node (.pure (.assign (selected.target assignable) right coerced))
  split
  · next function role =>
    refine (yields_call builds_expression name function).bind ?_
    rintro ⟨info, arguments⟩ _ ⟨given, n₁, n₂, span, each, count, fitted, rfl, rfl⟩
    exact .pure (.call found role each count fitted)
  · exact .fail
  · exact .ite assigned fun _ => .fail

theorem yields_some {p : Parser Stmt} (h : p.Yields s n (Statement s.scopes s.loops n)) :
    (some <$> p).Yields s n (Formed s n) :=
  .map h

end Parts

theorem forms_statementOver {inner : Parser (Option Stmt)} (h : Forms inner) :
    Forms (statementOver inner) := by
  intro s n
  refine reads_token.bind fun t => ?_
  split
  · exact (yields_compoundOver h).bind fun body n' each => .node (.pure (block_of_chain each))
  · exact yields_some (yields_ifOver h)
  · exact yields_some (yields_whileOver h)
  · exact yields_some (yields_forOver h)
  · refine (yields_jump .continue).bind ?_
    rintro span _ ⟨inside, rfl⟩
    exact .node (.pure (.continue inside))
  · refine (yields_jump .break).bind ?_
    rintro span _ ⟨inside, rfl⟩
    exact .node (.pure (.break inside))
  · exact yields_some (yields_readStatement false)
  · exact yields_some (yields_readStatement true)
  · exact yields_some (yields_writeStatement false)
  · exact yields_some (yields_writeStatement true)
  · exact yields_some yields_namedStatement
  · exact .pure rfl
  · exact .pure rfl
  · exact .pure rfl
  · exact .unexpected

theorem forms_statement (depth : Nat) : Forms (statement depth) := by
  induction depth with
  | zero => exact fun _ _ => .unexpected
  | succ depth ih => exact forms_statementOver ih

theorem yields_compound :
    compound.Yields s n fun body n' => Chain (Statement s.scopes s.loops) n body.2 n' :=
  reads_remaining.bind fun depth => yields_compoundOver (forms_statement depth)

end PascalX86.Parser
