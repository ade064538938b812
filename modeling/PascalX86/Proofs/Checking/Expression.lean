import PascalX86.Proofs.Checking.Rules

/-!
# Checking of expressions

The parsers of expressions build the trees that the rules describe.
-/

set_option autoImplicit false

namespace PascalX86.Parser

open Checking

variable {s : ParserState} {n n₀ : Nat}

def Builds (p : Parser Expr) : Prop := ∀ s n, p.Yields s n (Expression s.scopes n)

theorem yields_convert (e : Expr) (target : Ty) : (convert e target).Yields s n (Converts e target n) := by
  refine .ite (fun h => .pure (.keep h)) fun h => .node ?_
  obtain ⟨other, scalar⟩ := not_or.mp h
  have scalar : target.isScalar = true := by simpa using scalar
  split
  · next v known => exact .pure (.fold scalar known)
  · next unknown => exact .pure (.wrap scalar other unknown)

theorem yields_coerce (e : Expr) (target : Ty) : (coerce e target).Yields s n (Coerces e target n) := by
  refine .located fun _ checked => ?_
  have accepts : target.accepts e.type = true := by
    simp only [Ty.check] at checked
    split at checked
    · assumption
    · simp at checked
  exact (yields_convert e target).mono fun _ _ converted => ⟨accepts, converted⟩

theorem yields_operation (op : Operator) (sign : Span) (left right : Expr) :
    (operation op sign left right).Yields s n (Operates op left right n) := by
  refine .located fun typing typed => ?_
  dsimp only
  split
  · next l r known =>
    exact .located fun value evaluated => .node (.pure (.fold typed known evaluated))
  · next unknown =>
    refine (yields_convert left typing.operands).bind fun left' n₁ first => ?_
    refine (yields_convert right typing.operands).bind fun right' n₂ second => ?_
    exact .node (.pure (.make typed unknown first second))

theorem yields_plus (sign : Span) (e : Expr) : (plus sign e).Yields s n (Signed e n) := by
  refine .ite (fun numeric => ?_) fun _ => .fail
  exact (yields_convert e _).mono fun _ _ converted => ⟨numeric, converted⟩

theorem yields_minus (sign : Span) (e : Expr) : (minus sign e).Yields s n (Negates e n) := by
  refine (yields_plus sign e).bind fun operand n' signed => ?_
  dsimp only
  split
  · next v known => exact .node (.pure (.fold signed known))
  · next unknown => exact .node (.pure (.make signed unknown))

theorem yields_complement (sign : Span) (e : Expr) :
    (complement sign e).Yields s n (Complements e n) := by
  refine (yields_plus sign e).bind fun operand n' signed => ?_
  dsimp only
  split
  · next v known => exact .node (.pure (.fold signed known))
  · next unknown => exact .node (.pure (.make signed unknown))

theorem builds_chain (level : Precedence) {operand : Parser Expr} (h : Builds operand) :
    Builds (chain level operand) := by
  intro s n
  -- The operation so far is the left operand of the next one.
  refine (h s n).bind fun first n₁ hfirst => .iterate hfirst fun left n₂ hleft => ?_
  refine (reads_token.seq fun _ => .pure _ : (operatorAt level).Reads).bind fun op => ?_
  cases op with
  | none => exact .pure hleft
  | some op =>
      refine reads_bump.bind fun sign => (h s n₂).bind fun right n₃ hright => ?_
      refine (yields_operation op sign.span left right).bind fun e n₄ operated => .pure ?_
      exact .operation hleft hright operated

theorem builds_levels {factor : Parser Expr} (h : Builds factor) : Builds (levels factor) :=
  builds_chain .relational (builds_chain .additive (builds_chain .multiplicative h))

/-- References are selected from step by step. -/
def Selected (σ : Scopes) (n₀ : Nat) (symbol : Symbol) (e : Expr) (n : Nat) : Prop :=
  Expression σ n₀ e n ∧ e.root? = some symbol

theorem Selected.isReference {σ : Scopes} {symbol : Symbol} {e : Expr} (h : Selected σ n₀ symbol e n) :
    e.isReference = true := by
  simp [Expr.isReference, h.2]

section Selection

variable {expression : Parser Expr} {symbol : Symbol} {e : Expr}

theorem yields_subscript (h : Builds expression) (he : Selected s.scopes n₀ symbol e n) :
    (subscript expression e).Yields s n (Selected s.scopes n₀ symbol) := by
  unfold subscript
  split
  · next low high element type =>
    refine (h s n).bind fun e₁ n₁ subscripted => ?_
    refine (yields_coerce e₁ .integer).bind fun index n₂ coerced => ?_
    -- A constant index is compared with the bounds, of others nothing is known.
    have made (inside : ∀ n, index.value?.bind Value.integer? = some n → low ≤ n ∧ n ≤ high)
        (span : Span) : Selected s.scopes n₀ symbol (.index ⟨n₂, span, element⟩ e index) (n₂ + 1) :=
      ⟨.element he.1 he.isReference type subscripted coerced inside, he.2⟩
    dsimp only
    split
    · next m known =>
      refine .ite (fun _ => .fail) fun inside => .node (.pure (made ?_ _))
      intro m' known'
      obtain rfl : m = m' := Option.some.inj (known.symm.trans known')
      simpa [not_or] using inside
    · next unknown => exact .node (.pure (made (by simp [unknown]) _))
  · exact reads_here.bind fun _ => .fail

theorem yields_subscripts (h : Builds expression) (he : Selected s.scopes n₀ symbol e n) :
    (subscripts expression e).Yields s n (Selected s.scopes n₀ symbol) := by
  refine (reads_expect .openSquare).bind fun _ => (yields_subscript h he).bind fun first n₁ hfirst => ?_
  refine (Yields.iterate hfirst fun e n he => ?_).bind fun last n₂ hlast => ?_
  · refine (reads_eat .comma).bind fun b => ?_
    cases b with
    | true => exact (yields_subscript h he).bind fun _ _ h => .pure h
    | false => exact .pure he
  · exact (reads_expect .closeSquare).bind fun _ => .pure hlast

theorem yields_selectField (he : Selected s.scopes n₀ symbol e n) :
    (selectField e).Yields s n (Selected s.scopes n₀ symbol) := by
  unfold selectField
  split
  · next fields type =>
    refine reads_bump.bind fun _ => reads_identifier.bind fun name => ?_
    split
    · next f found => exact .node (.pure ⟨.field he.1 he.isReference type found, he.2⟩)
    · exact .fail
  · exact reads_here.bind fun _ => .fail

theorem yields_selectors (h : Builds expression) (he : Selected s.scopes n₀ symbol e n) :
    (selectors expression e).Yields s n (Selected s.scopes n₀ symbol) := by
  refine .iterate he fun e n he => reads_token.bind fun t => ?_
  split
  · exact (yields_subscripts h he).bind fun _ _ h => .pure h
  · exact (yields_selectField he).bind fun _ _ h => .pure h
  · exact .pure he

theorem yields_variableNode {name : Name} (found : s.scopes.lookup? name = some symbol)
    (referable : symbol.IsReferable) (span : Span) :
    (variableNode span symbol).Yields s n (Selected s.scopes n symbol) :=
  .node (.pure ⟨.variable found referable, rfl⟩)

theorem isReferable_of_isAssignable (h : symbol.isAssignable = true) : symbol.IsReferable := by
  cases role : symbol.role <;> simp_all [Symbol.isAssignable, Symbol.kind, Symbol.IsReferable]

theorem Selected.target {σ : Scopes} (h : Selected σ n₀ symbol e n)
    (assignable : symbol.isAssignable = true) : Target σ n₀ e n :=
  ⟨h.1, symbol, h.2, assignable⟩

theorem yields_assignable (h : Builds expression) :
    (assignable expression).Yields s n fun target n' => Target s.scopes n target.2 n' := by
  refine reads_identifier.bind fun name => .lookup fun symbol found => ?_
  refine .ite (fun assignable => ?_) fun _ => .fail
  have referable := isReferable_of_isAssignable assignable
  refine (yields_variableNode found referable name.span).bind fun e n₁ he => ?_
  exact (yields_selectors h he).bind fun target n₂ selected => .pure (selected.target assignable)

end Selection

section Calls

variable {expression : Parser Expr}

theorem yields_reference {p : Parameter} {e : Expr} (mode : p.mode = .byReference) :
    (reference p e).Yields s n (Passes p e n) := by
  refine .ite (fun allowed => .pure ?_) fun _ => .fail
  simp only [Bool.and_eq_true] at allowed
  obtain ⟨assignable, same⟩ := allowed
  cases root : e.root? with
  | none => simp [root] at assignable
  | some symbol => exact .reference mode ⟨symbol, root, by simpa [root] using assignable⟩ same

theorem yields_constantNode (span : Span) (type : Ty) (value : Value) :
    (constantNode span type value).Yields s n fun e n' =>
      e = .ofConstant ⟨n, span, type⟩ value ∧ n' = n + 1 :=
  .node (.pure ⟨rfl, rfl⟩)

theorem yields_fit {wrongCount : Parser Expr} (wrong : ∀ n Q, wrongCount.Yields s n Q) (span : Span)
    (parameters : List Parameter) (given : List Expr) :
    (fit wrongCount span parameters given).Yields s n (Fits parameters given n) := by
  induction parameters generalizing given n with
  | nil => exact .pure (.nil given n)
  | cons p parameters ih =>
      -- Given and default arguments go the same way once they have been found.
      have passes (convert : Expr → Parser Expr)
          (converts : ∀ e n₁, (convert e).Yields s n₁ (Passes p e n₁)) (e : Expr) (n₁ : Nat)
          (supplied : Supplies p n given.head? e n₁) :
          (return (← convert e) :: (← fit wrongCount span parameters given.tail) :
            Parser (List Expr)).Yields s n₁ (Fits (p :: parameters) given n) := by
        refine (converts e n₁).bind fun e' n₂ passed => ?_
        exact (ih given.tail).bind fun _ _ rest => .pure (.cons supplied passed rest)
      have references (mode : p.mode = .byReference) :=
        passes (reference p) fun _ _ => yields_reference mode
      have values (mode : p.mode ≠ .byReference) :=
        passes (coerce · p.type) fun e _ => (yields_coerce e p.type).mono fun _ _ => .value mode
      unfold fit
      dsimp only
      split
      · next _ _ e head =>
        have argument : Supplies p n given.head? e n := head ▸ .given e
        refine (Yields.pure argument).bind fun e n₁ supplied => ?_
        split
        · next mode => exact references mode e n₁ supplied
        · next mode => exact values (by simp [mode]) e n₁ supplied
        · next mode => exact values (by simp [mode]) e n₁ supplied
      · next v head known =>
        refine (yields_constantNode span p.type v).bind ?_
        rintro e n₁ ⟨rfl, rfl⟩
        have argument : Supplies p n given.head? (.ofConstant ⟨n, span, p.type⟩ v) (n + 1) :=
          head ▸ .default known
        split
        · next mode => exact references mode _ _ argument
        · next mode => exact values (by simp [mode]) _ _ argument
        · next mode => exact values (by simp [mode]) _ _ argument
      · exact (wrong n fun _ _ => False).bind fun _ _ h => h.elim

theorem yields_arguments (h : Builds expression) :
    (arguments expression).Yields s n fun given n' => Chain (Expression s.scopes) n given.1 n' := by
  refine (reads_eat .openParen).bind fun b => .ite (fun _ => ?_) fun _ => .pure (.nil n)
  refine (reads_atMark .closeParen).bind fun b => .ite (fun _ => ?_) fun _ => ?_
  · refine (Yields.pure (Chain.nil n : Chain (Expression s.scopes) n [] n)).bind fun given n' each => ?_
    exact (reads_expect .closeParen).bind fun _ => .pure each
  · refine (yields_separatedBy .comma (h s)).bind fun given n' each => ?_
    exact (reads_expect .closeParen).bind fun _ => .pure each.1

def Called (σ : Scopes) (function : Signature) (n : Nat) (call : NodeInfo × List Expr) (n' : Nat) :
    Prop :=
  ∃ given n₁ n₂ span, Chain (Expression σ) n given n₁ ∧
    given.length ≤ function.parameters.length ∧ Fits function.parameters given n₁ call.2 n₂ ∧
    call.1 = ⟨n₂, span, function.result⟩ ∧ n' = n₂ + 1

theorem yields_call (h : Builds expression) (name : Located Name) (function : Signature) :
    (call expression name function).Yields s n (Called s.scopes function n) := by
  refine (yields_arguments h).bind fun given n₁ each => ?_
  refine .ite (fun _ => .failed) fun count => ?_
  refine (yields_fit (fun _ _ => .fail) _ function.parameters given.1).bind fun arguments n₂ fitted => ?_
  exact .node (.pure ⟨given.1, n₁, n₂, _, each, Nat.le_of_not_lt count, fitted, rfl, rfl⟩)

theorem Called.inExpression {σ : Scopes} {name : Name} {symbol : Symbol} {function : Signature}
    {call : NodeInfo × List Expr} {n' : Nat} (h : Called σ function n call n')
    (found : σ.lookup? name = some symbol) (role : symbol.role = .function function)
    (result : function.result ≠ .nil) : Expression σ n (.call call.1 function call.2) n' := by
  obtain ⟨given, n₁, n₂, span, chain, count, fitted, info, rfl⟩ := h
  obtain ⟨stage, rfl, rfl, each⟩ := chain.stages
  rw [info]
  exact .call found role result each count fitted

theorem builds_designator (h : Builds expression) : Builds (designator expression) := by
  intro s n
  refine reads_identifier.bind fun name => .lookup fun symbol found => ?_
  -- Variables, parameters and stored constants are selected from alike.
  have selected (referable : symbol.IsReferable) :
      (do selectors expression (← variableNode name.span symbol)).Yields s n (Expression s.scopes n) := by
    refine (yields_variableNode found referable name.span).bind fun e n₁ he => ?_
    exact (yields_selectors h he).mono fun _ _ selected => selected.1
  split
  · exact .fail
  · next function role =>
    have called (result : function.result ≠ .nil) :
        (do let made ← call expression name function
            return Expr.call made.1 function made.2 : Parser Expr).Yields s n (Expression s.scopes n) :=
      (yields_call h name function).bind fun _ _ called => .pure (called.inExpression found role result)
    split
    · exact .fail
    · next result => exact called result
  · next value slot role =>
    refine .ite (fun scalar => .node (.pure (.constant found role scalar))) fun structured => ?_
    exact selected (by simpa [Symbol.IsReferable, role] using structured)
  · next role => exact selected (by simp [Symbol.IsReferable, role])
  · next role => exact selected (by simp [Symbol.IsReferable, role])

end Calls

section Factors

theorem yields_literal {type : Ty} {value : Value} (scalar : type.isScalar = true)
    (fits : value.Fits type) : (literal type value).Yields s n (Expression s.scopes n) :=
  reads_bump.bind fun _ => .node (.pure (.literal scalar fits))

theorem builds_factorOver {inner : Parser Expr} (h : Builds inner) : Builds (factorOver inner) := by
  intro s n
  refine reads_token.bind fun t => ?_
  split
  · exact yields_literal rfl trivial
  · exact yields_literal rfl trivial
  · exact yields_literal rfl trivial
  · exact yields_literal rfl trivial
  · refine reads_bump.bind fun _ => (builds_levels h s n).bind fun e n' he => ?_
    exact (reads_expect .closeParen).bind fun _ => .pure he
  · refine reads_bump.bind fun sign => (h s n).bind fun e n' he => ?_
    exact (yields_plus sign.span e).mono fun _ _ signed => .signed he signed
  · refine reads_bump.bind fun sign => (h s n).bind fun e n' he => ?_
    exact (yields_minus sign.span e).mono fun _ _ negated => .negated he negated
  · refine reads_bump.bind fun sign => (h s n).bind fun e n' he => ?_
    exact (yields_complement sign.span e).mono fun _ _ complemented => .complemented he complemented
  · exact builds_designator (builds_levels h) s n
  · exact .unexpected

theorem builds_factor (depth : Nat) : Builds (factor depth) := by
  induction depth with
  | zero => exact fun _ _ => .unexpected
  | succ depth ih => exact builds_factorOver ih

theorem builds_expression : Builds expression :=
  fun s n => reads_remaining.bind fun depth => builds_levels (builds_factor depth) s n

theorem yields_condition : condition.Yields s n (Condition s.scopes n) :=
  (builds_expression s n).bind fun e₀ n₀ he =>
    (yields_coerce e₀ .integer).mono fun _ _ coerced => ⟨e₀, n₀, he, coerced⟩

theorem yields_constantInteger :
    constantInteger.Yields s n fun _ n' => ∃ e, Expression s.scopes n e n' := by
  refine (builds_expression s n).bind fun e n' he => ?_
  split
  · exact .pure ⟨e, he⟩
  · exact .fail

end Factors

end PascalX86.Parser
