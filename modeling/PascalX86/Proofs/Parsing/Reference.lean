import PascalX86.Proofs.Parsing.Citation

/-!
# References and calls in statements

The parsers of expressions and statements only refer to what a name of the text stands for. Operands
that are converted or folded bring no names along.
-/

set_option autoImplicit false

namespace PascalX86.Parser

variable {items : List Scanned}

/-- What the parser answers is read from names of the items. -/
abbrev CitesTree (items : List Scanned) (p : Parser Expr) : Prop :=
  p.Cites items (Expr.All (Expr.Cited items))

section Operations

variable {e left right : Expr}

theorem cites_constantNode (span : Span) (type : Ty) (value : Value) :
    CitesTree items (constantNode span type value) := by
  refine (cites_node span type).bind fun info _ => .pure ?_
  split
  · exact Expr.all_const.mpr trivial
  · exact Expr.all_aggregate.mpr trivial

theorem cites_convert (cited : e.All (Expr.Cited items)) (target : Ty) :
    CitesTree items (convert e target) := by
  refine .ite (.pure cited) ((cites_node e.span target).bind fun info _ => ?_)
  split
  · exact .pure (Expr.all_const.mpr trivial)
  · exact .pure (Expr.all_cast.mpr ⟨trivial, cited⟩)

theorem cites_coerce (cited : e.All (Expr.Cited items)) (target : Ty) :
    CitesTree items (coerce e target) :=
  .located fun _ _ => cites_convert cited target

theorem cites_operation (op : Operator) (sign : Span) (first : left.All (Expr.Cited items))
    (second : right.All (Expr.Cited items)) : CitesTree items (operation op sign left right) := by
  refine .located fun typing _ => ?_
  split
  · refine .located fun value _ => (cites_node _ typing.result).bind fun info _ => .pure ?_
    exact Expr.all_const.mpr trivial
  · refine (cites_convert first typing.operands).bind fun left first => ?_
    refine (cites_convert second typing.operands).bind fun right second => ?_
    refine (cites_node _ typing.result).bind fun info _ => .pure ?_
    exact Expr.all_binary.mpr ⟨trivial, first, second⟩

theorem cites_plus (sign : Span) (cited : e.All (Expr.Cited items)) :
    CitesTree items (plus sign e) :=
  .ite (cites_convert cited _) .fail

theorem cites_minus (sign : Span) (cited : e.All (Expr.Cited items)) :
    CitesTree items (minus sign e) := by
  refine (cites_plus sign cited).bind fun operand cited => ?_
  dsimp only
  split
  · exact (cites_node _ operand.type).bind fun info _ => .pure (Expr.all_const.mpr trivial)
  · refine (cites_node _ operand.type).bind fun info _ => .pure ?_
    exact Expr.all_negate.mpr ⟨trivial, cited⟩

theorem cites_complement (sign : Span) (cited : e.All (Expr.Cited items)) :
    CitesTree items (complement sign e) := by
  refine (cites_plus sign cited).bind fun operand cited => ?_
  dsimp only
  split
  · exact (cites_node _ .integer).bind fun info _ => .pure (Expr.all_const.mpr trivial)
  · refine (cites_node _ .integer).bind fun info _ => .pure ?_
    exact Expr.all_complement.mpr ⟨trivial, cited⟩

theorem cites_operatorAt (level : Precedence) : (operatorAt level).Cites items fun _ => True :=
  cites_token.bind fun _ _ => .pure trivial

theorem cites_chain (level : Precedence) {operand : Parser Expr} (h : CitesTree items operand) :
    CitesTree items (chain level operand) := by
  refine h.bind fun e he => .iterate he fun left hleft => (cites_operatorAt level).bind fun r _ => ?_
  cases r with
  | none => exact .pure hleft
  | some op =>
      refine cites_bump.bind fun sign _ => h.bind fun right hright => ?_
      exact (cites_operation op sign.span hleft hright).bind fun e he => .pure he

theorem cites_levels {factor : Parser Expr} (h : CitesTree items factor) :
    CitesTree items (levels factor) :=
  cites_chain .relational (cites_chain .additive (cites_chain .multiplicative h))

end Operations

section Selection

variable {expression : Parser Expr} {e : Expr}

theorem cites_subscript (h : CitesTree items expression) (cited : e.All (Expr.Cited items)) :
    CitesTree items (subscript expression e) := by
  unfold subscript
  split
  · next low high element _ =>
    refine h.bind fun e₁ he₁ => (cites_coerce he₁ .integer).bind fun index hindex => ?_
    have made (span : Span) : CitesTree items (do return .index (← node span element) e index) :=
      (cites_node _ element).bind fun info _ => .pure (Expr.all_index.mpr ⟨trivial, cited, hindex⟩)
    dsimp only
    split
    · exact .ite .failed (made _)
    · exact made _
  · exact cites_here.bind fun _ _ => .fail

theorem cites_subscripts (h : CitesTree items expression) (cited : e.All (Expr.Cited items)) :
    CitesTree items (subscripts expression e) := by
  refine (cites_expect .openSquare).bind fun _ _ => (cites_subscript h cited).bind fun first hfirst => ?_
  refine (Cites.iterate hfirst fun array harray => ?_).bind fun last hlast =>
    (cites_expect .closeSquare).bind fun _ _ => .pure hlast
  refine (cites_eat .comma).bind fun _ _ => .ite ?_ (.pure harray)
  exact (cites_subscript h harray).bind fun e he => .pure he

theorem cites_selectField (cited : e.All (Expr.Cited items)) : CitesTree items (selectField e) := by
  unfold selectField
  split
  · refine cites_bump.bind fun _ _ => cites_identifier.bind fun name _ => ?_
    split
    · next f _ =>
      exact (cites_node _ f.type).bind fun info _ => .pure (Expr.all_field.mpr ⟨trivial, cited⟩)
    · exact .fail
  · exact cites_here.bind fun _ _ => .fail

theorem cites_selectors (h : CitesTree items expression) (cited : e.All (Expr.Cited items)) :
    CitesTree items (selectors expression e) := by
  refine .iterate cited fun e he => cites_token.bind fun t _ => ?_
  split
  · exact (cites_subscripts h he).bind fun _ h => .pure h
  · exact (cites_selectField he).bind fun _ h => .pure h
  · exact .pure he

theorem cites_variableNode {name : Located Name} {symbol : Symbol}
    (read : .ok ⟨.name name.value, name.span⟩ ∈ items)
    (same : symbol.name.value.same name.value = true) :
    CitesTree items (variableNode name.span symbol) := by
  refine (cites_node name.span symbol.type).bind fun info span => .pure (Expr.all_var.mpr ?_)
  exact ⟨name.value, span ▸ read, same⟩

theorem cites_assignable (h : CitesTree items expression) :
    (assignable expression).Cites items fun target => target.2.All (Expr.Cited items) := by
  refine cites_identifier.bind fun name read => (cites_lookup name).bind fun symbol ⟨same, _⟩ => ?_
  refine .ite ((cites_variableNode read same).bind fun e he => ?_) .fail
  exact (cites_selectors h he).bind fun target htarget => .pure htarget

end Selection

section Calls

variable {expression : Parser Expr}

theorem cites_fit {wrongCount : Parser Expr} (wrong : CitesTree items wrongCount) (span : Span)
    (parameters : List Parameter) {given : List Expr} (cited : ∀ e ∈ given, e.All (Expr.Cited items)) :
    (fit wrongCount span parameters given).Cites items fun arguments =>
      ∀ e ∈ arguments, e.All (Expr.Cited items) := by
  induction parameters generalizing given with
  | nil => exact .pure (by simp)
  | cons p parameters ih =>
      have rest : ∀ e ∈ given.tail, e.All (Expr.Cited items) :=
        fun e mem => cited e (List.mem_of_mem_tail mem)
      have passed (convert : Expr → Parser Expr)
          (converts : ∀ e, e.All (Expr.Cited items) → CitesTree items (convert e))
          (argument : Parser Expr) (h : CitesTree items argument) :
          (do return (← convert (← argument)) :: (← fit wrongCount span parameters given.tail) :
            Parser (List Expr)).Cites items fun arguments =>
              ∀ e ∈ arguments, e.All (Expr.Cited items) :=
        h.bind fun e he => (converts e he).bind fun e' he' => (ih rest).bind fun es hes =>
          .pure (List.forall_mem_cons.mpr ⟨he', hes⟩)
      have referred := passed (reference p) fun _ he => .ite (.pure he) .fail
      have valued := passed (coerce · p.type) fun _ he => cites_coerce he p.type
      unfold fit
      dsimp only
      split
      · next e head =>
        have found : CitesTree items (pure e) := .pure (cited e (List.mem_of_mem_head? head))
        cases p.mode
        case byReference => exact referred _ found
        all_goals exact valued _ found
      · next v _ _ =>
        have found : CitesTree items (constantNode span p.type v) := cites_constantNode span p.type v
        cases p.mode
        case byReference => exact referred _ found
        all_goals exact valued _ found
      · cases p.mode
        case byReference => exact referred _ wrong
        all_goals exact valued _ wrong

theorem cites_arguments (h : CitesTree items expression) :
    (arguments expression).Cites items fun given => ∀ e ∈ given.1, e.All (Expr.Cited items) := by
  refine (cites_eat .openParen).bind fun _ _ => .ite ?_ (.pure (by simp))
  refine (cites_atMark .closeParen).bind fun _ _ => .ite ?_ ?_
  · refine (Cites.pure (Q := fun given => given = []) rfl).bind fun given none => ?_
    exact (cites_expect .closeParen).bind fun _ _ => .pure (by simp [none])
  · exact (cites_separatedBy .comma h).bind fun given each =>
      (cites_expect .closeParen).bind fun _ _ => .pure each

theorem cites_call (h : CitesTree items expression) {name : Located Name} {function : Signature}
    (read : .ok ⟨.name name.value, name.span⟩ ∈ items)
    (same : function.name.value.same name.value = true) :
    (call expression name function).Cites items fun made =>
      function.CitedAt items made.1.span ∧ ∀ e ∈ made.2, e.All (Expr.Cited items) := by
  refine (cites_arguments h).bind fun given each => ?_
  refine .ite .failed ((cites_fit .fail _ function.parameters each).bind fun arguments cited => ?_)
  refine (cites_node _ function.result).bind fun info span => .pure ⟨?_, cited⟩
  exact ⟨name.value, name.span, read, by rw [span]; rfl, same⟩

theorem cites_designator (h : CitesTree items expression) : CitesTree items (designator expression) := by
  refine cites_identifier.bind fun name read => (cites_lookup name).bind fun symbol ⟨same, named⟩ => ?_
  have selected : CitesTree items (do selectors expression (← variableNode name.span symbol)) :=
    (cites_variableNode read same).bind fun e he => cites_selectors h he
  split
  · exact .fail
  · next function role =>
    have same : function.name.value.same name.value = true := named function role ▸ same
    have called : CitesTree items (do
        let made ← call expression name function
        return Expr.call made.1 function made.2) :=
      (cites_call h read same).bind fun made hmade => .pure (Expr.all_call.mpr hmade)
    split
    · exact .fail
    · exact called
  · refine .ite ((cites_node name.span symbol.type).bind fun _ _ => .pure ?_) selected
    exact Expr.all_const.mpr trivial
  · exact selected
  · exact selected

end Calls

section Factors

theorem cites_literal (type : Ty) (value : Value) : CitesTree items (literal type value) :=
  cites_bump.bind fun t _ =>
    (cites_node t.span type).bind fun _ _ => .pure (Expr.all_const.mpr trivial)

theorem cites_factorOver {inner : Parser Expr} (h : CitesTree items inner) :
    CitesTree items (factorOver inner) := by
  refine cites_token.bind fun t _ => ?_
  split
  · exact cites_literal _ _
  · exact cites_literal _ _
  · exact cites_literal _ _
  · exact cites_literal _ _
  · exact cites_bump.bind fun _ _ => (cites_levels h).bind fun e he =>
      (cites_expect .closeParen).bind fun _ _ => .pure he
  · exact cites_bump.bind fun sign _ => h.bind fun e he => cites_plus sign.span he
  · exact cites_bump.bind fun sign _ => h.bind fun e he => cites_minus sign.span he
  · exact cites_bump.bind fun sign _ => h.bind fun e he => cites_complement sign.span he
  · exact cites_designator (cites_levels h)
  · exact .unexpected

theorem cites_factor (depth : Nat) : CitesTree items (factor depth) := by
  induction depth with
  | zero => exact .unexpected
  | succ depth ih => exact cites_factorOver ih

theorem cites_expression : CitesTree items expression :=
  cites_remaining.bind fun depth _ => cites_levels (cites_factor depth)

theorem cites_constantInteger : constantInteger.Cites items fun _ => True := by
  refine cites_expression.bind fun e _ => ?_
  split
  · exact .pure trivial
  · exact .fail

theorem cites_condition : CitesTree items condition :=
  cites_expression.bind fun _ he => cites_coerce he .integer

end Factors

section Statements

abbrev CitesStatement (items : List Scanned) (p : Parser Stmt) : Prop :=
  p.Cites items (Stmt.All (Expr.Cited items) (Stmt.Cited items))

abbrev CitesOptional (items : List Scanned) (p : Parser (Option Stmt)) : Prop :=
  p.Cites items fun r => ∀ s ∈ r, s.All (Expr.Cited items) (Stmt.Cited items)

variable {statement : Parser (Option Stmt)}

theorem cites_compoundOver (h : CitesOptional items statement) :
    (compoundOver statement).Cites items fun body =>
      ∀ s ∈ body.2, s.All (Expr.Cited items) (Stmt.Cited items) := by
  refine (cites_keyword .begin).bind fun span _ => ?_
  refine (cites_separatedBy .semicolon h).bind fun statements each => ?_
  refine (cites_keyword .end).bind fun _ _ => .pure fun s mem => ?_
  obtain ⟨r, inside, eq⟩ := List.mem_filterMap.mp mem
  exact each r inside s eq

theorem cites_bodyOver (h : CitesOptional items statement) :
    CitesStatement items (bodyOver statement) := by
  refine cites_here.bind fun span _ => h.bind fun r each => ?_
  cases r with
  | none => exact (cites_node span .nil).bind fun info _ => .pure (Stmt.all_block.mpr ⟨trivial, by simp⟩)
  | some body => exact .pure (each body rfl)

theorem cites_loopBodyOver (h : CitesOptional items statement) :
    CitesStatement items (loopBodyOver statement) := by
  have counted (g : ParserState → Nat) :
      (modify fun s => { s with loops := g s } : Parser PUnit).Cites items fun _ => True :=
    .modified fun _ from_ => ⟨from_.cursor, from_.named, from_.functions⟩
  exact (counted _).bind fun _ _ => (cites_bodyOver h).bind fun body hbody =>
    (counted _).bind fun _ _ => .pure hbody

theorem cites_ifOver (h : CitesOptional items statement) : CitesStatement items (ifOver statement) := by
  refine (cites_keyword .if).bind fun span _ => cites_condition.bind fun test htest => ?_
  refine (cites_keyword .then).bind fun _ _ => (cites_bodyOver h).bind fun body hbody => ?_
  refine (cites_eatKeyword .else).bind fun _ _ => .ite ?_ ?_
  · refine (cites_bodyOver h).bind fun otherwise hotherwise => ?_
    refine (cites_node span .nil).bind fun info _ => .pure ?_
    exact Stmt.all_ifElse.mpr ⟨⟨trivial, htest⟩, hbody, hotherwise⟩
  · refine (cites_node span .nil).bind fun info _ => .pure ?_
    exact Stmt.all_ifThen.mpr ⟨⟨trivial, htest⟩, hbody⟩

theorem cites_whileOver (h : CitesOptional items statement) :
    CitesStatement items (whileOver statement) := by
  refine (cites_keyword .while).bind fun span _ => cites_condition.bind fun test htest => ?_
  refine (cites_keyword .do).bind fun _ _ => (cites_loopBodyOver h).bind fun body hbody => ?_
  refine (cites_node span .nil).bind fun info _ => .pure ?_
  exact Stmt.all_while.mpr ⟨⟨trivial, htest⟩, hbody⟩

theorem cites_counter : CitesTree items counter := by
  refine (cites_assignable cites_expression).bind fun ⟨name, target⟩ htarget => ?_
  cases target with
  | var info symbol => exact .ite (.pure htarget) .fail
  | _ => exact .fail

theorem cites_direction : direction.Cites items fun _ => True := by
  refine cites_token.bind fun t _ => ?_
  split
  · exact cites_bump.bind fun _ _ => .pure trivial
  · exact cites_bump.bind fun _ _ => .pure trivial
  · exact .unexpected

theorem cites_forOver (h : CitesOptional items statement) : CitesStatement items (forOver statement) := by
  refine (cites_keyword .for).bind fun span _ => cites_counter.bind fun target htarget => ?_
  refine (cites_expect .assign).bind fun _ _ => cites_expression.bind fun e₁ he₁ => ?_
  refine (cites_coerce he₁ target.type).bind fun first hfirst => cites_direction.bind fun way _ => ?_
  refine cites_expression.bind fun e₂ he₂ => (cites_coerce he₂ target.type).bind fun last hlast => ?_
  refine (cites_keyword .do).bind fun _ _ => (cites_loopBodyOver h).bind fun body hbody => ?_
  refine (cites_node span .nil).bind fun info _ => .pure ?_
  exact Stmt.all_for.mpr ⟨⟨trivial, htarget, hfirst, hlast⟩, hbody⟩

theorem cites_jump (k : Keyword) : (jump k).Cites items fun _ => True :=
  cites_bump.bind fun _ _ => .get fun _ => .ite .fail (.pure trivial)

theorem cites_readTarget : CitesTree items readTarget := by
  refine (cites_assignable cites_expression).bind fun ⟨name, target⟩ htarget => ?_
  dsimp only
  split
  · exact .pure htarget
  · exact .pure htarget
  · exact .pure htarget
  · exact .fail

theorem cites_readStatement (newline : Bool) : CitesStatement items (readStatement newline) := by
  have read (t : Located Token) {targets : List Expr}
      (each : ∀ e ∈ targets, e.All (Expr.Cited items)) :
      CitesStatement items (do return .read (← node t.span .nil) targets newline) :=
    (cites_node t.span .nil).bind fun info _ => .pure (Stmt.all_read.mpr ⟨trivial, each⟩)
  refine cites_bump.bind fun t _ => (cites_eat .openParen).bind fun _ _ => .ite ?_ ?_
  · exact (cites_separatedBy .comma cites_readTarget).bind fun targets each =>
      (cites_expect .closeParen).bind fun _ _ => read t each
  · exact read t (by simp)

theorem cites_writeArgument : CitesTree items writeArgument :=
  cites_expression.bind fun _ he => .ite (.pure he) .fail

theorem cites_writeStatement (newline : Bool) : CitesStatement items (writeStatement newline) := by
  have write (t : Located Token) {arguments : List Expr}
      (each : ∀ e ∈ arguments, e.All (Expr.Cited items)) :
      CitesStatement items (do return .write (← node t.span .nil) arguments newline) :=
    (cites_node t.span .nil).bind fun info _ => .pure (Stmt.all_write.mpr ⟨trivial, each⟩)
  refine cites_bump.bind fun t _ => (cites_eat .openParen).bind fun _ _ => .ite ?_ ?_
  · refine (cites_atMark .closeParen).bind fun _ _ => .ite ?_ ?_
    · exact (cites_expect .closeParen).bind fun _ _ => write t (by simp)
    · exact (cites_separatedBy .comma cites_writeArgument).bind fun arguments each =>
        (cites_expect .closeParen).bind fun _ _ => write t each
  · exact write t (by simp)

theorem cites_assignment {target : Expr} (cited : target.All (Expr.Cited items)) :
    CitesStatement items (assignment target) := by
  refine (cites_expect .assign).bind fun sign _ => cites_expression.bind fun e he => ?_
  refine (cites_coerce he target.type).bind fun value hvalue => ?_
  refine (cites_node _ .nil).bind fun info _ => .pure ?_
  exact Stmt.all_assign.mpr ⟨trivial, cited, hvalue⟩

theorem cites_namedStatement : CitesStatement items namedStatement := by
  refine cites_identifier.bind fun name read => (cites_lookup name).bind fun symbol ⟨same, named⟩ => ?_
  refine (cites_atMark .assign).bind fun assigns _ => ?_
  split
  · next function role =>
    have same : function.name.value.same name.value = true := named function role ▸ same
    exact (cites_call cites_expression read same).bind fun made hmade => .pure (Stmt.all_call.mpr hmade)
  · exact .fail
  · refine .ite ((cites_variableNode read same).bind fun e he => ?_) .fail
    exact (cites_selectors cites_expression he).bind fun target htarget => cites_assignment htarget

theorem cites_some {p : Parser Stmt} (h : CitesStatement items p) : CitesOptional items (some <$> p) :=
  h.bind fun _ hs => .pure fun _ mem => by cases mem; exact hs

theorem cites_statementOver {inner : Parser (Option Stmt)} (h : CitesOptional items inner) :
    CitesOptional items (statementOver inner) := by
  have jumps {make : NodeInfo → Stmt} (k : Keyword)
      (cited : ∀ info, (make info).All (Expr.Cited items) (Stmt.Cited items)) :
      CitesOptional items (do return some (make (← node (← jump k) .nil))) :=
    (cites_jump k).bind fun span _ => (cites_node span .nil).bind fun info _ =>
      .pure fun s mem => by cases mem; exact cited info
  refine cites_token.bind fun t _ => ?_
  split
  · refine (cites_compoundOver h).bind fun body each => ?_
    refine (cites_node body.1 .nil).bind fun info _ => .pure fun s mem => ?_
    cases mem
    exact Stmt.all_block.mpr ⟨trivial, each⟩
  · exact cites_some (cites_ifOver h)
  · exact cites_some (cites_whileOver h)
  · exact cites_some (cites_forOver h)
  · exact jumps .continue fun _ => Stmt.all_continue.mpr trivial
  · exact jumps .break fun _ => Stmt.all_break.mpr trivial
  · exact cites_some (cites_readStatement false)
  · exact cites_some (cites_readStatement true)
  · exact cites_some (cites_writeStatement false)
  · exact cites_some (cites_writeStatement true)
  · exact cites_some cites_namedStatement
  · exact .pure fun _ mem => by cases mem
  · exact .pure fun _ mem => by cases mem
  · exact .pure fun _ mem => by cases mem
  · exact .unexpected

end Statements

section Compound

theorem cites_statement (depth : Nat) : CitesOptional items (statement depth) := by
  induction depth with
  | zero => exact .unexpected
  | succ depth ih => exact cites_statementOver ih

theorem cites_compound :
    compound.Cites items fun body => ∀ s ∈ body.2, s.All (Expr.Cited items) (Stmt.Cited items) :=
  cites_remaining.bind fun depth _ => cites_compoundOver (cites_statement depth)

end Compound

end PascalX86.Parser
