import PascalX86.Proofs.Descent.Expression

/-!
# Descent through statements

A statement takes a keyword before it reads a statement inside it. Empty ones take nothing, but are
read only once between the marks of a list and behind the keywords of a statement.
-/

set_option autoImplicit false

namespace PascalX86.Parser

variable {fork : Fork} {n : Nat} {P : Token → Prop} {p q : Parser (Option Stmt)}

section Bodies

theorem takes_loops (f : Nat → Nat) : Takes fork n P (fun _ => 0)
    (modify fun s => { s with loops := f s.loops } : Parser PUnit) (modify fun s => { s with loops := f s.loops }) :=
  (blind_modify _ fun _ _ => rfl).takes

theorem takes_bodyOver (h : Moves fork n p q) : Moves fork n (bodyOver p) (bodyOver q) := by
  refine .spanned fun span => h.seq fun s => ?_
  cases s with
  | some s => exact .pure rfl
  | none => exact takes_node.seq fun _ => .pure rfl

theorem takes_loopBodyOver (h : Moves fork n p q) : Moves fork n (loopBodyOver p) (loopBodyOver q) :=
  (takes_loops (· + 1)).seq fun _ => (takes_bodyOver h).seq fun _ =>
    (takes_loops (· - 1)).seq fun _ => .pure rfl

theorem takes_compoundOver (h : Moves fork n p q) :
    Takes fork (n + 1) P (fun _ => 0) (compoundOver p) (compoundOver q) :=
  (takes_keyword _).bind fun _ => h.separatedBy.seq fun _ => (takes_keyword _).seq fun _ => .pure rfl

theorem takes_ifOver (h : Moves fork n p q) :
    Takes fork (n + 1) P (fun _ => 0) (ifOver p) (ifOver q) := by
  refine (takes_keyword _).bind fun span => takes_condition.seq fun _ => ?_
  refine (takes_keyword _).seq fun _ => (takes_bodyOver h).seq fun _ => ?_
  refine (takes_eatKeyword _).eaten (Takes.weaken ?_ (Nat.sub_le _ 1)) (takes_node.seq fun _ => .pure rfl)
  exact (takes_bodyOver h).seq fun _ => takes_node.seq fun _ => .pure rfl

theorem takes_whileOver (h : Moves fork n p q) :
    Takes fork (n + 1) P (fun _ => 0) (whileOver p) (whileOver q) :=
  (takes_keyword _).bind fun _ => takes_condition.seq fun _ => (takes_keyword _).seq fun _ =>
    (takes_loopBodyOver h).seq fun _ => takes_node.seq fun _ => .pure rfl

theorem takes_counter : Takes fork n P (fun _ => 0) counter counter := by
  refine (takes_assignable takes_expression).seq fun answer => ?_
  obtain ⟨name, target⟩ := answer
  cases target with
  | var info symbol => exact .ite (.pure rfl) .fail
  | _ => exact .fail

theorem takes_direction : Takes fork n P (fun _ => 0) direction direction := by
  refine .look fun u _ => ?_
  cases u with
  | keyword k =>
      cases k with
      | «to» | downto => exact (takes_bump_at rfl).seq fun _ => .pure rfl
      | _ => exact .unexpected
  | _ => exact .unexpected

theorem takes_forOver (h : Moves fork n p q) :
    Takes fork (n + 1) P (fun _ => 0) (forOver p) (forOver q) := by
  refine (takes_keyword _).bind fun span => takes_counter.seq fun target => ?_
  refine (takes_expect _).seq fun _ => takes_expression.seq fun first => takes_coerce.seq fun first => ?_
  refine takes_direction.seq fun way => takes_expression.seq fun last => takes_coerce.seq fun last => ?_
  refine (takes_keyword _).seq fun _ => (takes_loopBodyOver h).seq fun body => ?_
  exact takes_node.seq fun _ => .pure rfl

end Bodies

section Simple

variable {u : Token} (inner : u.isEndOfFile = false)

include inner in
theorem takes_jump (k : Keyword) : Takes fork n (· = u) (fun _ => 0) (jump k) (jump k) := by
  have jumps (span : Span) : Blind (do if (← get).loops = 0 then fail (.outsideLoop k) span else return span) :=
    fun s c => (Blind.ite (.fail _ _) (.pure _) : Blind (if s.loops = 0 then _ else _)) s c
  exact (takes_bump_at inner).seq fun t => (jumps t.span).takes

theorem takes_readTarget : Takes fork n P (fun _ => 0) readTarget readTarget := by
  refine (takes_assignable takes_expression).seq fun answer => ?_
  obtain ⟨name, target⟩ := answer
  dsimp only
  cases target.type with
  | integer | double | char => exact .pure rfl
  | _ => exact .fail

include inner in
theorem takes_readStatement (newline : Bool) :
    Takes fork n (· = u) (fun _ => 0) (readStatement newline) (readStatement newline) := by
  refine (takes_bump_at inner).seq fun t => ?_
  have read (targets : List Expr) : Moves fork n (do return Stmt.read (← node t.span .nil) targets newline)
      (do return Stmt.read (← node t.span .nil) targets newline) :=
    takes_node.seq fun _ => .pure rfl
  refine (takes_eat _).eaten (Takes.weaken ?_ (Nat.sub_le n 1)) (read [])
  exact takes_readTarget.separatedBy.seq fun targets => (takes_expect _).seq fun _ => read targets

theorem takes_writeArgument : Takes fork n P (fun _ => 0) writeArgument writeArgument :=
  takes_expression.seq fun _ => .ite (.pure rfl) .fail

include inner in
theorem takes_writeStatement (newline : Bool) :
    Takes fork n (· = u) (fun _ => 0) (writeStatement newline) (writeStatement newline) := by
  refine (takes_bump_at inner).seq fun t => ?_
  have written (arguments : List Expr) : Moves fork n
      (do return Stmt.write (← node t.span .nil) arguments newline)
      (do return Stmt.write (← node t.span .nil) arguments newline) :=
    takes_node.seq fun _ => .pure rfl
  have closed (arguments : List Expr) : Moves fork n
      (do
        let _ ← expect .closeParen
        return Stmt.write (← node t.span .nil) arguments newline)
      (do
        let _ ← expect .closeParen
        return Stmt.write (← node t.span .nil) arguments newline) :=
    (takes_expect _).seq fun _ => written arguments
  refine (takes_eat _).eaten (Takes.weaken ?_ (Nat.sub_le n 1)) (written [])
  exact .test (closed []).any (takes_writeArgument.separatedBy.seq closed)

theorem takes_assignment (target : Expr) : Takes fork n P (fun _ => 0) (assignment target) (assignment target) :=
  (takes_expect _).seq fun _ => takes_expression.seq fun _ => takes_coerce.seq fun _ =>
    takes_node.seq fun _ => .pure rfl

theorem takes_namedStatement : Takes fork n P (fun _ => 0) namedStatement namedStatement := by
  refine takes_identifier.seq fun name => (blind_lookup name).takes.seq fun symbol => ?_
  have assigned : Moves fork n
      (do
        if symbol.isAssignable then
          assignment (← selectors expression (← variableNode name.span symbol))
        else
          fail (.assignToConstant name.value) name.span)
      (do
        if symbol.isAssignable then
          assignment (← selectors expression (← variableNode name.span symbol))
        else
          fail (.assignToConstant name.value) name.span) := by
    refine .ite ?_ .fail
    exact (blind_variableNode _ _).takes.seq fun target =>
      (takes_selectors takes_expression target).seq fun _ => takes_assignment _
  obtain ⟨declared, type, role⟩ := symbol
  cases role with
  | typeName => exact .test .fail .fail
  | function f => exact .test assigned.any ((takes_call takes_expression name f).seq fun _ => .pure rfl)
  | _ => exact .test assigned.any assigned

end Simple

section Statements

theorem takes_statementOver (h : Moves fork n p q) :
    Moves fork (n + 1) (statementOver p) (statementOver q) := by
  refine .look fun u _ => ?_
  cases u with
  | name _ => exact takes_namedStatement.map fun _ => Nat.le_refl 0
  | mark m =>
      cases m with
      | semicolon => exact .pure rfl
      | _ => exact .unexpected
  | keyword k =>
      cases k with
      | «begin» => exact (takes_compoundOver h).seq fun _ => takes_node.seq fun _ => .pure rfl
      | «if» => exact (takes_ifOver h).map fun _ => Nat.le_refl 0
      | «while» => exact (takes_whileOver h).map fun _ => Nat.le_refl 0
      | «for» => exact (takes_forOver h).map fun _ => Nat.le_refl 0
      | «continue» | «break» =>
          exact (takes_jump rfl _).seq fun _ => takes_node.seq fun _ => .pure rfl
      | read | readln => exact (takes_readStatement rfl _).map fun _ => Nat.le_refl 0
      | write | writeln => exact (takes_writeStatement rfl _).map fun _ => Nat.le_refl 0
      | «end» | «else» => exact .pure rfl
      | _ => exact .unexpected
  | _ => exact .unexpected

theorem grounded_statement : Grounded [.statement] statementOver statement :=
  ⟨rfl, fun _ => rfl, fun _ _ ends => look_at_end ends, takes_statementOver⟩

theorem takes_compound : Takes fork n P (fun _ => 0) compound compound := by
  refine .bounded fun m _ i j hi hj => ?_
  have statements : Moves fork m (statement i) (statement j) := grounded_statement.moves m i j hi hj
  exact (takes_compoundOver statements).weaken (Nat.le_add_right m 1)

theorem compound_unbounded {s : ParserState} (closed : s.cursor.Closed) :
    compound s = compoundOver (unbounded statement) s := by
  have same : Moves .none (s.cursor.remaining + 1) (compoundOver (statement s.cursor.remaining))
      (compoundOver (unbounded statement)) :=
    takes_compoundOver grounded_statement.moves_unbounded
  exact same.run_eq closed (Nat.le_add_right _ 1)

end Statements

end PascalX86.Parser
