import PascalX86.Proofs.Descent.Loop

/-!
# Descent through expressions

A factor takes a token before it reads a factor inside it, and so does every turn of the loops over
operators, selectors, subscripts and arguments.
-/

set_option autoImplicit false

namespace PascalX86.Parser

variable {fork : Fork} {n : Nat} {P : Token → Prop}

section Blindness

theorem blind_coerce (e : Expr) (target : Ty) : (coerce e target).Blind :=
  (blind_locate _ _).bind fun _ => blind_of_still fun _ => still_convert e target

theorem blind_operation (op : Operator) (sign : Span) (left right : Expr) :
    (operation op sign left right).Blind :=
  blind_of_still fun _ => still_operation op sign left right

theorem blind_variableNode (span : Span) (symbol : Symbol) : (variableNode span symbol).Blind :=
  (blind_node _ _).bind fun _ => .pure _

theorem blind_reference (parameter : Parameter) (e : Expr) : (reference parameter e).Blind :=
  .ite (.pure _) (.fail _ _)

theorem blind_fit {wrongCount : Parser Expr} (h : wrongCount.Blind) (span : Span)
    (parameters : List Parameter) (given : List Expr) : (fit wrongCount span parameters given).Blind := by
  induction parameters generalizing given with
  | nil => exact .pure _
  | cons parameter parameters ih =>
      obtain ⟨name, type, mode, default, slot⟩ := parameter
      have next (e : Expr) : (do return e :: (← fit wrongCount span parameters given.tail)).Blind :=
        (ih given.tail).bind fun _ => .pure _
      -- Whether it was given or is the default, an argument is passed in the same way.
      have passed {pass : Expr → Parser Expr} (fits : ∀ e, (pass e).Blind) (e : Expr) :
          Blind (do return (← pass e) :: (← fit wrongCount span parameters given.tail)) :=
        (fits e).bind next
      cases mode with
      | byReference =>
          have passed := passed (blind_reference ⟨name, type, .byReference, default, slot⟩)
          rcases given with _ | ⟨e, given⟩
          · cases default with
            | none => exact h.bind passed
            | some v => exact (blind_constantNode span type v).bind passed
          · exact (Blind.pure e).bind passed
      | _ =>
          have passed := passed fun e => blind_coerce e type
          rcases given with _ | ⟨e, given⟩
          · cases default with
            | none => exact h.bind passed
            | some v => exact (blind_constantNode span type v).bind passed
          · exact (Blind.pure e).bind passed

end Blindness

variable {p q : Parser Expr}

section Operators

theorem takes_node {span : Span} {type : Ty} :
    Takes fork n P (fun _ => 0) (node span type) (node span type) :=
  (blind_node span type).takes

theorem takes_coerce {e : Expr} {target : Ty} :
    Takes fork n P (fun _ => 0) (coerce e target) (coerce e target) :=
  (blind_coerce e target).takes

theorem inner_of_operator {level : Precedence} {u : Token} {op : Operator}
    (found : Operator.atLevel? level u = some op) : u.isEndOfFile = false := by
  cases u <;> first | rfl | cases found

theorem takes_turn (h : Moves fork (n - 1) p q) (level : Precedence) (left : Expr) :
    Takes fork n P turned (turn level p left) (turn level q left) := by
  refine .seen fun u _ => ?_
  cases found : Operator.atLevel? level u with
  | none => exact .pure rfl
  | some op =>
      refine (takes_bump_at (inner_of_operator found)).bind fun sign => h.seq fun right => ?_
      exact (blind_operation op sign.span left right).takes.seq fun _ => .pure rfl

theorem stops_turn (level : Precedence) (left : Expr) : Stops (turn level p left) := by
  intro s ends
  have absent : Operator.atLevel? level s.cursor.current.value = none := by
    cases found : Operator.atLevel? level s.cursor.current.value with
    | none => rfl
    | some op => exact Bool.noConfusion ((inner_of_operator found).symm.trans ends)
  have stands : operatorAt level s = .ok (none, s) := congrArg (fun op => Except.ok (op, s)) absent
  exact bind_of_ok stands

theorem takes_chain (h : Moves fork n p q) (level : Precedence) : Moves fork n (chain level p) (chain level q) :=
  h.seq fun first => .iterate (takes_turn (h.weaken (Nat.sub_le n 1)) level) (stops_turn level)
    (stops_turn level) first

theorem takes_levels (h : Moves fork n p q) : Moves fork n (levels p) (levels q) :=
  takes_chain (takes_chain (takes_chain h _) _) _

end Operators

section Designators

theorem takes_subscript (h : Moves fork n p q) (array : Expr) :
    Moves fork n (subscript p array) (subscript q array) := by
  unfold subscript
  cases array.type with
  | array low high element =>
      refine h.seq fun e => takes_coerce.seq fun index => ?_
      dsimp only
      cases index.value?.bind Value.integer? with
      | none => exact takes_node.seq fun _ => .pure rfl
      | some n => exact .ite .failed (takes_node.seq fun _ => .pure rfl)
  | _ => exact .spanned fun _ => .fail

theorem takes_subscripts (h : Moves fork n p q) (array : Expr) :
    Takes fork n P (fun _ => 1) (subscripts p array) (subscripts q array) := by
  have smaller := h.weaken (Nat.sub_le n 1)
  refine (takes_expect _).bind fun _ => (takes_subscript smaller array).seq fun first => ?_
  have next (array : Expr) : Takes fork (n - 1) (fun _ => True) turned
      (listed .comma (subscript p array)) (listed .comma (subscript q array)) :=
    takes_listed (takes_subscript (smaller.weaken (Nat.sub_le _ 1)) array)
  exact (Takes.iterate next (fun _ => stops_listed) (fun _ => stops_listed) first).seq fun _ =>
    (takes_expect _).seq fun _ => .pure rfl

theorem takes_selectField {u : Token} (inner : u.isEndOfFile = false) (record : Expr) :
    Takes fork n (· = u) (fun _ => 1) (selectField record) (selectField record) := by
  unfold selectField
  cases record.type with
  | record fields =>
      refine (takes_bump_at inner).bind fun _ => takes_identifier.seq fun name => ?_
      cases fields.get? name.value with
      | some f => exact takes_node.seq fun _ => .pure rfl
      | none => exact .fail
  | _ => exact .spanned fun _ => .fail

-- The turn of the loop over what selects a part of a variable.
def selector (expression : Parser Expr) (e : Expr) : Parser (Option Expr) := do
  match ← token with
  | .mark .openSquare => return some (← subscripts expression e)
  | .mark .period => return some (← selectField e)
  | _ => return none

theorem selectors_eq (expression : Parser Expr) : selectors expression = iterate (selector expression) := rfl

theorem takes_selector (h : Moves fork n p q) (e : Expr) :
    Takes fork n P turned (selector p e) (selector q e) := by
  refine .look fun u _ => ?_
  cases u with
  | mark m =>
      cases m with
      | openSquare => exact (takes_subscripts h e).bind fun _ => .pure rfl
      | period => exact (takes_selectField rfl e).bind fun _ => .pure rfl
      | _ => exact .pure rfl
  | _ => exact .pure rfl

theorem stops_selector (e : Expr) : Stops (selector p e) := fun _ ends => look_at_end ends

theorem takes_selectors (h : Moves fork n p q) (e : Expr) : Moves fork n (selectors p e) (selectors q e) := by
  rw [selectors_eq, selectors_eq]
  exact .iterate (takes_selector h) stops_selector stops_selector e

theorem takes_assignable (h : Moves fork n p q) :
    Takes fork n P (fun _ => 0) (assignable p) (assignable q) := by
  refine takes_identifier.seq fun name => (blind_lookup name).takes.seq fun symbol => .ite ?_ .fail
  exact (blind_variableNode _ _).takes.seq fun e => (takes_selectors h e).seq fun _ => .pure rfl

theorem takes_arguments (h : Moves fork n p q) : Moves fork n (arguments p) (arguments q) := by
  have closed (given : List Expr) : Moves fork n (do return (given, some (← expect .closeParen)))
      (do return (given, some (← expect .closeParen))) :=
    (takes_expect _).seq fun _ => .pure rfl
  refine (takes_eat _).eaten (Takes.weaken ?_ (Nat.sub_le n 1)) (.pure rfl)
  exact .test (closed []).any (h.separatedBy.seq closed)

theorem takes_call (h : Moves fork n p q) (name : Located Name) (function : Signature) :
    Moves fork n (call p name function) (call q name function) := by
  refine (takes_arguments h).seq fun answer => .ite .failed ?_
  exact (blind_fit (.fail _ _) _ _ _).takes.seq fun _ => takes_node.seq fun _ => .pure rfl

theorem takes_designator (h : Moves fork (n - 1) p q) :
    Takes fork n P (fun _ => 0) (designator p) (designator q) := by
  refine takes_identifier.bind fun name => (blind_lookup name).takes.seq fun symbol => ?_
  obtain ⟨declared, type, role⟩ := symbol
  have selected (symbol : Symbol) : Moves fork (n - 1)
      (do selectors p (← variableNode name.span symbol)) (do selectors q (← variableNode name.span symbol)) :=
    (blind_variableNode _ _).takes.seq (takes_selectors h)
  cases role with
  | typeName => exact .fail
  | function function =>
      obtain ⟨id, own, parameters, block, result, level⟩ := function
      cases result with
      | nil => exact .fail
      | _ => exact (takes_call h name _).seq fun _ => .pure rfl
  | constant value slot => exact .ite (takes_node.seq fun _ => .pure rfl) (selected _)
  | _ => exact selected _

end Designators

section Factors

theorem takes_literal {u : Token} (inner : u.isEndOfFile = false) {type : Ty} {value : Value} :
    Takes fork n (· = u) (fun _ => 0) (literal type value) (literal type value) :=
  (takes_bump_at inner).seq fun _ => takes_node.seq fun _ => .pure rfl

theorem takes_factorOver (h : Moves fork n p q) : Moves fork (n + 1) (factorOver p) (factorOver q) := by
  -- Signs read a factor as it is, parentheses and arguments read it through the levels.
  have signed {u : Token} (inner : u.isEndOfFile = false) {sign : Span → Expr → Parser Expr}
      (still : ∀ s span e, Still s (sign span e)) : Takes fork (n + 1) (· = u) (fun _ => 0)
        (do sign (← bump).span (← p)) (do sign (← bump).span (← q)) :=
    (takes_bump_at inner).bind fun _ => h.seq fun _ => (blind_of_still fun s => still s _ _).takes
  refine .look fun u _ => ?_
  cases u with
  | integer | double | char | string => exact takes_literal rfl
  | name _ => exact takes_designator (takes_levels h)
  | keyword k =>
      cases k with
      | not => exact signed rfl fun _ => still_complement
      | _ => exact .unexpected
  | mark m =>
      cases m with
      | openParen =>
          exact (takes_bump_at rfl).bind fun _ => (takes_levels h).seq fun _ =>
            (takes_expect _).seq fun _ => .pure rfl
      | plus => exact signed rfl fun _ => still_plus
      | minus => exact signed rfl fun _ => still_minus
      | _ => exact .unexpected
  | endOfFile => exact .unexpected

theorem grounded_factor : Grounded [.expression] factorOver factor :=
  ⟨rfl, fun _ => rfl, fun _ _ ends => look_at_end ends, takes_factorOver⟩

theorem takes_expression : Takes fork n P (fun _ => 0) expression expression :=
  .bounded fun m _ i j hi hj => (takes_levels (grounded_factor.moves m i j hi hj)).any

/-- An expression is what it would be if factors went as deep as they like. -/
theorem expression_unbounded {s : ParserState} (closed : s.cursor.Closed) :
    expression s = levels (unbounded factor) s :=
  (takes_levels grounded_factor.moves_unbounded).run_eq closed (Nat.le_refl _)

theorem takes_condition : Takes fork n P (fun _ => 0) condition condition :=
  takes_expression.seq fun _ => takes_coerce

theorem takes_constantInteger : Takes fork n P (fun _ => 0) constantInteger constantInteger := by
  refine takes_expression.seq fun e => ?_
  cases e.value?.bind Value.integer? with
  | some n => exact .pure rfl
  | none => exact .fail

end Factors

end PascalX86.Parser
