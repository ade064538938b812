import PascalX86.Proofs.Spelling.Parsing

/-!
# Expressions without case

Names are looked up, types are compared and fields are found alike in every spelling.
-/

set_option autoImplicit false

namespace PascalX86

open Spelled (small)

instance : Spelled OperationType := ⟨fun t => ⟨small t.operands, small t.result⟩⟩

theorem check_small (required found : Ty) :
    (small required).check (small found) = small (required.check found) := by
  rw [Ty.check, Ty.check, accepts_small]
  cases required.accepts found <;> rfl

namespace Operator

variable (op : Operator) (left right : Ty)

theorem operandType?_small :
    op.operandType? (small left) (small right) = small (op.operandType? left right) := by
  simp only [operandType?, isIntegerLike_small, isNumeric_small, isTextual_small]
  repeat' split
  all_goals rfl

theorem resultType_small (operands : Ty) :
    op.resultType (small operands) = small (op.resultType operands) := by
  rw [resultType, resultType]
  cases op.kind <;> rfl

theorem type_small : op.type (small left) (small right) = small (op.type left right) := by
  rw [type, type, operandType?_small]
  cases op.operandType? left right with
  | none => rw [category_small, category_small]; rfl
  | some operands =>
      exact congrArg (fun result => Except.ok (OperationType.mk (small operands) result))
        (resultType_small op operands)

/-- What is wrong with operands does not name anything. -/
theorem small_eval (operands : Ty) (l r : Value) : small (op.eval operands l r) = op.eval operands l r := by
  unfold eval onDoubles onStrings
  repeat' split
  all_goals rfl

theorem eval_small (operands : Ty) (l r : Value) :
    op.eval (small operands) l r = small (op.eval operands l r) := by
  rw [small_eval]
  unfold eval
  simp only [category_small, isIntegerLike_small]

end Operator

namespace Parser

theorem respells_convert (e : Expr) (target : Ty) :
    (convert e target).Respells (convert (small e) (small target)) := by
  unfold convert
  refine .ite (by simp) .pure ?_
  rw [expr_span_small]
  refine (respells_node e.span target).bind fun info => ?_
  rw [value?_small, category_small]
  cases e.value?.bind fun v => v.cast? target.category <;> exact .pure

theorem respells_coerce (e : Expr) (target : Ty) :
    (coerce e target).Respells (coerce (small e) (small target)) := by
  unfold coerce
  rw [expr_span_small, type_small, check_small]
  exact (Respells.locate _).bind fun _ => respells_convert e target

theorem foldable?_small (left right : Expr) (operands : Ty) :
    foldable? (small left) (small right) (small operands) = foldable? left right operands := by
  simp only [foldable?, value?_small, category_small]

theorem respells_operation (op : Operator) (sign : Span) (left right : Expr) :
    (operation op sign left right).Respells (operation op sign (small left) (small right)) := by
  unfold operation
  rw [type_small, type_small, Operator.type_small, expr_span_small, expr_span_small]
  refine (Respells.locate _).bind fun typing => ?_
  have same : foldable? (small left) (small right) (small typing).operands =
      foldable? left right typing.operands := foldable?_small left right typing.operands
  simp only [same]
  cases foldable? left right typing.operands with
  | some values =>
      have same : op.eval (small typing).operands values.1 values.2 =
          small (op.eval typing.operands values.1 values.2) := Operator.eval_small op typing.operands _ _
      simp only [same]
      exact (Respells.locate _).bind fun _ => (respells_node _ _).bind fun _ => .pure
  | none =>
      exact (respells_convert left typing.operands).bind fun _ =>
        (respells_convert right typing.operands).bind fun _ => (respells_node _ _).bind fun _ => .pure

theorem respells_plus (sign : Span) (e : Expr) : (plus sign e).Respells (plus sign (small e)) := by
  unfold plus
  rw [type_small, isNumeric_small, isIntegerLike_small, category_small]
  refine .ite .rfl ?_ .fail
  cases e.type.isIntegerLike with
  | true => exact respells_convert e .integer
  | false => exact respells_convert e e.type

theorem respells_minus (sign : Span) (e : Expr) : (minus sign e).Respells (minus sign (small e)) := by
  refine (respells_plus sign e).bind fun operand => ?_
  rw [value?_small, expr_span_small, type_small]
  cases operand.value?.bind Value.negate? <;> exact (respells_node _ _).bind fun _ => .pure

theorem respells_complement (sign : Span) (e : Expr) :
    (complement sign e).Respells (complement sign (small e)) := by
  refine (respells_plus sign e).bind fun operand => ?_
  rw [value?_small, expr_span_small]
  cases operand.value?.bind Value.complement? <;> exact (respells_node _ .integer).bind fun _ => .pure

theorem atLevel?_small (level : Precedence) (t : Token) :
    Operator.atLevel? level (small t) = Operator.atLevel? level t := by
  cases t <;> rfl

theorem respells_operatorAt (level : Precedence) : (operatorAt level).Respells (operatorAt level) := by
  refine respells_token.bind fun t => ?_
  rw [atLevel?_small]
  have same : small (Operator.atLevel? level t) = Operator.atLevel? level t := by
    cases Operator.atLevel? level t <;> rfl
  exact fun s => congrArg (fun op => Except.ok (op, small s)) same

section Levels

variable {p q : Parser Expr}

theorem respells_chain (level : Precedence) (h : p.Respells q) :
    (chain level p).Respells (chain level q) := by
  refine h.bind fun first => Respells.iterate (fun left => ?_) first
  refine (respells_operatorAt level).bind fun op => ?_
  cases op with
  | none => exact .pure
  | some op =>
      exact respells_bump.bind fun sign => h.bind fun right =>
        (respells_operation op sign.span left right).bind fun _ => .pure

theorem respells_levels (h : p.Respells q) : (levels p).Respells (levels q) :=
  respells_chain _ (respells_chain _ (respells_chain _ h))

theorem respells_subscript (h : p.Respells q) (array : Expr) :
    (subscript p array).Respells (subscript q (small array)) := by
  unfold subscript
  rw [type_small]
  cases array.type with
  | array low high element =>
      refine h.bind fun e => ?_
      refine (respells_coerce e .integer).bind fun subscript => ?_
      rw [value?_small, expr_span_small, expr_span_small]
      cases subscript.value?.bind Value.integer? with
      | none => exact (respells_node _ element).bind fun _ => .pure
      | some n => exact .ite .rfl .failed ((respells_node _ element).bind fun _ => .pure)
  | _ => exact respells_here.bind fun _ => .fail

theorem respells_subscripts (h : p.Respells q) (array : Expr) :
    (subscripts p array).Respells (subscripts q (small array)) := by
  refine (respells_expect _).bind fun _ => (respells_subscript h array).bind fun first => ?_
  refine (Respells.iterate (fun array => ?_) first).bind fun _ => (respells_expect _).bind fun _ => .pure
  exact (respells_eat _).bind fun _ =>
    .ite .rfl ((respells_subscript h array).bind fun _ => .pure) .pure

theorem respells_selectField (record : Expr) :
    (selectField record).Respells (selectField (small record)) := by
  unfold selectField
  rw [type_small]
  cases record.type with
  | record fields =>
      refine respells_bump.bind fun _ => respells_identifier.bind fun name => ?_
      have same : fields.small.get? (small name).value = small (fields.get? name.value) :=
        field_small fields name.value
      rw [expr_span_small, same]
      cases fields.get? name.value with
      | some f => exact (respells_node _ f.type).bind fun _ => .pure
      | none => exact .fail
  | _ => exact respells_here.bind fun _ => .fail

theorem respells_selectors (h : p.Respells q) (e : Expr) :
    (selectors p e).Respells (selectors q (small e)) := by
  refine Respells.iterate (fun e => respells_token.bind fun t => ?_) e
  cases t with
  | mark m =>
      cases m with
      | openSquare => exact (respells_subscripts h e).bind fun _ => .pure
      | period => exact (respells_selectField e).bind fun _ => .pure
      | _ => exact .pure
  | _ => exact .pure

theorem respells_variableNode (span : Span) (symbol : Symbol) :
    (variableNode span symbol).Respells (variableNode span (small symbol)) :=
  (respells_node span symbol.type).bind fun _ => .pure

theorem respells_assignable (h : p.Respells q) :
    (assignable p).Respells (assignable q) := by
  refine respells_identifier.bind fun name => (respells_lookup name).bind fun symbol => ?_
  rw [isAssignable_small]
  refine .ite .rfl ?_ .fail
  exact (respells_variableNode name.span symbol).bind fun target =>
    (respells_selectors h target).bind fun _ => .pure

theorem respells_reference (parameter : Parameter) (e : Expr) :
    (reference parameter e).Respells (reference (small parameter) (small e)) := by
  have root : ((small e).root?.map Symbol.isAssignable) = e.root?.map Symbol.isAssignable := by
    rw [root?_small]
    cases e.root? with
    | none => rfl
    | some symbol => exact congrArg some (isAssignable_small symbol)
  unfold reference
  rw [root, type_small, expr_span_small]
  have same : (small e.type).same (small parameter).type = e.type.same parameter.type :=
    type_same_small e.type parameter.type
  rw [same]
  exact .ite .rfl .pure .fail

theorem respells_fit {wrongCount wrongCount' : Parser Expr} (h : wrongCount.Respells wrongCount') (span : Span)
    (parameters : List Parameter) (given : List Expr) :
    (fit wrongCount span parameters given).Respells
      (fit wrongCount' span (small parameters) (small given)) := by
  induction parameters generalizing given with
  | nil => exact .pure
  | cons parameter parameters ih =>
      obtain ⟨name, type, mode, default, slot⟩ := parameter
      have tail : (small given).tail = small given.tail := by cases given <;> rfl
      have next (e : Expr) : Respells (do return e :: (← fit wrongCount span parameters given.tail))
          (do return small e :: (← fit wrongCount' span (small parameters) (small given).tail)) :=
        tail ▸ (ih given.tail).bind fun _ => .pure
      cases mode with
      | byReference =>
          rcases given with _ | ⟨e, given⟩
          · cases default with
            | none => exact h.bind fun e => (respells_reference _ e).bind next
            | some v =>
                exact (respells_constantNode span type v).bind fun e =>
                  (respells_reference _ e).bind next
          · exact Respells.bind .pure fun e => (respells_reference _ e).bind next
      | _ =>
          rcases given with _ | ⟨e, given⟩
          · cases default with
            | none => exact h.bind fun e => (respells_coerce e type).bind next
            | some v =>
                exact (respells_constantNode span type v).bind fun e =>
                  (respells_coerce e type).bind next
          · exact Respells.bind .pure fun e => (respells_coerce e type).bind next

theorem respells_arguments (h : p.Respells q) :
    (arguments p).Respells (arguments q) := by
  refine (respells_eat _).bind fun _ => .ite .rfl ?_ .pure
  have closed (given : List Expr) : Respells
      (do return (given, some (← expect .closeParen)))
      (do return (small given, some (← expect .closeParen))) :=
    (respells_expect _).bind fun _ => .pure
  exact (respells_atMark _).bind fun _ =>
    .ite .rfl (closed []) ((respells_separatedBy .comma h).bind closed)

theorem respells_call (h : p.Respells q) (name : Located Name) (function : Signature) :
    (call p name function).Respells (call q (small name) (small function)) := by
  refine (respells_arguments h).bind fun answer => ?_
  obtain ⟨given, stop⟩ := answer
  have count : (small function).parameters.length = function.parameters.length :=
    length_small function.parameters
  have stopped : small stop = stop := by cases stop <;> rfl
  simp only [small_pair, count, length_small, stopped]
  refine .ite .rfl .failed ?_
  exact (respells_fit .fail _ function.parameters given).bind fun _ =>
    (respells_node _ function.result).bind fun _ => .pure

theorem respells_designator (h : p.Respells q) :
    (designator p).Respells (designator q) := by
  refine respells_identifier.bind fun name => (respells_lookup name).bind fun symbol => ?_
  obtain ⟨declared, type, role⟩ := symbol
  cases role with
  | typeName => exact .fail
  | function function =>
      obtain ⟨id, own, parameters, block, result, level⟩ := function
      cases result with
      | nil => exact .fail
      | _ =>
          refine (respells_call h name _).bind fun answer => ?_
          exact .answer (small_call answer.1 _ answer.2)
  | constant value slot =>
      have scalar : (small type).isScalar = type.isScalar := isScalar_small type
      refine .ite (by rw [← scalar]; rfl) ((respells_node name.span type).bind fun _ => .pure) ?_
      exact (respells_variableNode name.span _).bind fun target => respells_selectors h target
  | _ =>
      exact (respells_variableNode name.span _).bind fun target => respells_selectors h target

theorem respells_literal (type : Ty) (value : Value) :
    (literal type value).Respells (literal (small type) value) :=
  respells_bump.bind fun t => (respells_node t.span type).bind fun _ => .pure

theorem respells_factorOver (h : p.Respells q) :
    (factorOver p).Respells (factorOver q) := by
  refine respells_token.bind fun t => ?_
  cases t with
  | integer n => exact respells_literal .integer (.integer n)
  | double x => exact respells_literal .double (.double x)
  | char code => exact respells_literal .char (.char code)
  | string text => exact respells_literal .string (.string text)
  | name _ => exact respells_designator (respells_levels h)
  | keyword k =>
      cases k with
      | not => exact respells_bump.bind fun sign => h.bind fun e => respells_complement sign.span e
      | _ => exact .unexpected
  | mark m =>
      cases m with
      | openParen =>
          exact respells_bump.bind fun _ => (respells_levels h).bind fun _ =>
            (respells_expect _).bind fun _ => .pure
      | plus => exact respells_bump.bind fun sign => h.bind fun e => respells_plus sign.span e
      | minus => exact respells_bump.bind fun sign => h.bind fun e => respells_minus sign.span e
      | _ => exact .unexpected
  | endOfFile => exact .unexpected

theorem respells_factor (n : Nat) : (factor n).Respells (factor n) := by
  induction n with
  | zero => exact .unexpected
  | succ n ih => exact respells_factorOver ih

theorem respells_expression : expression.Respells expression :=
  respells_remaining.bind fun n => respells_levels (respells_factor n)

theorem respells_constantInteger : constantInteger.Respells constantInteger := by
  refine respells_expression.bind fun e => ?_
  rw [value?_small, expr_span_small]
  cases e.value?.bind Value.integer? with
  | none => exact .fail
  | some n => exact .pure

theorem respells_condition : condition.Respells condition :=
  respells_expression.bind fun e => respells_coerce e .integer

end Levels

end Parser

end PascalX86
