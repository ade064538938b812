import PascalX86.Proofs.Arena.Forest
import PascalX86.Proofs.Checking.Nesting

/-!
# Numbering

Checking never uses a tree twice. Whatever it makes joins the trees that stand there already, in the place
of those it is made from, and its new nodes come after all that were made before.
-/

set_option autoImplicit false

namespace PascalX86

theorem Stmt.number_outline (s : Stmt) : s.outline.number = s.info.id := by
  cases s <;> rfl

theorem Expr.outlines_eq_map (es : List Expr) : Expr.outlines es = es.map Expr.outline := by
  induction es with
  | nil => rfl
  | cons e es ih => rw [Expr.outlines, ih, List.map_cons]

theorem Stmt.outlines_eq_map (ss : List Stmt) : Stmt.outlines ss = ss.map Stmt.outline := by
  induction ss with
  | nil => rfl
  | cons s ss ih => rw [Stmt.outlines, ih, List.map_cons]

namespace Checking

open Outline (Numbered)

variable {σ : Scopes} {m n n' : Nat} {e e' left right : Expr} {t : Ty} {os : List Outline}

section Conversions

theorem Converts.numbered (h : Converts e t n e' n') (made : Numbered m (e.outline :: os) n) :
    Numbered m (e'.outline :: os) n' := by
  cases h with
  | keep => exact made
  | fold => exact made.tail.leaf rfl
  | wrap => exact made.node [e.outline] rfl

theorem Coerces.numbered (h : Coerces e t n e' n') (made : Numbered m (e.outline :: os) n) :
    Numbered m (e'.outline :: os) n' := h.2.numbered made

theorem Negates.numbered (h : Negates e n e' n') (made : Numbered m (e.outline :: os) n) :
    Numbered m (e'.outline :: os) n' := by
  cases h with
  | fold signed => exact (signed.2.numbered made).tail.leaf rfl
  | @make span operand n' signed => exact (signed.2.numbered made).node [operand.outline] rfl

theorem Complements.numbered (h : Complements e n e' n') (made : Numbered m (e.outline :: os) n) :
    Numbered m (e'.outline :: os) n' := by
  cases h with
  | fold signed => exact (signed.2.numbered made).tail.leaf rfl
  | @make span operand n' signed => exact (signed.2.numbered made).node [operand.outline] rfl

theorem Operates.numbered {op : Operator} (h : Operates op left right n e' n')
    (made : Numbered m (left.outline :: right.outline :: os) n) : Numbered m (e'.outline :: os) n' := by
  cases h with
  | fold => exact made.tail.tail.leaf rfl
  | @make typing left' right' n₁ n₂ typed unknown first second =>
      have converted := second.numbered ((first.numbered made).perm (.swap ..))
      exact converted.nodeOver [left'.outline, right'.outline] rfl

end Conversions

section Calls

variable {p : Parameter} {parameters : List Parameter} {given arguments : List Expr}

theorem Passes.numbered (h : Passes p e n e' n') (made : Numbered m (e.outline :: os) n) :
    Numbered m (e'.outline :: os) n' := by
  cases h with
  | reference => exact made
  | value _ coerced => exact coerced.numbered made

theorem numbered_ofConstant (info : NodeInfo) (value : Value) (made : Numbered m os n) (number : info.id = n) :
    Numbered m ((Expr.ofConstant info value).outline :: os) (n + 1) := by
  unfold Expr.ofConstant
  split
  · exact made.leaf number
  · exact made.leaf number

/-- Arguments take the place of those that were given. -/
theorem Fits.numbered (h : Fits parameters given n arguments n') (count : given.length ≤ parameters.length)
    (made : Numbered m (given.map Expr.outline ++ os) n) : Numbered m (arguments.map Expr.outline ++ os) n' := by
  induction h generalizing os with
  | nil given n =>
      obtain rfl := List.length_eq_zero_iff.mp (Nat.le_zero.mp count)
      exact made
  | @cons p parameters given arguments e e' n₀ n₁ n₂ n₃ supplied passed _ ih =>
      have supply : Numbered m (e.outline :: (given.tail.map Expr.outline ++ os)) n₁ := by
        cases given with
        | nil =>
            cases supplied with
            | default => exact numbered_ofConstant _ _ made rfl
        | cons e given =>
            cases supplied with
            | given => exact made
      have pass := passed.numbered supply
      -- The argument waits with the other trees for those that come after it.
      have rest : Numbered m (arguments.map Expr.outline ++ e'.outline :: os) n₃ := by
        refine ih ?_ (pass.perm List.perm_middle.symm)
        rw [List.length_tail]
        exact Nat.sub_le_of_le_add count
      exact rest.perm List.perm_middle

end Calls

section Trees

/-- Items that are read one after the other stand in order before what was there. -/
theorem numbered_chain {α : Type} {R : Nat → α → Nat → Prop} {outline : α → Outline} {as : List α}
    (h : Chain R n as n')
    (each : ∀ n a n' os, R n a n' → Numbered m os n → Numbered m (outline a :: os) n')
    (made : Numbered m os n) : Numbered m (as.map outline ++ os) n' := by
  induction h generalizing os with
  | nil => exact made
  | cons head _ ih => exact (ih (each _ _ _ _ head made)).perm List.perm_middle

theorem Expression.numbered (h : Expression σ n e n') (made : Numbered m os n) :
    Numbered m (e.outline :: os) n' := by
  induction h generalizing os with
  | literal | constant | «variable» => exact made.leaf rfl
  | @element n₀ n₁ n₂ n₃ span array e index low high element _ _ _ _ coerced _ base subscript =>
      have both := coerced.numbered (subscript (base made))
      exact both.nodeOver [array.outline, index.outline] rfl
  | @field n₀ n₁ span record fields name f _ _ _ _ base =>
      exact (base made).node [record.outline] rfl
  | signed _ signed ih => exact signed.2.numbered (ih made)
  | negated _ negated ih => exact negated.numbered (ih made)
  | complemented _ complemented ih => exact complemented.numbered (ih made)
  | operation _ _ operated first second =>
      exact operated.numbered ((second (first made)).perm (.swap ..))
  | @call m' span name symbol function given arguments stage found role result _ count fitted ih =>
      have chain : Chain (fun n e n' => ∀ {os}, Numbered m os n → Numbered m (e.outline :: os) n')
          (stage 0) given (stage given.length) := .of_stages fun i hi => ih i hi
      have each := numbered_chain chain (fun _ _ _ _ grows => grows) made
      have fit := fitted.numbered count each
      rw [← Expr.outlines_eq_map] at fit
      exact fit.node _ rfl

theorem Condition.numbered (h : Condition σ n e n') (made : Numbered m os n) :
    Numbered m (e.outline :: os) n' := by
  obtain ⟨e₀, n₀, expression, coerced⟩ := h
  exact coerced.numbered (expression.numbered made)

theorem Statement.numbered {loops : Nat} {s : Stmt} (h : Statement σ loops n s n') (made : Numbered m os n) :
    Numbered m (s.outline :: os) n' := by
  induction h generalizing os with
  | @assign loops n₀ n₁ n₂ n₃ span target e value left right coerced =>
      have both := coerced.numbered (right.numbered (left.1.numbered made))
      exact both.nodeOver [target.outline, value.outline] rfl
  | @ifThen loops n₀ n₁ n₂ span condition body test _ inner =>
      exact (inner (test.numbered made)).nodeOver [condition.outline, body.outline] rfl
  | @ifElse loops n₀ n₁ n₂ n₃ span condition body otherwise test _ _ first second =>
      have all := second (first (test.numbered made))
      exact all.nodeOver [condition.outline, body.outline, otherwise.outline] rfl
  | @«while» loops n₀ n₁ n₂ span condition body test _ inner =>
      exact (inner (test.numbered made)).nodeOver [condition.outline, body.outline] rfl
  | @«for» loops n₀ n₁ n₂ n₃ n₄ n₅ n₆ span info symbol e₁ e₂ first last direction body counter _
      lower lower' upper upper' _ inner =>
      have start := lower'.numbered (lower.numbered (counter.1.numbered made))
      have all := inner (upper'.numbered (upper.numbered start))
      exact all.nodeOver [(Expr.var info symbol).outline, first.outline, last.outline, body.outline] rfl
  | «continue» | «break» => exact made.leaf rfl
  | read each =>
      have all := numbered_chain each (fun _ _ _ _ target => target.1.1.numbered) made
      rw [← Expr.outlines_eq_map] at all
      exact all.node _ rfl
  | write each =>
      have all := numbered_chain each (fun _ _ _ _ argument => argument.1.numbered) made
      rw [← Expr.outlines_eq_map] at all
      exact all.node _ rfl
  | call found role each count fitted =>
      have fit := fitted.numbered count (numbered_chain each (fun _ _ _ _ => Expression.numbered) made)
      rw [← Expr.outlines_eq_map] at fit
      exact fit.node _ rfl
  | @block loops span statements stage _ ih =>
      have chain : Chain (fun n s n' => ∀ {os}, Numbered m os n → Numbered m (s.outline :: os) n')
          (stage 0) statements (stage statements.length) := .of_stages fun i hi => ih i hi
      have all := numbered_chain chain (fun _ _ _ _ grows => grows) made
      rw [← Stmt.outlines_eq_map] at all
      exact all.node _ rfl

end Trees

section Declarations

variable {s s' : ParserState} {initializers : List Stmt}

theorem numbered_initializer (span : Span) (symbol : Symbol) (value : Value) (made : Numbered m os n) :
    Numbered m ((initializer n span symbol value).outline :: os) (n + 3) := by
  have target : Numbered m ((Expr.var ⟨n, span, symbol.type⟩ symbol).outline :: os) (n + 1) := made.leaf rfl
  have both := numbered_ofConstant ⟨n + 1, span, symbol.type⟩ value target rfl
  exact both.nodeOver [_, _] rfl

/-- A block stands over initializers that are there already and the statements after them. -/
theorem numbered_block {n₀ : Nat} {statements : List Stmt} (span : Span)
    (made : Numbered m (initializers.map Stmt.outline ++ os) n₀) (body : Chain (Statement σ 0) n₀ statements n) :
    Numbered m ((Stmt.block ⟨n, span, .nil⟩ (initializers ++ statements)).outline :: os) (n + 1) := by
  have all := numbered_chain body (fun _ _ _ _ => Statement.numbered) made
  have ordered : Numbered m (Stmt.outlines (initializers ++ statements) ++ os) n := by
    rw [Stmt.outlines_eq_map, List.map_append, List.append_assoc]
    exact all.perm (List.perm_append_comm_assoc ..)
  exact ordered.node _ rfl

theorem append_perm (first second new more : List Outline) :
    (second ++ (more ++ (first ++ (new ++ os)))).Perm (first ++ second ++ (new ++ more ++ os)) := by
  have inner : (more ++ (first ++ (new ++ os))).Perm (first ++ (new ++ (more ++ os))) :=
    (List.perm_append_comm_assoc ..).trans ((List.perm_append_comm_assoc ..).append_left first)
  simpa only [List.append_assoc] using (inner.append_left second).trans (List.perm_append_comm_assoc ..)

/-- Declarations keep the trees of their initializers and of the functions that they complete. -/
theorem Declares.numbered (h : Declares s initializers s') : ∃ new, s'.functions = s.functions ++ new ∧
    ∀ {m os}, Numbered m os s.nodes → Numbered m
      (initializers.map Stmt.outline ++ (new.map (fun f => f.body.outline) ++ os)) s'.nodes := by
  induction h with
  | move c later => exact ⟨[], (List.append_nil _).symm, fun made => made.later later⟩
  | @append s t u first second _ _ ih ih' =>
      obtain ⟨new, functions, before⟩ := ih
      obtain ⟨more, functions', after⟩ := ih'
      refine ⟨new ++ more, by rw [functions', functions, List.append_assoc], fun {m os} made => ?_⟩
      rw [List.map_append, List.map_append]
      exact (after (before made)).perm (append_perm ..)
  | type _ adds | constant _ _ adds | scalar _ _ adds | «variable» _ adds =>
      rw [adds.2]
      exact ⟨[], (List.append_nil _).symm, fun made => made⟩
  | @stored s s' name type value symbol span _ _ _ adds
  | @initialized s s' name type value symbol span _ _ adds =>
      have nodes : s'.nodes = s.nodes := by rw [adds.2]
      refine ⟨[], adds.functions.trans (List.append_nil _).symm, fun {m os} made => ?_⟩
      exact numbered_initializer span symbol value (nodes ▸ made)
  | @function s s₁ s₂ f symbol locals initializers statements span n _ adds _ _ body ih =>
      obtain ⟨new, functions, inner⟩ := ih
      have functions : s₂.functions = s.functions ++ new := functions.trans (by rw [adds.2]; rfl)
      have nodes : (s₁.entered f locals).nodes = s.nodes := by rw [adds.2]; rfl
      refine ⟨new ++ [⟨f, s₂.scopes.current, .block ⟨n, span, .nil⟩ (initializers ++ statements)⟩], ?_, ?_⟩
      · rw [← List.append_assoc, ← functions]
        rfl
      · intro m os made
        have block := numbered_block span (inner (nodes ▸ made)) body
        rw [List.map_append, List.append_assoc]
        exact block.perm List.perm_middle.symm

end Declarations

end Checking

def Program.trees (p : Program) : List Outline := p.bodies.map fun f => f.body.outline

/-- The trees of the functions of a program stand side by side, and have numbers below that of all nodes. -/
theorem Program.trees_numbered {p : Program} (h : Checking.Program p) : Outline.Numbered 0 p.trees p.nodes := by
  obtain ⟨c, s, initializers, statements, n, span, name, declares, body, rfl⟩ := h
  obtain ⟨new, functions, inner⟩ := declares.numbered
  have functions : s.functions = new := functions
  have block := Checking.numbered_block span (inner (.nil 0)) body
  rw [List.append_nil, ← functions] at block
  rw [trees, bodies, List.map_append]
  exact block.perm (List.perm_append_singleton ..).symm

namespace Parser

open Checking Outline

variable {α : Type} {s : ParserState} {given : List Outline} {made : α → List Outline}

/-- Whatever stands there, what the parser makes takes the place of what it is given. -/
def Grows (p : Parser α) (given : List Outline) (made : α → List Outline) : Prop :=
  ∀ s, p.Ensures s fun a s' => ∀ {m os}, Numbered m (given ++ os) s.nodes → Numbered m (made a ++ os) s'.nodes

/-- In every state of the parser, each place that builds nodes keeps to a forest, with whatever operands
it is used. This is true of nodes as well that are replaced later on. -/
structure GrowsForest : Prop where
  coercion : ∀ e t, (coerce e t).Grows [e.outline] fun e' => [e'.outline]
  operation : ∀ op sign left right,
    (operation op sign left right).Grows [left.outline, right.outline] fun e => [e.outline]
  plus : ∀ sign e, (plus sign e).Grows [e.outline] fun e' => [e'.outline]
  minus : ∀ sign e, (minus sign e).Grows [e.outline] fun e' => [e'.outline]
  complement : ∀ sign e, (complement sign e).Grows [e.outline] fun e' => [e'.outline]
  arguments : ∀ error span parameters given, given.length ≤ parameters.length →
    (fit (fail error span) span parameters given).Grows (given.map Expr.outline) (List.map Expr.outline)
  operand : ∀ depth, (factor depth).Grows [] fun e => [e.outline]
  expression : ∀ depth, (levels (factor depth)).Grows [] fun e => [e.outline]
  statement : ∀ depth, (statement depth).Grows [] fun s => s.toList.map Stmt.outline

theorem grows_of_yields {p : Parser α} {R : ParserState → Nat → α → Nat → Prop}
    (yields : ∀ s n, p.Yields s n (R s n))
    (each : ∀ s n a n', R s n a n' → ∀ {m os}, Numbered m (given ++ os) n → Numbered m (made a ++ os) n') :
    p.Grows given made := by
  intro s
  refine (yields s s.nodes).ensures.mono ?_
  rintro a _ ⟨c, n', rfl, related⟩
  exact each s s.nodes a n' related

theorem growsForest : GrowsForest where
  coercion e t := grows_of_yields (fun _ _ => yields_coerce e t)
    fun _ _ _ _ coerced _ _ made => coerced.numbered made
  operation op sign left right := grows_of_yields (fun _ _ => yields_operation op sign left right)
    fun _ _ _ _ operated _ _ made => operated.numbered made
  plus sign e := grows_of_yields (fun _ _ => yields_plus sign e)
    fun _ _ _ _ signed _ _ made => signed.2.numbered made
  minus sign e := grows_of_yields (fun _ _ => yields_minus sign e)
    fun _ _ _ _ negated _ _ made => negated.numbered made
  complement sign e := grows_of_yields (fun _ _ => yields_complement sign e)
    fun _ _ _ _ complemented _ _ made => complemented.numbered made
  arguments error span parameters given count :=
    grows_of_yields (fun _ _ => yields_fit (fun _ _ => .fail) span parameters given)
      fun _ _ _ _ fitted _ _ made => fitted.numbered count made
  operand depth := grows_of_yields (builds_factor depth)
    fun _ _ _ _ expression _ _ made => expression.numbered made
  expression depth := grows_of_yields (builds_levels (builds_factor depth))
    fun _ _ _ _ expression _ _ made => expression.numbered made
  statement depth := grows_of_yields (forms_statement depth) fun s n x n' formed m os made => by
    cases x with
    | none =>
        obtain rfl : n' = n := formed
        exact made
    | some x => exact Statement.numbered formed made

end Parser

end PascalX86
