import PascalX86.Proofs.Arena.Numbering
import PascalX86.Proofs.Arena.Walk
import PascalX86.Tree.Printer

/-!
# Steps

What the passes over trees do at one node, given what they have found at its children: root symbols,
categories, the lines of a listing and the trees themselves.
-/

set_option autoImplicit false

namespace PascalX86

namespace Entry

-- Only references have a root, which is that of what they select from.
def rootStep (entry : Entry) (roots : List (Option Symbol)) : Option Symbol :=
  match entry.shape with
  | .var symbol => some symbol
  | .index | .field _ => roots.head?.join
  | _ => none

def categoryStep (entry : Entry) (categories : List NodeCategory) : NodeCategory :=
  match entry.shape with
  | .const _ | .aggregate _ => .const
  | .var _ => .var
  | .index | .field _ => if categories.head? = some .var then .var else .plain
  | _ => .plain

-- The lines below a node, given how those of each child are printed.
def childLines (rails : String) : List (String → Bool → List String) → List String
  | [] => []
  | lines :: rest => lines rails rest.isEmpty ++ childLines rails rest

def linesStep (entry : Entry) (children : List (String → Bool → List String)) (rails : String)
    (isLast : Bool) : List String :=
  (rails ++ (if isLast then "--- " else "|-- ") ++ entry.text) ::
    childLines (rails ++ (if isLast then "    " else "|   ")) children

def expr? (entry : Entry) (operands : List Expr) : Option Expr :=
  match entry.shape, operands with
  | .var symbol, [] => some (.var entry.info symbol)
  | .const value, [] => some (.const entry.info value)
  | .aggregate value, [] => some (.aggregate entry.info value)
  | .negate, [e] => some (.negate entry.info e)
  | .complement, [e] => some (.complement entry.info e)
  | .cast, [e] => some (.cast entry.info e)
  | .field f, [record] => some (.field entry.info record f)
  | .binary op, [left, right] => some (.binary entry.info op left right)
  | .index, [array, subscript] => some (.index entry.info array subscript)
  | .call function, arguments => some (.call entry.info function arguments)
  | _, _ => none

-- What stands at a node, as an expression and as a statement. Calls can be both.
abbrev Reading := Option Expr × Option Stmt

def stmt? (entry : Entry) (children : List Reading) : Option Stmt :=
  match entry.shape, children with
  | .assign, [(some target, _), (some value, _)] => some (.assign entry.info target value)
  | .if, [(some condition, _), (_, some body)] => some (.ifThen entry.info condition body)
  | .if, [(some condition, _), (_, some body), (_, some otherwise)] =>
      some (.ifElse entry.info condition body otherwise)
  | .while, [(some condition, _), (_, some body)] => some (.while entry.info condition body)
  | .for direction, [(some counter, _), (some first, _), (some last, _), (_, some body)] =>
      some (.for entry.info counter first last direction body)
  | .continue, [] => some (.continue entry.info)
  | .break, [] => some (.break entry.info)
  | .read newline, children => (children.mapM Prod.fst).map fun targets => .read entry.info targets newline
  | .write newline, children =>
      (children.mapM Prod.fst).map fun arguments => .write entry.info arguments newline
  | .call function, children => (children.mapM Prod.fst).map fun arguments => .call entry.info function arguments
  | .block, children => (children.mapM Prod.snd).map (.block entry.info)
  | _, _ => none

def readStep (entry : Entry) (children : List Reading) : Reading :=
  ((children.mapM Prod.fst).bind entry.expr?, entry.stmt? children)

end Entry

section Folds

open Outline (fold foldOf)

theorem Expr.fold_rootStep : (e : Expr) → e.outline.fold Entry.rootStep = e.root?
  | .var .. | .const .. | .aggregate .. | .negate .. | .complement .. | .binary .. | .cast .. | .call .. => rfl
  | .index _ array _ => array.fold_rootStep
  | .field _ record _ => record.fold_rootStep

theorem Expr.category_eq_var {e : Expr} : e.category = .var ↔ e.isReference = true := by
  cases e with
  | const | aggregate => simp [category, isReference, root?]
  | _ => simp [category]

/-- What is selected from a reference is one. -/
theorem Expr.category_of_base (e base : Expr) (root : e.root? = base.root?) (selects : e.value? = none) :
    e.category = if base.category = .var then .var else .plain := by
  have same : e.isReference = base.isReference := by rw [isReference, isReference, root]
  rw [if_congr base.category_eq_var rfl rfl, ← same]
  cases e with
  | const | aggregate => cases selects
  | _ => rfl

theorem Expr.fold_categoryStep : (e : Expr) → e.outline.fold Entry.categoryStep = e.category
  | .var .. | .const .. | .aggregate .. | .negate .. | .complement .. | .binary .. | .cast .. | .call .. => rfl
  | .index info array subscript => by
      have selected := category_of_base (.index info array subscript) array rfl rfl
      rw [selected, ← array.fold_categoryStep]
      simp [Expr.outline, Expr.entry, fold, foldOf, Entry.categoryStep]
  | .field info record f => by
      have selected := category_of_base (.field info record f) record rfl rfl
      rw [selected, ← record.fold_categoryStep]
      simp [Expr.outline, Expr.entry, fold, foldOf, Entry.categoryStep]

theorem Stmt.fold_rootStep (s : Stmt) : s.outline.fold Entry.rootStep = none := by
  cases s <;> rfl

theorem Stmt.fold_categoryStep (s : Stmt) : s.outline.fold Entry.categoryStep = .plain := by
  cases s <;> rfl

mutual

theorem Outline.fold_linesStep (rails : String) (isLast : Bool) : (o : Outline) →
    o.fold Entry.linesStep rails isLast = o.lines rails isLast
  | .node entry children => by
      rw [fold, Entry.linesStep, Outline.lines, Outline.childLines_foldOf]

theorem Outline.childLines_foldOf (rails : String) : (os : List Outline) →
    Entry.childLines rails (foldOf Entry.linesStep os) = Outline.childLines rails os
  | [] => rfl
  | o :: os => by
      have last : (foldOf Entry.linesStep os).isEmpty = os.isEmpty := by
        rw [foldOf_eq_map, List.isEmpty_map]
      rw [foldOf, Entry.childLines, Outline.childLines, last, o.fold_linesStep, Outline.childLines_foldOf rails os]

end

mutual

theorem Expr.fold_readStep : (e : Expr) → (e.outline.fold Entry.readStep).1 = some e
  | .var .. | .const .. | .aggregate .. => rfl
  | .negate _ e | .complement _ e | .cast _ e | .field _ e _ => by
      simp [Expr.outline, Expr.entry, fold, foldOf, Entry.readStep, e.fold_readStep, Entry.expr?, Expr.info]
  | .binary _ _ left right | .index _ left right => by
      simp [Expr.outline, Expr.entry, fold, foldOf, Entry.readStep, left.fold_readStep, right.fold_readStep,
        Entry.expr?, Expr.info]
  | .call _ _ arguments => by
      simp [Expr.outline, Expr.entry, fold, Entry.readStep, Expr.mapM_outlines arguments, Entry.expr?, Expr.info]

theorem Expr.mapM_outlines : (es : List Expr) →
    (foldOf Entry.readStep (Expr.outlines es)).mapM Prod.fst = some es
  | [] => rfl
  | e :: es => by
      rw [Expr.outlines, foldOf, List.mapM_cons, e.fold_readStep, Expr.mapM_outlines es]
      rfl

end

theorem exists_fst {α β : Type} {x : α × β} {a : α} (h : x.1 = a) : ∃ b, x = (a, b) := ⟨x.2, Prod.ext h rfl⟩

theorem exists_snd {α β : Type} {x : α × β} {b : β} (h : x.2 = b) : ∃ a, x = (a, b) := ⟨x.1, Prod.ext rfl h⟩

mutual

theorem Stmt.fold_readStep : (s : Stmt) → (s.outline.fold Entry.readStep).2 = some s
  | .continue _ | .break _ => rfl
  | .assign _ target value => by
      obtain ⟨_, first⟩ := exists_fst target.fold_readStep
      obtain ⟨_, second⟩ := exists_fst value.fold_readStep
      simp [Stmt.outline, Stmt.entry, fold, foldOf, Entry.readStep, first, second, Entry.stmt?, Stmt.info]
  | .ifThen _ condition body | .while _ condition body => by
      obtain ⟨_, test⟩ := exists_fst condition.fold_readStep
      obtain ⟨_, inner⟩ := exists_snd body.fold_readStep
      simp [Stmt.outline, Stmt.entry, fold, foldOf, Entry.readStep, test, inner, Entry.stmt?, Stmt.info]
  | .ifElse _ condition body otherwise => by
      obtain ⟨_, test⟩ := exists_fst condition.fold_readStep
      obtain ⟨_, first⟩ := exists_snd body.fold_readStep
      obtain ⟨_, second⟩ := exists_snd otherwise.fold_readStep
      simp [Stmt.outline, Stmt.entry, fold, foldOf, Entry.readStep, test, first, second, Entry.stmt?, Stmt.info]
  | .for _ counter lower upper _ body => by
      obtain ⟨_, target⟩ := exists_fst counter.fold_readStep
      obtain ⟨_, first⟩ := exists_fst lower.fold_readStep
      obtain ⟨_, last⟩ := exists_fst upper.fold_readStep
      obtain ⟨_, inner⟩ := exists_snd body.fold_readStep
      simp [Stmt.outline, Stmt.entry, fold, foldOf, Entry.readStep, target, first, last, inner, Entry.stmt?,
        Stmt.info]
  | .read _ es _ | .write _ es _ | .call _ _ es => by
      simp [Stmt.outline, Stmt.entry, fold, Entry.readStep, Expr.mapM_outlines es, Entry.stmt?, Stmt.info]
  | .block _ ss => by
      simp [Stmt.outline, Stmt.entry, fold, Entry.readStep, Stmt.mapM_outlines ss, Entry.stmt?, Stmt.info]

theorem Stmt.mapM_outlines : (ss : List Stmt) →
    (foldOf Entry.readStep (Stmt.outlines ss)).mapM Prod.snd = some ss
  | [] => rfl
  | s :: ss => by
      rw [Stmt.outlines, foldOf, List.mapM_cons, s.fold_readStep, Stmt.mapM_outlines ss]
      rfl

end

end Folds

namespace Outline

mutual

theorem forall_nodes {P : Outline → Prop} (down : ∀ o, P o → ∀ x ∈ o.children, P x) :
    (o : Outline) → P o → ∀ x ∈ o.nodes, P x
  | .node entry children, h => by
      rw [nodes, List.forall_mem_cons]
      exact ⟨h, forall_nodesOf down children (down _ h)⟩

theorem forall_nodesOf {P : Outline → Prop} (down : ∀ o, P o → ∀ x ∈ o.children, P x) :
    (os : List Outline) → (∀ o ∈ os, P o) → ∀ x ∈ nodesOf os, P x
  | [], _ => List.forall_mem_nil _
  | o :: os, h => by
      rw [List.forall_mem_cons] at h
      rw [nodesOf, List.forall_mem_append]
      exact ⟨forall_nodes down o h.1, forall_nodesOf down os h.2⟩

end

/-- An expression or a statement. -/
def OfTree (o : Outline) : Prop := (∃ e : Expr, o = e.outline) ∨ ∃ s : Stmt, o = s.outline

theorem ofTree_expr (e : Expr) : e.outline.OfTree := .inl ⟨e, rfl⟩

theorem ofTree_stmt (s : Stmt) : s.outline.OfTree := .inr ⟨s, rfl⟩

theorem ofTree_children (o : Outline) (h : o.OfTree) : ∀ x ∈ o.children, x.OfTree := by
  rcases h with ⟨e, rfl⟩ | ⟨s, rfl⟩
  · cases e <;> simp [Expr.outline, children, Expr.outlines_eq_map, ofTree_expr]
  · cases s <;> simp [Stmt.outline, children, Expr.outlines_eq_map, Stmt.outlines_eq_map, ofTree_expr, ofTree_stmt]

/-- Root symbols and categories, as entries hold them, are what the steps compute. -/
theorem fold_of_ofTree {o : Outline} (h : o.OfTree) :
    o.fold Entry.rootStep = o.entry.root ∧ o.fold Entry.categoryStep = o.entry.category := by
  rcases h with ⟨e, rfl⟩ | ⟨s, rfl⟩
  · rw [e.fold_rootStep, e.fold_categoryStep]
    cases e <;> exact ⟨rfl, rfl⟩
  · rw [s.fold_rootStep, s.fold_categoryStep]
    cases s <;> exact ⟨rfl, rfl⟩

end Outline

end PascalX86
