import Mathlib.Data.List.Pairwise
import Mathlib.Logic.Relation
import PascalX86.Proofs.Arena.Forest

/-!
# Walks

Cells that refer to each other by number, as an arena holds nodes. What is computed by following the numbers
from a root is what is computed over the tree that stands there.
-/

set_option autoImplicit false

namespace PascalX86

structure Cell where
  entry : Entry
  children : List Nat

def Cell.number (c : Cell) : Nat := c.entry.info.id

/-- Cells that are found by their numbers. Children are there, come first, and have one parent. -/
structure Arena where
  cells : List Cell
  distinct : (cells.map Cell.number).Nodup
  closed : ∀ c ∈ cells, ∀ k ∈ c.children, ∃ c' ∈ cells, c'.number = k
  ordered : ∀ c ∈ cells, ∀ k ∈ c.children, k < c.number
  single : (cells.flatMap Cell.children).Nodup

namespace Arena

def cell? (a : Arena) (i : Nat) : Option Cell := a.cells.find? fun c => c.number == i

variable {a : Arena} {c c' : Cell} {i k : Nat}

theorem mem_of_cell? (found : a.cell? i = some c) : c ∈ a.cells ∧ c.number = i :=
  ⟨List.mem_of_find?_eq_some found, by simpa using List.find?_some found⟩

theorem eq_of_number (mem : c ∈ a.cells) (mem' : c' ∈ a.cells) (same : c.number = c'.number) : c = c' :=
  List.inj_on_of_nodup_map a.distinct mem mem' same

theorem cell?_of_mem (mem : c ∈ a.cells) : a.cell? c.number = some c := by
  cases found : a.cell? c.number with
  | none => exact absurd (List.find?_eq_none.mp found c mem) (by simp)
  | some c' =>
      obtain ⟨mem', same⟩ := mem_of_cell? found
      rw [eq_of_number mem' mem same]

theorem lt_of_child (found : a.cell? i = some c) (child : k ∈ c.children) : k < i := by
  obtain ⟨mem, rfl⟩ := mem_of_cell? found
  exact a.ordered c mem k child

/-- No node is a child of two others, and none is a child of one twice. -/
theorem parent_unique (mem : c ∈ a.cells) (mem' : c' ∈ a.cells) (child : k ∈ c.children)
    (child' : k ∈ c'.children) : c = c' := by
  by_contra other
  have apart := (List.nodup_flatMap.mp a.single).2
  have symmetric : Std.Symm (Function.onFun List.Disjoint Cell.children) := ⟨fun _ _ => List.disjoint_symm⟩
  exact apart.forall mem mem' other child child'

theorem nodup_children (mem : c ∈ a.cells) : c.children.Nodup :=
  (List.nodup_flatMap.mp a.single).1 c mem

section Walks

variable {α : Type}

/-- What is computed at a node from its entry and from what is computed at its children. -/
def walk (a : Arena) (step : Entry → List α → α) (i : Nat) : Option α :=
  match _ : a.cell? i with
  | none => none
  | some c => (c.children.attach.mapM fun k => a.walk step k.1).map (step c.entry)
termination_by i
decreasing_by exact lt_of_child ‹_› k.2

theorem walk_of_mem (step : Entry → List α → α) (mem : c ∈ a.cells) :
    a.walk step c.number = (c.children.mapM (a.walk step)).map (step c.entry) := by
  rw [walk]
  split
  · next none =>
    rw [cell?_of_mem mem] at none
    cases none
  · next c' found =>
    rw [cell?_of_mem mem] at found
    cases found
    simp

end Walks

/-- The second node can be reached from the first one. -/
def Reaches (a : Arena) : Nat → Nat → Prop :=
  Relation.ReflTransGen fun i k => ∃ c ∈ a.cells, c.number = i ∧ k ∈ c.children

end Arena

namespace Outline

def cell (o : Outline) : Cell := ⟨o.entry, o.childNumbers⟩

section Folds

variable {α : Type} (step : Entry → List α → α)

mutual

def fold : Outline → α
  | .node entry children => step entry (foldOf children)

def foldOf : List Outline → List α
  | [] => []
  | o :: rest => o.fold :: foldOf rest

end

theorem foldOf_eq_map (os : List Outline) : foldOf step os = os.map (fold step) := by
  induction os with
  | nil => rfl
  | cons o os ih => rw [foldOf, ih, List.map_cons]

end Folds

variable {a : Arena}

section

variable {α : Type} (step : Entry → List α → α)

mutual

/-- A walk through the arena is a fold over the tree. -/
theorem walk_nodes : (o : Outline) → (∀ x ∈ o.nodes, x.cell ∈ a.cells) →
    a.walk step o.number = some (o.fold step)
  | .node entry children, inside => by
      have own := inside _ (self_mem_nodes _)
      have below := walk_nodesOf children fun x mem => inside x (List.mem_cons_of_mem _ mem)
      have walk := Arena.walk_of_mem step own
      rw [show (cell (.node entry children)).children = children.map number from rfl, below] at walk
      exact walk

theorem walk_nodesOf : (os : List Outline) → (∀ x ∈ nodesOf os, x.cell ∈ a.cells) →
    (os.map number).mapM (a.walk step) = some (foldOf step os)
  | [], _ => rfl
  | o :: os, inside => by
      have first := walk_nodes o fun x mem => inside x (List.mem_append_left _ mem)
      have rest := walk_nodesOf os fun x mem => inside x (List.mem_append_right _ mem)
      rw [List.map_cons, List.mapM_cons, first, rest]
      rfl

end

end

mutual

/-- What is reached from a root are the nodes of its tree. -/
theorem reaches_nodes {i : Nat} : (o : Outline) → (∀ x ∈ o.nodes, x.cell ∈ a.cells) →
    (a.Reaches o.number i ↔ ∃ x ∈ o.nodes, x.number = i)
  | .node entry children, inside => by
      have own := inside _ (self_mem_nodes _)
      have below := reaches_nodesOf (i := i) children fun x mem => inside x (List.mem_cons_of_mem _ mem)
      rw [Arena.Reaches, Relation.ReflTransGen.cases_head_iff, nodes, List.exists_mem_cons_iff, ← below]
      refine or_congr Iff.rfl ⟨?_, ?_⟩
      · rintro ⟨k, ⟨c, mem, same, child⟩, rest⟩
        -- There is no other cell with the number of the root.
        rw [Arena.eq_of_number mem own same] at child
        exact ⟨k, child, rest⟩
      · rintro ⟨k, child, rest⟩
        exact ⟨k, ⟨_, own, rfl, child⟩, rest⟩

theorem reaches_nodesOf {i : Nat} : (os : List Outline) → (∀ x ∈ nodesOf os, x.cell ∈ a.cells) →
    ((∃ k ∈ os.map number, a.Reaches k i) ↔ ∃ x ∈ nodesOf os, x.number = i)
  | [], _ => by simp [nodesOf]
  | o :: os, inside => by
      have first := reaches_nodes (i := i) o fun x mem => inside x (List.mem_append_left _ mem)
      have rest := reaches_nodesOf (i := i) os fun x mem => inside x (List.mem_append_right _ mem)
      rw [List.map_cons, List.exists_mem_cons_iff, first, rest, nodesOf]
      simp only [List.mem_append, or_and_right, exists_or]

end

/-- The arena of a forest. -/
def Numbered.arena {n m : Nat} {os : List Outline} (h : Numbered n os m) : Arena where
  cells := (nodesOf os).map cell
  distinct := by
    rw [List.map_map]
    exact h.distinct
  closed := by
    intro c mem k child
    obtain ⟨o, inside, rfl⟩ := List.mem_map.mp mem
    obtain ⟨x, below, rfl⟩ := List.mem_map.mp child
    exact ⟨_, List.mem_map_of_mem (child_mem_nodesOf inside below), rfl⟩
  ordered := by
    intro c mem k child
    obtain ⟨o, inside, rfl⟩ := List.mem_map.mp mem
    obtain ⟨x, below, rfl⟩ := List.mem_map.mp child
    exact h.ordered o inside x below
  single := by
    rw [List.flatMap_map]
    exact h.single.of_append_right

end Outline

end PascalX86
