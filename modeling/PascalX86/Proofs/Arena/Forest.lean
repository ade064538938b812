import Mathlib.Data.List.Nodup
import PascalX86.Tree.Outline

/-!
# Numbered forests

Outlines standing side by side, with nodes that are told apart by their numbers. Nothing is shared between
them or within one of them, and children come before their parents.
-/

set_option autoImplicit false

namespace PascalX86.Outline

def number (o : Outline) : Nat := o.entry.info.id

mutual

/-- All nodes of a tree, each with the tree below it. -/
def nodes : Outline → List Outline
  | o@(.node _ children) => o :: nodesOf children

def nodesOf : List Outline → List Outline
  | [] => []
  | o :: rest => o.nodes ++ nodesOf rest

end

variable {os : List Outline} {o x : Outline} {k : Nat}

theorem nodesOf_eq_flatMap (os : List Outline) : nodesOf os = os.flatMap nodes := by
  induction os with
  | nil => rfl
  | cons o os ih => rw [nodesOf, ih, List.flatMap_cons]

theorem nodesOf_append (os os' : List Outline) : nodesOf (os ++ os') = nodesOf os ++ nodesOf os' := by
  simp only [nodesOf_eq_flatMap, List.flatMap_append]

theorem mem_nodesOf : x ∈ nodesOf os ↔ ∃ o ∈ os, x ∈ o.nodes := by
  rw [nodesOf_eq_flatMap, List.mem_flatMap]

theorem nodes_eq (o : Outline) : o.nodes = o :: nodesOf o.children := by
  cases o
  rfl

theorem self_mem_nodes (o : Outline) : o ∈ o.nodes := by
  rw [nodes_eq]
  exact List.mem_cons_self

def childNumbers (o : Outline) : List Nat := o.children.map number

mutual

/-- Every node is the root or a child of one node. -/
theorem children_nodes_perm : (o : Outline) →
    (o.number :: o.nodes.flatMap childNumbers).Perm (o.nodes.map number)
  | .node entry children => by
      have inner := children_nodesOf_perm children
      rw [nodes, List.flatMap_cons, List.map_cons]
      exact inner.cons _

theorem children_nodesOf_perm : (os : List Outline) →
    (os.map number ++ (nodesOf os).flatMap childNumbers).Perm ((nodesOf os).map number)
  | [] => .nil
  | o :: os => by
      have first := children_nodes_perm o
      have rest := children_nodesOf_perm os
      rw [nodesOf, List.flatMap_append, List.map_append, List.map_cons]
      refine List.Perm.trans ?_ (first.append rest)
      rw [List.cons_append, List.cons_append, List.perm_cons]
      simpa only [List.append_assoc] using (List.perm_append_comm.append_right _)

end

mutual

theorem mem_nodes_trans {y : Outline} (inner : y ∈ x.nodes) : (o : Outline) → x ∈ o.nodes → y ∈ o.nodes
  | .node _ children, mem => by
      rcases List.mem_cons.mp mem with rfl | mem
      · exact inner
      · exact List.mem_cons_of_mem _ (mem_nodesOf_trans inner children mem)

theorem mem_nodesOf_trans {y : Outline} (inner : y ∈ x.nodes) :
    (os : List Outline) → x ∈ nodesOf os → y ∈ nodesOf os
  | o :: os, mem => by
      rcases List.mem_append.mp mem with mem | mem
      · exact List.mem_append_left _ (mem_nodes_trans inner o mem)
      · exact List.mem_append_right _ (mem_nodesOf_trans inner os mem)

end

theorem child_mem_nodesOf (mem : x ∈ nodesOf os) (child : o ∈ x.children) : o ∈ nodesOf os := by
  refine mem_nodesOf_trans ?_ os mem
  rw [nodes_eq]
  exact List.mem_cons_of_mem _ (mem_nodesOf.mpr ⟨o, child, o.self_mem_nodes⟩)

/-- A forest whose nodes have numbers of their own from `n` on, each greater than those of its children.
The next node will be `n'`. -/
structure Numbered (n : Nat) (os : List Outline) (n' : Nat) : Prop where
  le : n ≤ n'
  within : ∀ o ∈ nodesOf os, n ≤ o.number ∧ o.number < n'
  ordered : ∀ o ∈ nodesOf os, ∀ x ∈ o.children, x.number < o.number
  distinct : ((nodesOf os).map number).Nodup

namespace Numbered

variable {n m m' : Nat} {os' : List Outline} {entry : Entry}

theorem nil (n : Nat) : Numbered n [] n :=
  ⟨Nat.le_refl n, List.forall_mem_nil _, List.forall_mem_nil _, .nil⟩

theorem later (h : Numbered n os m) (le : m ≤ m') : Numbered n os m' :=
  ⟨Nat.le_trans h.le le, fun o mem => ⟨(h.within o mem).1, Nat.lt_of_lt_of_le (h.within o mem).2 le⟩,
    h.ordered, h.distinct⟩

theorem perm (h : Numbered n os m) (same : os.Perm os') : Numbered n os' m := by
  have nodes : (nodesOf os).Perm (nodesOf os') := by
    rw [nodesOf_eq_flatMap, nodesOf_eq_flatMap]
    exact same.flatMap_right _
  exact ⟨h.le, fun o mem => h.within o (nodes.mem_iff.mpr mem),
    fun o mem => h.ordered o (nodes.mem_iff.mpr mem), (nodes.map number).nodup_iff.mp h.distinct⟩

/-- Trees can be left out. -/
theorem tail (h : Numbered n (o :: os) m) : Numbered n os m := by
  obtain ⟨le, within, ordered, distinct⟩ := h
  rw [nodesOf] at within ordered distinct
  rw [List.map_append] at distinct
  exact ⟨le, fun x mem => within x (List.mem_append_right _ mem),
    fun x mem => ordered x (List.mem_append_right _ mem), distinct.of_append_right⟩

/-- A new node over the first trees of a forest has the next number. -/
theorem node (children : List Outline) (h : Numbered n (children ++ os) m) (number : entry.info.id = m) :
    Numbered n (.node entry children :: os) (m + 1) := by
  have nodes : nodesOf (.node entry children :: os) = .node entry children :: nodesOf (children ++ os) := by
    rw [nodesOf_append, nodesOf, Outline.nodes, List.cons_append]
  have own : Outline.number (.node entry children) = m := number
  have below : ∀ x ∈ children, x.number < m := by
    intro x mem
    refine (h.within x ?_).2
    exact mem_nodesOf.mpr ⟨x, List.mem_append_left _ mem, x.self_mem_nodes⟩
  refine ⟨Nat.le_succ_of_le h.le, ?_, ?_, ?_⟩
  · rw [nodes, List.forall_mem_cons, own]
    refine ⟨⟨h.le, Nat.lt_succ_self m⟩, fun o mem => ?_⟩
    exact ⟨(h.within o mem).1, Nat.lt_succ_of_lt (h.within o mem).2⟩
  · rw [nodes, List.forall_mem_cons, own]
    exact ⟨below, h.ordered⟩
  · rw [nodes, List.map_cons, List.nodup_cons, own]
    refine ⟨fun mem => ?_, h.distinct⟩
    obtain ⟨o, inside, same⟩ := List.mem_map.mp mem
    exact Nat.ne_of_lt (h.within o inside).2 same

/-- The latest of the new node's children is the first tree. -/
theorem nodeOver (children : List Outline) (h : Numbered n (children.reverse ++ os) m)
    (number : entry.info.id = m) :
    Numbered n (.node entry children :: os) (m + 1) :=
  (h.perm ((List.reverse_perm _).append_right _)).node children number

theorem leaf (h : Numbered n os m) (number : entry.info.id = m) : Numbered n (.node entry [] :: os) (m + 1) :=
  h.node [] number

/-- No node is a child twice, and no root is one. -/
theorem single (h : Numbered n os m) : (os.map number ++ (nodesOf os).flatMap childNumbers).Nodup :=
  (children_nodesOf_perm os).nodup_iff.mpr h.distinct

end Numbered

end PascalX86.Outline
