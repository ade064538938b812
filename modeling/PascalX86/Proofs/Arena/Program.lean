import PascalX86.Proofs.Arena.Step

/-!
# Arenas of programs

The nodes of an accepted program as one arena: a tree for each function, apart from the others.
-/

set_option autoImplicit false

namespace PascalX86

section Printing

/-- The line of a node at some depth, with four characters for each level. -/
def Shows (x : Nat × Entry) (line : String) : Prop :=
  ∃ rails, rails.length = 4 * (x.1 + 1) ∧ line = rails ++ x.2.text

namespace Outline

mutual

theorem shows_lines {rails : String} {depth : Nat} (width : rails.length = 4 * depth) (isLast : Bool) :
    (o : Outline) → List.Forall₂ Shows (o.preorder depth) (o.lines rails isLast)
  | .node entry children => by
      have wider (piece : String) (four : piece.length = 4) : (rails ++ piece).length = 4 * (depth + 1) := by
        rw [String.length_append, width, four, Nat.mul_succ]
      rw [preorder, lines]
      refine .cons ⟨_, wider _ ?_, rfl⟩ (shows_childLines (wider _ ?_) children)
      · cases isLast <;> rfl
      · cases isLast <;> rfl

theorem shows_childLines {rails : String} {depth : Nat} (width : rails.length = 4 * depth) :
    (os : List Outline) → List.Forall₂ Shows (preorders depth os) (childLines rails os)
  | [] => .nil
  | o :: os => List.rel_append (shows_lines width _ o) (shows_childLines width os)

end

mutual

theorem map_preorder (depth : Nat) : (o : Outline) → (o.preorder depth).map Prod.snd = o.nodes.map entry
  | .node entry children => by
      rw [preorder, nodes, List.map_cons, List.map_cons, map_preorders (depth + 1) children]
      rfl

theorem map_preorders (depth : Nat) : (os : List Outline) →
    (preorders depth os).map Prod.snd = (nodesOf os).map entry
  | [] => rfl
  | o :: os => by
      rw [preorders, nodesOf, List.map_append, List.map_append, o.map_preorder, map_preorders depth os]

end

end Outline

end Printing

/-- The arena holds the nodes of a program's functions, which are trees apart from each other. -/
structure Program.StandsIn (p : Program) (a : Arena) : Prop where
  cells : a.cells = (Outline.nodesOf p.trees).map Outline.cell
  within : ∀ c ∈ a.cells, c.number < p.nodes
  ordered : ∀ c ∈ a.cells, ∀ k ∈ c.children, k < c.number
  once : ∀ c ∈ a.cells, c.children.Nodup
  parent : ∀ c ∈ a.cells, ∀ c' ∈ a.cells, ∀ k ∈ c.children, k ∈ c'.children → c = c'
  roots : ∀ f ∈ p.bodies, ∀ c ∈ a.cells, f.body.info.id ∉ c.children
  apart : p.bodies.Pairwise fun f g => ∀ i, a.Reaches f.body.info.id i → ¬a.Reaches g.body.info.id i
  -- A walk ends at every node, whatever it computes.
  walks : ∀ {α : Type} (step : Entry → List α → α), ∀ o ∈ Outline.nodesOf p.trees,
    a.walk step o.number = some (o.fold step)
  root : ∀ c ∈ a.cells, a.walk Entry.rootStep c.number = some c.entry.root
  category : ∀ c ∈ a.cells, a.walk Entry.categoryStep c.number = some c.entry.category
  -- What is lowered is what is read from the arena.
  body : ∀ f ∈ p.bodies, (a.walk Entry.readStep f.body.info.id).bind Prod.snd = some f.body
  printed : ∀ f ∈ p.bodies, ∃ shown,
    f.lines = f.signature.header :: f.locals.symbols.map (fun s => "|-- " ++ s.declaration) ++ shown ∧
      (a.walk Entry.linesStep f.body.info.id).map (fun lines => lines "" true) = some shown ∧
      List.Forall₂ Shows f.nodes shown ∧ (f.nodes.map fun x => x.2.info.id).Nodup ∧
      ∀ i, a.Reaches f.body.info.id i ↔ i ∈ f.nodes.map fun x => x.2.info.id

theorem Function.numbers_nodes (f : Function) :
    (f.nodes.map fun x => x.2.info.id) = f.body.outline.nodes.map Outline.number := by
  have entries := congrArg (List.map fun entry => entry.info.id) (f.body.outline.map_preorder 0)
  rw [List.map_map, List.map_map] at entries
  exact entries

theorem Program.numbers_trees (p : Program) : (Outline.nodesOf p.trees).map Outline.number =
    p.bodies.flatMap fun f => f.nodes.map fun x => x.2.info.id := by
  simp only [Program.trees, Outline.nodesOf_eq_flatMap, List.flatMap_map, List.map_flatMap, Function.numbers_nodes]

section Standing

variable {p : Program} {n : Nat} {f : Function} {i : Nat}

theorem Program.outline_mem_trees (mem : f ∈ p.bodies) : f.body.outline ∈ p.trees := List.mem_map_of_mem mem

theorem reaches_body (h : Outline.Numbered n p.trees p.nodes) (mem : f ∈ p.bodies) :
    h.arena.Reaches f.body.info.id i ↔ i ∈ f.nodes.map fun x => x.2.info.id := by
  rw [f.numbers_nodes, ← f.body.number_outline, Outline.reaches_nodes _ fun x inside => ?_, List.mem_map]
  exact List.mem_map_of_mem (Outline.mem_nodesOf.mpr ⟨_, Program.outline_mem_trees mem, inside⟩)

theorem Program.standsIn (h : Outline.Numbered n p.trees p.nodes) : p.StandsIn h.arena := by
  have nodes {c : Cell} (mem : c ∈ h.arena.cells) : ∃ o ∈ Outline.nodesOf p.trees, o.cell = c :=
    List.mem_map.mp mem
  have walks {α : Type} (step : Entry → List α → α) (o : Outline) (mem : o ∈ Outline.nodesOf p.trees) :
      h.arena.walk step o.number = some (o.fold step) :=
    Outline.walk_nodes step o fun x inside => List.mem_map_of_mem (Outline.mem_nodesOf_trans inside _ mem)
  have ofTree : ∀ o ∈ Outline.nodesOf p.trees, o.OfTree := by
    refine Outline.forall_nodesOf Outline.ofTree_children _ ?_
    rw [trees, List.forall_mem_map]
    exact fun f _ => Outline.ofTree_stmt f.body
  have root {f : Function} (mem : f ∈ p.bodies) : f.body.outline ∈ Outline.nodesOf p.trees :=
    Outline.mem_nodesOf.mpr ⟨_, outline_mem_trees mem, f.body.outline.self_mem_nodes⟩
  obtain ⟨own, disjoint⟩ := List.nodup_flatMap.mp (p.numbers_trees ▸ h.distinct)
  constructor
  case cells => rfl
  case within =>
    intro c mem
    obtain ⟨o, inside, rfl⟩ := nodes mem
    exact (h.within o inside).2
  case ordered => exact h.arena.ordered
  case once => exact fun c mem => Arena.nodup_children mem
  case parent => exact fun c mem c' mem' k child child' => Arena.parent_unique mem mem' child child'
  case roots =>
    intro f mem c mem' child
    obtain ⟨o, inside, rfl⟩ := nodes mem'
    have number : f.body.info.id ∈ p.trees.map Outline.number := by
      rw [← f.body.number_outline]
      exact List.mem_map_of_mem (outline_mem_trees mem)
    exact List.disjoint_of_nodup_append h.single number (List.mem_flatMap.mpr ⟨o, inside, child⟩)
  case apart =>
    refine disjoint.imp_of_mem fun {f g} mem mem' none i reached reached' => ?_
    rw [reaches_body h mem] at reached
    rw [reaches_body h mem'] at reached'
    exact none reached reached'
  case walks => exact walks
  case root =>
    intro c mem
    obtain ⟨o, inside, rfl⟩ := nodes mem
    exact (walks _ o inside).trans (congrArg some (Outline.fold_of_ofTree (ofTree o inside)).1)
  case category =>
    intro c mem
    obtain ⟨o, inside, rfl⟩ := nodes mem
    exact (walks _ o inside).trans (congrArg some (Outline.fold_of_ofTree (ofTree o inside)).2)
  case body =>
    intro f mem
    rw [← f.body.number_outline, walks _ _ (root mem)]
    exact f.body.fold_readStep
  case printed =>
    intro f mem
    refine ⟨f.body.outline.lines "" true, rfl, ?_, ?_, ?_, fun i => reaches_body h mem⟩
    · rw [← f.body.number_outline, walks _ _ (root mem), Option.map_some, Outline.fold_linesStep]
    · exact Outline.shows_lines rfl true f.body.outline
    · exact own f mem

end Standing

/-- The nodes of an accepted program are a forest with a tree for each function. Nodes that were replaced
while it was read have no number there, and they kept to a forest while they stood. -/
theorem Source.nodes_form_forest {source : Source} {p : Program} (h : source.program = .ok p) :
    (∃ a, p.StandsIn a) ∧ Parser.GrowsForest :=
  ⟨⟨_, Program.standsIn (Program.trees_numbered (Source.derives h))⟩, Parser.growsForest⟩

/-- A program with a default value and a sum that are replaced. -/
def Source.doubling : Source := ⟨"doubling.pas", [
  "function f(a: integer; b: double = 2): double;",
  "begin result := a * b end;",
  "begin writeln(f(1 + 2)) end."], .endOfFile⟩

theorem Source.doubling_numbers : Source.doubling.program.toOption.map (fun p =>
    (p.bodies.map fun f => f.nodes.map fun x => x.2.info.id, p.nodes)) =
      some ([[7, 6, 1, 5, 4, 2, 3], [14, 13, 12, 10, 11]], 15) := by
  decide +kernel

theorem Source.doubling_forms_forest : ∃ p, Source.doubling.program = .ok p ∧
    (p.bodies.map fun f => f.nodes.map fun x => x.2.info.id, p.nodes) =
      ([[7, 6, 1, 5, 4, 2, 3], [14, 13, 12, 10, 11]], 15) ∧
    (∃ a, p.StandsIn a) ∧ Parser.GrowsForest := by
  obtain ⟨p, accepted, numbers⟩ := exists_of_map_toOption Source.doubling_numbers
  exact ⟨p, accepted, numbers, Source.nodes_form_forest accepted⟩

end PascalX86
