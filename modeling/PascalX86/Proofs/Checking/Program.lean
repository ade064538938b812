import PascalX86.Proofs.Answer
import PascalX86.Proofs.Checking.Declaration

/-!
# Checked programs

What holds of every program that is accepted: its trees obey the rules of typing, and everything
they name is declared where they stand.
-/

set_option autoImplicit false

namespace PascalX86

theorem Source.derives {source : Source} {p : Program} (h : source.program = .ok p) :
    Checking.Program p := by
  simp only [Source.program, Program.ofItems] at h
  split at h
  · cases h
  · next c _ =>
    cases run : Parser.program.run (Parser.initialState c) with
    | error e => simp [run] at h
    | ok answer =>
        obtain ⟨q, s'⟩ := answer
        obtain rfl : q = p := by simpa [run] using h
        exact Parser.ensures_program c q s' run

structure Program.Checked (p : Program) : Prop where
  functions : ∀ g ∈ p.functions, g.Checked p.nodes
  main : ∃ σ : Scopes, σ.Sound 0 ∧ σ.current = p.main.locals ∧ σ.outer = [] ∧
    p.main.body.Sound σ p.nodes
  signature : p.main.signature.level = 0 ∧ p.main.signature.parameters = [] ∧
    p.main.signature.block = 0 ∧ p.main.signature.result = .nil
  jumps : p.main.body.jumps = false
  area : p.main.locals.area = .locals

theorem Program.checked {p : Program} (h : Checking.Program p) : p.Checked := by
  obtain ⟨c, s, initializers, statements, n, span, name, declares, chain, rfl⟩ := h
  have declared := declares.sound (Parser.sound_initialState c)
  obtain ⟨le, body, jumps⟩ := declared.body chain span
  have outer : s.scopes.outer = [] := declared.outer
  have level : s.level = 0 := declared.level
  have outermost := Scopes.outermost_eq_current outer
  refine ⟨fun g mem => (declared.sound.functions g mem).le (Nat.le_succ_of_le le), ?_, ?_, jumps, ?_⟩
  · exact ⟨s.scopes, level ▸ declared.sound.scopes, outermost.symm, outer, body⟩
  · exact ⟨rfl, rfl, rfl, rfl⟩
  · exact outermost ▸ declared.area

theorem Source.checked {source : Source} {p : Program} (h : source.program = .ok p) : p.Checked :=
  Program.checked (Source.derives h)

theorem Program.Checked.sound {p : Program} (h : p.Checked) :
    ∀ g ∈ p.main :: p.functions, ∃ σ, g.body.Sound σ p.nodes := by
  rw [List.forall_mem_cons]
  refine ⟨?_, fun g mem => ?_⟩
  · obtain ⟨σ, -, -, -, sound⟩ := h.main
    exact ⟨σ, sound⟩
  · obtain ⟨σ, -, -, sound⟩ := (h.functions g mem).body
    exact ⟨σ, sound⟩

/-- A small program with most kinds of nodes. -/
def Source.tour : Source := ⟨"tour.pas", [
  "type r = record x: integer end;",
  "const o: r = (x: 1);",
  "var p: array[0..2] of r; i: integer;",
  "function f(var n: integer; b: integer = 2): double;",
  "begin result := n * b end;",
  "begin p[i] := o;",
  "for i := 0 to 2 do if i > 1 then continue;",
  "while i < 5 do p[1].x := -i;",
  "writeln('f', f(i)) end."], .endOfFile⟩

theorem Source.tour_functions :
    Source.tour.program.toOption.map (fun p => p.functions.length) = some 1 := by
  decide +kernel

theorem Source.tour_accepted : ∃ p, Source.tour.program = .ok p ∧ p.functions.length = 1 :=
  exists_of_map_toOption Source.tour_functions

/-- No pass after checking needs to look at a type again: every node obeys its rule. -/
theorem Source.trees_obey_rules {source : Source} {p : Program} (h : source.program = .ok p) :
    ∀ g ∈ p.main :: p.functions, g.body.All Expr.Obeys Stmt.Obeys := by
  intro g mem
  obtain ⟨σ, sound⟩ := (Source.checked h).sound g mem
  exact Stmt.All.mono sound (fun _ => Expr.Checked.obeys) fun _ => Stmt.Checked.obeys

theorem Source.tour_obeys_rules : ∃ p, Source.tour.program = .ok p ∧ p.functions.length = 1 ∧
    ∀ g ∈ p.main :: p.functions, g.body.All Expr.Obeys Stmt.Obeys := by
  obtain ⟨p, accepted, one⟩ := Source.tour_accepted
  exact ⟨p, accepted, one, Source.trees_obey_rules accepted⟩

end PascalX86
