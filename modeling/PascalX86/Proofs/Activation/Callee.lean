import PascalX86.Proofs.Frame.Argument

/-!
# Callees and the functions around them

A function that a body can name is declared among the locals of the function itself or of one around
it, and it stands right inside that one. So whatever is around the callee is around the caller too.
-/

set_option autoImplicit false

namespace PascalX86

namespace Checking

/-- Functions that are declared in a table lie one level further in than its owner. -/
structure Housed (s s' : ParserState) (new : List Function) : Prop where
  grown : Grown s s' new
  declared : ∀ symbol ∈ s'.scopes.current.symbols, ∀ f, symbol.role = .function f →
    symbol ∈ s.scopes.current.symbols ∨ ∃ g ∈ new, g.signature = f ∧ g.signature.level = s.level + 1
  inside : ∀ g ∈ new, ∀ symbol ∈ g.locals.symbols, ∀ f, symbol.role = .function f →
    ∃ h, [h, g].Sublist new ∧ h.signature = f ∧ g.signature.id < h.signature.id ∧
      h.signature.level = g.signature.level + 1

section Growth

variable {s s' t u : ParserState} {new more : List Function}

theorem Housed.append (before : Housed s t new) (after : Housed t u more) :
    Housed s u (new ++ more) where
  grown := before.grown.append after.grown
  declared := by
    intro symbol mem f role
    rcases after.declared symbol mem f role with mem | ⟨g, mem, eq, level⟩
    · rcases before.declared symbol mem f role with mem | ⟨g, mem, eq, level⟩
      · exact .inl mem
      · exact .inr ⟨g, List.mem_append_left _ mem, eq, level⟩
    · exact .inr ⟨g, List.mem_append_right _ mem, eq, before.grown.level ▸ level⟩
  inside := by
    rw [List.forall_mem_append]
    refine ⟨fun g mem symbol own f role => ?_, fun g mem symbol own f role => ?_⟩
    · obtain ⟨h, listed, rest⟩ := before.inside g mem symbol own f role
      exact ⟨h, listed.trans (List.sublist_append_left _ _), rest⟩
    · obtain ⟨h, listed, rest⟩ := after.inside g mem symbol own f role
      exact ⟨h, listed.trans (List.sublist_append_right _ _), rest⟩

theorem Housed.moved (s : ParserState) (c : Cursor) (n : Nat) : Housed s (s.moved c n) [] :=
  ⟨.moved s c n, fun _ mem _ _ => .inl mem, by simp⟩

theorem Housed.symbol {symbol : Symbol} (extended : Extended s symbol s')
    (plain : ∀ f, symbol.role ≠ .function f) : Housed s s' [] := by
  refine ⟨.symbol extended plain, fun other mem f role => ?_, by simp⟩
  rcases (Grown.symbol extended plain).declared other mem f role with old | ⟨g, none, -⟩
  · exact .inl old
  · cases none

theorem Housed.function {s₁ s₂ : ParserState} {f : Signature} {symbol : Symbol} {locals : Table}
    {body : Stmt} {n : Nat} (heading : Heading s f)
    (adds : Adds { s with nextFunction := s.nextFunction + 1 } (.addFunction f) symbol s₁)
    (fresh : ∀ symbol ∈ locals.symbols, ∃ slot, symbol.role = .variable slot)
    (inner : Housed (s₁.entered f locals) s₂ new)
    (completes : Completes s₂.scopes ⟨f, s₂.scopes.current, body⟩)
    (sound : s₂.scopes.Sound f.level) :
    Housed s (s₁.left s₂ f body n) (new ++ [⟨f, s₂.scopes.current, body⟩]) := by
  have grown := inner.grown.function (n := n) heading adds fresh completes sound
  obtain ⟨rfl, table⟩ := Declaring.addFunction_ok adds.run.1
  have next : (s₁.entered f locals).nextFunction = s.nextFunction + 1 := by
    show s₁.nextFunction = _
    rw [adds.run.2]
  refine ⟨grown, fun other mem h role => ?_, ?_⟩
  · have mem : other ∈ s₁.scopes.current.symbols := mem
    rw [table.symbols, List.mem_append, List.mem_singleton] at mem
    rcases mem with mem | rfl
    · exact .inl mem
    · obtain rfl : f = h := Role.function.inj role
      exact .inr ⟨_, List.mem_append_right _ List.mem_cons_self, rfl, heading.level⟩
  · rw [List.forall_mem_append, List.forall_mem_singleton]
    refine ⟨fun g mem other own h role => ?_, fun other own h role => ?_⟩
    · obtain ⟨k, listed, rest⟩ := inner.inside g mem other own h role
      exact ⟨k, listed.trans (List.sublist_append_left _ _), rest⟩
    · rcases inner.declared other own h role with old | ⟨k, mem, same, level⟩
      · obtain ⟨slot, other⟩ := fresh _ old
        rw [role] at other
        cases other
      · have numbered := (inner.grown.numbered k mem).1
        rw [next, ← heading.id] at numbered
        refine ⟨k, ?_, same, numbered, level⟩
        exact (List.singleton_sublist.mpr mem).append (List.Sublist.refl _)

theorem Housed.growing : Growing Housed where
  moved := .moved
  append := .append
  symbol := .symbol
  function := .function

theorem Declares.housed {initializers : List Stmt} (h : Declares s initializers s') (sound : s.Sound) :
    ∃ new, Housed s s' new :=
  h.grows Housed.growing sound

/-- A function that is declared among the locals of another one stands right inside it. -/
theorem Program.inside {p : PascalX86.Program} (h : Checking.Program p) :
    ∀ g ∈ p.bodies, ∀ symbol ∈ g.locals.symbols, ∀ f, symbol.role = .function f →
      ∃ k ∈ p.functions, k.signature = f ∧ p.Encloses g k ∧
        k.signature.level = g.signature.level + 1 := by
  obtain ⟨c, s, initializers, statements, n, span, name, declares, -, rfl⟩ := h
  have start := Parser.sound_initialState c
  obtain ⟨new, housed⟩ := declares.housed start
  have functions : s.functions = new := by simpa [Parser.initialState] using housed.grown.functions
  have outermost := Scopes.outermost_eq_current (declares.sound start).outer
  intro g mem symbol own f role
  simp only [PascalX86.Program.bodies, functions, outermost, List.mem_append, List.mem_singleton] at mem
  rcases mem with mem | rfl
  · obtain ⟨k, listed, same, headed, level⟩ := housed.inside g mem symbol own f role
    refine ⟨k, functions ▸ listed.subset List.mem_cons_self, same, ⟨?_, headed⟩, level⟩
    rw [PascalX86.Program.bodies, functions]
    exact listed.trans (List.sublist_append_left _ _)
  · rcases housed.declared symbol own f role with old | ⟨k, mem, same, level⟩
    · simp [Parser.initialState, Scopes.start, Table.empty] at old
    · refine ⟨k, functions ▸ mem, same, ⟨?_, (housed.grown.numbered k mem).1⟩, level⟩
      rw [PascalX86.Program.bodies, functions, outermost]
      exact (List.singleton_sublist.mpr mem).append (List.Sublist.refl _)

end Growth

end Checking

namespace Program.Nested

variable {p : Program} {g h k : Function} {before later : List Function} {σ : Scopes}

theorem encloses_trans (nested : p.Nested) (outer : p.Encloses k h) (inner : p.Encloses h g) :
    p.Encloses k g := by
  obtain ⟨before, later, split⟩ := List.append_of_mem (inner.complete.subset List.mem_cons_self)
  have around := (mem_of_mem_enclosing (nested.mem_enclosing split inner)).1
  obtain ⟨first, second, rfl⟩ := List.append_of_mem around
  have split' : p.bodies = (before ++ g :: first) ++ h :: second := by simp [split]
  have last := (mem_of_mem_enclosing (nested.mem_enclosing split' outer)).1
  refine ⟨?_, Nat.lt_trans outer.headed inner.headed⟩
  rw [split]
  have listed : k ∈ first ++ h :: second := List.mem_append_right _ (List.mem_cons_of_mem _ last)
  exact ((List.singleton_sublist.mpr listed).cons_cons g).trans (List.sublist_append_right _ _)

/-- Whatever is around a function that a body can name is around the body as well. -/
theorem around_callee (nested : p.Nested) (derives : Checking.Program p)
    (split : p.bodies = before ++ g :: later) (covers : g.Covers later σ) {f : Signature}
    (named : σ.Names f) : ∃ k ∈ p.functions, k.signature = f ∧
      k.signature.level ≤ g.signature.level + 1 ∧ ∀ h, p.Encloses h k → p.Around h g := by
  obtain ⟨symbol, holds, role⟩ := named
  obtain ⟨owner, around, own⟩ := declares covers holds role
  have around := (nested.around_iff split owner).mpr around
  have listed : owner ∈ p.bodies := mem_bodies split ((nested.around_iff split owner).mp around)
  obtain ⟨k, functions, same, encloses, level⟩ := derives.inside owner listed symbol own f role
  have outer : owner.signature.level ≤ g.signature.level := by
    rcases around with rfl | around
    · exact Nat.le_refl _
    · exact Nat.le_of_lt (mem_of_mem_enclosing (nested.mem_enclosing split around)).2
  refine ⟨k, functions, same, by omega, fun h encloses' => ?_⟩
  -- The owner is the one function around the callee at its level, so it is the innermost one.
  obtain ⟨before', later', split'⟩ := List.append_of_mem (encloses.complete.subset List.mem_cons_self)
  obtain ⟨parent, head⟩ := nested.exists_enclosing split' (by omega)
  obtain ⟨innermost, level'⟩ := nested.parent split' head
  obtain rfl := nested.encloses_unique innermost.encloses encloses (by omega)
  have outward : h = parent ∨ p.Encloses h parent := innermost.innermost h encloses'
  rcases outward with rfl | outward
  · exact around
  · rcases around with rfl | around
    · exact .inr outward
    · exact .inr (nested.encloses_trans outward around)

end Program.Nested

end PascalX86
