import PascalX86.Proofs.Checking.Sound

/-!
# Soundness of declarations

Declarations keep everything in scope sound and only add to the current table. Every function that
they complete is sound in the scopes at the end of its own declarations.
-/

set_option autoImplicit false

namespace PascalX86

/-- A function after checking, in the scopes in which its body was read. -/
structure Function.Checked (bound : Nat) (g : Function) : Prop where
  signature : g.signature.Sound
  body : ∃ σ : Scopes, σ.Sound g.signature.level ∧ σ.current = g.locals ∧ g.body.Sound σ bound
  jumps : g.body.jumps = false

structure ParserState.Sound (s : ParserState) : Prop where
  scopes : s.scopes.Sound s.level
  functions : ∀ g ∈ s.functions, g.Checked s.nodes

theorem Function.Checked.le {bound bound' : Nat} {g : Function} (h : g.Checked bound)
    (le : bound ≤ bound') : g.Checked bound' := by
  obtain ⟨σ, scopes, current, body⟩ := h.body
  exact ⟨h.signature, ⟨σ, scopes, current, body.mono le fun _ => id⟩, h.jumps⟩

theorem Scopes.Sound.replace {σ : Scopes} {level : Nat} {t : Table} (h : σ.Sound level) (sound : t.Sound)
    (same : t.level = σ.current.level) (area : t.area = σ.current.area) :
    ({ σ with current := t } : Scopes).Sound level := by
  obtain ⟨current, outer⟩ := List.forall_mem_cons.mp h
  exact List.forall_mem_cons.mpr ⟨⟨sound, same ▸ current.level, area ▸ current.area⟩, outer⟩

theorem Scopes.Sound.push {σ : Scopes} {level : Nat} {t : Table} (h : σ.Sound level)
    (reachable : t.Reachable level) : (σ.push t).Sound level :=
  List.forall_mem_cons.mpr ⟨reachable, h⟩

theorem Scopes.Sound.le {σ : Scopes} {level level' : Nat} (h : σ.Sound level) (le : level ≤ level') :
    σ.Sound level' :=
  fun t mem => ⟨(h t mem).sound, Nat.le_trans (h t mem).level le, (h t mem).area⟩

theorem ParserState.Sound.entered {s : ParserState} {f : Signature} {locals : Table} (h : s.Sound)
    (le : s.level ≤ f.level) (table : f.table.Reachable f.level) (result : locals.Reachable f.level) :
    (s.entered f locals).Sound :=
  ⟨((h.scopes.le le).push table).push result, h.functions⟩

namespace Checking

structure Extended (s : ParserState) (symbol : Symbol) (s' : ParserState) : Prop where
  table : s.scopes.current.Extends symbol s'.scopes.current
  eq : s' = { s with scopes := { s.scopes with current := s'.scopes.current } }

/-- What declarations leave behind. -/
structure Declared (s : ParserState) (initializers : List Stmt) (s' : ParserState) : Prop where
  sound : s'.Sound
  outer : s'.scopes.outer = s.scopes.outer
  symbols : ∃ more, s'.scopes.current.symbols = s.scopes.current.symbols ++ more
  tableLevel : s'.scopes.current.level = s.scopes.current.level
  area : s'.scopes.current.area = s.scopes.current.area
  level : s'.level = s.level
  loops : s'.loops = s.loops
  nodes : s.nodes ≤ s'.nodes
  initializers : ∀ i ∈ initializers, i.Sound s'.scopes s'.nodes ∧ i.jumps = false

variable {s s' : ParserState} {symbol : Symbol}

theorem Adds.run {α : Type} {d : Declaring α} {answer : α} (h : Adds s d answer s') :
    d.runOn s.scopes.current = (.ok answer, s'.scopes.current) ∧
      s' = { s with scopes := { s.scopes with current := s'.scopes.current } } := by
  obtain ⟨declared, eq⟩ := h
  simp only [Scopes.declare, Prod.mk.injEq] at declared
  obtain ⟨answered, scopes⟩ := declared
  refine ⟨Prod.ext answered ?_, ?_⟩
  · rw [← scopes]
  · rw [eq, ← scopes]

section Extension

theorem Extended.holds (h : Extended s symbol s') : s'.scopes.Holds symbol :=
  ⟨s'.scopes.current, List.mem_cons_self, by simp [h.table.symbols]⟩

theorem Extended.declared (h : Extended s symbol s') (sound : s.Sound) (fulfilled : symbol.Fulfilled) :
    Declared s [] s' := by
  have table := h.table.sound (sound.scopes _ List.mem_cons_self).sound fulfilled
  have eq := h.eq
  refine ⟨⟨?_, ?_⟩, ?_, ⟨_, h.table.symbols⟩, h.table.level, h.table.area, ?_, ?_, ?_, by simp⟩
  · rw [eq]
    exact sound.scopes.replace table h.table.level h.table.area
  · rw [eq]
    exact sound.functions
  · rw [eq]
  · rw [eq]
  · rw [eq]
  · have same : s'.nodes = s.nodes := by rw [eq]
    exact Nat.le_of_eq same.symm

theorem Declared.holds {inits : List Stmt} (h : Declared s inits s') {symbol : Symbol}
    (holds : s.scopes.Holds symbol) : s'.scopes.Holds symbol := by
  obtain ⟨t, mem, inside⟩ := holds
  rcases List.mem_cons.mp mem with rfl | mem
  · obtain ⟨more, symbols⟩ := h.symbols
    exact ⟨s'.scopes.current, List.mem_cons_self, symbols ▸ List.mem_append_left more inside⟩
  · exact ⟨t, List.mem_cons_of_mem _ (h.outer ▸ mem), inside⟩

theorem Declared.append {t u : ParserState} {first second : List Stmt} (before : Declared s first t)
    (after : Declared t second u) : Declared s (first ++ second) u := by
  -- Earlier initializers stay sound: later declarations only add symbols and nodes.
  refine ⟨after.sound, ?_, ?_, ?_, ?_, ?_, ?_, ?_, ?_⟩
  · rw [after.outer, before.outer]
  · obtain ⟨more, symbols⟩ := before.symbols
    obtain ⟨more', symbols'⟩ := after.symbols
    exact ⟨more ++ more', by rw [symbols', symbols, List.append_assoc]⟩
  · rw [after.tableLevel, before.tableLevel]
  · rw [after.area, before.area]
  · rw [after.level, before.level]
  · rw [after.loops, before.loops]
  · exact Nat.le_trans before.nodes after.nodes
  · intro i mem
    rcases List.mem_append.mp mem with mem | mem
    · obtain ⟨sound, jumps⟩ := before.initializers i mem
      exact ⟨sound.mono after.nodes fun _ => after.holds, jumps⟩
    · exact after.initializers i mem

theorem Declared.moved {inits : List Stmt} (h : Declared s inits s') (c : Cursor) {n : Nat}
    (later : s'.nodes ≤ n) : Declared s inits (s'.moved c n) :=
  ⟨⟨h.sound.scopes, fun g mem => (h.sound.functions g mem).le later⟩, h.outer, h.symbols, h.tableLevel,
    h.area, h.level, h.loops, Nat.le_trans h.nodes later,
    fun i mem => ⟨(h.initializers i mem).1.mono later fun _ => id, (h.initializers i mem).2⟩⟩

theorem sound_initializer {σ : Scopes} {value : Value} (n : Nat) (span : Span) (holds : σ.Holds symbol)
    (proper : symbol.type.Proper) (referable : symbol.IsReferable) (fits : value.Fits symbol.type) :
    (initializer n span symbol value).Sound σ (n + 3) := by
  have type : (Expr.ofConstant ⟨n + 1, span, symbol.type⟩ value).type = symbol.type := by
    simp only [Expr.ofConstant]
    split <;> rfl
  refine Stmt.all_assign.mpr ⟨⟨⟨rfl, ?_⟩, Nat.lt_succ_self _, trivial⟩, Expr.all_var.mpr ?_, ?_⟩
  · rw [type]
    exact Ty.same_refl _
  · exact ⟨⟨rfl, referable⟩, proper, show n < n + 3 by omega, List.forall_mem_nil _, holds⟩
  · exact sound_ofConstant proper fits (show n + 1 < n + 3 by omega)

theorem Extended.initialized {value : Value} (h : Extended s symbol s') (sound : s.Sound) (span : Span)
    (fulfilled : symbol.Fulfilled) (proper : symbol.type.Proper) (referable : symbol.IsReferable)
    (fits : value.Fits symbol.type) :
    Declared s [initializer s'.nodes span symbol value] (s'.moved s'.cursor (s'.nodes + 3)) := by
  have declared := (h.declared sound fulfilled).moved s'.cursor (Nat.le_add_right s'.nodes 3)
  refine ⟨declared.sound, declared.outer, declared.symbols, declared.tableLevel, declared.area,
    declared.level, declared.loops, declared.nodes, ?_⟩
  rw [List.forall_mem_singleton]
  exact ⟨sound_initializer s'.nodes span h.holds proper referable fits, rfl⟩

end Extension

section Headings

variable {f : Signature} {t : Table}

structure SoundParameters (level : Nat) (t : Table) : Prop where
  sound : t.Sound
  level : t.level = level
  area : t.area = .parameters
  symbols : ∀ symbol ∈ t.symbols, ∃ p : Parameter, symbol = p.symbol

theorem Parameters.sound {level : Nat} {defaults : Bool} (h : Parameters level defaults t) :
    SoundParameters level t := by
  induction h with
  | empty => exact ⟨Table.sound_empty _ _, rfl, rfl, by simp [Table.empty]⟩
  | @add defaults t t' name type mode default symbol _ proper _ fits added ih =>
      obtain ⟨rfl, extends_⟩ := Declaring.addParameter_ok added
      refine ⟨extends_.sound ih.sound ⟨proper, ih.area, fits⟩, ?_, ?_, ?_⟩
      · rw [extends_.level, ih.level]
      · rw [extends_.area, ih.area]
      · rw [extends_.symbols, List.forall_mem_append, List.forall_mem_singleton]
        exact ⟨ih.symbols, ⟨name, type, mode, default, _⟩, rfl⟩

theorem map_symbol_parameters {symbols : List Symbol}
    (h : ∀ symbol ∈ symbols, ∃ p : Parameter, symbol = p.symbol) :
    (symbols.filterMap Symbol.parameter?).map Parameter.symbol = symbols := by
  induction symbols with
  | nil => rfl
  | cons symbol symbols ih =>
      rw [List.forall_mem_cons] at h
      obtain ⟨⟨p, rfl⟩, rest⟩ := h
      simp [ih rest]

theorem Heading.sound {s : ParserState} (h : Heading s f) :
    f.Sound ∧ f.table.Reachable f.level := by
  obtain ⟨defaults, t, made, parameters, block⟩ := h.parameters
  obtain ⟨sound, level, area, symbols⟩ := made.sound
  have same : f.parameters.map Parameter.symbol = t.symbols := by
    rw [parameters]
    exact map_symbol_parameters symbols
  have table : f.table = t := by
    rw [Signature.table, same, block, ← level, ← area]
  -- The table of a signature is the one its parameters were declared in.
  have fulfilled (p : Parameter) (mem : p ∈ f.parameters) : p.symbol.Fulfilled :=
    sound.fulfilled p.symbol (same ▸ List.mem_map_of_mem mem)
  refine ⟨⟨?_, ?_, ?_, ?_, h.result⟩, ?_⟩
  · rw [same, block, sound.size]
  · rw [block]
    exact sound.room
  · exact fun p mem => (fulfilled p mem).1
  · exact fun p mem => (fulfilled p mem).2.2
  · rw [table]
    exact ⟨sound, Nat.le_of_eq level, by simp [area]⟩

theorem ResultLocal.reachable (h : ResultLocal f t) (result : f.result = .nil ∨ f.result.Proper) :
    t.Reachable f.level := by
  cases h with
  | procedure => exact ⟨Table.sound_empty _ _, Nat.le_refl _, by simp [Table.empty]⟩
  | function result' added =>
      obtain ⟨rfl, extends_⟩ := Declaring.addVariable_ok added
      refine ⟨extends_.sound (Table.sound_empty _ _) (result.resolve_left result'), ?_, ?_⟩
      · exact Nat.le_of_eq extends_.level
      · simp [extends_.area, Table.empty]

end Headings

section Blocks

variable {initializers statements : List Stmt} {n : Nat}

theorem Declared.body (h : Declared s initializers s')
    (body : Chain (Statement s'.scopes 0) s'.nodes statements n) (span : Span) :
    s'.nodes ≤ n ∧
      (Stmt.block ⟨n, span, .nil⟩ (initializers ++ statements)).Sound s'.scopes (n + 1) ∧
      (Stmt.block ⟨n, span, .nil⟩ (initializers ++ statements)).jumps = false := by
  obtain ⟨le, sound⟩ := body.bounded (fun _ _ _ made => made.sound h.sound.scopes.fulfilled)
    fun _ _ _ le sound => sound.mono le fun _ => id
  refine ⟨le, Stmt.all_block.mpr ⟨⟨trivial, Nat.lt_succ_self n, trivial⟩, ?_⟩, ?_⟩
  · rw [List.forall_mem_append]
    exact ⟨fun i mem => (h.initializers i mem).1.mono (Nat.le_succ_of_le le) fun _ => id,
      fun x mem => (sound x mem).mono (Nat.le_succ n) fun _ => id⟩
  · rw [Stmt.jumps, Stmt.jumpsOf_eq_false, List.forall_mem_append]
    exact ⟨fun i mem => (h.initializers i mem).2,
      body.forall_mem fun _ _ _ made => Statement.jumps made rfl⟩

theorem Declared.function {s₁ s₂ : ParserState} {f : Signature} {locals : Table} {span : Span}
    {next : Nat} (outside : Declared { s with nextFunction := next } [] s₁) (signature : f.Sound) (inside : Declared (s₁.entered f locals) initializers s₂)
    (body : Chain (Statement s₂.scopes 0) s₂.nodes statements n) :
    Declared s [] (s₁.left s₂ f (.block ⟨n, span, .nil⟩ (initializers ++ statements)) (n + 1)) := by
  obtain ⟨le, sound, jumps⟩ := inside.body body span
  have later : s₁.nodes ≤ n := Nat.le_trans inside.nodes le
  refine ⟨⟨outside.sound.scopes, ?_⟩, outside.outer, outside.symbols, outside.tableLevel, outside.area,
    outside.level, outside.loops, Nat.le_succ_of_le (Nat.le_trans outside.nodes later), by simp⟩
  simp only [ParserState.left, List.forall_mem_append, List.forall_mem_singleton]
  refine ⟨fun g mem => (inside.sound.functions g mem).le (Nat.le_succ_of_le le), signature, ?_, jumps⟩
  have level : s₂.level = f.level := inside.level
  exact ⟨s₂.scopes, level ▸ inside.sound.scopes, rfl, sound⟩

end Blocks

theorem Adds.extended {d : Declaring Symbol}
    (h : Adds s d symbol s') (table : s.scopes.current.Extends symbol s'.scopes.current) :
    Extended s symbol s' :=
  ⟨table, h.run.2⟩

theorem Adds.entered {f : Signature} {locals : Table} {next : Nat}
    (adds : Adds { s with nextFunction := next } (.addFunction f) symbol s') (sound : s.Sound)
    (heading : Heading s f) (result : ResultLocal f locals) :
    Declared { s with nextFunction := next } [] s' ∧ (s'.entered f locals).Sound := by
  obtain ⟨rfl, table⟩ := Declaring.addFunction_ok adds.run.1
  obtain ⟨signature, parameters⟩ := heading.sound
  have numbered : ParserState.Sound { s with nextFunction := next } := ⟨sound.scopes, sound.functions⟩
  have outside := (adds.extended table).declared numbered signature
  have level : s'.level ≤ f.level := by
    rw [outside.level, heading.level]
    exact Nat.le_succ s.level
  exact ⟨outside, outside.sound.entered level parameters (result.reachable heading.result)⟩

theorem Declares.sound {initializers : List Stmt} (h : Declares s initializers s') (sound : s.Sound) :
    Declared s initializers s' := by
  induction h with
  | @move s n c later =>
      have start : Declared s [] s :=
        ⟨sound, rfl, ⟨[], by simp⟩, rfl, rfl, rfl, rfl, Nat.le_refl _, by simp⟩
      exact start.moved c later
  | append _ _ before after =>
      have first := before sound
      exact first.append (after first.sound)
  | type proper adds =>
      obtain ⟨rfl, table⟩ := Declaring.addType_ok adds.run.1
      exact (adds.extended table).declared sound proper
  | @constant s s' name e value n n' symbol made known adds =>
      obtain ⟨rfl, table⟩ := Declaring.addConstant_ok adds.run.1
      have checked := (made.sound sound.scopes.fulfilled).2.self
      have scalar : e.type.isScalar = true := by
        cases e <;> simp only [Expr.value?, reduceCtorEq] at known
        · exact checked.obeys.1
        · exact absurd rfl (made.ne_aggregate _ _)
      refine (adds.extended table).declared sound ⟨checked.proper, checked.obeys.fits known, ?_⟩
      simp [scalar]
  | scalar scalar fits adds =>
      obtain ⟨rfl, table⟩ := Declaring.addConstant_ok adds.run.1
      refine (adds.extended table).declared sound ⟨Ty.proper_of_isScalar scalar, fits, ?_⟩
      simp [scalar]
  | stored proper structured fits adds =>
      obtain ⟨rfl, table⟩ := Declaring.addConstant_ok adds.run.1
      refine (adds.extended table).initialized sound _ ⟨proper, fits, ?_⟩ proper structured fits
      simp [structured]
  | «variable» proper adds =>
      obtain ⟨rfl, table⟩ := Declaring.addVariable_ok adds.run.1
      exact (adds.extended table).declared sound proper
  | initialized proper fits adds =>
      obtain ⟨rfl, table⟩ := Declaring.addVariable_ok adds.run.1
      exact (adds.extended table).initialized sound _ proper proper trivial fits
  | @function s s₁ s₂ f symbol locals initializers statements span n heading adds result _ body ih =>
      obtain ⟨outside, entered⟩ := adds.entered sound heading result
      exact Declared.function outside heading.sound.1 (ih entered) body

/-- Initializers of declarations assign to what has been declared. -/
theorem Declares.initial {initializers : List Stmt} (h : Declares s initializers s') (sound : s.Sound) :
    ∀ i ∈ initializers, i.Initial s'.scopes.current := by
  induction h with
  | append before after ih ih' =>
      have sound' := (before.sound sound).sound
      obtain ⟨more, symbols⟩ := (after.sound sound').symbols
      rw [List.forall_mem_append]
      refine ⟨fun i mem => ?_, ih' sound'⟩
      obtain ⟨symbol, inside, assigned⟩ := ih sound i mem
      exact ⟨symbol, symbols ▸ List.mem_append_left more inside, assigned⟩
  | stored _ _ _ adds =>
      obtain ⟨rfl, extends_⟩ := Declaring.addConstant_ok adds.run.1
      refine List.forall_mem_singleton.mpr ⟨_, ?_, _, _, _, rfl⟩
      exact extends_.symbols ▸ List.mem_append_right _ List.mem_cons_self
  | initialized _ _ adds =>
      obtain ⟨rfl, extends_⟩ := Declaring.addVariable_ok adds.run.1
      refine List.forall_mem_singleton.mpr ⟨_, ?_, _, _, _, rfl⟩
      exact extends_.symbols ▸ List.mem_append_right _ List.mem_cons_self
  | _ => simp

end Checking

end PascalX86
