import PascalX86.Proofs.Checking.Program

/-!
# Bodies of functions

How the body of every function comes about: the function's own declarations leave initializers, and
the statements of its block follow them, read in the scopes at the end of the declarations.
-/

set_option autoImplicit false

namespace PascalX86

/-- Slots that follow each other without gaps. -/
def Arranged (level : Nat) (area : Area) : Nat → List Symbol → Prop
  | _, [] => True
  | offset, symbol :: symbols =>
      (∀ slot, symbol.slot? = some slot → slot = ⟨level, offset, area⟩) ∧
        Arranged level area (offset + symbol.bytes) symbols

theorem arranged_append {level : Nat} {area : Area} {offset : Nat} {first second : List Symbol} :
    Arranged level area offset (first ++ second) ↔
      Arranged level area offset first ∧ Arranged level area (offset + bytesOf first) second := by
  induction first generalizing offset with
  | nil => simp [Arranged, bytesOf]
  | cons symbol first ih => simp [Arranged, bytesOf, ih, and_assoc, Nat.add_assoc]

structure Signature.Formed (f : Signature) : Prop where
  sound : f.Sound
  table : f.table.Sound
  arranged : Arranged f.level .parameters 0 (f.parameters.map Parameter.symbol)

namespace Checking

/-- The first local of a function holds its result, if it has one. -/
def ResultFirst (f : Signature) (symbols : List Symbol) : Prop :=
  f.result = .nil ∨ ∃ symbol ∈ symbols, symbol.slot? = some ⟨f.level, 0, .locals⟩ ∧
    symbol.storage = f.result.size

/-- Where the declarations of a function start: there are no locals but the one that holds the
result. -/
structure Begins (f : Signature) (s : ParserState) : Prop where
  level : s.level = f.level
  tableLevel : s.scopes.current.level = f.level
  area : s.scopes.current.area = .locals
  result : ResultFirst f s.scopes.current.symbols
  fresh : ∀ symbol ∈ s.scopes.current.symbols, ∃ slot, symbol.role = .variable slot

/-- A function completed in the scopes `σ`. -/
inductive Completes (σ : Scopes) (g : Function) : Prop where
  | block {s s' : ParserState} {initializers statements : List Stmt} {span : Span} {n : Nat}
      (formed : g.signature.Formed) (start : Begins g.signature s) (sound : s.Sound)
      (declares : Declares s initializers s') (scopes : s'.scopes = σ)
      (body : Chain (Statement σ 0) s'.nodes statements n) (locals : g.locals = σ.current)
      (eq : g.body = .block ⟨n, span, .nil⟩ (initializers ++ statements))

theorem Parameters.arranged {level : Nat} {defaults : Bool} {t : Table}
    (h : Parameters level defaults t) : Arranged level .parameters 0 t.symbols := by
  induction h with
  | empty => trivial
  | @add defaults t t' name type mode default symbol before _ _ _ added ih =>
      obtain ⟨sound, level, area, -⟩ := before.sound
      obtain ⟨-, extends_⟩ := Declaring.addParameter_ok added
      rw [extends_.symbols, arranged_append]
      refine ⟨ih, fun slot found => ?_, trivial⟩
      rw [extends_.slot slot found, level, area, sound.size, Nat.zero_add]

theorem Heading.formed {s : ParserState} {f : Signature} (h : Heading s f) : f.Formed := by
  obtain ⟨sound, reachable⟩ := h.sound
  obtain ⟨defaults, t, made, parameters, -⟩ := h.parameters
  refine ⟨sound, reachable.sound, ?_⟩
  rw [parameters, Table.parameters, map_symbol_parameters made.sound.symbols]
  exact made.arranged

theorem ResultLocal.fresh {f : Signature} {t : Table} (h : ResultLocal f t) :
    ∀ symbol ∈ t.symbols, ∃ slot, symbol.role = .variable slot := by
  cases h with
  | procedure => simp [Table.empty]
  | function result added =>
      obtain ⟨rfl, extends_⟩ := Declaring.addVariable_ok added
      rw [extends_.symbols]
      simp [Table.empty]

theorem ResultLocal.begins {s : ParserState} {f : Signature} {t : Table} (h : ResultLocal f t) :
    Begins f (s.entered f t) := by
  have fresh := h.fresh
  cases h with
  | procedure result => exact ⟨rfl, rfl, rfl, .inl result, fresh⟩
  | function result added =>
      obtain ⟨rfl, extends_⟩ := Declaring.addVariable_ok added
      have first : t.symbols =
          [⟨⟨.ofSpelling "result", f.name.span⟩, f.result, .variable ⟨f.level, 0, .locals⟩⟩] :=
        extends_.symbols
      exact ⟨rfl, extends_.level, extends_.area, .inr ⟨_, first ▸ List.mem_cons_self, rfl, rfl⟩, fresh⟩

theorem Adds.functions {α : Type} {s s' : ParserState} {d : Declaring α} {answer : α}
    (h : Adds s d answer s') : s'.functions = s.functions := by
  rw [h.2]

theorem Declares.completes {s s' : ParserState} {initializers : List Stmt}
    (h : Declares s initializers s') (sound : s.Sound)
    (before : ∀ g ∈ s.functions, ∃ σ, Completes σ g) : ∀ g ∈ s'.functions, ∃ σ, Completes σ g := by
  induction h with
  | move => exact before
  | constant _ _ adds | scalar _ _ adds | type _ adds | «variable» _ adds | stored _ _ _ adds
  | initialized _ _ adds => exact adds.functions ▸ before
  | append first second ih ih' => exact ih' (first.sound sound).sound (ih sound before)
  | @function s s₁ s₂ f symbol locals initializers statements span n heading adds result declares
      body ih =>
      obtain ⟨outside, entered⟩ := adds.entered sound heading result
      have inner := ih entered (adds.functions ▸ before)
      simp only [ParserState.left, List.forall_mem_append, List.forall_mem_singleton]
      exact ⟨inner, s₂.scopes, .block heading.formed result.begins entered declares rfl body rfl rfl⟩

theorem Completes.locals {σ : Scopes} {g : Function} (h : Completes σ g) :
    g.locals.level = g.signature.level ∧ g.locals.area = .locals ∧ g.locals.Sound ∧
      ResultFirst g.signature g.locals.symbols := by
  obtain ⟨-, start, sound, declares, rfl, -, locals, -⟩ := h
  have declared := declares.sound sound
  obtain ⟨more, symbols⟩ := declared.symbols
  rw [locals]
  refine ⟨declared.tableLevel.trans start.tableLevel, declared.area.trans start.area,
    (declared.sound.scopes _ List.mem_cons_self).sound, ?_⟩
  rcases start.result with none | ⟨symbol, mem, first⟩
  · exact .inl none
  · exact .inr ⟨symbol, symbols ▸ List.mem_append_left more mem, first⟩

theorem Completes.sound {σ : Scopes} {g : Function} (h : Completes σ g) :
    ∃ bound, g.body.Sound σ bound ∧ g.body.jumps = false := by
  obtain ⟨-, -, sound, declares, rfl, body, -, eq⟩ := h
  obtain ⟨-, tree, jumps⟩ := (declares.sound sound).body body _
  rw [eq]
  exact ⟨_, tree, jumps⟩

theorem formed_main (name : Located Name) : Signature.Formed ⟨0, name, [], 0, .nil, 0⟩ where
  sound := ⟨rfl, Nat.zero_le _, by simp, by simp, .inl rfl⟩
  table := Table.sound_empty .parameters 0
  arranged := trivial

theorem begins_main (c : Cursor) (name : Located Name) :
    Begins ⟨0, name, [], 0, .nil, 0⟩ (Parser.initialState c) :=
  ⟨rfl, rfl, rfl, .inl rfl, by simp [Parser.initialState, Scopes.start, Table.empty]⟩

end Checking

theorem Source.completes {source : Source} {p : Program} (h : source.program = .ok p) :
    ∀ g ∈ p.main :: p.functions, ∃ σ, Checking.Completes σ g := by
  obtain ⟨c, s, initializers, statements, n, span, name, declares, chain, rfl⟩ := Source.derives h
  have start := Parser.sound_initialState c
  have outer : s.scopes.outer = [] := (declares.sound start).outer
  have outermost := Scopes.outermost_eq_current outer
  rw [List.forall_mem_cons]
  refine ⟨⟨s.scopes, .block (Checking.formed_main name) (Checking.begins_main c name) start declares rfl
    chain outermost rfl⟩, ?_⟩
  exact declares.completes start (by simp [Parser.initialState])

/-- A small program with a function inside a procedure. -/
def Source.nested : Source := ⟨"nested.pas", [
  "type v = array[1..3] of integer;",
  "const o: v = (1, 2, 3);",
  "var w: v; n: integer;",
  "procedure outer(a: integer; var t: v; x: double = 1.5);",
  "const c: v = (4, 5, 6);",
  "var k: integer;",
  "function inner(b: char; const u: v): integer;",
  "begin",
  "for k := a to 9 do begin t[k] := c[k] + u[2]; if k > n then break end;",
  "result := k",
  "end;",
  "begin read(k, t[2]);",
  "for k := 3 downto 1 do while a < k do begin",
  "a := a + 1; if k = 2 then continue; writeln(-k, x * 2, inner('q', o)) end",
  "end;",
  "begin w := o; outer(n, w) end."], .endOfFile⟩

end PascalX86
