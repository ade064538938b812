import PascalX86.Proofs.Checking.Reading
import PascalX86.Proofs.Checking.Scope
import PascalX86.Proofs.Frame.Argument

/-!
# Resolution of names

A name in a body stands for what the innermost table has under it: the tables of the function itself,
then those of the functions around it as they were when the one inside had been declared.
-/

set_option autoImplicit false

namespace PascalX86

def tablesAround (inner : Function) : List Function → List (Function × Table)
  | [] => []
  | h :: hs => (h, h.locals.upTo inner.signature) :: (h, h.signature.table) :: tablesAround h hs

/-- The tables in which names of a body are looked up, innermost first, each with the function that
it belongs to. The main program comes last; it has no parameters. -/
def Function.visible (g : Function) (later : List Function) : List (Function × Table) :=
  (g, g.locals) :: (g, g.signature.table) :: tablesAround g (enclosing later g.signature.level)

section Tables

theorem tablesAround_concat (g main : Function) (hs : List Function) :
    (tablesAround g (hs ++ [main])).map Prod.snd =
      around g hs [main.locals] ++ [main.signature.table] := by
  induction hs generalizing g with
  | nil => rfl
  | cons h hs ih => simp [tablesAround, around, ih]

theorem mem_tablesAround {g : Function} {hs : List Function} {x : Function × Table}
    (mem : x ∈ tablesAround g hs) :
    x.1 ∈ hs ∧ ∀ symbol ∈ x.2.symbols, symbol ∈ x.1.symbols := by
  induction hs generalizing g with
  | nil => simp [tablesAround] at mem
  | cons h hs ih =>
      rw [tablesAround, List.mem_cons, List.mem_cons] at mem
      rcases mem with rfl | rfl | mem
      · refine ⟨List.mem_cons_self, fun symbol inside => ?_⟩
        exact List.mem_append_right _ (Table.mem_of_mem_upTo inside)
      · exact ⟨List.mem_cons_self, fun symbol inside => List.mem_append_left _ inside⟩
      · obtain ⟨around, own⟩ := ih mem
        exact ⟨List.mem_cons_of_mem _ around, own⟩

theorem Function.mem_visible {g : Function} {later : List Function} {x : Function × Table}
    (mem : x ∈ g.visible later) :
    x.1 ∈ g :: enclosing later g.signature.level ∧ ∀ symbol ∈ x.2.symbols, symbol ∈ x.1.symbols := by
  rw [visible, List.mem_cons, List.mem_cons] at mem
  rcases mem with rfl | rfl | mem
  · exact ⟨List.mem_cons_self, fun symbol inside => List.mem_append_right _ inside⟩
  · exact ⟨List.mem_cons_self, fun symbol inside => List.mem_append_left _ inside⟩
  · obtain ⟨around, own⟩ := mem_tablesAround mem
    exact ⟨List.mem_cons_of_mem _ around, own⟩

theorem SameNames.findSome? {first second : List Table} (same : SameNames first second) (name : Name) :
    first.findSome? (·.get? name) = second.findSome? (·.get? name) := by
  have symbols (ts : List Table) : ts.findSome? (·.get? name) =
      (ts.map Table.symbols).findSome? fun symbols => symbols.find? fun s => s.name.value.same name := by
    rw [List.findSome?_map]
    rfl
  rw [symbols, symbols, same]

end Tables

/-- What the scopes of a body answer is what its visible tables answer. -/
def Scopes.Shows (σ : Scopes) (visible : List (Function × Table)) : Prop :=
  ∀ name, σ.lookup? name = visible.findSome? fun x => x.2.get? name

theorem Scopes.shows_of_sameNames {σ : Scopes} {visible : List (Function × Table)}
    {tables : List Table} {last : Table} (same : SameNames σ.tables tables) (eq : visible.map Prod.snd = tables ++ [last])
    (empty : last.symbols = []) : σ.Shows visible := by
  intro name
  have answers : (visible.map Prod.snd).findSome? (·.get? name) =
      visible.findSome? fun x => x.2.get? name := by
    rw [List.findSome?_map]
    rfl
  have none : last.get? name = none := by simp [Table.get?, empty]
  rw [← answers, eq, List.findSome?_append, Scopes.lookup?, same.findSome? name]
  simp [none]

theorem Checking.Program.shows {p : PascalX86.Program} (h : Checking.Program p) :
    EachBefore (fun g later => ∃ σ, Completes σ g ∧ σ.Shows (g.visible later)) p.bodies := by
  have nested := PascalX86.Program.nested h
  obtain ⟨c, s, initializers, statements, n, span, name, declares, chain, rfl⟩ := h
  have start := Parser.sound_initialState c
  have numbered : Numbered (Parser.initialState c) := by
    simp [Numbered, Parser.initialState, Scopes.start, Table.empty]
  obtain ⟨new, grown⟩ := declares.scoped start numbered
  have outer : s.scopes.outer = [] := (declares.sound start).outer
  have outermost := Scopes.outermost_eq_current outer
  have tables : s.scopes.tables = [s.scopes.current] := by rw [Scopes.tables, outer]
  have functions : s.functions = new := by simpa [Parser.initialState] using grown.grown.functions
  simp only [PascalX86.Program.bodies, functions, outermost]
  rw [EachBefore.append]
  refine ⟨?_, ?_, trivial⟩
  · have both := EachBefore.and grown.grown.placed grown.views
    refine both.mono ?_
    rintro g later - - ⟨placed, views⟩
    obtain ⟨σ, completes, same⟩ := views.view
    let main : Function :=
      ⟨⟨0, name, [], 0, .nil, 0⟩, s.scopes.current, .block ⟨n, span, .nil⟩ (initializers ++ statements)⟩
    have visible : (g.visible (later ++ [main])).map Prod.snd =
        (g.tables ++ around g (enclosing later g.signature.level) s.scopes.tables) ++
          [main.signature.table] := by
      rw [tables, Function.visible, placed.enclosing_concat rfl]
      simp [Function.tables, tablesAround_concat, main]
    exact ⟨σ, completes, Scopes.shows_of_sameNames same visible rfl⟩
  · have formed := formed_main name
    refine ⟨s.scopes, .block formed (begins_main c name) start declares rfl chain rfl rfl, ?_⟩
    have same : SameNames s.scopes.tables [s.scopes.current] := by rw [tables]; rfl
    exact Scopes.shows_of_sameNames same rfl rfl

namespace Program

variable {p : Program} {g : Function} {before later : List Function}

/-- What a name stands for in the body of `g`: of the tables that are visible there, the innermost
one that has the name has the symbol under it. -/
def Resolves (p : Program) (g : Function) (later : List Function) (name : Name) (symbol : Symbol) :
    Prop :=
  ∃ inner owner t outer, g.visible later = inner ++ (owner, t) :: outer ∧
    (∀ x ∈ inner, x.2.get? name = none) ∧ t.get? name = some symbol ∧
    p.Around owner g ∧ owner.signature.level ≤ g.signature.level ∧ symbol ∈ owner.symbols ∧
    ∀ slot, symbol.slot? = some slot → slot.level = owner.signature.level ∧ slot.area ≠ .fields

theorem Nested.resolves (nested : p.Nested) (split : p.bodies = before ++ g :: later) {σ : Scopes}
    (shows_ : σ.Shows (g.visible later)) {name : Name} {symbol : Symbol}
    (found : σ.lookup? name = some symbol) : p.Resolves g later name symbol := by
  rw [shows_ name, List.findSome?_eq_some_iff] at found
  obtain ⟨inner, ⟨owner, t⟩, outer, eq, inside, none⟩ := found
  have mem : (owner, t) ∈ g.visible later := eq ▸ List.mem_append_right _ List.mem_cons_self
  obtain ⟨around, own⟩ := Function.mem_visible mem
  have owned : symbol ∈ owner.symbols := own symbol (List.mem_of_find?_eq_some inside)
  have listed : owner ∈ p.bodies ∧ owner.signature.level ≤ g.signature.level := by
    rw [split]
    rcases List.mem_cons.mp around with rfl | around
    · exact ⟨List.mem_append_right _ List.mem_cons_self, Nat.le_refl _⟩
    · obtain ⟨after, outer⟩ := mem_of_mem_enclosing around
      exact ⟨List.mem_append_right _ (List.mem_cons_of_mem _ after), Nat.le_of_lt outer⟩
  obtain ⟨_, completes⟩ := nested.completes owner listed.1
  refine ⟨inner, owner, t, outer, eq, none, inside, (nested.around_iff split owner).mpr around, listed.2,
    owned, fun slot stored => ?_⟩
  obtain ⟨owns, level⟩ := completes.tabled.owns owned stored
  refine ⟨level, ?_⟩
  cases owns with
  | locals _ area | argument _ area => simp [area]

end Program

/-- A reference or a call in the body of `g` is read from a name, which stands for its symbol there. -/
def Expr.Resolved (p : Program) (items : List Scanned) (g : Function) (later : List Function) :
    Expr → Prop
  | .var info symbol =>
      (∃ name, .ok ⟨.name name, info.span⟩ ∈ items ∧ p.Resolves g later name symbol) ∧
        symbol.slot?.isSome = true
  | .call info function _ =>
      ∃ name place symbol, .ok ⟨.name name, place⟩ ∈ items ∧ place.start = info.span.start ∧
        p.Resolves g later name symbol ∧ symbol.role = .function function
  | _ => True

def Stmt.Resolved (p : Program) (items : List Scanned) (g : Function) (later : List Function) :
    Stmt → Prop
  | .call info function _ =>
      ∃ name place symbol, .ok ⟨.name name, place⟩ ∈ items ∧ place.start = info.span.start ∧
        p.Resolves g later name symbol ∧ symbol.role = .function function
  | _ => True

/-- What may be referred to has storage. -/
theorem Symbol.isSome_slot? {symbol : Symbol} (referable : symbol.IsReferable)
    (fulfilled : symbol.Fulfilled) : symbol.slot?.isSome = true := by
  unfold Symbol.IsReferable at referable
  unfold Symbol.Fulfilled at fulfilled
  split at referable <;> simp_all [Symbol.slot?, Option.isSome_iff_ne_none]

theorem Checking.Completes.fulfilled {σ : Scopes} {g : Function} (h : Completes σ g) : σ.Fulfilled := by
  obtain ⟨-, -, sound, declares, rfl, -⟩ := h
  exact (declares.sound sound).sound.scopes.fulfilled

section Bodies

variable {p : Program} {items : List Scanned} {g : Function} {before later : List Function} {σ : Scopes}

theorem Program.Around.mem {h : Function} (around : p.Around h g) (listed : g ∈ p.bodies) :
    h ∈ p.bodies := by
  rcases around with rfl | encloses
  · exact listed
  · exact encloses.complete.subset (List.mem_cons_of_mem _ List.mem_cons_self)

variable (nested : p.Nested) (split : p.bodies = before ++ g :: later) (shows_ : σ.Shows (g.visible later))
  (read : ∀ h ∈ p.bodies, h.Read items)

include nested split shows_ read

theorem Signature.CitedAt.resolves {f : Signature} {span : Span} (cited : f.CitedAt items span)
    (found : ∃ symbol, σ.Finds symbol ∧ symbol.role = .function f) :
    ∃ name place symbol, .ok ⟨.name name, place⟩ ∈ items ∧ place.start = span.start ∧
      p.Resolves g later name symbol ∧ symbol.role = .function f := by
  obtain ⟨symbol, found, role⟩ := found
  obtain ⟨name, place, there, start, same⟩ := cited
  -- Functions are declared under their own names, so the name leads to the symbol that was found.
  have own : symbol.name = f.name := by
    obtain ⟨_, owner, _, _, -, -, -, around, -, owned, -⟩ := nested.resolves split shows_ found
    rcases List.mem_append.mp owned with parameter | mem
    · exact Signature.named_table _ symbol parameter f role
    · exact (read owner (around.mem (by simp [split]))).named symbol mem f role
  have found : σ.lookup? name = some symbol := (Scopes.lookup?_congr (own ▸ same)).symm.trans found
  exact ⟨name, place, symbol, there, start, nested.resolves split shows_ found, role⟩

theorem Expr.Cited.resolved {bound : Nat} {e : Expr} (cited : e.Cited items) (found : e.Found σ)
    (checked : e.Checked σ bound) (fulfilled : σ.Fulfilled) : e.Resolved p items g later := by
  cases e with
  | var info symbol =>
      obtain ⟨name, there, same⟩ := cited
      have looked : σ.lookup? name = some symbol := (Scopes.lookup?_congr same).symm.trans found
      refine ⟨⟨name, there, nested.resolves split shows_ looked⟩, ?_⟩
      exact Symbol.isSome_slot? checked.obeys.2 (fulfilled symbol checked.grounded)
  | call info function arguments => exact cited.resolves nested split shows_ read found
  | _ => trivial

theorem Stmt.Cited.resolved {s : Stmt} (cited : s.Cited items) (found : s.Found σ) :
    s.Resolved p items g later := by
  cases s with
  | call info function arguments => exact cited.resolves nested split shows_ read found
  | _ => trivial

end Bodies

/-- Lexical scoping. Every reference and every call in the statements of a body is read from a name of
the text, and what it carries is what this name stands for in the innermost visible table that has the
name. The initializers in front assign to locals, which their own names stand for. -/
theorem Source.names_resolved {source : Source} {p : Program} (h : source.program = .ok p) :
    ∀ before g later, p.bodies = before ++ g :: later →
      ∃ info initializers statements, g.body = .block info (initializers ++ statements) ∧
        (∀ i ∈ initializers, ∃ symbol ∈ g.locals.symbols,
          (∃ n span value, i = Checking.initializer n span symbol value) ∧
            p.Resolves g later symbol.name.value symbol ∧ symbol.slot?.isSome = true) ∧
        ∀ s ∈ statements,
          s.All (Expr.Resolved p source.scan g later) (Stmt.Resolved p source.scan g later) := by
  have derives := Source.derives h
  have nested := Program.nested derives
  have read := Source.read h
  intro before g later split
  have shows_ := derives.shows
  rw [split] at shows_
  obtain ⟨σ, completes, shows_⟩ := shows_.at
  obtain ⟨info, initializers, statements, eq, initial, cited⟩ := (read g (by simp [split])).body
  have fulfilled := completes.fulfilled
  obtain ⟨bound, sound, -⟩ := completes.sound
  have found := completes.found
  rw [eq, Stmt.all_block, List.forall_mem_append] at found
  rw [eq] at sound
  rw [Stmt.Sound, Stmt.all_block, List.forall_mem_append] at sound
  refine ⟨info, initializers, statements, eq, fun i mem => ?_, fun s mem x node => ?_⟩
  · obtain ⟨symbol, own, n, span, value, rfl⟩ := initial i mem
    have target : σ.Finds symbol := (Stmt.all_assign.mp (found.2.1 _ mem)).2.1.self
    have checked := (Stmt.all_assign.mp (sound.2.1 _ mem)).2.1.self
    have stored := Symbol.isSome_slot? checked.obeys.2 (fulfilled symbol checked.grounded)
    exact ⟨symbol, own, ⟨n, span, value, rfl⟩, nested.resolves split shows_ target, stored⟩
  · obtain ⟨reads, operands⟩ := cited s mem x node
    obtain ⟨finds, operands'⟩ := found.2.2 s mem x node
    obtain ⟨-, operands''⟩ := sound.2.2 s mem x node
    refine ⟨reads.resolved nested split shows_ read finds, fun e operand y inside => ?_⟩
    exact (operands e operand y inside).resolved nested split shows_ read (operands' e operand y inside)
      (operands'' e operand y inside) fulfilled

/-- The names of the tables that are visible in each body. -/
def Program.visibleNames (p : Program) : List (List (List String)) :=
  p.bodies.tails.filterMap fun
    | [] => none
    | g :: later => some ((g.visible later).map fun x => x.2.symbols.map fun s => s.name.value.spelling)

theorem Source.nested_visibleNames :
    Source.nested.program.toOption.map Program.visibleNames =
      some [[["result"], ["b", "u"], ["c", "k", "inner"], ["a", "t", "x"],
          ["v", "o", "w", "n", "outer"], []],
        [["c", "k", "inner"], ["a", "t", "x"], ["v", "o", "w", "n", "outer"], []],
        [["v", "o", "w", "n", "outer"], []]] := by
  decide +kernel

theorem Source.nested_names_resolved : ∃ p, Source.nested.program = .ok p ∧
    p.visibleNames = [[["result"], ["b", "u"], ["c", "k", "inner"], ["a", "t", "x"],
        ["v", "o", "w", "n", "outer"], []],
      [["c", "k", "inner"], ["a", "t", "x"], ["v", "o", "w", "n", "outer"], []],
      [["v", "o", "w", "n", "outer"], []]] ∧
    ∀ before g later, p.bodies = before ++ g :: later →
      ∃ info initializers statements, g.body = .block info (initializers ++ statements) ∧
        (∀ i ∈ initializers, ∃ symbol ∈ g.locals.symbols,
          (∃ n span value, i = Checking.initializer n span symbol value) ∧
            p.Resolves g later symbol.name.value symbol ∧ symbol.slot?.isSome = true) ∧
        ∀ s ∈ statements,
          s.All (Expr.Resolved p Source.nested.scan g later) (Stmt.Resolved p Source.nested.scan g later) := by
  obtain ⟨p, accepted, names⟩ := exists_of_map_toOption Source.nested_visibleNames
  exact ⟨p, accepted, names, Source.names_resolved accepted⟩

end PascalX86
