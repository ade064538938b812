import PascalX86.Proofs.Checking.Nesting

/-!
# Names in scope

The tables in which the names of a body are looked up: the function's own ones, and those of every
function around it as they were when the next function inside had just been declared.
-/

set_option autoImplicit false

namespace PascalX86

def Symbol.declares (symbol : Symbol) (f : Signature) : Bool :=
  match symbol.role with
  | .function g => g.id == f.id
  | _ => false

/-- A table as it was when the function had just been declared in it. -/
def Table.upTo (t : Table) (f : Signature) : Table :=
  { t with symbols := t.symbols.take (t.symbols.findIdx (·.declares f) + 1) }

section Cuts

variable {t u : Table} {f : Signature} {symbol : Symbol}

theorem Table.upTo_append {more : List Symbol} (declared : ∃ symbol ∈ t.symbols, symbol.declares f = true)
    (grows : u.symbols = t.symbols ++ more) : (u.upTo f).symbols = (t.upTo f).symbols := by
  have inside := List.findIdx_lt_length.mpr declared
  simp only [upTo, grows, List.findIdx_append, if_pos inside]
  exact List.take_append_of_le_length inside

theorem Table.upTo_last {front : List Symbol} (last : t.symbols = front ++ [symbol])
    (declares : symbol.declares f = true) (other : ∀ x ∈ front, x.declares f = false) :
    (t.upTo f).symbols = t.symbols := by
  have none : ¬ front.findIdx (·.declares f) < front.length := by
    rw [List.findIdx_lt_length]
    rintro ⟨x, mem, found⟩
    rw [other x mem] at found
    cases found
  simp only [upTo, last, List.findIdx_append, if_neg none, List.findIdx_cons, declares, cond_true,
    Nat.zero_add]
  exact List.take_of_length_le (by simp)

theorem Table.mem_of_mem_upTo (mem : symbol ∈ (t.upTo f).symbols) : symbol ∈ t.symbols :=
  List.mem_of_mem_take mem

end Cuts

/-- The tables around a function, given those of the functions that are not complete yet. -/
def around (inner : Function) : List Function → List Table → List Table
  | [], [] => []
  | [], t :: outside => t.upTo inner.signature :: outside
  | h :: hs, outside => h.locals.upTo inner.signature :: h.signature.table :: around h hs outside

def outermost (g : Function) : List Function → Function
  | [] => g
  | h :: hs => outermost h hs

/-- Tables with the same symbols, which is all that names are looked up in. -/
def SameNames (first second : List Table) : Prop :=
  first.map Table.symbols = second.map Table.symbols

theorem SameNames.cons {t u : Table} {first second : List Table} (head : t.symbols = u.symbols)
    (rest : SameNames first second) : SameNames (t :: first) (u :: second) :=
  congrArg₂ List.cons head rest

theorem SameNames.prepend {first second : List Table} (rest : SameNames first second)
    (before : List Table) : SameNames (before ++ first) (before ++ second) := by
  unfold SameNames at *
  rw [List.map_append, List.map_append, rest]

section Around

variable {g h : Function} {hs : List Function} {t u : Table} {outside : List Table}

theorem around_concat (g h : Function) (hs : List Function) (outside : List Table) :
    around g (hs ++ [h]) outside =
      around g hs (h.locals :: h.signature.table :: around h [] outside) := by
  induction hs generalizing g with
  | nil => rfl
  | cons k hs ih => simp only [List.cons_append, around, ih]

theorem outermost_concat (g h : Function) (hs : List Function) : outermost g (hs ++ [h]) = h := by
  induction hs generalizing g with
  | nil => rfl
  | cons k hs ih => exact ih k

/-- What is declared after a function was changes nothing for it. -/
theorem around_grown {more : List Symbol}
    (declared : ∃ symbol ∈ t.symbols, symbol.declares (outermost g hs).signature = true)
    (grows : u.symbols = t.symbols ++ more) :
    SameNames (around g hs (u :: outside)) (around g hs (t :: outside)) := by
  induction hs generalizing g with
  | nil => exact .cons (Table.upTo_append declared grows) rfl
  | cons h hs ih => exact .cons rfl (.cons rfl (ih declared))

theorem around_congr (same : SameNames (around h [] outside) outside) :
    SameNames (around g hs (h.locals :: h.signature.table :: around h [] outside))
      (around g hs (h.locals :: h.signature.table :: outside)) := by
  induction hs generalizing g with
  | nil => exact .cons rfl (.cons rfl same)
  | cons k hs ih => exact .cons rfl (.cons rfl ih)

end Around

theorem EachBefore.and {α : Type} {P Q : α → List α → Prop} {as : List α} (h : EachBefore P as)
    (h' : EachBefore Q as) : EachBefore (fun a later => P a later ∧ Q a later) as := by
  induction as with
  | nil => trivial
  | cons a as ih => exact ⟨⟨h.1, h'.1⟩, ih h.2 h'.2⟩

namespace Checking

/-- The names in scope where the body of a complete function was read, in terms of the functions
that are complete around it and the tables of those that are not. -/
structure Views (outside : List Table) (g : Function) (later : List Function) : Prop where
  view : ∃ σ, Completes σ g ∧
    SameNames σ.tables (g.tables ++ around g (enclosing later g.signature.level) outside)
  declared : ∃ t rest, outside = t :: rest ∧ ∃ symbol ∈ t.symbols,
    symbol.declares (outermost g (enclosing later g.signature.level)).signature = true

/-- All functions in the current table have been numbered. -/
def Numbered (s : ParserState) : Prop :=
  ∀ symbol ∈ s.scopes.current.symbols, ∀ f, symbol.role = .function f → f.id < s.nextFunction

structure Scoped (s s' : ParserState) (new : List Function) : Prop where
  grown : Grown s s' new
  symbols : ∃ more, s'.scopes.current.symbols = s.scopes.current.symbols ++ more
  numbered : Numbered s'
  views : EachBefore (Views s'.scopes.tables) new

section Growth

variable {s s' t u : ParserState} {g h : Function} {new more later second : List Function}
  {outside : List Table} {depth : Nat}

theorem Views.append (views : Views t.scopes.tables g later)
    (placed : Placed depth outside g later) (outer : u.scopes.outer = t.scopes.outer)
    (grows : ∃ more, u.scopes.current.symbols = t.scopes.current.symbols ++ more)
    (deeper : ∀ h ∈ second, depth ≤ h.signature.level) :
    Views u.scopes.tables g (later ++ second) := by
  obtain ⟨σ, completes, same⟩ := views.view
  obtain ⟨_, _, eq, declared⟩ := views.declared
  obtain ⟨rfl, rfl⟩ := List.cons_eq_cons.mp eq
  obtain ⟨more, grows⟩ := grows
  have around_ : enclosing (later ++ second) g.signature.level = enclosing later g.signature.level :=
    placed.enclosing_append deeper
  refine ⟨⟨σ, completes, ?_⟩, u.scopes.current, u.scopes.outer, rfl, ?_⟩
  · rw [around_]
    have grown : SameNames (around g _ (u.scopes.current :: t.scopes.outer)) _ :=
      around_grown declared grows
    have tables : u.scopes.tables = u.scopes.current :: t.scopes.outer := by rw [Scopes.tables, outer]
    rw [tables]
    exact same.trans (grown.prepend g.tables).symm
  · rw [around_]
    obtain ⟨symbol, mem, declares⟩ := declared
    exact ⟨symbol, grows ▸ List.mem_append_left _ mem, declares⟩

theorem Scoped.append (before : Scoped s t new) (after : Scoped t u more) : Scoped s u (new ++ more) := by
  refine ⟨before.grown.append after.grown, ?_, after.numbered, ?_⟩
  · obtain ⟨first, eq⟩ := before.symbols
    obtain ⟨second, eq'⟩ := after.symbols
    exact ⟨first ++ second, by rw [eq', eq, List.append_assoc]⟩
  · rw [EachBefore.append]
    refine ⟨?_, after.views⟩
    have both := EachBefore.and before.grown.placed before.views
    refine both.mono ?_
    rintro g later mem - ⟨placed, views⟩
    refine views.append placed after.grown.outer after.symbols fun h mem => ?_
    exact before.grown.level ▸ after.grown.deeper h mem

theorem Scoped.moved (numbered : Numbered s) (c : Cursor) (n : Nat) : Scoped s (s.moved c n) [] :=
  ⟨.moved s c n, ⟨[], by simp [ParserState.moved]⟩, numbered, trivial⟩

theorem Scoped.symbol {symbol : Symbol} (numbered : Numbered s) (extended : Extended s symbol s')
    (plain : ∀ f, symbol.role ≠ .function f) : Scoped s s' [] := by
  refine ⟨.symbol extended plain, ⟨[symbol], extended.table.symbols⟩, ?_, trivial⟩
  intro other mem f role
  have next : s'.nextFunction = s.nextFunction := by rw [extended.eq]
  rw [extended.table.symbols, List.mem_append, List.mem_singleton] at mem
  rcases mem with mem | rfl
  · exact next ▸ numbered other mem f role
  · exact absurd role (plain f)

/-- A function that is complete is the last one around those inside it. -/
theorem Views.completed (views : Views (h.tables ++ t.scopes.tables) g later)
    (placed : Placed (depth + 1) outside g later) (level : h.signature.level = depth)
    (declared : ∃ symbol ∈ t.scopes.current.symbols, symbol.declares h.signature = true)
    (last : (t.scopes.current.upTo h.signature).symbols = t.scopes.current.symbols) :
    Views t.scopes.tables g (later ++ [h]) := by
  obtain ⟨σ, completes, same⟩ := views.view
  have more := placed.enclosing_concat level
  refine ⟨⟨σ, completes, ?_⟩, t.scopes.current, t.scopes.outer, rfl, ?_⟩
  · rw [more, around_concat]
    have cut : SameNames (around h [] t.scopes.tables) t.scopes.tables := .cons last rfl
    exact same.trans ((around_congr cut).prepend g.tables).symm
  · rw [more, outermost_concat]
    exact declared

theorem Scoped.function {s₁ s₂ : ParserState} {f : Signature} {symbol : Symbol} {locals : Table}
    {body : Stmt} {n : Nat} (numbered : Numbered s) (heading : Heading s f)
    (adds : Adds { s with nextFunction := s.nextFunction + 1 } (.addFunction f) symbol s₁)
    (fresh : ∀ symbol ∈ locals.symbols, ∃ slot, symbol.role = .variable slot)
    (inner : Scoped (s₁.entered f locals) s₂ new)
    (completes : Completes s₂.scopes ⟨f, s₂.scopes.current, body⟩)
    (sound : s₂.scopes.Sound f.level) :
    Scoped s (s₁.left s₂ f body n) (new ++ [⟨f, s₂.scopes.current, body⟩]) := by
  have grown := inner.grown.function (n := n) heading adds fresh completes sound
  obtain ⟨rfl, table⟩ := Declaring.addFunction_ok adds.run.1
  have symbols : s₁.scopes.current.symbols =
      s.scopes.current.symbols ++ [⟨f.name, .function f.ref, .function f⟩] := table.symbols
  have next : s.nextFunction + 1 ≤ s₂.nextFunction := by
    have eq : s₁.nextFunction = s.nextFunction + 1 := by rw [adds.run.2]
    exact eq ▸ inner.grown.next
  have tables : s₂.scopes.tables =
      Function.tables ⟨f, s₂.scopes.current, body⟩ ++ s₁.scopes.tables := by
    rw [Scopes.tables, inner.grown.outer]
    rfl
  have last : (s₁.scopes.current.upTo f).symbols = s₁.scopes.current.symbols := by
    refine Table.upTo_last symbols (by simp [Symbol.declares]) fun x mem => ?_
    unfold Symbol.declares
    split
    · next k role =>
      have before := numbered x mem k role
      rw [← heading.id] at before
      exact beq_false_of_ne (Nat.ne_of_lt before)
    · rfl
  have declared : ∃ symbol ∈ s₁.scopes.current.symbols, symbol.declares f = true :=
    ⟨_, symbols ▸ List.mem_append_right _ List.mem_cons_self, by simp [Symbol.declares]⟩
  refine ⟨grown, ⟨_, symbols⟩, fun other mem k role => ?_, ?_⟩
  · have mem : other ∈ s₁.scopes.current.symbols := mem
    show k.id < s₂.nextFunction
    rw [symbols, List.mem_append, List.mem_singleton] at mem
    rcases mem with mem | rfl
    · have := numbered other mem k role
      omega
    · cases role
      have := heading.id
      omega
  · rw [EachBefore.append]
    refine ⟨?_, ?_, trivial⟩
    · have both := EachBefore.and inner.grown.placed inner.views
      refine both.mono ?_
      rintro g later - - ⟨placed, views⟩
      rw [tables] at views
      exact views.completed placed rfl declared last
    · have none : enclosing [] f.level = [] := enclosing_eq_nil (by simp)
      have cut : SameNames (around ⟨f, s₂.scopes.current, body⟩ [] s₁.scopes.tables)
          s₁.scopes.tables := .cons last rfl
      refine ⟨⟨s₂.scopes, completes, ?_⟩, s₁.scopes.current, s₁.scopes.outer, rfl, ?_⟩
      · show SameNames s₂.scopes.tables (_ ++ around _ (enclosing [] f.level) s₁.scopes.tables)
        rw [none, tables]
        exact (cut.prepend _).symm
      · show ∃ symbol ∈ s₁.scopes.current.symbols,
          symbol.declares (outermost ⟨f, s₂.scopes.current, body⟩ (enclosing [] f.level)).signature = true
        rw [none]
        exact declared

theorem Numbered.entered {s₁ : ParserState} {f : Signature} {locals : Table}
    (fresh : ∀ symbol ∈ locals.symbols, ∃ slot, symbol.role = .variable slot) :
    Numbered (s₁.entered f locals) := by
  intro symbol mem g role
  obtain ⟨slot, other⟩ := fresh symbol mem
  rw [role] at other
  cases other

theorem Scoped.growing : Growing fun s s' new => Numbered s → Scoped s s' new where
  moved _ c n numbered := .moved numbered c n
  append before after numbered := (before numbered).append (after (before numbered).numbered)
  symbol extended plain numbered := .symbol numbered extended plain
  function heading adds fresh inner completes sound numbered :=
    .function numbered heading adds fresh (inner (.entered fresh)) completes sound

theorem Declares.scoped {initializers : List Stmt} (h : Declares s initializers s') (sound : s.Sound)
    (numbered : Numbered s) : ∃ new, Scoped s s' new := by
  obtain ⟨new, grown⟩ := h.grows Scoped.growing sound
  exact ⟨new, grown numbered⟩

end Growth

end Checking

end PascalX86
