import Mathlib.Data.List.Nodup
import PascalX86.Proofs.Checking.Body
import PascalX86.Proofs.Lowering.Program

/-!
# Nesting of functions

Functions are listed when they are complete, so those around a function come after it. The tables in
scope where a body is read are parts of the tables of the functions around it.
-/

set_option autoImplicit false

namespace PascalX86

section Lists

/-- The functions around one of a level, innermost first: the next one at each level further out. -/
def enclosing : List Function → Nat → List Function
  | _, 0 => []
  | [], _ + 1 => []
  | g :: later, level + 1 =>
      if g.signature.level = level then g :: enclosing later level
      else enclosing later (level + 1)

theorem mem_of_mem_enclosing {h : Function} {functions : List Function} {level : Nat}
    (mem : h ∈ enclosing functions level) : h ∈ functions ∧ h.signature.level < level := by
  induction functions generalizing level with
  | nil => cases level <;> simp [enclosing] at mem
  | cons g later ih =>
      cases level with
      | zero => simp [enclosing] at mem
      | succ level =>
          rw [enclosing] at mem
          split at mem
          · next same =>
            rcases List.mem_cons.mp mem with rfl | mem
            · exact ⟨List.mem_cons_self, by omega⟩
            · obtain ⟨listed, outer⟩ := ih mem
              exact ⟨List.mem_cons_of_mem _ listed, by omega⟩
          · obtain ⟨listed, outer⟩ := ih mem
            exact ⟨List.mem_cons_of_mem _ listed, outer⟩

theorem enclosing_append (first second : List Function) (level : Nat) :
    enclosing (first ++ second) level =
      enclosing first level ++ enclosing second (level - (enclosing first level).length) := by
  induction first generalizing level with
  | nil => cases level <;> simp [enclosing]
  | cons g later ih =>
      cases level with
      | zero => simp [enclosing]
      | succ level =>
          simp only [List.cons_append, enclosing]
          split <;> simp [ih]

theorem enclosing_eq_nil {functions : List Function} {level : Nat}
    (deeper : ∀ g ∈ functions, level ≤ g.signature.level) : enclosing functions level = [] := by
  induction functions with
  | nil => cases level <;> rfl
  | cons g later ih =>
      rw [List.forall_mem_cons] at deeper
      cases level with
      | zero => rfl
      | succ level =>
          have other : g.signature.level ≠ level := by omega
          rw [enclosing, if_neg other]
          exact ih deeper.2

/-- No two functions around a function have the same level. -/
theorem enclosing_levels (functions : List Function) (level : Nat) :
    (enclosing functions level).Pairwise fun a b => b.signature.level < a.signature.level := by
  induction functions generalizing level with
  | nil => cases level <;> simp [enclosing]
  | cons g later ih =>
      cases level with
      | zero => simp [enclosing]
      | succ level =>
          rw [enclosing]
          split
          · next same =>
            refine List.Pairwise.cons (fun h mem => ?_) (ih level)
            rw [same]
            exact (mem_of_mem_enclosing mem).2
          · exact ih (level + 1)

/-- The bytes of arguments that code counts with are those of the functions around. -/
theorem getElem?_outerBlocks {h : Function} {functions : List Function} {level : Nat}
    (mem : h ∈ enclosing functions level) :
    (outerBlocks functions level)[h.signature.level]? = some h.signature.block := by
  induction functions generalizing level with
  | nil => cases level <;> simp [enclosing] at mem
  | cons g later ih =>
      cases level with
      | zero => simp [enclosing] at mem
      | succ level =>
          rw [enclosing] at mem
          rw [outerBlocks]
          split at mem
          · next same =>
            rw [if_pos same]
            have length : (outerBlocks later level).length = level := length_outerBlocks later level
            rcases List.mem_cons.mp mem with rfl | mem
            · rw [same, List.getElem?_append_right (Nat.le_of_eq length), length]
              simp
            · have inside := (mem_of_mem_enclosing mem).2
              rw [List.getElem?_append_left (by omega)]
              exact ih mem
          · next other =>
            rw [if_neg other]
            exact ih mem

/-- The main program, which has no arguments, may stand at the end of the list. -/
theorem outerBlocks_append_main {main : Function} (level : main.signature.level = 0)
    (block : main.signature.block = 0) (functions : List Function) (n : Nat) :
    outerBlocks (functions ++ [main]) n = outerBlocks functions n := by
  induction functions generalizing n with
  | nil =>
      rcases n with - | - | n
      · rfl
      · simp [outerBlocks, level, block]
      · simp [outerBlocks, level]
  | cons g later ih =>
      cases n with
      | zero => rfl
      | succ n => simp only [List.cons_append, outerBlocks, ih]

/-- A property of every item of a list and those after it. -/
def EachBefore {α : Type} (P : α → List α → Prop) : List α → Prop
  | [] => True
  | a :: later => P a later ∧ EachBefore P later

instance EachBefore.decidable {α : Type} {P : α → List α → Prop} [∀ a later, Decidable (P a later)] :
    ∀ as, Decidable (EachBefore P as)
  | [] => .isTrue trivial
  | a :: later =>
      have := (EachBefore.decidable later : Decidable (EachBefore P later))
      inferInstanceAs (Decidable (P a later ∧ EachBefore P later))

variable {α : Type} {P Q : α → List α → Prop}

theorem EachBefore.append {first second : List α} :
    EachBefore P (first ++ second) ↔
      EachBefore (fun a later => P a (later ++ second)) first ∧ EachBefore P second := by
  induction first with
  | nil => simp [EachBefore]
  | cons a first ih => simp [EachBefore, ih, and_assoc]

theorem EachBefore.mono {as : List α} (h : EachBefore P as)
    (weaker : ∀ a later, a ∈ as → (∀ b ∈ later, b ∈ as) → P a later → Q a later) : EachBefore Q as := by
  induction as with
  | nil => trivial
  | cons a as ih =>
      refine ⟨weaker a as List.mem_cons_self (fun b mem => List.mem_cons_of_mem a mem) h.1, ih h.2 ?_⟩
      intro b later mem inside
      exact weaker b later (List.mem_cons_of_mem a mem) fun c mem => List.mem_cons_of_mem a (inside c mem)

theorem EachBefore.at {before later : List α} {a : α} (h : EachBefore P (before ++ a :: later)) :
    P a later :=
  (EachBefore.append.mp h).2.1

end Lists

/-- A table as it was before more symbols were declared in it. -/
structure Table.Part (t u : Table) : Prop where
  symbols : ∀ symbol ∈ t.symbols, symbol ∈ u.symbols
  level : t.level = u.level
  area : t.area = u.area

theorem Table.Part.refl (t : Table) : t.Part t := ⟨fun _ => id, rfl, rfl⟩

theorem Table.Part.trans {t u v : Table} (h : t.Part u) (h' : u.Part v) : t.Part v :=
  ⟨fun symbol mem => h'.symbols symbol (h.symbols symbol mem), h.level.trans h'.level, h.area.trans h'.area⟩

def Function.tables (g : Function) : List Table := [g.locals, g.signature.table]

namespace Checking

/-- A complete function and those listed after it, when `depth` more functions are around that are
not complete yet, with the tables `outside`. -/
structure Placed (depth : Nat) (outside : List Table) (g : Function) (later : List Function) : Prop where
  level : (enclosing later g.signature.level).length + depth = g.signature.level
  around : ∀ h ∈ later,
    h ∈ enclosing later g.signature.level ↔ h.signature.id < g.signature.id
  scopes : ∃ σ, Completes σ g ∧ σ.Sound g.signature.level ∧ ∀ t ∈ σ.tables,
    ∃ u ∈ (g :: enclosing later g.signature.level).flatMap Function.tables ++ outside, t.Part u

/-- A relation of the states before and after declarations and the functions that these complete, kept by
each way to go on: past a token, behind other declarations, with a symbol that is no function, and
with a function once its own declarations are done. -/
structure Growing (grows : ParserState → ParserState → List Function → Prop) : Prop where
  moved (s : ParserState) (c : Cursor) (n : Nat) : grows s (s.moved c n) []
  append {s t u : ParserState} {new more : List Function} (before : grows s t new)
    (after : grows t u more) : grows s u (new ++ more)
  symbol {s s' : ParserState} {symbol : Symbol} (extended : Extended s symbol s')
    (plain : ∀ f, symbol.role ≠ .function f) : grows s s' []
  function {s s₁ s₂ : ParserState} {f : Signature} {symbol : Symbol} {locals : Table} {body : Stmt}
    {n : Nat} {new : List Function} (heading : Heading s f)
    (adds : Adds { s with nextFunction := s.nextFunction + 1 } (.addFunction f) symbol s₁)
    (fresh : ∀ symbol ∈ locals.symbols, ∃ slot, symbol.role = .variable slot)
    (inner : grows (s₁.entered f locals) s₂ new)
    (completes : Completes s₂.scopes ⟨f, s₂.scopes.current, body⟩)
    (sound : s₂.scopes.Sound f.level) :
    grows s (s₁.left s₂ f body n) (new ++ [⟨f, s₂.scopes.current, body⟩])

theorem Declares.grows {grows : ParserState → ParserState → List Function → Prop} (rule : Growing grows)
    {s s' : ParserState} {initializers : List Stmt} (h : Declares s initializers s') (sound : s.Sound) :
    ∃ new, grows s s' new := by
  induction h with
  | @move s n c _ => exact ⟨[], rule.moved s c n⟩
  | append first second ih ih' =>
      obtain ⟨new, before⟩ := ih sound
      obtain ⟨more, after⟩ := ih' (first.sound sound).sound
      exact ⟨new ++ more, rule.append before after⟩
  | type _ adds =>
      obtain ⟨rfl, table⟩ := Declaring.addType_ok adds.run.1
      exact ⟨[], rule.symbol (adds.extended table) nofun⟩
  | constant _ _ adds | scalar _ _ adds =>
      obtain ⟨rfl, table⟩ := Declaring.addConstant_ok adds.run.1
      exact ⟨[], rule.symbol (adds.extended table) nofun⟩
  | stored _ _ _ adds =>
      obtain ⟨rfl, table⟩ := Declaring.addConstant_ok adds.run.1
      exact ⟨[], rule.append (rule.symbol (adds.extended table) nofun) (rule.moved _ _ _)⟩
  | «variable» _ adds =>
      obtain ⟨rfl, table⟩ := Declaring.addVariable_ok adds.run.1
      exact ⟨[], rule.symbol (adds.extended table) nofun⟩
  | initialized _ _ adds =>
      obtain ⟨rfl, table⟩ := Declaring.addVariable_ok adds.run.1
      exact ⟨[], rule.append (rule.symbol (adds.extended table) nofun) (rule.moved _ _ _)⟩
  | @function s s₁ s₂ f symbol locals initializers statements span n heading adds result declares
      body ih =>
      obtain ⟨outside, entered⟩ := adds.entered sound heading result
      obtain ⟨new, inner⟩ := ih entered
      have declared := declares.sound entered
      have level : s₂.level = f.level := declared.level
      have completes : Completes s₂.scopes
          ⟨f, s₂.scopes.current, .block ⟨n, span, .nil⟩ (initializers ++ statements)⟩ :=
        .block heading.formed result.begins entered declares rfl body rfl rfl
      exact ⟨_, rule.function heading adds result.fresh inner completes (level ▸ declared.sound.scopes)⟩

/-- What declarations do to the list of complete functions. -/
structure Grown (s s' : ParserState) (new : List Function) : Prop where
  functions : s'.functions = s.functions ++ new
  outer : s'.scopes.outer = s.scopes.outer
  current : s.scopes.current.Part s'.scopes.current
  level : s'.level = s.level
  next : s.nextFunction ≤ s'.nextFunction
  numbered : ∀ g ∈ new, s.nextFunction ≤ g.signature.id ∧ g.signature.id < s'.nextFunction
  distinct : new.Pairwise fun a b => a.signature.id ≠ b.signature.id
  deeper : ∀ g ∈ new, s.level + 1 ≤ g.signature.level
  declared : ∀ symbol ∈ s'.scopes.current.symbols, ∀ f, symbol.role = .function f →
    symbol ∈ s.scopes.current.symbols ∨ ∃ g ∈ new, g.signature = f
  named : ∀ g ∈ new, ∀ symbol ∈ g.locals.symbols, ∀ f, symbol.role = .function f →
    ∃ h ∈ new, h.signature = f
  placed : EachBefore (Placed (s.level + 1) s'.scopes.tables) new

section Placement

variable {g h : Function} {later second : List Function} {outside outside' : List Table} {depth : Nat}

theorem Placed.enclosing_append (placed : Placed depth outside g later)
    (deeper : ∀ h ∈ second, depth ≤ h.signature.level) :
    enclosing (later ++ second) g.signature.level = enclosing later g.signature.level := by
  have rest : g.signature.level - (enclosing later g.signature.level).length = depth := by
    have := placed.level
    omega
  rw [PascalX86.enclosing_append, rest, enclosing_eq_nil deeper, List.append_nil]

theorem Placed.enclosing_concat (placed : Placed (depth + 1) outside g later)
    (level : h.signature.level = depth) :
    enclosing (later ++ [h]) g.signature.level = enclosing later g.signature.level ++ [h] := by
  have rest : g.signature.level - (enclosing later g.signature.level).length = depth + 1 := by
    have := placed.level
    omega
  have last : enclosing [h] (depth + 1) = [h] := by
    rw [enclosing, if_pos level]
    cases depth <;> rfl
  rw [PascalX86.enclosing_append, rest, last]

/-- Functions that are complete before the next one around `g` change nothing for `g`. -/
theorem Placed.append (placed : Placed depth outside g later)
    (deeper : ∀ h ∈ second, depth ≤ h.signature.level)
    (headed : ∀ h ∈ second, g.signature.id < h.signature.id)
    (parts : ∀ t ∈ outside, ∃ u ∈ outside', t.Part u) : Placed depth outside' g (later ++ second) := by
  have same := placed.enclosing_append deeper
  refine ⟨?_, fun h mem => ?_, ?_⟩
  · rw [same]
    exact placed.level
  · rw [same]
    rcases List.mem_append.mp mem with mem | mem
    · exact placed.around h mem
    · have := headed h mem
      constructor
      · intro around
        exact (placed.around h (mem_of_mem_enclosing around).1).mp around
      · omega
  · obtain ⟨σ, completes, sound, covered⟩ := placed.scopes
    refine ⟨σ, completes, sound, fun t mem => ?_⟩
    rw [same]
    obtain ⟨u, mem, part⟩ := covered t mem
    rcases List.mem_append.mp mem with mem | mem
    · exact ⟨u, List.mem_append_left _ mem, part⟩
    · obtain ⟨v, mem, part'⟩ := parts u mem
      exact ⟨v, List.mem_append_right _ mem, part.trans part'⟩

/-- The innermost function that is not complete becomes the last one around `g`. -/
theorem Placed.completed (placed : Placed (depth + 1) (h.tables ++ outside) g later)
    (level : h.signature.level = depth) (headed : h.signature.id < g.signature.id) :
    Placed depth outside g (later ++ [h]) := by
  have more := placed.enclosing_concat level
  refine ⟨?_, fun x mem => ?_, ?_⟩
  · rw [more, List.length_append, List.length_singleton]
    have := placed.level
    omega
  · rw [more, List.mem_append, List.mem_singleton]
    rcases List.mem_append.mp mem with mem | mem
    · constructor
      · rintro (around | rfl)
        · exact (placed.around x mem).mp around
        · exact headed
      · exact fun before => .inl ((placed.around x mem).mpr before)
    · rw [List.mem_singleton] at mem
      subst mem
      exact ⟨fun _ => headed, fun _ => .inr rfl⟩
  · obtain ⟨σ, completes, sound, covered⟩ := placed.scopes
    refine ⟨σ, completes, sound, ?_⟩
    rw [more]
    simpa using covered

end Placement

section Growth

variable {s s' t u : ParserState} {new more : List Function}

theorem Grown.tables (h : Grown s s' new) : ∀ t ∈ s.scopes.tables, ∃ u ∈ s'.scopes.tables, t.Part u := by
  intro t mem
  rcases List.mem_cons.mp mem with rfl | mem
  · exact ⟨s'.scopes.current, List.mem_cons_self, h.current⟩
  · exact ⟨t, List.mem_cons_of_mem _ (h.outer ▸ mem), .refl t⟩

theorem Grown.append (before : Grown s t new) (after : Grown t u more) : Grown s u (new ++ more) where
  functions := by rw [after.functions, before.functions, List.append_assoc]
  outer := after.outer.trans before.outer
  current := before.current.trans after.current
  level := after.level.trans before.level
  next := Nat.le_trans before.next after.next
  numbered := by
    rw [List.forall_mem_append]
    refine ⟨fun g mem => ?_, fun g mem => ?_⟩
    · have := before.numbered g mem
      have := after.next
      omega
    · have := after.numbered g mem
      have := before.next
      omega
  distinct := by
    rw [List.pairwise_append]
    refine ⟨before.distinct, after.distinct, fun a mem b mem' => ?_⟩
    have := before.numbered a mem
    have := after.numbered b mem'
    omega
  deeper := by
    rw [List.forall_mem_append]
    exact ⟨before.deeper, fun g mem => before.level ▸ after.deeper g mem⟩
  declared := by
    intro symbol mem f role
    rcases after.declared symbol mem f role with mem | ⟨g, mem, eq⟩
    · rcases before.declared symbol mem f role with mem | ⟨g, mem, eq⟩
      · exact .inl mem
      · exact .inr ⟨g, List.mem_append_left _ mem, eq⟩
    · exact .inr ⟨g, List.mem_append_right _ mem, eq⟩
  named := by
    rw [List.forall_mem_append]
    refine ⟨fun g mem symbol inside f role => ?_, fun g mem symbol inside f role => ?_⟩
    · obtain ⟨h, mem, eq⟩ := before.named g mem symbol inside f role
      exact ⟨h, List.mem_append_left _ mem, eq⟩
    · obtain ⟨h, mem, eq⟩ := after.named g mem symbol inside f role
      exact ⟨h, List.mem_append_right _ mem, eq⟩
  placed := by
    rw [EachBefore.append]
    refine ⟨before.placed.mono fun g later mem _ placed => ?_, before.level ▸ after.placed⟩
    refine placed.append (fun h mem' => before.level ▸ after.deeper h mem') (fun h mem' => ?_) after.tables
    have := before.numbered g mem
    have := after.numbered h mem'
    omega

theorem Grown.moved (s : ParserState) (c : Cursor) (n : Nat) : Grown s (s.moved c n) [] where
  functions := by simp [ParserState.moved]
  outer := rfl
  current := .refl _
  level := rfl
  next := Nat.le_refl _
  numbered := by simp
  distinct := .nil
  deeper := by simp
  declared := fun _ mem _ _ => .inl mem
  named := by simp
  placed := trivial

theorem Grown.symbol {symbol : Symbol} (extended : Extended s symbol s')
    (plain : ∀ f, symbol.role ≠ .function f) : Grown s s' [] where
  functions := by rw [extended.eq, List.append_nil]
  outer := by rw [extended.eq]
  current := ⟨by simp +contextual [extended.table.symbols], extended.table.level.symm, extended.table.area.symm⟩
  level := by rw [extended.eq]
  next := Nat.le_of_eq (by rw [extended.eq])
  numbered := by simp
  distinct := .nil
  deeper := by simp
  declared := by
    intro other mem f role
    rw [extended.table.symbols, List.mem_append, List.mem_singleton] at mem
    rcases mem with mem | rfl
    · exact .inl mem
    · exact absurd role (plain f)
  named := by simp
  placed := trivial

/-- A function that is complete stands after those inside it. -/
theorem Grown.function {s₁ s₂ : ParserState} {f : Signature} {symbol : Symbol} {locals : Table}
    {body : Stmt} {n : Nat} (heading : Heading s f)
    (adds : Adds { s with nextFunction := s.nextFunction + 1 } (.addFunction f) symbol s₁)
    (fresh : ∀ symbol ∈ locals.symbols, ∃ slot, symbol.role = .variable slot)
    (inner : Grown (s₁.entered f locals) s₂ new)
    (completes : Completes s₂.scopes ⟨f, s₂.scopes.current, body⟩)
    (sound : s₂.scopes.Sound f.level) :
    Grown s (s₁.left s₂ f body n) (new ++ [⟨f, s₂.scopes.current, body⟩]) := by
  obtain ⟨rfl, table⟩ := Declaring.addFunction_ok adds.run.1
  have eq := adds.run.2
  have next : s₁.nextFunction = s.nextFunction + 1 := by rw [eq]
  have level : s₁.level = s.level := by rw [eq]
  have functions : s₁.functions = s.functions := by rw [eq]
  have after : s.nextFunction + 1 ≤ s₂.nextFunction := next ▸ inner.next
  have depth : f.level = s.level + 1 := heading.level
  have tables : s₂.scopes.tables =
      Function.tables ⟨f, s₂.scopes.current, body⟩ ++ s₁.scopes.tables := by
    rw [Scopes.tables, inner.outer]
    rfl
  have headed : ∀ g ∈ new, f.id < g.signature.id ∧ g.signature.id < s₂.nextFunction := by
    intro g mem
    have := inner.numbered g mem
    have : (s₁.entered f locals).nextFunction = s.nextFunction + 1 := next
    rw [heading.id]
    omega
  refine ⟨?_, ?_, ?_, level, Nat.le_of_succ_le after, ?_, ?_, ?_, ?_, ?_, ?_⟩
  · show s₂.functions ++ _ = _
    rw [inner.functions, ← List.append_assoc, ← functions]
    rfl
  · show s₁.scopes.outer = _
    rw [eq]
  · exact ⟨by simp +contextual [ParserState.left, table.symbols], table.level.symm, table.area.symm⟩
  · rw [List.forall_mem_append, List.forall_mem_singleton]
    refine ⟨fun g mem => ?_, ?_⟩
    · have inside := headed g mem
      have := heading.id
      exact ⟨by omega, inside.2⟩
    · exact ⟨Nat.le_of_eq heading.id.symm, heading.id ▸ after⟩
  · rw [List.pairwise_append]
    refine ⟨inner.distinct, List.pairwise_singleton _ _, fun a mem b last => ?_⟩
    rw [List.mem_singleton] at last
    subst last
    exact Nat.ne_of_gt (headed a mem).1
  · rw [List.forall_mem_append, List.forall_mem_singleton]
    refine ⟨fun g mem => ?_, Nat.le_of_eq depth.symm⟩
    have deeper : f.level + 1 ≤ g.signature.level := inner.deeper g mem
    omega
  · intro other mem h role
    have mem : other ∈ s₁.scopes.current.symbols := mem
    rw [table.symbols, List.mem_append, List.mem_singleton] at mem
    rcases mem with mem | rfl
    · exact .inl mem
    · obtain rfl : f = h := Role.function.inj role
      exact .inr ⟨_, List.mem_append_right _ List.mem_cons_self, rfl⟩
  · rw [List.forall_mem_append, List.forall_mem_singleton]
    refine ⟨fun g mem other inside h role => ?_, fun other inside h role => ?_⟩
    · obtain ⟨g', mem', same⟩ := inner.named g mem other inside h role
      exact ⟨g', List.mem_append_left _ mem', same⟩
    · rcases inner.declared other inside h role with old | ⟨g, mem, same⟩
      · obtain ⟨slot, other⟩ := fresh _ old
        rw [role] at other
        cases other
      · exact ⟨g, List.mem_append_left _ mem, same⟩
  · rw [EachBefore.append]
    refine ⟨inner.placed.mono fun g later mem _ placed => ?_, ⟨?_, by simp, ?_⟩, trivial⟩
    · have placed : Placed (f.level + 1) s₂.scopes.tables g later := placed
      rw [depth, tables] at placed
      exact placed.completed depth (headed g mem).1
    · have none : enclosing [] f.level = [] := enclosing_eq_nil (by simp)
      show (enclosing [] f.level).length + (s.level + 1) = f.level
      rw [none, List.length_nil, Nat.zero_add, depth]
    · refine ⟨s₂.scopes, completes, sound, fun t mem => ⟨t, ?_, .refl t⟩⟩
      rw [tables] at mem
      rw [List.flatMap_cons]
      rcases List.mem_append.mp mem with mem | mem
      · exact List.mem_append_left _ (List.mem_append_left _ mem)
      · exact List.mem_append_right _ mem

theorem Grown.growing : Growing Grown where
  moved := .moved
  append := .append
  symbol := .symbol
  function := .function

theorem Declares.grown {initializers : List Stmt} (h : Declares s initializers s') (sound : s.Sound) :
    ∃ new, Grown s s' new :=
  h.grows Grown.growing sound

end Growth

end Checking

namespace Program

/-- All functions in order of completion, the main program last. -/
def bodies (p : Program) : List Function := p.functions ++ [p.main]

/-- The first function stands around the second: its heading comes before, and it is complete after. -/
structure Encloses (p : Program) (outer inner : Function) : Prop where
  complete : [inner, outer].Sublist p.bodies
  headed : outer.signature.id < inner.signature.id

structure Nested (p : Program) : Prop where
  distinct : p.bodies.Pairwise fun a b => a.signature.id ≠ b.signature.id
  named : ∀ g ∈ p.bodies, ∀ symbol ∈ g.locals.symbols, ∀ f, symbol.role = .function f →
    ∃ h ∈ p.functions, h.signature = f
  main : p.main.signature.level = 0 ∧ p.main.signature.block = 0
  placed : EachBefore (Checking.Placed 0 []) p.bodies

theorem nested {p : Program} (h : Checking.Program p) : p.Nested := by
  obtain ⟨c, s, initializers, statements, n, span, name, declares, chain, rfl⟩ := h
  have start := Parser.sound_initialState c
  have declared := declares.sound start
  obtain ⟨new, grown⟩ := declares.grown start
  have outer : s.scopes.outer = [] := declared.outer
  have outermost := Scopes.outermost_eq_current outer
  have functions : s.functions = new := by simpa [Parser.initialState] using grown.functions
  have headed : ∀ g ∈ new, 0 < g.signature.id := fun g mem => (grown.numbered g mem).1
  refine ⟨?_, ?_, ⟨rfl, rfl⟩, ?_⟩ <;> simp only [bodies, functions, outermost]
  · rw [List.pairwise_append]
    refine ⟨grown.distinct, List.pairwise_singleton _ _, fun a mem b last => ?_⟩
    rw [List.mem_singleton] at last
    subst last
    exact Nat.ne_of_gt (headed a mem)
  · rw [List.forall_mem_append, List.forall_mem_singleton]
    refine ⟨grown.named, fun symbol mem f role => ?_⟩
    rcases grown.declared symbol mem f role with old | made
    · simp [Parser.initialState, Scopes.start, Table.empty] at old
    · exact made
  · have completes := @Checking.Completes.block s.scopes
      ⟨⟨0, name, [], 0, .nil, 0⟩, s.scopes.current, .block ⟨n, span, .nil⟩ (initializers ++ statements)⟩
      _ _ _ _ _ _ (Checking.formed_main name) (Checking.begins_main c name) start declares rfl chain rfl rfl
    have level : s.level = 0 := declared.level
    have tables : s.scopes.tables = [s.scopes.current] := by rw [Scopes.tables, outer]
    rw [EachBefore.append]
    refine ⟨grown.placed.mono fun g later mem _ placed => ?_, ⟨rfl, by simp, ?_⟩, trivial⟩
    · refine Checking.Placed.completed ?_ rfl (headed g mem)
      rw [← List.append_nil later]
      refine placed.append (by simp) (by simp) fun t mem => ?_
      rw [tables, List.mem_singleton] at mem
      exact ⟨t, by simp [Function.tables, mem], .refl t⟩
    · refine ⟨s.scopes, completes, level ▸ declared.sound.scopes, fun t mem => ⟨t, ?_, .refl t⟩⟩
      rw [tables, List.mem_singleton] at mem
      simp [Function.tables, enclosing, mem]

end Program

/-- Whose storage a symbol names. -/
inductive Function.Owns (g : Function) (symbol : Symbol) (slot : Slot) : Prop where
  | locals (mem : symbol ∈ g.locals.symbols) (area : slot.area = .locals)
  | argument (mem : symbol ∈ g.signature.table.symbols) (area : slot.area = .parameters)

/-- The tables in scope are parts of those of the function and the functions around it. -/
def Function.Covers (g : Function) (later : List Function) (σ : Scopes) : Prop :=
  ∀ t ∈ σ.tables, ∃ h ∈ g :: enclosing later g.signature.level,
    t.Part h.locals ∨ t.Part h.signature.table

namespace Program.Nested

variable {p : Program} {g : Function} {before later : List Function} {σ : Scopes}

theorem completes (nested : p.Nested) : ∀ g ∈ p.bodies, ∃ σ, Checking.Completes σ g := by
  intro g mem
  obtain ⟨before, later, split⟩ := List.append_of_mem mem
  have placed := nested.placed
  rw [split] at placed
  obtain ⟨σ, completes, -⟩ := placed.at.scopes
  exact ⟨σ, completes⟩

theorem encloses (nested : p.Nested) (split : p.bodies = before ++ g :: later) {h : Function}
    (mem : h ∈ enclosing later g.signature.level) : p.Encloses h g := by
  have placed := nested.placed
  rw [split] at placed
  have listed := (mem_of_mem_enclosing mem).1
  refine ⟨?_, (placed.at.around h listed).mp mem⟩
  rw [split]
  exact ((List.singleton_sublist.mpr listed).cons_cons g).trans (List.sublist_append_right _ _)

theorem covered (nested : p.Nested) (split : p.bodies = before ++ g :: later) :
    ∃ σ, Checking.Completes σ g ∧ σ.Sound g.signature.level ∧ g.Covers later σ := by
  have placed := nested.placed
  rw [split] at placed
  obtain ⟨σ, completes, sound, covered⟩ := placed.at.scopes
  refine ⟨σ, completes, sound, fun t mem => ?_⟩
  obtain ⟨u, mem', part⟩ := covered t mem
  rw [List.append_nil] at mem'
  obtain ⟨h, around, own⟩ := List.mem_flatMap.mp mem'
  simp only [Function.tables, List.mem_cons, List.not_mem_nil, or_false] at own
  rcases own with rfl | rfl
  · exact ⟨h, around, .inl part⟩
  · exact ⟨h, around, .inr part⟩

theorem mem_bodies (split : p.bodies = before ++ g :: later) {h : Function}
    (mem : h ∈ g :: enclosing later g.signature.level) : h ∈ p.bodies := by
  rw [split]
  rcases List.mem_cons.mp mem with rfl | mem
  · exact List.mem_append_right _ List.mem_cons_self
  · exact List.mem_append_right _ (List.mem_cons_of_mem _ (mem_of_mem_enclosing mem).1)

theorem owned (nested : p.Nested) (split : p.bodies = before ++ g :: later) {σ : Scopes}
    (sound : σ.Sound g.signature.level) (covers : g.Covers later σ) {symbol : Symbol} {slot : Slot}
    (holds : σ.Holds symbol) (found : symbol.slot? = some slot) :
    ∃ h ∈ g :: enclosing later g.signature.level, slot.level = h.signature.level ∧
      h.Owns symbol slot := by
  obtain ⟨t, mem, inside⟩ := holds
  obtain ⟨h, around, own⟩ := covers t mem
  obtain ⟨level, area, -⟩ := (sound t mem).sound.within symbol inside slot found
  obtain ⟨σ', completes'⟩ := nested.completes h (mem_bodies split around)
  refine ⟨h, around, ?_⟩
  rcases own with part | part
  · refine ⟨by rw [level, part.level, completes'.locals.1], .locals (part.symbols _ inside) ?_⟩
    rw [area, part.area, completes'.locals.2.1]
  · exact ⟨level.trans part.level, .argument (part.symbols _ inside) (area.trans part.area)⟩

/-- A function in scope is declared among the locals of the function or of one around it. -/
theorem declares (covers : g.Covers later σ) {symbol : Symbol} {f : Signature}
    (holds : σ.Holds symbol) (role : symbol.role = .function f) :
    ∃ h ∈ g :: enclosing later g.signature.level, symbol ∈ h.locals.symbols := by
  obtain ⟨t, mem, inside⟩ := holds
  obtain ⟨h, around, part | part⟩ := covers t mem
  · exact ⟨h, around, part.symbols _ inside⟩
  · -- Arguments are no functions.
    obtain ⟨parameter, -, rfl⟩ := List.mem_map.mp (part.symbols _ inside)
    cases role

/-- What a body finds in its scopes: it and the functions around it own all that has storage there,
and the functions named there are functions of the program. -/
theorem scopes (nested : p.Nested) (split : p.bodies = before ++ g :: later) :
    ∃ σ, Checking.Completes σ g ∧ σ.Sound g.signature.level ∧
      (∀ symbol slot, σ.Holds symbol → symbol.slot? = some slot →
        ∃ h ∈ g :: enclosing later g.signature.level, slot.level = h.signature.level ∧
          h.Owns symbol slot) ∧
      ∀ symbol f, σ.Holds symbol → symbol.role = .function f → ∃ h ∈ p.functions, h.signature = f := by
  obtain ⟨σ, completes, sound, covers⟩ := nested.covered split
  refine ⟨σ, completes, sound, fun symbol slot => nested.owned split sound covers, ?_⟩
  intro symbol f holds role
  obtain ⟨h, around, inside⟩ := declares covers holds role
  exact nested.named h (mem_bodies split around) symbol inside f role

theorem mem_enclosing (nested : p.Nested) (split : p.bodies = before ++ g :: later) {h : Function}
    (encloses : p.Encloses h g) : h ∈ enclosing later g.signature.level := by
  have placed := nested.placed
  have distinct := nested.distinct
  have complete := encloses.complete
  rw [split] at placed distinct complete
  refine (placed.at.around h ?_).mpr encloses.headed
  -- The function itself is listed only once, so the one around it is among the later ones.
  obtain ⟨first, second, eq, earlier, rest⟩ := List.sublist_append_iff.mp complete
  cases first with
  | nil =>
      rw [List.nil_append] at eq
      rw [← eq, List.cons_sublist_cons] at rest
      exact List.singleton_sublist.mp rest
  | cons x first =>
      obtain ⟨rfl, -⟩ := List.cons_eq_cons.mp eq
      have mem := earlier.subset List.mem_cons_self
      exact absurd rfl ((List.pairwise_append.mp distinct).2.2 g mem g List.mem_cons_self)

/-- There is at most one function around another at each level. -/
theorem encloses_unique (nested : p.Nested) {a b : Function} (first : p.Encloses a g)
    (second : p.Encloses b g) (same : a.signature.level = b.signature.level) : a = b := by
  have listed : g ∈ p.bodies := first.complete.subset List.mem_cons_self
  obtain ⟨before, later, split⟩ := List.append_of_mem listed
  have levels : ((enclosing later g.signature.level).map fun h => h.signature.level).Nodup :=
    List.pairwise_map.mpr ((enclosing_levels later g.signature.level).imp Nat.ne_of_gt)
  exact List.inj_on_of_nodup_map levels (nested.mem_enclosing split first)
    (nested.mem_enclosing split second) same

end Program.Nested

end PascalX86
