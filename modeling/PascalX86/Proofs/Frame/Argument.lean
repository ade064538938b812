import PascalX86.Proofs.Frame.Program

/-!
# Arguments of the functions around

Code finds the arguments of a function around it by the bytes that all arguments at its level take,
and these are taken from the first function listed later that lies one level further out. It is the
innermost one around, so an argument belongs to the function whose bytes are counted.
-/

set_option autoImplicit false

namespace PascalX86

section Lists

variable {functions : List Function} {level : Nat}

theorem head?_enclosing (functions : List Function) (level : Nat) :
    (enclosing functions level).head? = functions.find? fun h => h.signature.level + 1 == level := by
  induction functions with
  | nil => cases level <;> rfl
  | cons g later ih =>
      cases level with
      | zero => simp [enclosing, List.find?_eq_none.mpr]
      | succ level =>
          rw [enclosing]
          by_cases same : g.signature.level = level
          · simp [same]
          · rw [if_neg same, ih, List.find?_cons_of_neg (by simpa using same)]

/-- What is around the innermost function is around the functions inside it too. -/
theorem exists_of_enclosing_eq_cons {parent : Function} {rest : List Function}
    (eq : enclosing functions level = parent :: rest) :
    ∃ before later, functions = before ++ parent :: later ∧ parent.signature.level + 1 = level ∧
      rest = enclosing later parent.signature.level := by
  induction functions with
  | nil => cases level <;> simp [enclosing] at eq
  | cons g later ih =>
      cases level with
      | zero => simp [enclosing] at eq
      | succ level =>
          rw [enclosing] at eq
          split at eq
          · next same =>
            obtain ⟨rfl, rfl⟩ := List.cons_eq_cons.mp eq
            exact ⟨[], later, rfl, by rw [same], by rw [same]⟩
          · obtain ⟨before, after, rfl, one, around⟩ := ih eq
            exact ⟨g :: before, after, rfl, one, around⟩

end Lists

/-- A function of the program lies inside the main program. -/
theorem Checking.Program.one_le_level {p : PascalX86.Program} (h : Checking.Program p) :
    ∀ g ∈ p.functions, 1 ≤ g.signature.level := by
  obtain ⟨c, s, initializers, statements, n, span, name, declares, -, rfl⟩ := h
  obtain ⟨new, grown⟩ := declares.grown (Parser.sound_initialState c)
  have functions : s.functions = new := by simpa [Parser.initialState] using grown.functions
  intro g mem
  exact grown.deeper g (functions ▸ mem)

namespace Program

/-- The innermost function around another. -/
structure Parent (p : Program) (outer inner : Function) : Prop where
  encloses : p.Encloses outer inner
  innermost : ∀ other, p.Encloses other inner → other = outer ∨ p.Encloses other outer

theorem Parent.unique {p : Program} {a b g : Function} (first : p.Parent a g)
    (second : p.Parent b g) : a = b := by
  -- Otherwise each of the two would have its heading before the other.
  rcases first.innermost b second.encloses with rfl | inside
  · rfl
  · rcases second.innermost a first.encloses with rfl | outside
    · rfl
    · exact absurd inside.headed (Nat.lt_asymm outside.headed)

/-- The function itself and those around it. -/
def Around (p : Program) (h g : Function) : Prop := h = g ∨ p.Encloses h g

namespace Nested

variable {p : Program} {g : Function} {before later : List Function}

theorem around_iff (nested : p.Nested) (split : p.bodies = before ++ g :: later) (h : Function) :
    p.Around h g ↔ h ∈ g :: enclosing later g.signature.level := by
  rw [List.mem_cons]
  exact or_congr_right ⟨nested.mem_enclosing split, nested.encloses split⟩

theorem around_unique (nested : p.Nested) {a b : Function} (listed : g ∈ p.bodies)
    (first : p.Around a g) (second : p.Around b g) (same : a.signature.level = b.signature.level) :
    a = b := by
  obtain ⟨before, later, split⟩ := List.append_of_mem listed
  have deeper {h : Function} (encloses : p.Encloses h g) : h.signature.level < g.signature.level :=
    (mem_of_mem_enclosing (nested.mem_enclosing split encloses)).2
  rcases first with rfl | first <;> rcases second with rfl | second
  · rfl
  · exact absurd same (Nat.ne_of_gt (deeper second))
  · exact absurd same (Nat.ne_of_lt (deeper first))
  · exact nested.encloses_unique first second same

theorem parent (nested : p.Nested) (split : p.bodies = before ++ g :: later) {h : Function}
    (head : (enclosing later g.signature.level).head? = some h) :
    p.Parent h g ∧ h.signature.level + 1 = g.signature.level := by
  obtain ⟨rest, eq⟩ : ∃ rest, enclosing later g.signature.level = h :: rest :=
    ⟨_, List.eq_cons_of_mem_head? head⟩
  obtain ⟨first, second, rfl, one, around⟩ := exists_of_enclosing_eq_cons eq
  have split' : p.bodies = (before ++ g :: first) ++ h :: second := by simp [split]
  refine ⟨⟨nested.encloses split (eq ▸ List.mem_cons_self), fun other encloses => ?_⟩, one⟩
  have mem := nested.mem_enclosing split encloses
  rw [eq, List.mem_cons] at mem
  exact mem.imp_right fun mem => nested.encloses split' (around ▸ mem)

theorem exists_enclosing (nested : p.Nested) (split : p.bodies = before ++ g :: later)
    (inside : 1 ≤ g.signature.level) :
    ∃ h, (enclosing later g.signature.level).head? = some h := by
  have placed := nested.placed
  rw [split] at placed
  have count := placed.at.level
  cases list : enclosing later g.signature.level with
  | nil =>
      rw [list, List.length_nil] at count
      omega
  | cons h rest => exact ⟨h, rfl⟩

end Nested

end Program

def Expr.symbol? : Expr → Option Symbol
  | .var _ symbol => some symbol
  | _ => none

/-- The symbols of all references in the body. -/
def Function.references (g : Function) : List Symbol :=
  g.body.nodes.flatMap fun s => s.operands.flatMap fun e => e.nodes.filterMap Expr.symbol?

theorem Function.holds_of_mem_references {g : Function} {σ : Scopes} {bound : Nat} {symbol : Symbol}
    (sound : g.body.Sound σ bound) (mem : symbol ∈ g.references) : σ.Holds symbol := by
  obtain ⟨s, mem, inside⟩ := List.mem_flatMap.mp mem
  obtain ⟨e, operand, inside⟩ := List.mem_flatMap.mp inside
  obtain ⟨x, node, named⟩ := List.mem_filterMap.mp inside
  have grounded := ((sound s mem).2 e operand x node).grounded
  cases x <;> simp only [Expr.symbol?, reduceCtorEq, Option.some.injEq] at named
  exact named ▸ grounded

section Programs

variable {p : Program} {g : Function} {before later : List Function}

theorem Program.Nested.argument (nested : p.Nested) (split : p.bodies = before ++ g :: later)
    {symbol : Symbol} {slot : Slot} (refers : symbol ∈ g.references) (found : symbol.slot? = some slot)
    (area : slot.area = .parameters) :
    ∃ owner, p.Around owner g ∧ owner.signature.level = slot.level ∧
      symbol ∈ owner.signature.table.symbols ∧
      (g.frames later).blocks[slot.level]? = some owner.signature.table.size := by
  obtain ⟨σ, completes, -, owned, -⟩ := nested.scopes split
  obtain ⟨bound, sound, -⟩ := completes.sound
  obtain ⟨owner, around, level, owns⟩ :=
    owned symbol slot (Function.holds_of_mem_references sound refers) found
  refine ⟨owner, (nested.around_iff split owner).mpr around, level.symm, ?_, ?_⟩
  · cases owns with
    | locals _ other => rw [area] at other; cases other
    | argument mem _ => exact mem
  · rw [level]
    exact Function.blocks_frames_of_mem around

/-- An argument that a function refers to belongs to the function around at its level, and the bytes
counted there are those of this function's arguments. For the innermost function around, the first
one listed later that lies one level further out is taken, or the main program if there is none. -/
theorem Source.arguments_belong {source : Source} {p : Program} (h : source.program = .ok p) :
    ∀ before g later, p.functions = before ++ g :: later →
      (∀ symbol ∈ g.references, ∀ slot, symbol.slot? = some slot → slot.area = .parameters →
        ∃ owner, (p.Around owner g ∧ owner.signature.level = slot.level ∧
            ∀ other, p.Around other g → other.signature.level = slot.level → other = owner) ∧
          symbol ∈ owner.signature.table.symbols ∧
          (g.frames later).blocks[slot.level]? = some owner.signature.table.size) ∧
      ∃ parent, (∀ other, p.Parent other g ↔ other = parent) ∧
        parent.signature.level + 1 = g.signature.level ∧
        (later.find? fun h => h.signature.level + 1 == g.signature.level).getD p.main = parent := by
  have derives := Source.derives h
  have nested := Program.nested derives
  intro before g later listed
  have split : p.bodies = before ++ g :: (later ++ [p.main]) := by simp [Program.bodies, listed]
  refine ⟨fun symbol refers slot found area => ?_, ?_⟩
  · obtain ⟨owner, around, level, mem, counted⟩ := nested.argument split refers found area
    rw [Function.frames_append_main nested.main.1 nested.main.2] at counted
    refine ⟨owner, ⟨around, level, fun other around' same => ?_⟩, mem, counted⟩
    exact nested.around_unique (by simp [split]) around' around (same.trans level.symm)
  · have inside := derives.one_le_level g (by simp [listed])
    obtain ⟨parent, head⟩ := nested.exists_enclosing split inside
    obtain ⟨is_parent, level⟩ := nested.parent split head
    refine ⟨parent, fun other => ⟨fun h => h.unique is_parent, ?_⟩, level, ?_⟩
    · rintro rfl
      exact is_parent
    · rw [head?_enclosing, List.find?_append] at head
      cases first : later.find? fun h => h.signature.level + 1 == g.signature.level with
      | none =>
          rw [first, Option.none_or] at head
          exact List.mem_singleton.mp (List.mem_of_find?_eq_some head) ▸ rfl
      | some x =>
          rw [first, Option.some_or, Option.some.injEq] at head
          exact head

/-- Levels of functions, each with those of the arguments that its body refers to. -/
def Program.argumentLevels (p : Program) : List (Nat × List Nat) :=
  p.functions.map fun g => (g.signature.level,
    (g.references.filterMap Symbol.slot?).filterMap fun slot =>
      if slot.area = .parameters then some slot.level else none)

theorem Source.nested_argumentLevels :
    Source.nested.program.toOption.map Program.argumentLevels =
      some [(2, [1, 1, 2]), (1, [1, 1, 1, 1, 1])] := by
  decide +kernel

/-- The inner function refers to two arguments of the function around it and to one of its own. -/
theorem Source.nested_arguments_belong : ∃ p, Source.nested.program = .ok p ∧
    p.argumentLevels = [(2, [1, 1, 2]), (1, [1, 1, 1, 1, 1])] ∧
    ∀ before g later, p.functions = before ++ g :: later →
      (∀ symbol ∈ g.references, ∀ slot, symbol.slot? = some slot → slot.area = .parameters →
        ∃ owner, (p.Around owner g ∧ owner.signature.level = slot.level ∧
            ∀ other, p.Around other g → other.signature.level = slot.level → other = owner) ∧
          symbol ∈ owner.signature.table.symbols ∧
          (g.frames later).blocks[slot.level]? = some owner.signature.table.size) ∧
      ∃ parent, (∀ other, p.Parent other g ↔ other = parent) ∧
        parent.signature.level + 1 = g.signature.level ∧
        (later.find? fun h => h.signature.level + 1 == g.signature.level).getD p.main = parent := by
  obtain ⟨p, accepted, levels⟩ := exists_of_map_toOption Source.nested_argumentLevels
  exact ⟨p, accepted, levels, Source.arguments_belong accepted⟩

end Programs

end PascalX86
