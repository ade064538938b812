import PascalX86.Proofs.Frame.Statement
import PascalX86.Proofs.Frame.Storage

/-!
# Accesses of functions

What the code of a function reads and writes by way of its frame pointer lies in its own frame, what
it reaches through the display lies in the frames of the functions around, and nothing that is kept
at the same time shares a byte.
-/

set_option autoImplicit false

namespace PascalX86

open Register

/-- A temporary that is kept somewhere in the body of a function. -/
def Site.Hides (root : Site) (f : Frames) (r : Region) : Prop :=
  ∃ t, root.Contains t ∧ r ∈ t.hidden f

/-- What an operand in the code of a function may touch, given the cell that `esi` was loaded from. -/
structure Program.Confines (p : Program) (levels : Nat) (root : Site) (g : Function) (f : Frames)
    (held : Option Memory) (m : Memory) : Prop where
  own : m.base = .register ebp → ∃ r, m.region.Within r ∧
    ((∃ symbol ∈ g.symbols, f.Places symbol r) ∨ root.Hides f r) ∧
    (r.Within (.below 0 (g.frameSize f)) ∨ r.Within (.arguments g.signature.block))
  outer : m.base = .register esi → ∃ h r, p.Encloses h g ∧
    held = some (displayEntry h.signature.level) ∧ m.region.Within r ∧
    (∃ symbol ∈ h.symbols, f.Places symbol r) ∧
    (r.Within (.below 0 h.locals.size) ∨ r.Within (.arguments h.signature.block))
  display : m.base = .display → (∃ level < levels, m = displayEntry level) ∧
    m.displacement.toUInt32.toNat + m.width.bytes ≤ levels * dwordSize

section Frames

variable {g : Function} {later : List Function}

theorem Function.blocks_frames (g : Function) (later : List Function) :
    (g.frames later).blocks[g.signature.level]? = some g.signature.block := by
  have length := length_outerBlocks later g.signature.level
  rw [frames, List.getElem?_append_right (Nat.le_of_eq length), length, Nat.sub_self]
  rfl

theorem Function.blocks_frames_outer {h : Function} (mem : h ∈ enclosing later g.signature.level) :
    (g.frames later).blocks[h.signature.level]? = some h.signature.block := by
  have inside := (mem_of_mem_enclosing mem).2
  rw [frames, List.getElem?_append_left (by rw [length_outerBlocks]; exact inside)]
  exact getElem?_outerBlocks mem

theorem Function.blocks_frames_of_mem {h : Function}
    (mem : h ∈ g :: enclosing later g.signature.level) :
    (g.frames later).blocks[h.signature.level]? = some h.signature.block := by
  rcases List.mem_cons.mp mem with rfl | mem
  · exact h.blocks_frames later
  · exact blocks_frames_outer mem

end Frames

theorem Program.level_lt_levels {p : Program} (main : p.main.signature.level = 0) {g : Function}
    (mem : g ∈ p.bodies) : g.signature.level < p.levels := by
  have each (functions : List Function) (n : Nat) :
      n ≤ functions.foldl (fun n g => max n (g.signature.level + 1)) n ∧ ∀ g ∈ functions,
        g.signature.level < functions.foldl (fun n g => max n (g.signature.level + 1)) n := by
    induction functions generalizing n with
    | nil => simp
    | cons h functions ih =>
        obtain ⟨grows, inside⟩ := ih (max n (h.signature.level + 1))
        rw [List.foldl_cons, List.forall_mem_cons]
        exact ⟨by omega, by omega, inside⟩
  obtain ⟨one, inside⟩ := each p.functions 1
  rcases List.mem_append.mp mem with mem | mem
  · exact inside g mem
  · rw [List.mem_singleton] at mem
    rw [mem, main]
    exact one

theorem Program.levels_of_lower {p : Program} {listing : Listing} (lowered : p.lower = .ok listing) :
    listing.levels = p.levels := by
  simp only [lower, bind_eq_ok] at lowered
  obtain ⟨functions, -, main, -, eq⟩ := lowered
  cases eq
  rfl

/-- The symbols in scope, in terms of the functions that own them. -/
def Scopes.OwnedBy (σ : Scopes) (functions : List Function) : Prop :=
  ∀ symbol slot, σ.Holds symbol → symbol.slot? = some slot →
    ∃ h ∈ functions, slot.level = h.signature.level ∧ h.Owns symbol slot

/-- What is known of a body and the functions around it. -/
structure Function.Stands (p : Program) (g : Function) (later : List Function) (σ : Scopes) : Prop where
  scopes : σ.Sound g.signature.level
  owned : σ.OwnedBy (g :: enclosing later g.signature.level)
  tabled : ∀ h ∈ g :: enclosing later g.signature.level, h.Tabled
  encloses : ∀ h ∈ enclosing later g.signature.level, p.Encloses h g
  level : g.signature.level < p.levels

theorem Program.Nested.stands_of_covers {p : Program} {g : Function} {before later : List Function}
    {σ : Scopes} (nested : p.Nested) (split : p.bodies = before ++ g :: later)
    (scopes : σ.Sound g.signature.level) (covers : g.Covers later σ) : g.Stands p later σ := by
  refine ⟨scopes, fun symbol slot => nested.owned split scopes covers, fun h mem => ?_,
    fun h => nested.encloses split, ?_⟩
  · obtain ⟨σ', completes'⟩ := nested.completes h (mem_bodies split mem)
    exact completes'.tabled
  · exact Program.level_lt_levels nested.main.1 (by simp [split])

theorem Program.Nested.stands {p : Program} {g : Function} {before later : List Function}
    (nested : p.Nested) (split : p.bodies = before ++ g :: later) :
    ∃ σ, Checking.Completes σ g ∧ g.Stands p later σ := by
  obtain ⟨σ, completes, scopes, covers⟩ := nested.covered split
  exact ⟨σ, completes, nested.stands_of_covers split scopes covers⟩

namespace Function.Stands

variable {p : Program} {g : Function} {later : List Function} {σ : Scopes} {r : Region} {label : Nat}
  {held : Option Memory} {m : Memory}

theorem spans (stands : g.Stands p later σ) : (g.frames later).Spans σ := by
  refine ⟨stands.scopes, fun symbol r holds places => ?_⟩
  obtain ⟨slot, -, -, found, -⟩ := id places
  obtain ⟨h, mem, level, owns⟩ := stands.owned symbol slot holds found
  have known := blocks_frames_of_mem mem
  have tabled := stands.tabled h mem
  obtain rfl := (owns.places tabled found (level ▸ known)).mp places
  have localRoom := tabled.locals.room
  have argumentRoom : h.signature.block ≤ maxSize := tabled.arguments.room
  unfold maxSize at *
  rcases owns.region_within tabled found with within | within
  · unfold Region.Within Region.below at within
    dsimp only at within
    omega
  · unfold Region.Within Region.arguments linkSize at within
    dsimp only at within
    omega

theorem hides_within (hides : (g.site label).Hides (g.frames later) r) :
    r.Within (.below g.locals.size (g.body.temporaries (g.frames later))) := by
  obtain ⟨t, contains, mem⟩ := hides
  exact contains.hidden mem

theorem locals_within_frame (g : Function) (f : Frames) :
    (Region.below 0 g.locals.size).Within (.below 0 (g.frameSize f)) := by
  apply Region.below_within
  · exact Nat.le_refl 0
  · unfold frameSize
    omega

theorem confines_own (stands : g.Stands p later σ) {symbol : Symbol} {slot : Slot} {root : Site}
    {levels : Nat} (mem : symbol ∈ g.symbols) (found : symbol.slot? = some slot)
    (places : (g.frames later).Places symbol r) (base : m.base = .register ebp)
    (within : m.region.Within r) :
    p.Confines levels root g (g.frames later) held m := by
  refine ⟨fun _ => ⟨r, within, .inl ⟨symbol, mem, places⟩, ?_⟩, ?_, ?_⟩
  · have tabled := stands.tabled g List.mem_cons_self
    obtain ⟨owns, level⟩ := tabled.owns mem found
    obtain rfl := (owns.places tabled found (level ▸ g.blocks_frames later)).mp places
    rcases owns.region_within tabled found with inside | inside
    · exact .inl (inside.trans (locals_within_frame g _))
    · exact .inr inside
  · simp [base]
  · simp [base]

theorem confines_display (stands : g.Stands p later σ) {root : Site} {f : Frames} {level : Nat}
    (le : level ≤ g.signature.level) (eq : m = displayEntry level) :
    p.Confines p.levels root g f held m := by
  subst eq
  have inside : level < p.levels := Nat.lt_of_le_of_lt le stands.level
  refine ⟨by simp [displayEntry], by simp [displayEntry], fun _ => ⟨⟨level, inside, rfl⟩, ?_⟩⟩
  have bytes : (Int32.ofNat (level * dwordSize)).toUInt32.toNat ≤ level * dwordSize :=
    Nat.mod_le _ _
  have last : (level + 1) * dwordSize ≤ p.levels * dwordSize := Nat.mul_le_mul_right dwordSize inside
  rw [Nat.succ_mul] at last
  show (Int32.ofNat (level * dwordSize)).toUInt32.toNat + dwordSize ≤ _
  omega

theorem confines (stands : g.Stands p later σ)
    (touches : (g.frames later).Touches σ ((g.site label).Hides (g.frames later)) held m) :
    p.Confines p.levels (g.site label) g (g.frames later) held m := by
  cases touches with
  | computed base plain => exact ⟨by simp_all, by simp_all, by simp [base]⟩
  | @own symbol slot r holds found level places base within =>
      obtain ⟨h, mem, level', owns⟩ := stands.owned symbol slot holds found
      rcases List.mem_cons.mp mem with rfl | mem
      · exact stands.confines_own owns.mem found places base within
      · -- The functions around lie at other levels.
        have outside := (mem_of_mem_enclosing mem).2
        have level : slot.level = g.signature.level := level
        omega
  | @temporary r hides base within =>
      refine ⟨fun _ => ⟨r, within, .inr hides, .inl ?_⟩, by simp [base], by simp [base]⟩
      apply (hides_within hides).trans
      apply Region.below_within
      · exact Nat.zero_le _
      · unfold frameSize
        omega
  | @outer symbol slot r holds found level places base loaded within =>
      obtain ⟨h, mem, level', owns⟩ := stands.owned symbol slot holds found
      have known := blocks_frames_of_mem mem
      have tabled := stands.tabled h mem
      rcases List.mem_cons.mp mem with rfl | mem
      · exact absurd level' level
      · refine ⟨by simp [base], fun _ => ?_, by simp [base]⟩
        refine ⟨h, r, stands.encloses h mem, level' ▸ loaded, within, ⟨symbol, owns.mem, places⟩, ?_⟩
        obtain rfl := (owns.places tabled found (level' ▸ known)).mp places
        exact owns.region_within tabled found
  | display le eq => exact stands.confines_display le eq

/-- The result of a function is its first local. -/
theorem confines_result (stands : g.Stands p later σ) {root : Site} {levels : Nat}
    (result : g.signature.result ≠ .nil) (small : g.signature.result.size ≤ maxSize)
    (base : m.base = .register ebp)
    (reached : m.region = (frameSlot g.signature.result.size).reaching g.signature.result.size) :
    p.Confines levels root g (g.frames later) held m := by
  have tabled := stands.tabled g List.mem_cons_self
  obtain ⟨symbol, mem, found, storage⟩ := tabled.result.resolve_left result
  have mem : symbol ∈ g.symbols := List.mem_append_right _ mem
  have region : g.region symbol ⟨g.signature.level, 0, .locals⟩ = .below 0 symbol.storage := rfl
  have places := ((tabled.owns mem found).1.places tabled found (g.blocks_frames later)).mpr rfl
  refine stands.confines_own mem found places base ?_
  rw [region, reached, storage, ← reaching_frameSlot, Nat.zero_add]
  · exact ⟨Int.le_refl _, Int.le_refl _⟩
  · unfold maxSize at small
    omega

theorem confines_returnCode (stands : g.Stands p later σ) {root : Site} {levels : Nat} {result : Code}
    (answered : g.returnCode = .ok result) :
    result.Safe (p.Confines levels root g (g.frames later)) := by
  apply safe_of_forall
  unfold returnCode at answered
  split at answered <;> cases answered
  · simp
  all_goals
    next type =>
    simp only [List.forall_mem_singleton, Command.accesses, Operand.memory?, List.filterMap_cons,
      List.filterMap_nil]
    intro held
    refine stands.confines_result ?_ ?_ rfl ?_ <;> rw [type]
    · rintro ⟨⟩
    · decide
    · rfl

end Function.Stands

section Programs

variable {p : Program} {g : Function} {later : List Function} {σ : Scopes}

theorem Function.Framed.confines {label bound : Nat} {inner : Code}
    (framed : g.Framed later label inner) (stands : g.Stands p later σ) (sound : g.body.Sound σ bound)
    (room : g.frameSize (g.frames later) < 2 ^ 31) :
    inner.Safe (p.Confines p.levels (g.site label) g (g.frames later)) := by
  obtain ⟨body, result, lowered, answered, rfl⟩ := framed.parts
  have keeps : Site.Keeps (g.frames later) ((g.site label).Hides (g.frames later)) (g.site label) :=
    ⟨room, fun t contains r mem => ⟨t, contains, mem⟩⟩
  have safe := (Stmt.lowers_accesses _ stands.spans none g.locals.size label sound keeps).result body
    lowered
  have body : body.Safe (p.Confines p.levels (g.site label) g (g.frames later)) :=
    fun held a mem => stands.confines (safe held a mem)
  have own : ∀ held, p.Confines p.levels (g.site label) g (g.frames later) held
      (displayEntry g.signature.level) :=
    fun held => stands.confines_display (Nat.le_refl _) rfl
  have enter : (g.enter later).Safe (p.Confines p.levels (g.site label) g (g.frames later)) := by
    apply safe_of_forall
    unfold Function.enter
    dsimp only
    split <;> simpa [Command.accesses, Operand.memory?, Operand.ofNat] using own
  have leave : (g.leave later).Safe (p.Confines p.levels (g.site label) g (g.frames later)) := by
    apply safe_of_forall
    unfold Function.leave
    dsimp only
    split
    · simp [Command.accesses, Operand.memory?]
    · simpa [Command.accesses, Operand.memory?] using own
  refine (enter.append body).append (Code.Safe.append ?_ leave)
  rcases answered with rfl | ⟨-, answered⟩
  · exact safe_nil
  · exact stands.confines_returnCode answered

/-- What a function keeps in its frame at the same time shares no byte: its symbols, and the
temporaries of its statements, which are moved to their places by the code of these statements. -/
structure Function.KeepsApart (g : Function) (f : Frames) (root : Site) : Prop where
  placed : ∀ symbol ∈ g.symbols, symbol.slot?.isSome = true → ∃ r, f.Places symbol r
  symbols : g.symbols.Pairwise fun a b => ∀ r s, f.Places a r → f.Places b s → r.Apart s
  hidden : ∀ symbol ∈ g.symbols, ∀ r s, f.Places symbol r → root.Hides f s → r.Apart s
  outputs : ∀ t, root.Contains t → (t.hidden f).Pairwise Region.Apart
  loops : ∀ t l turn inner, root.Contains t → t.Turn l turn → turn.Contains inner →
    ∀ r ∈ t.hidden f, ∀ s ∈ inner.hidden f, r.Apart s
  moved : ∀ t code, root.Contains t → t.code f = .ok code → ∀ r ∈ t.hidden f, 0 < r.size →
    ∃ m : Memory, m.base = .register ebp ∧ m.reaching r.size = r ∧ popMemory m r.size <:+: code

theorem Function.Stands.keepsApart {label : Nat} (stands : g.Stands p later σ)
    (room : g.frameSize (g.frames later) < 2 ^ 31) :
    g.KeepsApart (g.frames later) (g.site label) := by
  have tabled := stands.tabled g List.mem_cons_self
  have known := g.blocks_frames later
  constructor
  · intro symbol mem taken
    obtain ⟨slot, found⟩ := Option.isSome_iff_exists.mp taken
    obtain ⟨owns, level⟩ := tabled.owns mem found
    exact ⟨_, (owns.places tabled found (level ▸ known)).mpr rfl⟩
  · exact Function.symbols_apart tabled known
  · intro symbol mem r s places hides
    exact Function.symbols_apart_below tabled known mem places (Function.Stands.hides_within hides)
  · exact fun t _ => t.hidden_apart _
  · exact fun t l turn inner _ turns contains r mem s mem' => turns.hidden_apart contains mem mem'
  · intro t code contains lowered r mem taken
    obtain ⟨used, same, popped⟩ := t.popped_of_mem_hidden lowered mem taken
    refine ⟨frameSlot (used + r.size), rfl, ?_, popped⟩
    have within := contains.hidden mem
    rw [same] at within ⊢
    apply reaching_frameSlot
    unfold Region.Within Region.below at within
    unfold Function.frameSize at room
    dsimp only [Function.site] at within
    show used + r.size < 2 ^ 31
    omega

/-- In programs whose frames are in the range of displacements, code goes by its frame pointer to its
own locals, temporaries and arguments only, through the display to those of the functions around,
and to no entry of the display beyond those of the listing. What is kept at the same time is apart. -/
theorem Source.frames_safe {source : Source} {p : Program} {listing : Listing}
    (h : source.program = .ok p) (lowered : p.lower = .ok listing)
    (room : EachBefore (fun g later => g.frameSize (g.frames later) < 2 ^ 31) p.bodies) :
    ∀ before g later, p.bodies = before ++ g :: later →
      (∃ front inner back : Code,
        listing.code = front ++ (.label (g.entry later) :: inner ++ [Function.exit later]) ++ back ∧
        inner.Safe (p.Confines listing.levels (g.site (bodyLabels before)) g (g.frames later))) ∧
      g.KeepsApart (g.frames later) (g.site (bodyLabels before)) := by
  have nested := Program.nested (Source.derives h)
  intro before g later split
  obtain ⟨σ, completes, stands⟩ := nested.stands split
  obtain ⟨bound, sound, -⟩ := completes.sound
  rw [split] at room
  have laid := nested.laid lowered
  rw [split] at laid
  obtain ⟨front, inner, back, placed, framed⟩ := laid.at
  rw [Nat.zero_add] at framed
  rw [Program.levels_of_lower lowered]
  exact ⟨⟨front, inner, back, placed, framed.confines stands sound room.at⟩, stands.keepsApart room.at⟩

theorem Source.nested_room : (Source.nested.program.toOption.map fun p =>
    decide (EachBefore (fun g later => g.frameSize (g.frames later) < 2 ^ 31) p.bodies)) =
      some true := by
  decide +kernel

theorem Source.nested_frames_safe : ∃ p listing, Source.nested.program = .ok p ∧
    p.lower = .ok listing ∧ ∀ before g later, p.bodies = before ++ g :: later →
      (∃ front inner back : Code,
        listing.code = front ++ (.label (g.entry later) :: inner ++ [Function.exit later]) ++ back ∧
        inner.Safe (p.Confines listing.levels (g.site (bodyLabels before)) g (g.frames later))) ∧
      g.KeepsApart (g.frames later) (g.site (bodyLabels before)) := by
  obtain ⟨p, accepted, listing, lowered⟩ := exists_of_bind_toOption Source.nested_lowers
  have room := Source.nested_room
  rw [accepted, Except.toOption, Option.map_some, Option.some.injEq, decide_eq_true_eq] at room
  exact ⟨p, listing, accepted, lowered, Source.frames_safe accepted lowered room⟩

end Programs

end PascalX86
