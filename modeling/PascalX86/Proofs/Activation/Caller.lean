import PascalX86.Proofs.Activation.Entry

/-!
# Callers and callees

A callee finds the addresses that its caller pushed for it, and the caller finds its frame and the
operands below the arguments as they were before the call.
-/

set_option autoImplicit false

namespace PascalX86

open Register

variable {env : Environment} {p : Program} {listing : Listing} {l : Ground} {a b : env.Call}
  {calls outer : List env.Call} {bytes : Bytes} {m m' : Machine} {floor offset level levels : Nat}

/-- Addresses among the arguments that were pushed. -/
theorem Ground.Operands.cell {parameters : List Parameter}
    (arranged : Arranged level .parameters offset (parameters.map Parameter.symbol))
    (operands : l.Operands calls bytes (floor + offset) (itemsOf parameters)) {q : Parameter}
    (mem : q ∈ parameters) (mode : q.mode = .byReference) :
    l.Points calls (bytes.dword (below l.top (floor + q.slot.offset + 4))) q.type.size := by
  induction parameters generalizing offset with
  | nil => cases mem
  | cons p parameters ih =>
      have length := p.length_items
      have storage : p.symbol.bytes = p.mode.size p.type := rfl
      unfold dwordSize at length
      rw [itemsOf, Ground.operands_append] at operands
      rw [List.map_cons, Arranged, storage] at arranged
      rcases List.mem_cons.mp mem with rfl | mem
      · have own := operands.2
        have slot : q.slot = ⟨level, offset, .parameters⟩ := arranged.1 q.slot rfl
        rw [Parameter.items, mode] at own
        rw [slot]
        exact own.1
      · apply ih arranged.2 _ mem
        rw [show floor + (offset + p.mode.size p.type) = floor + offset + 4 * p.items.length by omega]
        exact operands.1

namespace Pending

variable (derives : Checking.Program p) (sound : l.Sound listing.levels)

include derives

theorem formed (listed : a.function ∈ p.bodies) : a.function.signature.Formed := by
  obtain ⟨σ, completes⟩ := (Program.nested derives).completes _ listed
  obtain ⟨formed, -⟩ := completes
  exact formed

theorem outermost (pending : Pending p listing l (a :: outer)) (level : a.level = 0) :
    a.function = p.main ∧ outer = [] := by
  cases pending with
  | main => exact ⟨rfl, rfl⟩
  | call _ _ _ listed =>
      have inner : 1 ≤ a.level := derives.one_le_level _ listed
      omega

include sound

/-- What was passed to the calls that have not returned. -/
theorem cells (pending : Pending p listing l (a :: outer)) (kept : ∀ d, 0 < d → d ≤ a.depth l →
      m.bytes (PascalX86.below l.top d) = a.caller.machine.bytes (PascalX86.below l.top d)) :
    ∀ first b rest, a :: outer = first ++ b :: rest →
      ∀ q ∈ b.function.signature.parameters, q.mode = .byReference →
        l.Points rest (m.bytes.dword (PascalX86.below l.top (b.limit l + q.slot.offset + 4)))
          q.type.size := by
  intro first b rest split q mem mode
  have nests := pending.nests derives sound
  have listed : b ∈ a :: outer := by simp [split]
  obtain ⟨-, fits, -⟩ := (nests.proper b listed).tabled.cell mem mode
  have block := (nests.proper b listed).block
  have inside : b.depth l ≤ a.depth l := by
    rcases List.mem_cons.mp listed with rfl | listed
    · exact Nat.le_refl _
    · have above := (List.pairwise_cons.mp nests.ordered).1 b listed
      unfold Environment.Call.base Environment.Call.limit at above
      omega
  have same : m.bytes.dword (PascalX86.below l.top (b.limit l + q.slot.offset + 4)) =
      a.caller.machine.bytes.dword (PascalX86.below l.top (b.limit l + q.slot.offset + 4)) := by
    apply dword_below
    intro d above le
    unfold Environment.Call.limit at le
    exact kept d (by omega) (by omega)
  rw [same]
  cases pending with
  | main =>
      rw [List.mem_singleton] at listed
      subst listed
      have none : p.main.signature.parameters = [] := (Program.checked derives).signature.2.1
      rw [show p.main.signature.parameters = [] from none] at mem
      cases mem
  | @call c _ outer φ items pending s own function entry around stack holds back =>
      cases first with
      | cons x first =>
          exact holds.active.cells first b rest (List.cons_eq_cons.mp split).2 q mem mode
      | nil =>
          obtain ⟨rfl, rfl⟩ := List.cons_eq_cons.mp split
          have operands := holds.operands
          have depth := depth_eq derives sound function stack holds
          rw [stack, Ground.operands_append] at operands
          have floor : a.limit l = c.base l + s.frameSize + 4 * items.length := by
            unfold Environment.Call.limit
            omega
          rw [floor]
          exact operands.1.cell (formed derives (List.mem_append_left _ function)).arranged mem mode

theorem active (pending : Pending p listing l (a :: outer)) (entered : a.Entered l listing.levels m) :
    a.Active l listing.levels outer m where
  frame := entered.frame
  display := entered.display
  entry := entered.entry
  back := entered.back
  saved := entered.saved
  pointer := entered.pointer
  kept d pos le _ := entered.kept d pos (Nat.le_trans le (Nat.sub_le _ _))
  cells := pending.cells derives sound entered.kept

omit derives sound in
theorem display (pending : Pending p listing l (a :: outer)) : a.caller.machine.display = l.display := by
  cases pending with
  | main _ _ display => exact display
  | call _ _ _ _ _ _ _ holds => exact holds.active.display

/-- The body of a function begins with its frame below the links, and without operands. -/
theorem begins (pending : Pending p listing l (a :: outer)) (entered : a.Entered l listing.levels m)
    (esp : m.esp = a.frame) {size : Nat} {flags : Option Flags} (room : a.base l ≤ l.room)
    (small : size ≤ l.room)
    (eq : m' = { m with esp := m.esp - (Int32.ofNat size).toBitVec, flags := flags })
    (near : m'.depth l.top ≤ l.room) : Flow.blank.Holds l listing.levels a outer size m' := by
  have half := sound.room
  have entered' : a.Entered l listing.levels m' := by
    rw [eq]
    exact ⟨entered.frame, entered.display, entered.entry, entered.back, entered.saved,
      entered.pointer, entered.kept⟩
  have place : m'.esp = PascalX86.below l.top (a.base l + size) := by
    rw [eq]
    show m.esp - .ofNat 32 size = _
    rw [esp, a.frame_eq l]
    exact below_sub l.top (a.base l) size
  rw [Machine.depth_of_esp place (by omega)] at near
  refine ⟨pending.active derives sound entered', place, near, trivial, ?_, ?_⟩
  · rintro n ⟨⟩
  · rintro n ⟨⟩

/-- Behind a call the caller finds its frame and the operands below the arguments. -/
theorem resumes {φ : Flow} {rest : List Item} {size : Nat} (nests : l.Nests (a :: outer))
    (listed : b.function ∈ p.functions) (locals : a.function.locals.size ≤ size)
    (room : b.base l ≤ l.room)
    (stack : φ.stack = itemsOf b.function.signature.parameters ++ rest)
    (holds : φ.Holds l listing.levels a outer size b.caller.machine)
    (active : b.Active l listing.levels (a :: outer) m) (left : b.Left l listing.levels m m') :
    m'.pop.1 = .ofNat 32 (b.caller.position + 1) ∧ m'.pop.2.esp = b.caller.machine.esp ∧
      Flow.Holds l listing.levels a outer size
        ⟨Item.plains b.function.signature.block ++ rest, .plain, none⟩ m'.pop.2 := by
  have half := sound.room
  have formed := formed derives (List.mem_append_left _ listed)
  have length := formed.sound.length_items
  have length' := formed.sound.length_plains
  have inner : 1 ≤ b.level := derives.one_le_level _ listed
  have depth := depth_eq derives sound listed stack holds
  have base := Environment.Call.base_of_inner l inner
  have limit : b.limit l = a.base l + size + 4 * rest.length := by
    unfold Environment.Call.limit
    omega
  -- What the callee wrote above its own links is data of the callers.
  have kept : ∀ d, 0 < d → d ≤ b.limit l → ¬ l.Data (a :: outer) d →
      m'.bytes (PascalX86.below l.top d) = b.caller.machine.bytes (PascalX86.below l.top d) := by
    intro d pos le other
    rw [left.bytes d pos (by omega), active.kept d pos le other]
  have keeps : a.Keeps l listing.levels outer b.caller.machine m'.pop.2 :=
    ⟨left.frame, left.display.trans holds.active.display.symm, left.entry,
      fun d pos le other => kept d pos (by omega) other⟩
  have back : m'.pop.1 = .ofNat 32 (b.caller.position + 1) := by
    show m'.bytes.dword m'.esp = _
    rw [left.esp, ← active.back inner]
    exact dword_below fun d above le => left.bytes d (by omega) (by omega)
  have esp : m'.pop.2.esp = b.caller.machine.esp := by
    show m'.esp + 4 = _
    rw [left.esp, esp_eq b.caller.machine l.top]
    exact below_add_of_le (k := 4) (by omega)
  unfold dwordSize at length length'
  refine ⟨back, esp, holds.active.keeps nests keeps, ?_, ?_, ?_, ?_, ?_⟩
  · rw [esp, holds.esp, stack, List.length_append, List.length_append]
    congr 1
    omega
  · have fits := holds.fits
    rw [stack, List.length_append] at fits
    rw [List.length_append]
    omega
  · have operands := holds.operands
    rw [stack, Ground.operands_append] at operands
    rw [Ground.operands_append]
    refine ⟨Ground.operands_replicate _, operands.2.congr fun d above le => ?_⟩
    exact kept d (by omega) (by omega) (nests.not_data_below (by omega))
  · rintro n ⟨⟩
  · rintro n ⟨⟩

end Pending

end PascalX86
