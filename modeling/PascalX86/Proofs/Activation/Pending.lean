import PascalX86.Proofs.Activation.Rule

/-!
# Pending calls

Each call was made from a body that goes on behind it, and whatever is around the callee was around
that body too. So the display shows a call of every function around the innermost one, and the last
one of each.
-/

set_option autoImplicit false

namespace PascalX86

open Register

variable {env : Environment} {p : Program} {listing : Listing} {l : Ground} {a b : env.Call}
  {calls outer : List env.Call} {g : Function} {before later : List Function} {n : Nat}

namespace Spot

variable (s : Spot p listing g)

def frames : Frames := g.frames s.later

def frameSize : Nat := g.frameSize s.frames

end Spot

/-- Calls that have not returned, the innermost first. The body that made a call knew the operands
below the arguments, and it still knows them behind the call. -/
inductive Pending (p : Program) (listing : Listing) (l : Ground) : List env.Call → Prop where
  | main {c : env.Process} (start : listing.code.target? startLabel = some c.position)
      (esp : c.machine.esp = l.top) (display : c.machine.display = l.display) :
      Pending p listing l [⟨p.main, c.position, c⟩]
  | call {a b : env.Call} {outer : List env.Call} {φ : Flow} {rest : List Item}
      (pending : Pending p listing l (a :: outer)) (s : Spot p listing a.function)
      (own : a.entry = s.front.length) (listed : b.function ∈ p.functions)
      (entry : listing.code.target? b.function.signature.label = some b.entry)
      (around : ∀ h, p.Encloses h b.function → p.Around h a.function)
      (stack : φ.stack = itemsOf b.function.signature.parameters ++ rest)
      (holds : φ.Holds l listing.levels a outer s.frameSize b.caller.machine)
      (back : s.At (b.caller.position + 1) ⟨Item.plains b.function.signature.block ++ rest, .plain, none⟩) :
      Pending p listing l (b :: a :: outer)

namespace Program.Nested

theorem encloses_of_parent (nested : p.Nested) (split : p.bodies = before ++ g :: later)
    (le : n ≤ g.signature.level) : ∃ h, p.Around h g ∧ h.signature.level = n := by
  generalize deep : g.signature.level - n = k
  induction k generalizing g before later with
  | zero => exact ⟨g, .inl rfl, by omega⟩
  | succ k ih =>
      obtain ⟨parent, head⟩ := nested.exists_enclosing split (by omega)
      obtain ⟨innermost, level⟩ := nested.parent split head
      have listed : parent ∈ p.bodies :=
        innermost.encloses.complete.subset (List.mem_cons_of_mem _ List.mem_cons_self)
      obtain ⟨before', later', split'⟩ := List.append_of_mem listed
      obtain ⟨h, around, same⟩ := ih split' (by omega) (by omega)
      refine ⟨h, .inr ?_, same⟩
      rcases around with rfl | around
      · exact innermost.encloses
      · exact nested.encloses_trans around innermost.encloses

end Program.Nested

namespace Pending

variable (derives : Checking.Program p)

theorem listed (pending : Pending p listing l (a :: outer)) : a.function ∈ p.bodies := by
  unfold Program.bodies
  cases pending with
  | main => simp
  | call _ _ _ listed => exact List.mem_append_left _ listed

include derives

/-- A body lies below the stack that the call left, and the arguments belong to it. -/
theorem depth_eq {φ : Flow} {rest : List Item} {size : Nat} {levels : Nat} (sound : l.Sound levels)
    (listed : b.function ∈ p.functions)
    (stack : φ.stack = itemsOf b.function.signature.parameters ++ rest)
    (holds : φ.Holds l levels a outer size b.caller.machine) :
    b.depth l = a.base l + size + 4 * rest.length + b.function.signature.block := by
  obtain ⟨σ, completes⟩ := (Program.nested derives).completes _ (List.mem_append_left _ listed)
  obtain ⟨formed, -⟩ := completes
  have length := formed.sound.length_items
  have fits := holds.fits
  have room := sound.room
  have depth := Machine.depth_of_esp holds.esp (by omega)
  unfold dwordSize at length
  rw [stack, List.length_append] at depth
  unfold Environment.Call.depth
  omega

theorem nests (sound : l.Sound listing.levels) (pending : Pending p listing l calls) : l.Nests calls := by
  have nested := Program.nested derives
  induction pending with
  | @main c start esp =>
      obtain ⟨σ, completes⟩ := nested.completes p.main (by simp [Program.bodies])
      refine ⟨?_, List.pairwise_singleton _ _⟩
      rw [List.forall_mem_singleton]
      refine ⟨completes.tabled, ?_, fun _ => nested.main.2⟩
      show p.main.signature.block ≤ _
      rw [nested.main.2]
      exact Nat.zero_le _
  | @call a b outer φ rest pending s own listed entry around stack holds back ih =>
      obtain ⟨σ, completes⟩ := nested.completes _ (List.mem_append_left _ listed)
      have depth := depth_eq derives sound listed stack holds
      have inner : 1 ≤ b.level := derives.one_le_level _ listed
      refine ⟨?_, ?_⟩
      · rw [List.forall_mem_cons]
        exact ⟨⟨completes.tabled, by omega, by omega⟩, ih.proper⟩
      · rw [List.pairwise_cons]
        refine ⟨fun c mem => ?_, ih.ordered⟩
        have above := ih.fits mem
        have locals := a.function.locals_le_frameSize s.frames
        unfold Environment.Call.limit Spot.frameSize at *
        omega

/-- The display shows the last call of each function around. -/
theorem shown (pending : Pending p listing l (a :: outer)) {h : Function} (around : p.Around h a.function) :
    ∃ b, PascalX86.shown (a :: outer) h.signature.level = some b ∧ b.function = h := by
  have nested := Program.nested derives
  generalize whole : a :: outer = calls at pending
  induction pending generalizing a outer with
  | main =>
      obtain ⟨rfl, rfl⟩ := List.cons_eq_cons.mp whole
      rcases around with rfl | around
      · exact ⟨_, shown_self, rfl⟩
      · have split : p.bodies = p.functions ++ p.main :: [] := rfl
        have headed := (mem_of_mem_enclosing (nested.mem_enclosing split around)).2
        rw [nested.main.1] at headed
        cases headed
  | @call a' b outer' φ rest pending s own listed entry around' stack holds back ih =>
      obtain ⟨rfl, rfl⟩ := List.cons_eq_cons.mp whole
      rcases around with rfl | around
      · exact ⟨_, shown_self, rfl⟩
      · obtain ⟨before, later, split⟩ := List.append_of_mem (around.complete.subset List.mem_cons_self)
        have outside := (mem_of_mem_enclosing (nested.mem_enclosing split around)).2
        obtain ⟨c, visible, same⟩ := ih (around' h around) rfl
        exact ⟨c, (shown_cons (Nat.ne_of_gt outside)).trans visible, same⟩

theorem sees (pending : Pending p listing l (a :: outer)) (s : Spot p listing a.function) :
    a.Sees outer s.frames s.scopes := by
  have nested := Program.nested derives
  refine ⟨rfl, fun n le => ?_, fun symbol slot named found => ?_⟩
  · obtain ⟨h, around, level⟩ := nested.encloses_of_parent s.split le
    obtain ⟨b, visible, -⟩ := shown derives pending around
    exact ⟨b, level ▸ visible⟩
  · obtain ⟨h, mem, level, owns⟩ := s.stands.owned symbol slot named found
    obtain ⟨b, visible, rfl⟩ := shown derives pending ((nested.around_iff s.split h).mpr mem)
    refine ⟨b, level ▸ visible, owns, fun r => ?_⟩
    exact (owns.places (s.stands.tabled _ mem) found (level ▸ Function.blocks_frames_of_mem mem)).mp

omit derives in
/-- What the display holds while a function is at work. -/
theorem displays (pending : Pending p listing l (a :: outer)) {m : Machine}
    (active : a.Active l listing.levels outer m) : m.Displays listing.levels (a :: outer) := by
  generalize whole : a :: outer = calls at pending
  induction pending generalizing a outer m with
  | main =>
      obtain ⟨rfl, rfl⟩ := List.cons_eq_cons.mp whole
      intro n lt b visible
      obtain ⟨mem, level⟩ := shown_mem visible
      rw [List.mem_singleton] at mem
      subst mem
      rw [active.entry n lt, if_pos level.symm]
  | @call a' b outer' φ rest pending s own listed entry around' stack holds back ih =>
      obtain ⟨rfl, rfl⟩ := List.cons_eq_cons.mp whole
      intro n lt c visible
      rw [active.entry n lt]
      by_cases same : n = a.level
      · rw [same, shown_self, Option.some.injEq] at visible
        rw [if_pos same, visible]
      · rw [shown_cons (Ne.symm same)] at visible
        rw [if_neg same]
        exact ih holds.active rfl n lt c visible

end Pending

end PascalX86
