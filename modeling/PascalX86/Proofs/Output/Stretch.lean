import PascalX86.Proofs.Activation.Program
import PascalX86.Proofs.Output.Spare

/-!
# Stretches of code

Runs through a piece of the code of the innermost call, with everything that is called on the way. A
function that was called comes back behind its call, so the code is gone through one command after
the other.
-/

set_option autoImplicit false

namespace PascalX86

open Register

namespace Stage

variable {env : Environment} (p : Program) (listing : Listing) (l : Ground)

/-- A step from a position in between, or in something that was called from there. -/
structure Within (calls : List env.Call) (first last : Nat) (s s' : Stage env) : Prop where
  advances : s.Advances p listing l s'
  above : calls <:+ s.calls
  between : s.calls = calls → first ≤ s.process.position ∧ s.process.position < last

def Stays (calls : List env.Call) (first last : Nat) : Stage env → Stage env → Prop :=
  Relation.ReflTransGen (Within p listing l calls first last)

/-- A run through code of the innermost call, from its first command to behind its last one. -/
structure Runs (code : Code) (s s' : Stage env) : Prop where
  has : Code.Has listing.code s.process.position code
  calls : s'.calls = s.calls
  position : s'.process.position = s.process.position + code.length
  stays : Stays p listing l s.calls s.process.position (s.process.position + code.length) s s'

end Stage

variable {env : Environment} {p : Program} {listing : Listing} {l : Ground} {a b : env.Call}
  {calls outer newer : List env.Call} {s s' t u : Stage env} {g : Function} {i j n k d : Nat}
  {x : Command} {code : Code}

namespace Stage

theorem Within.mono (within : Within p listing l calls i j s s') (lower : n ≤ i) (upper : j ≤ k) :
    Within p listing l calls n k s s' := by
  refine ⟨within.advances, within.above, fun same => ?_⟩
  have between := within.between same
  omega

theorem Stays.mono (stays : Stays p listing l calls i j s s') (lower : n ≤ i) (upper : j ≤ k) :
    Stays p listing l calls n k s s' :=
  Relation.ReflTransGen.mono (fun _ _ within => within.mono lower upper) _ _ stays

theorem Stays.reaches (stays : Stays p listing l calls i j s s') : Reaches p listing l s s' :=
  Relation.ReflTransGen.mono (fun _ _ within => within.advances) _ _ stays

/-- Behind the last position of a stretch its caller does nothing more. -/
theorem Stays.eq_of_le (stays : Stays p listing l calls i j s t) (same : s.calls = calls)
    (behind : j ≤ s.process.position) : s = t := by
  rcases Relation.ReflTransGen.cases_head stays with rfl | ⟨s₁, within, -⟩
  · rfl
  · have between := within.between same
    omega

theorem Runs.eq_of_nil (runs : s.Runs p listing l [] t) : s = t :=
  runs.stays.eq_of_le rfl (Nat.le_refl _)

theorem Runs.append {first second : Code} (has : Code.Has listing.code s.process.position (first ++ second))
    (before : s.Runs p listing l first t) (after : t.Runs p listing l second u) :
    s.Runs p listing l (first ++ second) u := by
  obtain ⟨-, calls, place, stays⟩ := before
  obtain ⟨-, calls', place', stays'⟩ := after
  have length : (first ++ second).length = first.length + second.length := List.length_append
  rw [calls] at stays' calls'
  refine ⟨has, calls', by omega, ?_⟩
  exact (stays.mono (Nat.le_refl _) (by omega)).trans (stays'.mono (by omega) (by omega))

theorem after_cases (p : Program) (listing : Listing) (s : Stage env) : s.after p listing = s.calls ∨
    (listing.code[s.process.position]? = some (.instruction .ret []) ∧
      s.after p listing = s.calls.tail) ∨
    ∃ b, s.after p listing = b :: s.calls := by
  unfold after
  split
  · split
    · exact .inr (.inr ⟨_, rfl⟩)
    · exact .inl rfl
  · next found => exact .inr (.inl ⟨found, rfl⟩)
  · exact .inl rfl

theorem Within.deeper (within : Within p listing l calls i j s s') (inside : s.calls = newer ++ b :: calls)
    (n k : Nat) : Within p listing l calls n k s s' := by
  refine ⟨within.advances, within.above, fun same => ?_⟩
  rw [same] at inside
  have length := congrArg List.length inside
  rw [List.length_append, List.length_cons] at length
  omega

/-- What was called has returned once its callers go on. On the way no command of theirs is performed. -/
theorem Stays.returned (stays : Stays p listing l calls i j s t) (inside : s.calls = newer ++ b :: calls)
    (back : t.calls = calls) (n k : Nat) : ∃ u s', Stays p listing l calls n k s u ∧
      u.calls = b :: calls ∧ listing.code[u.process.position]? = some (.instruction .ret []) ∧
      Within p listing l calls n k u s' ∧ s'.calls = calls ∧ Stays p listing l calls i j s' t := by
  induction stays using Relation.ReflTransGen.head_induction_on generalizing newer with
  | refl =>
      rw [back] at inside
      have length := congrArg List.length inside
      rw [List.length_append, List.length_cons] at length
      omega
  | @head s s₁ within rest ih =>
      have first := within.deeper inside n k
      have further {newer : List env.Call} (inside : s₁.calls = newer ++ b :: calls) :
          ∃ u s', Stays p listing l calls n k s u ∧ u.calls = b :: calls ∧
            listing.code[u.process.position]? = some (.instruction .ret []) ∧
            Within p listing l calls n k u s' ∧ s'.calls = calls ∧
            Stays p listing l calls i j s' t := by
        obtain ⟨u, s', before, others⟩ := ih inside
        exact ⟨u, s', .head first before, others⟩
      have after := within.advances.calls
      rcases after_cases p listing s with same | ⟨found, tail⟩ | ⟨c, called⟩
      · exact further (after.trans (same.trans inside))
      · rw [tail, inside] at after
        cases newer with
        | nil => exact ⟨s, s₁, .refl, inside, found, first, after, rest⟩
        | cons c newer => exact further after
      · rw [called, inside] at after
        exact further (show s₁.calls = (c :: newer) ++ b :: calls from after)

end Stage

/-- A function stands in one place. -/
theorem Extent.unique (derives : Checking.Program p) (distinct : (Code.labels listing.code).Nodup)
    (e e' : Extent p listing g) : e.later = e'.later ∧ e.start = e'.start ∧ e.body = e'.body := by
  have entry : g.entry e.later = g.entry e'.later := by
    unfold Function.entry
    rw [if_congr ((e.later_eq_nil_iff derives).trans (e'.later_eq_nil_iff derives).symm) rfl rfl]
  have place := e.target?_entry distinct
  rw [entry, e'.target?_entry distinct, Option.some.injEq] at place
  have finish := e.stop_lt_finish
  have finish' := e'.stop_lt_finish
  unfold stop start at finish finish'
  obtain ⟨-, later, front, body⟩ := Extent.meet distinct e e' ⟨Nat.le_refl _, by omega⟩ ⟨by omega, by omega⟩
  refine ⟨later, ?_, body⟩
  unfold start
  rw [later, front]

theorem Extent.body_le (e : Extent p listing g) : e.start + e.body.length ≤ e.stop := by
  unfold stop code
  rw [List.length_append]
  omega

theorem Stage.after_call (derives : Checking.Program p) {c c' : env.Process} {function : Signature} (spot : Spot p listing g)
    (named : spot.scopes.Names function)
    (found : listing.code[c.position]? = some (.instruction .call [.raw function.label]))
    (next : env.step? listing.code c = some c') (calls : List env.Call) :
    ∃ b, Stage.after p listing ⟨c, calls⟩ = b :: calls ∧ b.caller = c := by
  have nested := Program.nested derives
  obtain ⟨target, -⟩ := Environment.calls_of_step found next
  obtain ⟨h, listed, rfl, -⟩ := nested.around_callee derives spot.split spot.covers named
  refine ⟨⟨h, c'.position, c⟩, ?_, rfl⟩
  unfold after
  rw [found]
  dsimp only
  rw [target, nested.find?_label listed]

section Steps

variable (derives : Checking.Program p) (lowered : p.lower = .ok listing)
  (sound : l.Sound listing.levels) (short : listing.code.length ≤ 2 ^ 32)

include derives lowered sound short

/-- What was called returns behind the call, and it spares the temporaries of its caller. -/
theorem AtWork.comes_back (at_work : AtWork p listing l u.process (b :: a :: outer))
    (found : listing.code[u.process.position]? = some (.instruction .ret []))
    (next : env.step? listing.code u.process = some s'.process) (spot : Spot p listing a.function) :
    s'.process.position = b.caller.position + 1 ∧
      ∀ d, a.Hides l spot.frameSize d →
        s'.process.machine.bytes (below l.top d) = b.caller.machine.bytes (below l.top d) := by
  have distinct := (Program.nested derives).labels_nodup lowered
  have half := sound.room
  cases at_work with
  | @intro _ _ spot' pending entry small near phase =>
      obtain ⟨inner, room, m, active, run⟩ := phase.of_ret found
      obtain ⟨_, _, -, left, position, -⟩ := Phase.returns derives lowered sound pending next short found
        inner room active run
      refine ⟨position, fun d hides => ?_⟩
      cases pending with
      | @call _ _ _ φ rest pending s own listed entry' around stack holds back =>
          obtain ⟨later, -⟩ := Extent.unique derives distinct spot.toExtent s.toExtent
          have size : spot.frameSize = s.frameSize := by
            unfold Spot.frameSize Spot.frames
            rw [later]
          have depth := Pending.depth_eq derives sound listed stack holds
          obtain ⟨lower, upper⟩ := hides
          have le : d ≤ b.limit l := by
            unfold Environment.Call.limit
            omega
          have near' : d ≤ l.room := by
            unfold Environment.Call.limit at le
            unfold Environment.Call.base at room
            omega
          obtain ⟨-, machine⟩ := Environment.returns_of_step found next
          rw [machine]
          show u.process.machine.bytes _ = _
          rw [left.bytes d (by omega) near']
          exact active.kept d (by omega) le ((pending.nests derives sound).not_data_below lower)

omit sound short in
/-- Inside its body a function is at work. -/
theorem Phase.within {spot spot' : Spot p listing a.function} {c : env.Process}
    (phase : Phase l a outer spot' c) (lower : spot.start ≤ c.position)
    (upper : c.position < spot.start + spot.body.length) :
    ∃ φ, spot'.At c.position φ ∧ φ.Holds l listing.levels a outer spot'.frameSize c.machine := by
  have distinct := (Program.nested derives).labels_nodup lowered
  obtain ⟨-, start, body⟩ := Extent.unique derives distinct spot.toExtent spot'.toExtent
  rw [start] at lower upper
  rw [body] at upper
  cases phase with
  | enters split more position =>
      have start' := spot'.start_eq
      have rest := List.length_pos_iff.mpr more
      rw [split, List.length_append] at start'
      omega
  | works here holds => exact ⟨_, here, holds⟩
  | leaves split position =>
      have stop := spot'.body_le
      omega

omit sound short in
theorem AtWork.holds (at_work : AtWork p listing l s.process (a :: outer)) (spot : Spot p listing a.function)
    (lower : spot.start ≤ s.process.position)
    (upper : s.process.position < spot.start + spot.body.length) :
    ∃ φ : Flow, φ.Holds l listing.levels a outer spot.frameSize s.process.machine := by
  have distinct := (Program.nested derives).labels_nodup lowered
  cases at_work with
  | intro spot' pending entry small near phase =>
      obtain ⟨φ, -, holds⟩ := Phase.within derives lowered phase lower upper
      obtain ⟨later, -⟩ := Extent.unique derives distinct spot.toExtent spot'.toExtent
      refine ⟨φ, ?_⟩
      unfold Spot.frameSize Spot.frames at holds ⊢
      rw [later]
      exact holds

variable (behaves : env.Behaves l listing.levels)

include behaves

theorem Stage.Reaches.works (run : Reaches p listing l s s')
    (at_work : AtWork p listing l s.process s.calls) : AtWork p listing l s'.process s'.calls := by
  induction run with
  | refl => exact at_work
  | tail _ advances ih => exact advances.at_work derives lowered sound short behaves ih

/-- A command of a body, with all of what it calls. -/
theorem Stage.Stays.next (stays : Stays p listing l calls i j s t)
    (at_work : AtWork p listing l s.process s.calls) (own : calls = a :: outer) (same : s.calls = calls)
    (back : t.calls = calls) (moves : s.process.position ≠ t.process.position)
    (spot : Spot p listing a.function) (lower : spot.start ≤ s.process.position)
    (upper : s.process.position < spot.start + spot.body.length)
    (found : listing.code[s.process.position]? = some x) (plain : x.isMark = false) :
    ∃ s', Stays p listing l calls s.process.position (s.process.position + 1) s s' ∧
      Stays p listing l calls i j s' t ∧ s'.calls = calls ∧
      s'.process.position = s.process.position + 1 ∧
      (∀ d, a.Hides l spot.frameSize d → ¬ a.Names l x d →
        s'.process.machine.bytes (below l.top d) = s.process.machine.bytes (below l.top d)) ∧
      (x.isStraight = true → env.step? listing.code s.process = some s'.process) := by
  have nested := Program.nested derives
  have distinct := nested.labels_nodup lowered
  rcases Relation.ReflTransGen.cases_head stays with rfl | ⟨s₁, within, rest⟩
  · exact absurd rfl moves
  have step : Within p listing l calls s.process.position (s.process.position + 1) s s₁ :=
    ⟨within.advances, within.above, fun _ => ⟨Nat.le_refl _, Nat.lt_succ_self _⟩⟩
  have at_work' := within.advances.at_work derives lowered sound short behaves at_work
  obtain ⟨next, after, fits, -⟩ := within.advances
  obtain ⟨c, _⟩ := s
  dsimp only at *
  subst same own
  cases at_work with
  | @intro _ _ spot' pending entry small near phase =>
      obtain ⟨φ, here, holds⟩ := Phase.within derives lowered phase lower upper
      obtain ⟨later, start, body⟩ := Extent.unique derives distinct spot.toExtent spot'.toExtent
      have size : spot'.frameSize = spot.frameSize := by
        unfold Spot.frameSize Spot.frames
        rw [later]
      rcases here.command with ⟨stop, -⟩ | ⟨x', φ₀, φ', ranges, found', -, narrows, flows, -, -⟩
      · have within := spot'.body_le
        rw [start, body] at upper
        omega
      rw [found, Option.some.injEq] at found'
      subst found'
      cases x with
      | label name => cases plain
      | instruction op operands =>
          by_cases call : op = .call
          · subst call
            obtain ⟨function, others, rfl, named, stack, rfl⟩ := flows.of_call
            obtain ⟨b, after', caller⟩ := Stage.after_call derives spot' named found next (a :: outer)
            rw [after'] at after
            have deeper : s₁.calls = [] ++ b :: a :: outer := after
            obtain ⟨u, s', before, inside, ret, back', calls, stays'⟩ :=
              Stage.Stays.returned rest deeper back c.position (c.position + 1)
            have at_ret := Stage.Reaches.works derives lowered sound short behaves before.reaches at_work'
            rw [inside] at at_ret
            obtain ⟨position, spares⟩ :=
              at_ret.comes_back derives lowered sound short ret back'.advances.next spot
            rw [caller] at position spares
            refine ⟨s', .head step (before.tail back'), stays', calls, position,
              fun d hides _ => spares d hides, fun straight => ?_⟩
            cases straight
          · have ret := flows.ne_ret
            rw [after_of_ne found call ret] at after
            obtain ⟨does, position⟩ := Environment.does_of_step found plain ⟨call, ret⟩ next
            have nests := pending.nests derives sound
            have sees := pending.sees derives spot'
            refine ⟨s₁, .single step, rest, after, position, fun d hides unnamed => ?_,
              fun _ => next⟩
            rw [← size] at hides
            exact (holds.narrows narrows).spares sound nests sees behaves hides flows plain call does
              fits.depth unnamed

omit derives lowered sound short behaves in
theorem Stage.Runs.cons (has : Code.Has listing.code s.process.position (x :: code))
    (step : Stays p listing l s.calls s.process.position (s.process.position + 1) s s')
    (same : s'.calls = s.calls) (position : s'.process.position = s.process.position + 1)
    (rest : s'.Runs p listing l code t) : s.Runs p listing l (x :: code) t := by
  obtain ⟨-, calls, last, stays⟩ := rest
  rw [same] at calls stays
  refine ⟨has, calls, ?_, ?_⟩
  · rw [last, position, List.length_cons]
    omega
  · rw [List.length_cons]
    exact (step.mono (Nat.le_refl _) (by omega)).trans (stays.mono (by omega) (by omega))

/-- Code of a body without labels and jumps is gone through from its first command to its last one. -/
theorem Stage.Stays.stretch (stays : Stays p listing l calls i j s t)
    (at_work : AtWork p listing l s.process s.calls) (own : calls = a :: outer) (same : s.calls = calls)
    (back : t.calls = calls) (spot : Spot p listing a.function) (lower : spot.start ≤ s.process.position)
    (upper : s.process.position + code.length ≤ spot.start + spot.body.length)
    (last : s.process.position + code.length ≤ t.process.position)
    (has : Code.Has listing.code s.process.position code) (plain : ∀ x ∈ code, x.isMark = false) :
    ∃ s', s.Runs p listing l code s' ∧ Stays p listing l calls i j s' t ∧
      ∀ d, a.Hides l spot.frameSize d → (∀ x ∈ code, ¬ a.Names l x d) →
        s'.process.machine.bytes (below l.top d) = s.process.machine.bytes (below l.top d) := by
  induction code generalizing s with
  | nil => exact ⟨s, ⟨has, rfl, rfl, .refl⟩, stays, fun _ _ _ => rfl⟩
  | cons x code ih =>
      rw [List.length_cons] at upper last
      obtain ⟨first, others⟩ := List.forall_mem_cons.mp plain
      obtain ⟨s₁, step, stays₁, same₁, position, spares, -⟩ :=
        stays.next derives lowered sound short behaves at_work own same back (by omega) spot lower
          (by omega) has.head first
      have at_work₁ := step.reaches.works derives lowered sound short behaves at_work
      obtain ⟨s', runs, stays', spares'⟩ := ih stays₁ at_work₁ same₁ (by omega) (by omega) (by omega)
        (position ▸ has.tail) others
      rw [← same] at step same₁
      refine ⟨s', runs.cons has step same₁ position, stays', fun d hides unnamed => ?_⟩
      obtain ⟨here, there⟩ := List.forall_mem_cons.mp unnamed
      rw [spares' d hides there, spares d hides here]

end Steps

end PascalX86
