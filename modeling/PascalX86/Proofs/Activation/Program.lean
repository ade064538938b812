import PascalX86.Proofs.Activation.Stage
import PascalX86.Proofs.Loop.Program

/-!
# Activation records

In every execution a function that returns leaves the frame pointer, the stack pointer and the display
as they were at its call, and while a body is executed the display shows the frames of the last calls
of the functions around it.
-/

set_option autoImplicit false

namespace PascalX86

open Register

variable {env : Environment} {p : Program} {listing : Listing} {l : Ground} {a : env.Call}
  {calls outer : List env.Call} {g : Function} {c c' : env.Process} {start s : Stage env}

/-- The positions in the body of a function, and the one right behind it. -/
def Program.InBody (p : Program) (listing : Listing) (g : Function) (position : Nat) : Prop :=
  ∃ before later entry body, p.bodies = before ++ g :: later ∧
    listing.code.target? (g.entry later) = some entry ∧
    g.bodyCode (g.frames later) (bodyLabels before) = .ok body ∧
    entry + 1 + (g.enter later).length ≤ position ∧
    position ≤ entry + 1 + (g.enter later).length + body.length

section Results

variable (derives : Checking.Program p) (lowered : p.lower = .ok listing)
  (sound : l.Sound listing.levels) (at_work : AtWork p listing l c calls)

/-- Functions return behind the code that leaves them, and nowhere else. -/
theorem Phase.of_ret {spot : Spot p listing a.function} (phase : Phase l a outer spot c)
    (found : listing.code[c.position]? = some (.instruction .ret [])) :
    spot.later ≠ [] ∧ a.base l ≤ l.room ∧ ∃ m : Machine, a.Active l listing.levels outer m ∧
      m.run? (a.function.leave spot.later) = some c.machine := by
  have straight {i : Nat} {part done todo : Code} (has : Code.Has listing.code i part)
      (each : ∀ x ∈ part, x.isStraight = true) (split : part = done ++ todo)
      (position : c.position = i + done.length) : todo = [] := by
    cases todo with
    | nil => rfl
    | cons x todo =>
        have same := has.at split
        rw [← position, found, Option.some.injEq] at same
        have plain := each x (by simp [split])
        rw [← same] at plain
        cases plain
  have left : Code.Has listing.code spot.stop (a.function.leave spot.later) := spot.has_closing.left
  cases phase with
  | enters split more position =>
      have opened : Code.Has listing.code spot.front.length spot.opening := spot.has.left
      exact absurd (straight opened spot.straight_opening split position) more
  | works here =>
      rcases here.command with ⟨stop, -⟩ | ⟨x, φ₀, φ', ranges, found', -, -, flows, -⟩
      · have whole : a.function.leave spot.later = [] ++ a.function.leave spot.later := rfl
        have none := straight left spot.straight_leave whole stop
        unfold Function.leave at none
        dsimp only at none
        split at none <;> cases none
      · rw [found, Option.some.injEq] at found'
        subst found'
        exact absurd rfl flows.ne_ret
  | @leaves done todo m split position room active run =>
      have none := straight left spot.straight_leave split position
      rw [none, List.append_nil] at split
      rw [← split] at position run
      have last := spot.has_closing.right.head
      rw [← position, found, Option.some.injEq] at last
      refine ⟨fun main => ?_, room, m, active, run⟩
      rw [Function.exit, if_pos main] at last
      cases last

theorem Extent.start_eq (s : Extent p listing g) : s.start = s.front.length + s.opening.length := by
  rw [start, opening, List.length_cons]
  omega

theorem Extent.stop_lt_finish (s : Extent p listing g) : s.stop + (g.leave s.later).length < s.finish := by
  rw [finish, closing, List.length_append, List.length_singleton]
  omega

theorem Phase.inside {spot : Spot p listing a.function} (phase : Phase l a outer spot c) :
    spot.front.length ≤ c.position ∧ c.position < spot.finish := by
  have start := spot.start_eq
  have last := spot.stop_lt_finish
  have stop : spot.stop = spot.start + spot.code.length := rfl
  cases phase with
  | enters split more position =>
      rw [split, List.length_append] at start
      omega
  | works here =>
      have upper := here.le_stop
      obtain ⟨first, second, -, -, -, -, position, -⟩ := here
      omega
  | leaves split position =>
      rw [split, List.length_append] at last
      omega

/-- In its body a function has its frame. -/
theorem Phase.active {spot : Spot p listing a.function} (phase : Phase l a outer spot c)
    (lower : spot.start ≤ c.position) (upper : c.position ≤ spot.stop) :
    a.Active l listing.levels outer c.machine := by
  cases phase with
  | enters split more position =>
      have start := spot.start_eq
      have rest := List.length_pos_iff.mpr more
      rw [split, List.length_append] at start
      omega
  | works here holds => exact holds.active
  | @leaves done todo m split position room active run =>
      have none : done = [] := List.length_eq_zero_iff.mp (by omega)
      subst none
      cases run
      exact active

include derives lowered at_work

include sound in
theorem AtWork.returns (short : listing.code.length ≤ 2 ^ 32)
    (found : listing.code[c.position]? = some (.instruction .ret [])) :
    ∃ a b rest c', calls = a :: b :: rest ∧ env.step? listing.code c = some c' ∧
      c'.position = a.caller.position + 1 ∧ c'.machine.ebp = a.caller.machine.ebp ∧
      c'.machine.esp = a.caller.machine.esp ∧
      ∀ n < listing.levels, c'.machine.entry n = a.caller.machine.entry n := by
  have next : env.step? listing.code c = some ⟨c.machine.pop.1.toNat, c.machine.pop.2, c.state⟩ := by
    unfold Environment.step?
    rw [found]
    rfl
  cases at_work with
  | @intro a outer spot pending entry small near phase =>
      obtain ⟨inner, room, m, active, run⟩ := phase.of_ret found
      obtain ⟨b, rest, rfl, left, position, esp, -⟩ := Phase.returns derives lowered sound pending next
        short found inner room active run
      exact ⟨a, b, rest, _, rfl, next, position, left.frame, esp, left.entry⟩

theorem AtWork.displays (inside : p.InBody listing g c.position) :
    ∃ a rest, calls = a :: rest ∧ a.function = g ∧ c.machine.ebp = a.frame ∧
      c.machine.Displays listing.levels calls ∧
      ∀ h, p.Around h g → ∃ b, shown calls h.signature.level = some b ∧ b.function = h := by
  have nested := Program.nested derives
  have distinct := nested.labels_nodup lowered
  obtain ⟨before, later, entry, body, split, target, own, first, last⟩ := inside
  obtain ⟨place, rfl, rfl⟩ := nested.exists_place lowered split
  rw [place.target?_entry distinct, Option.some.injEq] at target
  rw [place.lowered] at own
  cases own
  subst target
  have room : place.stop = place.start + (place.body ++ place.result).length := rfl
  have finish := place.stop_lt_finish
  have start : place.start = place.front.length + 1 + (g.enter place.later).length := rfl
  rw [List.length_append] at room
  cases at_work with
  | @intro a outer spot pending _ small near phase =>
      obtain ⟨rfl, later, front, body⟩ :=
        Extent.meet distinct place spot.toExtent ⟨by omega, by omega⟩ phase.inside
      have active : a.Active l listing.levels outer c.machine := by
        have start' : spot.start = spot.front.length + 1 + (a.function.enter spot.later).length := rfl
        have stop : spot.stop = spot.start + (spot.body ++ spot.result).length := rfl
        rw [← front, ← later] at start'
        rw [List.length_append, ← body] at stop
        exact phase.active (by omega) (by omega)
      exact ⟨a, outer, rfl, rfl, active.frame, pending.displays active,
        fun h around => pending.shown derives around⟩

end Results

/-- In every execution with enough stack, no faults and all indexes in range, a function that returns
leaves the frame pointer, the stack pointer and the display as they were just before its call, and the
caller goes on behind the call. While a body is executed, the display holds its own frame pointer at
its level, and at each level further out that of the last call of the function around it. -/
theorem Source.activations_restored {source : Source} (h : source.program = .ok p)
    (lowered : p.lower = .ok listing) (short : listing.code.length ≤ 2 ^ 32)
    (sound : l.Sound listing.levels) (behaves : env.Behaves l listing.levels)
    (starts : start.Starts p listing l) (run : Stage.Reaches p listing l start s) :
    (listing.code[s.process.position]? = some (.instruction .ret []) →
      ∃ a b rest c', s.calls = a :: b :: rest ∧ env.step? listing.code s.process = some c' ∧
        c'.position = a.caller.position + 1 ∧ c'.machine.ebp = a.caller.machine.ebp ∧
        c'.machine.esp = a.caller.machine.esp ∧
        ∀ n < listing.levels, c'.machine.entry n = a.caller.machine.entry n) ∧
    ∀ g, p.InBody listing g s.process.position →
      ∃ a rest, s.calls = a :: rest ∧ a.function = g ∧ s.process.machine.ebp = a.frame ∧
        s.process.machine.entry g.signature.level = s.process.machine.ebp ∧
        ∀ n < g.signature.level, ∃ h, (∀ k, p.Encloses k g ∧ k.signature.level = n ↔ k = h) ∧
          ∃ newer b older, s.calls = newer ++ b :: older ∧ b.function = h ∧
            (∀ d ∈ newer, d.function ≠ h) ∧ s.process.machine.entry n = b.frame := by
  have derives := Source.derives h
  have nested := Program.nested derives
  have at_work := Stage.Reaches.at_work derives lowered sound short behaves starts run
  refine ⟨at_work.returns derives lowered sound short, fun g inside => ?_⟩
  obtain ⟨a, rest, eq, rfl, frame, displays, shows⟩ := at_work.displays derives lowered inside
  obtain ⟨before, later, -, -, split, -⟩ := inside
  have listed : a.function ∈ p.bodies := by simp [split]
  have level : a.level < listing.levels := by
    rw [Program.levels_of_lower lowered]
    exact Program.level_lt_levels nested.main.1 listed
  rw [eq] at displays shows ⊢
  refine ⟨a, rest, rfl, rfl, frame, (displays a.level level a shown_self).trans frame.symm, ?_⟩
  intro n lt
  obtain ⟨h, around, rfl⟩ := nested.encloses_of_parent split (Nat.le_of_lt lt)
  obtain ⟨b, visible, rfl⟩ := shows h around
  have encloses : p.Encloses b.function a.function := by
    rcases around with same | encloses
    · rw [same] at lt
      exact absurd lt (Nat.lt_irrefl _)
    · exact encloses
  have entry := displays _ (Nat.lt_trans lt level) b visible
  obtain ⟨-, newer, older, parts, other⟩ := List.find?_eq_some_iff_append.mp visible
  refine ⟨b.function, fun k => ⟨?_, ?_⟩, newer, b, older, parts, rfl, ?_, entry⟩
  · rintro ⟨further, same⟩
    exact nested.encloses_unique further encloses same
  · rintro rfl
    exact ⟨encloses, rfl⟩
  · intro d mem same
    have differs := other d mem
    simp [Environment.Call.level, same] at differs

/-- So many steps, as long as the stack is large enough. -/
def Stage.run? (p : Program) (listing : Listing) (l : Ground) : Nat → Stage env → Option (Stage env)
  | 0, s => some s
  | steps + 1, s =>
      match env.step? listing.code s.process with
      | none => none
      | some c =>
          if c.machine.depth l.top ≤ l.room then run? p listing l steps ⟨c, s.after p listing⟩ else none

/-- Frames that all fit, in a program without dynamic indexes. -/
structure Program.Small (p : Program) (listing : Listing) (l : Ground) : Prop where
  frames : EachBefore (fun g later => g.frameSize (g.frames later) ≤ l.room) p.bodies
  plain : .indexing ∉ listing.code

theorem Program.Small.fits (small : p.Small listing l) (depth : s.process.machine.depth l.top ≤ l.room) :
    s.Fits p l :=
  ⟨depth, fun _ _ _ _ split => (split ▸ small.frames).at⟩

theorem Program.Small.advances (small : p.Small listing l) {steps : Nat}
    (run : start.run? p listing l (steps + 1) = some s) :
    ∃ s', start.Advances p listing l s' ∧ s'.run? p listing l steps = some s := by
  unfold Stage.run? at run
  split at run
  · cases run
  · next c next =>
    split at run
    · next depth =>
      refine ⟨_, ⟨next, rfl, small.fits depth, fun index => ?_⟩, run⟩
      exact absurd (List.mem_of_getElem? index) small.plain
    · cases run

theorem Program.Small.reaches (small : p.Small listing l) {steps : Nat}
    (run : start.run? p listing l steps = some s) : Stage.Reaches p listing l start s := by
  induction steps generalizing start with
  | zero =>
      cases run
      exact .refl
  | succ steps ih =>
      obtain ⟨s', advances, rest⟩ := small.advances run
      exact .head advances (ih rest)

/-- Where the first function is listed, with the sizes of the code that enters it and of its body. -/
def Program.firstBody? (p : Program) (listing : Listing) : Option (Nat × Nat × Nat) :=
  match p.bodies with
  | [] => none
  | g :: later => do
      let body ← (g.bodyCode (g.frames later) 0).toOption
      return (← listing.code.target? (g.entry later), (g.enter later).length, body.length)

theorem Program.inBody_of_firstBody? {entry size length position : Nat}
    (known : p.firstBody? listing = some (entry, size, length)) (first : entry + 1 + size ≤ position)
    (last : position ≤ entry + 1 + size + length) : ∃ g, p.InBody listing g position := by
  unfold firstBody? at known
  split at known
  · cases known
  · next g later split =>
    simp only [bind, Option.bind_eq_some_iff] at known
    obtain ⟨body, lowered, _, target, eq⟩ := known
    cases eq
    exact ⟨g, [], later, _, body, split, target, toOption_eq_some.mp lowered, first, last⟩

def Source.mutual : Source := ⟨"input.pas", [
  "var n: integer;",
  "procedure outer;",
  "procedure inner; begin if n = 0 then begin n := 1; outer end end;",
  "begin inner end;",
  "begin n := 0; outer end."], .endOfFile⟩

def smallGround : Ground := ⟨4096, 1024, 8192⟩

def Stage.initial (p : Program) (position : Nat) : Stage .still :=
  let c : Environment.still.Process := ⟨position, ⟨0, 0, 0, 0, 0, 0, 4096, none, fun _ => 0, 8192⟩, ()⟩
  ⟨c, [⟨p.main, position, c⟩]⟩

def Stage.summary (s : Stage env) : Nat × Nat := (s.process.position, s.calls.length)

-- After 64 steps the inner function is at work for the second time, after 73 the outer one returns.
theorem Source.mutual_runs : Source.mutual.program.toOption.map (fun p => p.lower.toOption.map fun l =>
    decide (l.levels = 3 ∧ l.code.length = 51 ∧ l.code.target? startLabel = some 40 ∧
      (.indexing ∉ l.code ∧
        EachBefore (fun g later => g.frameSize (g.frames later) ≤ 1024) p.bodies) ∧
      p.firstBody? l = some (0, 5, 19) ∧ l.code[39]? = some (.instruction .ret []) ∧
      ((Stage.initial p 40).run? p l smallGround 64).map Stage.summary = some (23, 5) ∧
      ((Stage.initial p 40).run? p l smallGround 73).map Stage.summary = some (39, 4))) =
    some (some true) := by
  decide +kernel

theorem Source.mutual_activations_restored : ∃ p listing, Source.mutual.program = .ok p ∧
    p.lower = .ok listing ∧
    (∃ (s : Stage .still) (g : Function), p.InBody listing g s.process.position ∧ s.calls.length = 5 ∧
      ∃ a rest, s.calls = a :: rest ∧ a.function = g ∧ s.process.machine.ebp = a.frame ∧
        s.process.machine.entry g.signature.level = s.process.machine.ebp ∧
        ∀ n < g.signature.level, ∃ h, (∀ k, p.Encloses k g ∧ k.signature.level = n ↔ k = h) ∧
          ∃ newer b older, s.calls = newer ++ b :: older ∧ b.function = h ∧
            (∀ d ∈ newer, d.function ≠ h) ∧ s.process.machine.entry n = b.frame) ∧
    ∃ (s : Stage .still) (a b : Environment.still.Call) (rest : List Environment.still.Call)
      (c' : Environment.still.Process), s.calls.length = 4 ∧ s.calls = a :: b :: rest ∧
      Environment.still.step? listing.code s.process = some c' ∧
      c'.position = a.caller.position + 1 ∧ c'.machine.ebp = a.caller.machine.ebp ∧
      c'.machine.esp = a.caller.machine.esp ∧
      ∀ n < listing.levels, c'.machine.entry n = a.caller.machine.entry n := by
  obtain ⟨p, accepted, known⟩ := exists_of_map_toOption Source.mutual_runs
  obtain ⟨listing, lowered, known⟩ := exists_of_map_toOption known
  obtain ⟨levels, length, target, ⟨plain, frames⟩, body, ret, inner, outer⟩ := of_decide_eq_true known
  obtain ⟨s, run, at_inner⟩ := Option.map_eq_some_iff.mp inner
  obtain ⟨s', run', at_outer⟩ := Option.map_eq_some_iff.mp outer
  have small : p.Small listing smallGround := ⟨frames, plain⟩
  have sound : smallGround.Sound listing.levels := by
    rw [levels]
    refine ⟨by decide, fun d pos le => ?_⟩
    unfold smallGround at le ⊢
    unfold dwordSize below
    dsimp only at le ⊢
    bv_omega
  have behaves : Environment.still.Behaves smallGround listing.levels := by
    constructor
    · intro op operands m m' s s' _ performed
      cases performed
    · intro op operands m m' s s' _ performed
      cases performed
  have top : (4096 - 4096 : Word).toNat ≤ 1024 := by decide
  have starts : (Stage.initial p 40).Starts p listing smallGround :=
    ⟨target, rfl, rfl, rfl, small.fits top⟩
  have short : listing.code.length ≤ 2 ^ 32 := by rw [length]; decide
  obtain ⟨-, displays⟩ :=
    Source.activations_restored accepted lowered short sound behaves starts (small.reaches run)
  obtain ⟨returns, -⟩ :=
    Source.activations_restored accepted lowered short sound behaves starts (small.reaches run')
  obtain ⟨position, five⟩ := Prod.mk.inj at_inner
  obtain ⟨position', four⟩ := Prod.mk.inj at_outer
  obtain ⟨g, inside⟩ : ∃ g, p.InBody listing g 23 :=
    Program.inBody_of_firstBody? body (by decide) (by decide)
  rw [← position] at inside
  rw [← position'] at ret
  obtain ⟨a, b, rest, c', returned⟩ := returns ret
  exact ⟨p, listing, accepted, lowered, ⟨s, g, inside, five, displays g inside⟩,
    s', a, b, rest, c', four, returned⟩

end PascalX86
