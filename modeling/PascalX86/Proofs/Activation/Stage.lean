import PascalX86.Proofs.Activation.Caller

/-!
# Runs with calls

Processes together with the calls that have not returned. Each step keeps what is known of them, as
long as the stack is large enough and indexes are in range.
-/

set_option autoImplicit false

namespace PascalX86

open Register

/-- A process and the calls that have not returned, the innermost first. -/
structure Stage (env : Environment) where
  process : env.Process
  calls : List env.Call

namespace Stage

variable {env : Environment} (p : Program) (listing : Listing) (l : Ground) (s : Stage env)

/-- The calls after the next command. -/
def after : List env.Call :=
  match listing.code[s.process.position]? with
  | some (.instruction .call [.raw name]) =>
      match p.functions.find? (fun g => g.signature.label = name), listing.code.target? name with
      | some g, some entry => ⟨g, entry, s.process⟩ :: s.calls
      | _, _ => s.calls
  | some (.instruction .ret []) => s.calls.tail
  | _ => s.calls

/-- The stack is not exhausted, and has room for the frame of each function that was called. -/
structure Fits : Prop where
  depth : s.process.machine.depth l.top ≤ l.room
  frames : ∀ a ∈ s.calls, ∀ before later, p.bodies = before ++ a.function :: later →
    a.function.frameSize (a.function.frames later) ≤ l.room

/-- An index that is added to an address next is within its bounds. -/
def Indexes : Prop :=
  listing.code[s.process.position]? = some .indexing → ∀ a ∈ s.calls.head?, ∀ r : Range,
    a.function.body.ranges[((listing.code.take s.process.position).drop a.entry).countP
      (· = .indexing)]? = some r → r.Admits s.process.machine.ebx

structure Starts : Prop where
  position : listing.code.target? startLabel = some s.process.position
  esp : s.process.machine.esp = l.top
  display : s.process.machine.display = l.display
  calls : s.calls = [⟨p.main, s.process.position, s.process⟩]
  fits : s.Fits p l

structure Advances (s s' : Stage env) : Prop where
  next : env.step? listing.code s.process = some s'.process
  calls : s'.calls = s.after p listing
  fits : s'.Fits p l
  indexes : s.Indexes listing

/-- An execution, with enough stack and with all indexes in range. -/
def Reaches : Stage env → Stage env → Prop := Relation.ReflTransGen (Advances p listing l)

end Stage

variable {env : Environment} {p : Program} {listing : Listing} {l : Ground} {a : env.Call}
  {calls outer : List env.Call} {g : Function} {later : List Function} {c c' : env.Process}
  {code : Code} {i : Nat}

/-- Commands that the machine performs one after the other. -/
def Command.isStraight : Command → Bool
  | .label _ => true
  | .instruction op _ => !op.isJump && op != .call && op != .ret && !op.isOutside

theorem Code.Has.at {part done todo : Code} {x : Command} (has : Code.Has code i part)
    (split : part = done ++ x :: todo) : code[i + done.length]? = some x := by
  rw [split] at has
  exact has.right.head

theorem Environment.run_step {part done todo : Code} {x : Command} {m : Machine}
    (has : Code.Has code i part) (split : part = done ++ x :: todo) (straight : x.isStraight = true)
    (position : c.position = i + done.length) (run : m.run? done = some c.machine)
    (next : env.step? code c = some c') : code[c.position]? = some x ∧
      c'.position = i + (done ++ [x]).length ∧ m.run? (done ++ [x]) = some c'.machine := by
  have found : code[c.position]? = some x := position ▸ has.at split
  refine ⟨found, ?_⟩
  rw [Machine.run?_append_of_eq run, List.length_append, List.length_singleton, ← Nat.add_assoc,
    ← position]
  cases x with
  | label name =>
      unfold step? at next
      rw [found] at next
      cases next
      exact ⟨rfl, rfl⟩
  | instruction op operands =>
      simp only [Command.isStraight, Bool.and_eq_true, Bool.not_eq_true', bne_iff_ne] at straight
      obtain ⟨⟨⟨jumps, call⟩, ret⟩, inside⟩ := straight
      obtain ⟨does, position⟩ := does_of_step found jumps ⟨call, ret⟩ next
      refine ⟨position, ?_⟩
      show (c.machine.instruction? op operands).bind _ = _
      rw [does.executed inside]
      rfl

theorem Stage.after_of_ne {op : Opcode} {operands : List Operand}
    (found : listing.code[c.position]? = some (.instruction op operands)) (call : op ≠ .call)
    (ret : op ≠ .ret) : Stage.after p listing ⟨c, calls⟩ = calls := by
  unfold after
  rw [found]
  split
  · next same =>
    cases same
    exact absurd rfl call
  · next same =>
    cases same
    exact absurd rfl ret
  · rfl

theorem Stage.after_straight {x : Command} (found : listing.code[c.position]? = some x)
    (straight : x.isStraight = true) : Stage.after p listing ⟨c, calls⟩ = calls := by
  cases x with
  | label name =>
      unfold after
      rw [found]
  | instruction op operands =>
      simp only [Command.isStraight, Bool.and_eq_true, bne_iff_ne] at straight
      exact after_of_ne found straight.1.1.2 straight.1.2

namespace Extent

variable (s : Extent p listing g)

theorem straight_opening : ∀ x ∈ s.opening, x.isStraight = true := by
  unfold opening Function.enter
  dsimp only
  split <;> simp [Command.isStraight, Opcode.isJump, Opcode.isOutside, Opcode.isDouble]

theorem straight_leave : ∀ x ∈ g.leave s.later, x.isStraight = true := by
  unfold Function.leave
  dsimp only
  split <;> simp [Command.isStraight, Opcode.isJump, Opcode.isOutside, Opcode.isDouble]

theorem stop_lt : s.stop < listing.code.length := by
  have last := s.has_closing.right.head
  obtain ⟨lt, -⟩ := List.getElem?_eq_some_iff.mp last
  omega

/-- Only the main program is listed last, and only it lies at level zero. -/
theorem later_eq_nil_iff (derives : Checking.Program p) : s.later = [] ↔ g.signature.level = 0 := by
  have split : p.functions ++ [p.main] = s.before ++ g :: s.later := s.split
  rcases List.eq_nil_or_concat s.later with none | ⟨rest, x, last⟩
  · rw [none] at split
    have same := (List.append_inj' split rfl).2
    rw [List.singleton_inj] at same
    rw [none, ← same]
    exact iff_of_true rfl (Program.nested derives).main.1
  · rw [last, List.concat_eq_append, ← List.cons_append, ← List.append_assoc] at split
    have functions := (List.append_inj' split rfl).1
    have inner := derives.one_le_level g (by simp [functions])
    rw [last]
    exact iff_of_false (by simp) (by omega)

end Extent

theorem Spot.At.le_stop {s : Spot p listing g} {φ : Flow} (here : s.At i φ) : i ≤ s.stop := by
  obtain ⟨first, second, -, -, -, parts, rfl, -⟩ := here
  rw [Extent.stop, parts, List.length_append]
  omega

/-- How far a process has come in the code of the innermost call. -/
inductive Phase (l : Ground) (a : env.Call) (outer : List env.Call) (s : Spot p listing a.function)
    (c : env.Process) : Prop where
  | enters {done todo : Code} (split : s.opening = done ++ todo) (more : todo ≠ [])
      (position : c.position = s.front.length + done.length)
      (run : a.entered.run? done = some c.machine)
  | works {φ : Flow} (here : s.At c.position φ)
      (holds : φ.Holds l listing.levels a outer s.frameSize c.machine)
  | leaves {done todo : Code} {m : Machine} (split : a.function.leave s.later = done ++ todo)
      (position : c.position = s.stop + done.length) (room : a.base l ≤ l.room)
      (active : a.Active l listing.levels outer m) (run : m.run? done = some c.machine)

/-- What is known at each stage of a run. -/
inductive AtWork (p : Program) (listing : Listing) (l : Ground) (c : env.Process) :
    List env.Call → Prop where
  | intro {a : env.Call} {outer : List env.Call} (spot : Spot p listing a.function)
      (pending : Pending p listing l (a :: outer)) (entry : a.entry = spot.front.length)
      (small : spot.frameSize ≤ l.room) (near : c.machine.depth l.top ≤ l.room)
      (phase : Phase l a outer spot c) : AtWork p listing l c (a :: outer)

theorem Program.Nested.find?_label (nested : p.Nested) (listed : g ∈ p.functions) :
    p.functions.find? (fun h => h.signature.label = g.signature.label) = some g := by
  cases found : p.functions.find? (fun h => h.signature.label = g.signature.label) with
  | none => simpa using List.find?_eq_none.mp found g listed
  | some h =>
      have same : h.signature.label = g.signature.label := by simpa using List.find?_some found
      rw [(nested.names listed).only h (List.mem_of_find?_eq_some found) same]

section Steps

variable {spot : Spot p listing a.function} (derives : Checking.Program p)
  (lowered : p.lower = .ok listing) (sound : l.Sound listing.levels)
  (pending : Pending p listing l (a :: outer))
  (near : c.machine.depth l.top ≤ l.room) (near' : c'.machine.depth l.top ≤ l.room)
  (next : env.step? listing.code c = some c')

include sound pending in
theorem Pending.depth_le : a.depth l ≤ l.room := by
  have half := sound.room
  cases pending with
  | main _ esp =>
      have zero := Machine.depth_of_esp (n := 0) (show _ = PascalX86.below l.top 0 by
        rw [esp]
        exact (BitVec.sub_zero _).symm) (by decide)
      exact (Nat.le_of_eq zero).trans (Nat.zero_le _)
  | call _ _ _ _ _ _ _ holds =>
      have fits := holds.fits
      exact (Nat.le_of_eq (Machine.depth_of_esp holds.esp (by omega))).trans fits

theorem Spot.level_lt (spot : Spot p listing g) (lowered : p.lower = .ok listing) :
    g.signature.level < listing.levels := by
  rw [Program.levels_of_lower lowered]
  exact spot.stands.level

include derives lowered sound pending next

include near near' in
theorem Phase.enters_step (entry : a.entry = spot.front.length) (small : spot.frameSize ≤ l.room)
    {done todo : Code} (split : spot.opening = done ++ todo) (more : todo ≠ [])
    (position : c.position = spot.front.length + done.length)
    (run : a.entered.run? done = some c.machine) :
    AtWork p listing l c' (Stage.after p listing ⟨c, a :: outer⟩) := by
  cases todo with
  | nil => exact absurd rfl more
  | cons x todo =>
      have straight := spot.straight_opening x (by simp [split])
      have has : Code.Has listing.code spot.front.length spot.opening := spot.has.left
      obtain ⟨found, position', run'⟩ := Environment.run_step has split straight position run next
      rw [Stage.after_straight found straight]
      refine .intro spot pending entry small near' ?_
      cases todo with
      | cons y todo => exact .enters (by simpa using split) (List.cons_ne_nil _ _) position' run'
      | nil =>
          -- The last command makes room for the frame.
          have parts := split.symm.trans (Function.enter_eq a.function spot.later)
          obtain ⟨rfl, last⟩ := List.append_inj' parts rfl
          rw [List.singleton_inj] at last
          subst last
          have half := sound.room
          have outermost := spot.later_eq_nil_iff derives
          have esp := Environment.Call.esp_saves outermost run
          have deep := pending.depth_le sound
          have link : a.link ≤ 12 := by
            rcases a.link_cases with ⟨-, link⟩ | ⟨-, link⟩ <;> omega
          have base : a.base l ≤ l.room := by
            rw [a.frame_eq l] at esp
            rw [Machine.depth_of_esp esp] at near
            · exact near
            · unfold Environment.Call.base
              omega
          have entered := Environment.Call.enters sound (spot.level_lt lowered) base pending.display
            outermost run
          rw [Machine.run?_append_of_eq run] at run'
          have holds := pending.begins derives sound entered esp base small
            (Option.some.inj run').symm near'
          have start : c'.position = spot.start := by
            rw [position', ← Function.enter_eq, List.length_cons, Extent.start]
            omega
          exact .works (start ▸ spot.at_start) holds

/-- Behind a call, its caller goes on. -/
theorem Phase.returns (short : listing.code.length ≤ 2 ^ 32) {m : Machine}
    (found : listing.code[c.position]? = some (.instruction .ret [])) (inner : spot.later ≠ [])
    (room : a.base l ≤ l.room) (active : a.Active l listing.levels outer m)
    (run : m.run? (a.function.leave spot.later) = some c.machine) :
    ∃ b rest, outer = b :: rest ∧ a.Left l listing.levels m c.machine ∧
      c'.position = a.caller.position + 1 ∧ c'.machine.esp = a.caller.machine.esp ∧
      ∃ s : Spot p listing b.function, Pending p listing l (b :: rest) ∧ b.entry = s.front.length ∧
        Phase l b rest s c' := by
  have level := spot.level_lt lowered
  have deep : 0 < a.level :=
    Nat.pos_of_ne_zero fun zero => inner ((spot.later_eq_nil_iff derives).mpr zero)
  have left := active.leaves sound level deep room inner run
  obtain ⟨position, machine⟩ := Environment.returns_of_step found next
  cases pending with
  | main => exact absurd (Program.nested derives).main.1 (Nat.ne_of_gt deep)
  | @call b _ rest φ items pending s own listed entry around stack holds back =>
      obtain ⟨word, esp, holds'⟩ := Pending.resumes derives sound (pending.nests derives sound) listed
        (b.function.locals_le_frameSize s.frames) room stack holds active left
      have place : c'.position = a.caller.position + 1 := by
        have before := back.le_stop
        have last := s.stop_lt
        rw [position, word, BitVec.toNat_ofNat]
        exact Nat.mod_eq_of_lt (by omega)
      rw [← machine] at esp holds'
      exact ⟨b, rest, rfl, left, place, esp, s, pending, own, .works (place ▸ back) holds'⟩

include near' in
theorem Phase.leaves_step (short : listing.code.length ≤ 2 ^ 32)
    (fits : Stage.Fits p l ⟨c', Stage.after p listing ⟨c, a :: outer⟩⟩) (entry : a.entry = spot.front.length)
    (small : spot.frameSize ≤ l.room) {done todo : Code} {m : Machine}
    (split : a.function.leave spot.later = done ++ todo) (position : c.position = spot.stop + done.length)
    (room : a.base l ≤ l.room) (active : a.Active l listing.levels outer m)
    (run : m.run? done = some c.machine) :
    AtWork p listing l c' (Stage.after p listing ⟨c, a :: outer⟩) := by
  have has : Code.Has listing.code spot.stop (a.function.leave spot.later) := spot.has_closing.left
  cases todo with
  | cons x todo =>
      have straight := spot.straight_leave x (by simp [split])
      obtain ⟨found, position', run'⟩ := Environment.run_step has split straight position run next
      rw [Stage.after_straight found straight]
      exact .intro spot pending entry small near' (.leaves (by simpa using split) position' room active run')
  | nil =>
      rw [List.append_nil] at split
      subst split
      have found : listing.code[c.position]? = some (Function.exit spot.later) := by
        rw [position]
        exact spot.has_closing.right.head
      by_cases inner : spot.later = []
      · -- The main program exits for good.
        rw [Function.exit, if_pos inner] at found
        obtain ⟨does, -⟩ := Environment.does_of_step found rfl ⟨by decide, by decide⟩ next
        have stuck := does.executed rfl
        cases stuck
      · rw [Function.exit, if_neg inner] at found
        obtain ⟨b, rest, rfl, -, -, -, s, pending', own, phase⟩ :=
          Phase.returns derives lowered sound pending next short found inner room active run
        have after : Stage.after p listing ⟨c, a :: b :: rest⟩ = b :: rest := by
          unfold Stage.after
          rw [found]
          rfl
        rw [after] at fits ⊢
        exact .intro s pending' own (fits.frames b List.mem_cons_self _ _ s.split) near' phase

/-- The callee of a body is entered at its label. -/
theorem Phase.called {φ : Flow} {function : Signature} {rest : List Item}
    (fits : Stage.Fits p l ⟨c', Stage.after p listing ⟨c, a :: outer⟩⟩)
    (entry : a.entry = spot.front.length)
    (found : listing.code[c.position]? = some (.instruction .call [.raw function.label]))
    (named : spot.scopes.Names function) (stack : φ.stack = itemsOf function.parameters ++ rest)
    (back : spot.At (c.position + 1) ⟨Item.plains function.block ++ rest, .plain, none⟩)
    (holds : φ.Holds l listing.levels a outer spot.frameSize c.machine) :
    AtWork p listing l c' (Stage.after p listing ⟨c, a :: outer⟩) := by
  have nested := Program.nested derives
  have distinct := nested.labels_nodup lowered
  obtain ⟨target, machine⟩ := Environment.calls_of_step found next
  obtain ⟨k, listed, rfl, -, around⟩ := nested.around_callee derives spot.split spot.covers named
  let b : env.Call := ⟨k, c'.position, c⟩
  have after : Stage.after p listing ⟨c, a :: outer⟩ = b :: a :: outer := by
    unfold Stage.after
    rw [found]
    dsimp only
    rw [target, nested.find?_label listed]
  rw [after] at fits ⊢
  have pending' : Pending p listing l (b :: a :: outer) :=
    .call pending spot entry listed target around stack holds back
  obtain ⟨before, later, split⟩ := List.append_of_mem (List.mem_append_left [p.main] listed)
  have small := fits.frames b List.mem_cons_self before later split
  have half := sound.room
  obtain ⟨spot', -, rfl⟩ := nested.exists_spot lowered split (Nat.lt_of_le_of_lt small half)
  have inner : 0 < b.level := derives.one_le_level _ listed
  have last : spot'.later ≠ [] := fun none =>
    Nat.ne_of_gt inner ((spot'.later_eq_nil_iff derives).mp none)
  have place : spot'.front.length = c'.position := by
    have own := spot'.target?_entry distinct
    rw [Function.entry, if_neg last, target, Option.some.injEq] at own
    exact own.symm
  have run : b.entered.run? [] = some c'.machine := by
    rw [Environment.Call.entered, if_neg (Nat.ne_of_gt inner), machine]
    rfl
  have whole : spot'.opening = [] ++ spot'.opening := rfl
  exact .intro spot' pending' place.symm small fits.depth
    (.enters whole (List.cons_ne_nil _ _) place.symm run)

/-- A command of a body that neither jumps nor calls. -/
theorem Phase.performs {φ φ' : Flow} {op : Opcode} {operands : List Operand} {ranges : List Range}
    (behaves : env.Behaves l listing.levels) (near' : c'.machine.depth l.top ≤ l.room)
    (plain : op.isJump = false) (call : op ≠ .call) (ret : op ≠ .ret)
    (found : listing.code[c.position]? = some (.instruction op operands))
    (flows : (Command.instruction op operands).Flows spot.frames spot.scopes
      (a.function.hidden spot.frames) φ ranges φ')
    (admits : ∀ r ∈ ranges, r.Admits c.machine.ebx)
    (further : spot.At (c.position + 1) φ')
    (holds : φ.Holds l listing.levels a outer spot.frameSize c.machine) : Phase l a outer spot c' := by
  obtain ⟨does, position⟩ := Environment.does_of_step found plain ⟨call, ret⟩ next
  have nests := pending.nests derives sound
  have sees := pending.sees derives spot
  have displays := pending.displays holds.active
  exact .works (position ▸ further) (holds.performs sound nests sees behaves displays
    (spot.level_lt lowered) flows plain call does admits near')

theorem Phase.works_step {φ : Flow} (short : listing.code.length ≤ 2 ^ 32)
    (behaves : env.Behaves l listing.levels)
    (fits : Stage.Fits p l ⟨c', Stage.after p listing ⟨c, a :: outer⟩⟩)
    (indexes : Stage.Indexes listing ⟨c, a :: outer⟩) (entry : a.entry = spot.front.length)
    (small : spot.frameSize ≤ l.room) (here : spot.At c.position φ)
    (holds : φ.Holds l listing.levels a outer spot.frameSize c.machine) :
    AtWork p listing l c' (Stage.after p listing ⟨c, a :: outer⟩) := by
  have distinct := (Program.nested derives).labels_nodup lowered
  have near' := fits.depth
  rcases here.command with ⟨stop, -⟩ | ⟨x, φ₀, φ', ranges, found, inside, narrows, flows, further, own⟩
  · have fits' := holds.fits
    have whole : a.function.leave spot.later = [] ++ a.function.leave spot.later := rfl
    exact Phase.leaves_step derives lowered sound pending near' next short fits entry small whole stop
      (by omega) holds.active rfl
  · have marked (mark : x.isMark = true) :
        φ' = .blank ∧ Flow.blank.Holds l listing.levels a outer spot.frameSize c.machine := by
      obtain ⟨empty, blank⟩ := flows.of_mark mark
      exact ⟨blank, holds.blank (narrows.empty.mp empty)⟩
    cases x with
    | label name =>
        rw [Stage.after_straight found rfl]
        unfold Environment.step? at next
        rw [found] at next
        cases next
        obtain ⟨rfl, holds⟩ := marked rfl
        exact .intro spot pending entry small near' (.works further holds)
    | instruction op operands =>
        have ret := flows.ne_ret
        by_cases call : op = .call
        · subst call
          obtain ⟨function, rest, rfl, named, stack, rfl⟩ := flows.of_call
          exact Phase.called derives lowered sound pending next fits entry found named stack further
            (holds.narrows narrows)
        · rw [Stage.after_of_ne found call ret]
          refine .intro spot pending entry small near' ?_
          cases jumps : op.isJump with
          | true =>
              obtain ⟨name, listed, rfl⟩ := spot.jumps_mem inside jumps
              obtain ⟨machine, moved⟩ := Environment.moves_of_jump found jumps next
              obtain ⟨rfl, holds⟩ := marked jumps
              rw [← machine] at holds
              rcases moved with position | target
              · exact .works (position ▸ further) holds
              · obtain ⟨j, target', here⟩ := spot.exists_target distinct listed
                rw [target, Option.some.injEq] at target'
                exact .works (target' ▸ here) holds
          | false =>
              refine Phase.performs derives lowered sound pending next behaves near' jumps call ret
                found flows (fun r mem => ?_) further (holds.narrows narrows)
              -- Only where an index is added to an address does the code rely on bounds.
              have count := flows.length_ranges
              split at count
              · next same =>
                obtain ⟨r', rfl⟩ := List.length_eq_one_iff.mp count
                rw [List.mem_singleton] at mem
                rw [same] at found
                exact indexes found a rfl r (by rw [entry, own r' rfl, mem])
              · rw [List.length_eq_zero_iff.mp count] at mem
                cases mem

end Steps

namespace Stage

variable {start s : Stage env} (derives : Checking.Program p) (lowered : p.lower = .ok listing)
  (sound : l.Sound listing.levels)

include derives lowered sound

theorem Starts.at_work (starts : start.Starts p listing l) :
    AtWork p listing l start.process start.calls := by
  obtain ⟨position, esp, display, calls, fits⟩ := starts
  have nested := Program.nested derives
  have half := sound.room
  have split : p.bodies = p.functions ++ p.main :: [] := rfl
  have small := fits.frames _ (calls ▸ List.mem_cons_self) _ _ split
  obtain ⟨spot, -, last⟩ := nested.exists_spot lowered split (Nat.lt_of_le_of_lt small half)
  have place : spot.front.length = start.process.position := by
    have own := spot.target?_entry (nested.labels_nodup lowered)
    rw [last, Function.entry, if_pos rfl, position, Option.some.injEq] at own
    exact own.symm
  have run : Environment.Call.entered ⟨p.main, start.process.position, start.process⟩ =
      start.process.machine := if_pos nested.main.1
  have whole : spot.opening = [] ++ spot.opening := rfl
  rw [calls]
  refine .intro spot (.main position esp display) place.symm ?_ fits.depth
    (.enters whole (List.cons_ne_nil _ _) place.symm (congrArg some run))
  rw [Spot.frameSize, Spot.frames, last]
  exact small

variable (short : listing.code.length ≤ 2 ^ 32) (behaves : env.Behaves l listing.levels)

include short behaves

theorem Advances.at_work {s' : Stage env} (at_work : AtWork p listing l s.process s.calls)
    (advances : s.Advances p listing l s') : AtWork p listing l s'.process s'.calls := by
  obtain ⟨next, after, fits, indexes⟩ := advances
  obtain ⟨c, calls⟩ := s
  obtain ⟨c', calls'⟩ := s'
  dsimp only at *
  subst after
  cases at_work with
  | @intro a outer spot pending entry small near phase =>
      cases phase with
      | enters split more position run =>
          exact Phase.enters_step derives lowered sound pending near fits.depth next entry small split
            more position run
      | works here holds =>
          exact Phase.works_step derives lowered sound pending next short behaves fits indexes entry
            small here holds
      | leaves split position room active run =>
          exact Phase.leaves_step derives lowered sound pending fits.depth next short fits entry small
            split position room active run

/-- What holds at the beginning holds in every run. -/
theorem Reaches.at_work (starts : start.Starts p listing l) (run : Reaches p listing l start s) :
    AtWork p listing l s.process s.calls := by
  induction run with
  | refl => exact starts.at_work derives lowered sound
  | tail _ advances ih => exact advances.at_work derives lowered sound short behaves ih

end Stage

end PascalX86
