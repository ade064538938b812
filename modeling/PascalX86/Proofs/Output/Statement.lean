import PascalX86.Proofs.Output.Argument

/-!
# Output statements

What the arguments of an output statement were evaluated to is what is shown. The one call for all of
them shows the same as calls for each of them.
-/

set_option autoImplicit false

namespace PascalX86

open Register

variable {env : Environment} {p : Program} {listing : Listing} {l : Ground} {a : env.Call}
  {calls outer : List env.Call} {s t u : Stage env} {g : Function} {before later : List Function}
  {code : Code} {position : Nat}

section Code

variable {f : Frames} {used : Nat} {arguments : List Expr} {output : Output} {newline : Bool}

/-- The call that shows the arguments of an output statement. There is none if there is nothing to show. -/
def Output.printing (o : Output) (newline : Bool) : Code :=
  let format := Format.encode (o.pieces ++ newlinePieces newline)
  if format.isEmpty then []
  else [.instruction .printf (.raw s!"\"{format}\"" :: o.operands.map Operand.memory)]

def newlineSigns (newline : Bool) : List Format.Sign := if newline then [.character '\n'] else []

/-- The format is read as what the pieces say, and the end of the line. -/
theorem Output.read_format (o : Output) (newline : Bool) :
    Format.read (Format.encode (o.pieces ++ newlinePieces newline)).toList =
      o.pieces.flatMap Format.Piece.signs ++ newlineSigns newline := by
  rw [Format.read_encode, List.flatMap_append]
  cases newline <;> rfl

theorem writeCode_eq_ok : writeCode f used arguments newline = .ok code ↔
    ∃ output, outputOf f used arguments = .ok output ∧ code = output.code ++ output.printing newline := by
  unfold writeCode Output.printing
  rw [bind_eq_ok]
  refine exists_congr fun output => and_congr_right fun _ => ?_
  dsimp only
  split
  · rw [List.append_nil]
    exact ⟨fun same => (Except.ok.inj same).symm, fun same => congrArg Except.ok same.symm⟩
  · exact ⟨fun same => (Except.ok.inj same).symm, fun same => congrArg Except.ok same.symm⟩

theorem Output.signs_eq_nil {o : Output} (silent : o.printing newline = []) :
    o.pieces.flatMap Format.Piece.signs = [] := by
  unfold printing at silent
  dsimp only at silent
  split at silent
  · next empty =>
    rw [String.isEmpty_iff, Format.encode_append, String.append_eq_empty_iff] at empty
    rw [← Format.read_encode, empty.1]
    rfl
  · cases silent

/-- If nothing is shown all arguments are constants, and no code is needed for them. -/
theorem Stage.Evaluates.of_silent (lowered : outputOf f used arguments = .ok output)
    (none : Format.conversions (output.pieces.flatMap Format.Piece.signs) = []) : output.code = [] ∧
    ∃ turns, turns.map Turn.argument = arguments ∧ s.Evaluates p listing l f used turns s ∧
      output.operands.map s.process.machine.contents? =
        (turns.flatMap (Turn.handed f s.process.machine)).map some ∧
      ∀ turn ∈ turns, (turn.handed f s.process.machine).length =
        (Format.conversions turn.argument.signs).length := by
  induction arguments generalizing output with
  | nil =>
      cases lowered
      exact ⟨rfl, [], rfl, .done used s, rfl, fun _ mem => absurd mem List.not_mem_nil⟩
  | cons e arguments ih =>
      rcases outputOf_cons lowered with ⟨value, text, rest, known, written, found, rfl⟩ |
        ⟨-, conversion, -, ⟨cell, rest, -, -, rfl⟩ | ⟨code, rest, -, -, -, rfl⟩⟩
      · have others : Format.conversions (rest.pieces.flatMap Format.Piece.signs) = [] := by
          rw [List.flatMap_cons, Format.conversions, List.filterMap_append, List.append_eq_nil_iff] at none
          exact none.2
        obtain ⟨empty, turns, whole, evaluates, operands, lengths⟩ := ih found others
        have handed := Turn.handed_of_value? (f := f) known s.process.machine
        refine ⟨empty, ⟨e, []⟩ :: turns, by rw [List.map_cons, whole], .constant known evaluates, ?_,
          List.forall_mem_cons.mpr ⟨?_, lengths⟩⟩
        · rw [List.flatMap_cons, handed]
          exact operands
        · rw [handed, Expr.conversions_of_value? known]
          rfl
      · cases none
      · cases none

end Code

section Places

/-- Code that is part of the body of a function, at its place in the listing. -/
def Listing.Hosts (listing : Listing) (before : List Function) (g : Function) (later : List Function)
    (code : Code) (position : Nat) : Prop :=
  ∃ entry first last, listing.code.target? (g.entry later) = some entry ∧
    g.bodyCode (g.frames later) (bodyLabels before) = .ok (first ++ code ++ last) ∧
    position = entry + 1 + (g.enter later).length + first.length

theorem Extent.hosts_iff (e : Extent p listing g) (distinct : (Code.labels listing.code).Nodup) :
    listing.Hosts e.before g e.later code position ↔
      ∃ first last, e.body = first ++ code ++ last ∧ position = e.start + first.length := by
  unfold Listing.Hosts
  rw [e.target?_entry distinct, e.lowered]
  constructor
  · rintro ⟨entry, first, last, target, body, place⟩
    cases target
    exact ⟨first, last, Except.ok.inj body, place⟩
  · rintro ⟨first, last, body, place⟩
    exact ⟨_, first, last, rfl, congrArg Except.ok body, place⟩

/-- In the body of a function it is the one at work. -/
theorem AtWork.located (distinct : (Code.labels listing.code).Nodup) {c : env.Process}
    (at_work : AtWork p listing l c calls) (place : Extent p listing g) (lower : place.start ≤ c.position)
    (upper : c.position < place.start + place.body.length) :
    ∃ a outer, calls = a :: outer ∧ a.function = g ∧
      ∃ spot : Spot p listing a.function, spot.later = place.later := by
  have stop := place.body_le
  have finish := place.stop_lt_finish
  have start : place.start = place.front.length + 1 + (g.enter place.later).length := rfl
  cases at_work with
  | @intro a outer spot _ _ _ _ phase =>
      obtain ⟨rfl, later, -⟩ :=
        Extent.meet distinct place spot.toExtent ⟨by omega, by omega⟩ phase.inside
      exact ⟨a, outer, rfl, rfl, spot, later.symm⟩

end Places

section Quiet

variable {σ : Scopes} {bound : Nat} {e : Expr} {c : Command} {x : Memory}

theorem Code.exists_accesses (mem : c ∈ code) (inside : x ∈ c.accesses) (held : Option Memory) :
    ∃ held', (held', x) ∈ Code.accesses held code := by
  induction code generalizing held with
  | nil => cases mem
  | cons c' code ih =>
      rw [Code.accesses]
      rcases List.mem_cons.mp mem with rfl | mem
      · exact ⟨held, List.mem_append_left _ (List.mem_map.mpr ⟨x, inside, rfl⟩)⟩
      · obtain ⟨held', found⟩ := ih mem (c'.pointer? held)
        exact ⟨held', List.mem_append_right _ found⟩

/-- By way of the frame pointer expressions refer to variables and arguments. -/
theorem Expr.quiet (stands : a.function.Stands p later σ) (sound : e.Sound σ bound)
    (lowered : e.code (a.function.frames later) = .ok code) : a.Quiet l code := by
  have moves := (Expr.lowers_code (f := a.function.frames later) sound).result code lowered
  have safe := (Expr.lowers_accesses (fun _ => False) stands.spans sound).result code lowered
  have tabled := stands.tabled a.function List.mem_cons_self
  intro c mem
  refine ⟨moves.straight c mem, fun d above names => ?_⟩
  obtain ⟨x, inside, base, has⟩ := names
  obtain ⟨held, access⟩ := Code.exists_accesses mem inside none
  cases safe none _ access with
  | computed other plain =>
      rw [base] at other
      cases other
      exact plain.1 rfl
  | @own symbol slot r holds found level places _ within =>
      obtain ⟨h, around, level', owns⟩ := stands.owned symbol slot holds found
      rcases List.mem_cons.mp around with rfl | around
      · obtain rfl := (owns.places tabled found (level ▸ a.function.blocks_frames later)).mp places
        rcases owns.region_within tabled found with inside | inside
        all_goals
          have within := within.trans inside
          unfold Region.Within Memory.region Memory.reaching at within
          unfold Region.Has Memory.reaching at has
          simp only [Region.below, Region.arguments] at within has
          omega
      · have outside := (mem_of_mem_enclosing around).2
        have level : slot.level = a.function.signature.level := level
        omega
  | temporary hidden => cases hidden
  | outer _ _ _ _ other =>
      rw [base] at other
      cases other
  | display _ eq =>
      rw [show x = displayEntry _ from eq] at base
      cases base

end Quiet

section Runs

/-- An instruction that lies outside of the machine. -/
theorem Stage.Runs.performed {op : Opcode} {operands : List Operand}
    (runs : s.Runs p listing l [.instruction op operands] t) (outside : op.isOutside = true) :
    env.perform? op operands s.process.machine s.process.state =
      some (t.process.machine, t.process.state) := by
  have found := runs.has.head
  have last := runs.position
  rw [List.length_singleton] at last
  have call : op ≠ .call := by
    rintro rfl
    cases outside
  have ret : op ≠ .ret := by
    rintro rfl
    cases outside
  rcases Relation.ReflTransGen.cases_head runs.stays with rfl | ⟨s₁, within, rest⟩
  · omega
  obtain ⟨next, after, -, -⟩ := within.advances
  have same : s₁.calls = s.calls := after.trans (after_of_ne found call ret)
  unfold Environment.step? at next
  rw [found] at next
  split at next
  · next eq =>
    cases eq
    exact absurd rfl call
  · next eq =>
    cases eq
    exact absurd rfl ret
  · next eq =>
    cases eq
    rw [if_pos outside] at next
    obtain ⟨⟨machine, state⟩, performed, reached⟩ := Option.bind_eq_some_iff.mp next
    have reached := Option.some.inj reached
    have behind : s₁.process.position = s.process.position + 1 := by rw [← reached]
    obtain rfl := Stage.Stays.eq_of_le rest same (Nat.le_of_eq behind.symm)
    rw [performed, ← reached]
  · next eq => cases eq
  · next eq => cases eq

/-- The format of an output statement is a string, and its operands hold the values that are shown. -/
def Environment.Prints (env : Environment) (shows : Conversion → List Word → List Char)
    (text : env.State → List Char) : Prop :=
  ∀ (format : String) (operands : List Memory) (m m' : Machine) (s s' : env.State),
    env.perform? .printf (.raw s!"\"{format}\"" :: operands.map Operand.memory) m s = some (m', s') →
    ∃ values, operands.map m.contents? = values.map some ∧
      text s' = text s ++ Format.print shows (Format.read format.toList) values

variable {f : Frames} {output : Output} {newline : Bool} {turns : List Turn}
  {shows : Conversion → List Word → List Char} {text : env.State → List Char}

/-- What is shown for all arguments is what is shown for each of them, and the end of the line. -/
theorem Turn.print_handed {m : Machine}
    (lengths : ∀ turn ∈ turns, (turn.handed f m).length =
      (Format.conversions turn.argument.signs).length) :
    Format.print shows ((turns.map Turn.argument).flatMap Expr.signs ++ newlineSigns newline)
        (turns.flatMap (Turn.handed f m)) =
      turns.flatMap (fun turn => Format.print shows turn.argument.signs (turn.handed f m)) ++
        if newline then ['\n'] else [] := by
  rw [List.flatMap_map, ← List.append_nil (turns.flatMap (Turn.handed f m)), Format.print_flatMap lengths]
  cases newline <;> rfl

/-- The call for an output statement adds to the text what its format shows of the values. -/
theorem Stage.Runs.prints {values : List (List Word)} (prints : env.Prints shows text)
    (runs : t.Runs p listing l (output.printing newline) u)
    (operands : output.operands.map t.process.machine.contents? = values.map some) :
    text u.process.state = text t.process.state ++ Format.print shows
      (output.pieces.flatMap Format.Piece.signs ++ newlineSigns newline) values := by
  rw [← output.read_format]
  unfold Output.printing at runs
  dsimp only at runs
  split at runs
  · next silent =>
    obtain rfl := runs.eq_of_nil
    rw [String.isEmpty_iff.mp silent]
    exact (List.append_nil _).symm
  · obtain ⟨values', same, shown⟩ := prints _ _ _ _ _ _ (runs.performed rfl)
    rw [operands] at same
    rw [shown, List.map_injective_iff.mpr (Option.some_injective _) same]

variable (derives : Checking.Program p) (lowered : p.lower = .ok listing)
  (sound : l.Sound listing.levels) (short : listing.code.length ≤ 2 ^ 32)
  (behaves : env.Behaves l listing.levels)

include derives lowered sound short behaves

/-- Along the code of an output statement its arguments are evaluated. -/
theorem Stage.Runs.evaluates {used : Nat} {arguments : List Expr} {spot : Spot p listing a.function}
    (runs : s.Runs p listing l output.code t)
    (at_work : AtWork p listing l s.process s.calls) (same : s.calls = a :: outer)
    (lower : spot.start ≤ s.process.position)
    (lowered' : outputOf spot.frames used arguments = .ok output)
    (upper : s.process.position + output.code.length < spot.start + spot.body.length)
    (quiet : ∀ e ∈ arguments, ∀ code, e.code spot.frames = .ok code → a.Quiet l code)
    (free : a.function.locals.size ≤ used)
    (room : used + outputTemporaries spot.frames arguments ≤ spot.frameSize) :
    ∃ turns, turns.map Turn.argument = arguments ∧ s.Evaluates p listing l spot.frames used turns t ∧
      output.operands.map t.process.machine.contents? =
        (turns.flatMap (Turn.handed spot.frames t.process.machine)).map some ∧
      ∀ turn ∈ turns, (turn.handed spot.frames t.process.machine).length =
        (Format.conversions turn.argument.signs).length := by
  have back : t.calls = a :: outer := runs.calls.trans same
  have last := runs.position
  have stays := runs.stays
  rw [same, ← last] at stays
  have at_work' := runs.stays.reaches.works derives lowered sound short behaves at_work
  obtain ⟨φ, holds⟩ := AtWork.holds derives lowered (back ▸ at_work') spot (by omega) (by omega)
  have frame : t.process.machine.ebp = below l.top (a.base l) := holds.active.frame.trans (a.frame_eq l)
  obtain ⟨turns, whole, evaluates, operands, lengths, -⟩ := stays.evaluates derives lowered sound short
    behaves at_work same back lower frame lowered' last.symm (by omega) runs.has quiet free room
  exact ⟨turns, whole, evaluates, operands, lengths⟩

end Runs

end PascalX86
