import PascalX86.Proofs.Output.Statement

/-!
# What output statements show

The arguments of an output statement are evaluated from left to right, and what they were evaluated to
is shown. Only variables of the frame are shown as they are when all arguments have been evaluated.
-/

set_option autoImplicit false

namespace PascalX86

variable {env : Environment} {p : Program} {listing : Listing} {l : Ground} {g : Function}
  {before later : List Function} {x : Site} {info : NodeInfo} {arguments : List Expr} {newline : Bool}
  {output : Output} {start s t : Stage env}

theorem Site.writes (written : x.stmt = .write info arguments newline) {f : Frames} {code : Code}
    (lowered : x.code f = .ok code) : ∃ output, outputOf f x.used arguments = .ok output ∧
      code = output.code ++ output.printing newline := by
  obtain ⟨loop?, used, label, stmt⟩ := x
  cases written
  simp only [Site.code, Stmt.code] at lowered
  exact writeCode_eq_ok.mp lowered

/-- Where an output statement stands, its arguments are evaluated in the run of its code. -/
theorem Site.evaluates (derives : Checking.Program p) (lowered : p.lower = .ok listing)
    (split : p.bodies = before ++ g :: later) (inside : (g.site (bodyLabels before)).Contains x)
    (written : x.stmt = .write info arguments newline)
    (found : outputOf (g.frames later) x.used arguments = .ok output)
    (sound : l.Sound listing.levels) (short : listing.code.length ≤ 2 ^ 32)
    (behaves : env.Behaves l listing.levels) (at_work : AtWork p listing l s.process s.calls)
    (hosts : listing.Hosts before g later (output.code ++ output.printing newline) s.process.position)
    (runs : s.Runs p listing l output.code t) :
    ∃ turns, turns.map Turn.argument = arguments ∧
      s.Evaluates p listing l (g.frames later) x.used turns t ∧
      output.operands.map t.process.machine.contents? =
        (turns.flatMap (Turn.handed (g.frames later) t.process.machine)).map some ∧
      ∀ turn ∈ turns, (turn.handed (g.frames later) t.process.machine).length =
        (Format.conversions turn.argument.signs).length := by
  have nested := Program.nested derives
  have distinct := nested.labels_nodup lowered
  obtain ⟨σ, completes, stands⟩ := nested.stands split
  obtain ⟨bound, tree, -⟩ := completes.sound
  obtain ⟨place, rfl, rfl⟩ := nested.exists_place lowered split
  obtain ⟨first, last, body, position⟩ := (place.hosts_iff distinct).mp hosts
  have parts := congrArg List.length body
  rw [List.length_append, List.length_append, List.length_append] at parts
  by_cases silent : output.printing newline = []
  · obtain ⟨empty, turns, evaluated⟩ :=
      Stage.Evaluates.of_silent (s := s) found (congrArg Format.conversions (Output.signs_eq_nil silent))
    rw [empty] at runs
    obtain rfl := runs.eq_of_nil
    exact ⟨turns, evaluated⟩
  · have more := List.length_pos_iff.mpr silent
    obtain ⟨a, outer, same, rfl, spot, later⟩ :=
      at_work.located distinct place (by omega) (by omega)
    obtain ⟨-, begins, whole⟩ := Extent.unique derives distinct spot.toExtent place
    obtain ⟨free, within⟩ := inside.temporaries (f := a.function.frames place.later)
    rw [written, Stmt.temporaries] at within
    have typed : ∀ e ∈ arguments, e.Sound σ bound := by
      have own := tree.of_mem inside.mem_nodes
      rw [written, Stmt.all_write] at own
      exact own.2
    have frames : spot.frames = a.function.frames place.later := by rw [Spot.frames, later]
    have size : spot.frameSize = a.function.frameSize (a.function.frames place.later) := by
      rw [Spot.frameSize, frames]
    rw [← frames] at found ⊢
    have front : spot.start ≤ s.process.position := by omega
    refine runs.evaluates derives lowered sound short behaves at_work same front found
      (by rw [begins, whole]; omega) (fun e mem code own => ?_) free ?_
    · rw [frames] at own
      exact Expr.quiet stands (typed e mem) own
    · rw [size, frames]
      exact within

/-- The arguments of an output statement are evaluated one after the other. What is shown of each is
what it was evaluated to then, or for a variable of the frame its content after all of them, and it is
shown as if the arguments were written one by one. -/
theorem Source.writes_evaluated {source : Source} (h : source.program = .ok p)
    (lowered : p.lower = .ok listing) (short : listing.code.length ≤ 2 ^ 32)
    (split : p.bodies = before ++ g :: later) (inside : (g.site (bodyLabels before)).Contains x)
    (written : x.stmt = .write info arguments newline) :
    ∃ output, outputOf (g.frames later) x.used arguments = .ok output ∧
      x.code (g.frames later) = .ok (output.code ++ output.printing newline) ∧
      (∃ position, listing.Hosts before g later (output.code ++ output.printing newline) position) ∧
      (∀ e ∈ arguments, ∃ alone, outputOf (g.frames later) x.used [e] = .ok alone ∧
        alone.pieces.flatMap Format.Piece.signs = e.signs) ∧
      ∀ (env : Environment) (l : Ground) (start s t : Stage env), l.Sound listing.levels →
        env.Behaves l listing.levels → start.Starts p listing l → Stage.Reaches p listing l start s →
        listing.Hosts before g later (output.code ++ output.printing newline) s.process.position →
        s.Runs p listing l output.code t →
        ∃ turns, turns.map Turn.argument = arguments ∧
          s.Evaluates p listing l (g.frames later) x.used turns t ∧
          output.operands.map t.process.machine.contents? =
            (turns.flatMap (Turn.handed (g.frames later) t.process.machine)).map some ∧
          ∀ shows text, env.Prints shows text → ∀ u, t.Runs p listing l (output.printing newline) u →
            text u.process.state = text t.process.state ++
              (turns.flatMap (fun turn => Format.print shows turn.argument.signs
                (turn.handed (g.frames later) t.process.machine)) ++ if newline then ['\n'] else []) := by
  have derives := Source.derives h
  have nested := Program.nested derives
  have distinct := nested.labels_nodup lowered
  obtain ⟨place, rfl, rfl⟩ := nested.exists_place lowered split
  obtain ⟨code, own, first, last, body⟩ := inside.code place.lowered
  obtain ⟨output, found, rfl⟩ := Site.writes written own
  have signs := outputOf_signs found
  refine ⟨output, found, own, ⟨_, (place.hosts_iff distinct).mpr ⟨first, last, body.symm, rfl⟩⟩,
    fun e mem => ?_, ?_⟩
  · obtain ⟨alone, lowers⟩ := outputOf_alone found e mem x.used
    have only := outputOf_signs lowers
    rw [List.flatMap_singleton] at only
    exact ⟨alone, lowers, only⟩
  · intro env l start s t sound behaves starts run hosts runs
    have at_work := Stage.Reaches.at_work derives lowered sound short behaves starts run
    obtain ⟨turns, whole, evaluates, operands, lengths⟩ := Site.evaluates derives lowered split inside
      written found sound short behaves at_work hosts runs
    refine ⟨turns, whole, evaluates, operands, fun shows text prints u shown => ?_⟩
    rw [shown.prints prints operands, signs, ← whole, Turn.print_handed lengths]

/-- So many steps through a stretch of code, in the last of so many calls or in what it calls. -/
def Stage.through? (p : Program) (listing : Listing) (l : Ground) (count first last : Nat) :
    Nat → Stage env → Option (Stage env)
  | 0, s => some s
  | steps + 1, s => do
      let s' ← s.run? p listing l 1
      if (s.calls.length = count → first ≤ s.process.position ∧ s.process.position < last) ∧
          count ≤ s'.calls.length then
        through? p listing l count first last steps s'
      else none

theorem Program.Small.stays (small : p.Small listing l) {calls : List env.Call} {first last steps : Nat}
    (run : s.through? p listing l calls.length first last steps = some t) (above : calls <:+ s.calls) :
    Stage.Stays p listing l calls first last s t ∧ calls <:+ t.calls := by
  induction steps generalizing s with
  | zero =>
      cases run
      exact ⟨.refl, above⟩
  | succ steps ih =>
      obtain ⟨s', single, rest⟩ := Option.bind_eq_some_iff.mp run
      split at rest
      · next fits =>
        obtain ⟨s₁, advances, same⟩ := small.advances single
        cases same
        obtain ⟨between, deep⟩ := fits
        have above' : calls <:+ s'.calls := by
          rw [advances.calls] at deep ⊢
          rcases Stage.after_cases p listing s with eq | ⟨-, eq⟩ | ⟨b, eq⟩
          · rwa [eq]
          · rw [eq] at deep ⊢
            cases older : s.calls with
            | nil => rwa [older] at above
            | cons b rest =>
                rw [older] at above deep
                rcases List.suffix_cons_iff.mp above with same | above
                · rw [same, List.tail_cons, List.length_cons] at deep
                  omega
                · exact above
          · rw [eq]
            exact above.trans (List.suffix_cons b s.calls)
        obtain ⟨stays, last⟩ := ih rest above'
        exact ⟨.head ⟨advances, above, fun same => between (congrArg List.length same)⟩ stays, last⟩
      · cases rest

theorem Program.Small.runs (small : p.Small listing l) {code : Code} {steps : Nat}
    (run : s.through? p listing l s.calls.length s.process.position (s.process.position + code.length)
      steps = some t) (count : t.calls.length = s.calls.length)
    (position : t.process.position = s.process.position + code.length)
    (has : Code.Has listing.code s.process.position code) : s.Runs p listing l code t := by
  obtain ⟨stays, above⟩ := small.stays run (List.suffix_refl _)
  exact ⟨has, (above.eq_of_length count.symm).symm, position, stays⟩

section Printing

/-- What is shown of integers. -/
def decimals : Conversion → List Word → List Char
  | .decimal, [v] => (toString v.toInt).toList
  | _, _ => []

def Machine.taken? (m : Machine) : List Operand → Option (List (List Word))
  | [] => some []
  | .memory x :: operands => do return (← m.contents? x) :: (← m.taken? operands)
  | _ :: _ => none

theorem Machine.contents?_of_taken? {m : Machine} {operands : List Memory} {values : List (List Word)}
    (taken : m.taken? (operands.map Operand.memory) = some values) :
    operands.map m.contents? = values.map some := by
  induction operands generalizing values with
  | nil =>
      cases taken
      rfl
  | cons x operands ih =>
      obtain ⟨v, found, taken⟩ := Option.bind_eq_some_iff.mp taken
      obtain ⟨others, further, taken⟩ := Option.bind_eq_some_iff.mp taken
      cases taken
      rw [List.map_cons, List.map_cons, found, ih further]

def Machine.shown? (m : Machine) (text : List Char) : Opcode → List Operand → Option (List Char)
  | .printf, .raw format :: operands => do
      return text ++ Format.print decimals (Format.read (format.toList.drop 1).dropLast) (← m.taken? operands)
  | _, _ => none

/-- Surroundings that keep the text that is shown. -/
def Environment.printing : Environment :=
  ⟨List Char, fun op operands m text => (m.shown? text op operands).map (m, ·)⟩

theorem Environment.printing_prints : Environment.printing.Prints decimals id := by
  intro format operands m m' text text' performed
  obtain ⟨shown, answered, eq⟩ := Option.map_eq_some_iff.mp performed
  obtain ⟨values, taken, same⟩ := Option.bind_eq_some_iff.mp answered
  cases same
  cases eq
  have quoted : (("\"" ++ format ++ "\"").toList.drop 1).dropLast = format.toList := by
    rw [String.toList_append, String.toList_append]
    simp
  refine ⟨values, Machine.contents?_of_taken? taken, ?_⟩
  rw [← quoted]
  rfl

theorem Environment.printing_behaves {levels : Nat} : Environment.printing.Behaves l levels := by
  constructor
  · intro op operands m m' text text' double performed
    obtain ⟨shown, answered, -⟩ := Option.map_eq_some_iff.mp performed
    unfold Machine.shown? at answered
    split at answered
    · cases double
    · cases answered
  · intro op operands m m' text text' _ performed
    obtain ⟨shown, -, eq⟩ := Option.map_eq_some_iff.mp performed
    cases eq
    exact ⟨rfl, rfl, rfl, fun _ _ => rfl, fun _ _ _ _ => rfl⟩

end Printing

def Source.altered : Source := ⟨"input.pas", [
  "var x: integer;",
  "function f: integer; begin x := 2; result := 3; end;",
  "begin x := 1; write(x, f); end."], .endOfFile⟩

/-- The arguments of a program that assigns something and then writes two arguments. -/
def Program.written? (p : Program) : Option (Expr × Expr) :=
  match p.main.body with
  | .block _ [.assign .., .write _ [first, second] false] => some (first, second)
  | _ => none

theorem Program.exists_of_written {first second : Expr} (h : p.written? = some (first, second)) :
    ∃ around assignment info, p.main.body =
      .block around [assignment, .write info [first, second] false] := by
  unfold Program.written? at h
  split at h
  · next body =>
    cases h
    exact ⟨_, _, _, body⟩
  · cases h

def Stage.opening (p : Program) (position : Nat) : Stage .printing :=
  let c : Environment.printing.Process := ⟨position, ⟨0, 0, 0, 0, 0, 0, 4096, none, fun _ => 0, 8192⟩, []⟩
  ⟨c, [⟨p.main, position, c⟩]⟩

def Stage.text (s : Stage .printing) : List Char := s.process.state

/-- The commands that evaluate the second argument, keep it, and show both. -/
def Source.alteredCode : Code × Code × Code :=
  ([.instruction .call [.raw "fn_f_1"], .instruction .push [Register.eax]],
    [.instruction .pop [frameSlot 8]],
    [.instruction .printf [.raw "\"%d%d\"", frameSlot 4, frameSlot 8]])

-- The statement begins after seven steps. Within its code the call takes all steps but two.
theorem Source.altered_runs : Source.altered.program.toOption.map (fun p => p.lower.toOption.map fun listing =>
    decide (listing.levels = 2 ∧ listing.code.length = 30 ∧ listing.code.target? startLabel = some 16 ∧
      (p.main.entry [] = startLabel ∧ (p.main.enter []).length = 4) ∧
      (alteredCode.1 ++ alteredCode.2.1 ++ alteredCode.2.2 <+: listing.code.drop 23) ∧
      (.indexing ∉ listing.code ∧
        EachBefore (fun g later => g.frameSize (g.frames later) ≤ 1024) p.bodies)) &&
    p.written?.any fun (first, second) =>
      decide (p.main.locals.size = 4 ∧
        (first.value? = none ∧ Conversion.ofType? first.type = some .decimal ∧
          first.shown? (p.main.frames []) = some ((frameSlot 4).sized .dword)) ∧
        (second.value? = none ∧ Conversion.ofType? second.type = some .decimal ∧ second.type.size = 4 ∧
          second.direct? (p.main.frames []) = none) ∧
        (second.code (p.main.frames [])).toOption = some alteredCode.1) &&
      ((outputOf (p.main.frames []) 4 [first, second]).toOption.any fun output =>
        decide (output.code = alteredCode.1 ++ alteredCode.2.1 ∧ output.printing false = alteredCode.2.2 ∧
          output.operands = [frameSlot 4, frameSlot 8])) &&
      (p.main.bodyCode (p.main.frames []) (bodyLabels p.functions)).toOption.any (fun body =>
        decide (body.length = 6 ∧ body.drop 2 = alteredCode.1 ++ alteredCode.2.1 ++ alteredCode.2.2)) &&
      ((Stage.opening p 16).run? p listing smallGround 7).any fun s =>
        (s.through? p listing smallGround 1 23 25 18).any fun s₁ =>
          (s₁.through? p listing smallGround 1 25 26 1).any fun t =>
            (t.through? p listing smallGround 1 26 27 1).any fun u =>
              decide ((s.summary = (23, 1) ∧ s₁.summary = (25, 1) ∧ t.summary = (26, 1) ∧
                  u.summary = (27, 1)) ∧
                s.process.machine.contents? (frameSlot 4) = some [1] ∧
                s₁.process.machine.topmost 4 = [3] ∧
                t.process.machine.contents? (frameSlot 4) = some [2] ∧
                t.process.machine.contents? (frameSlot 8) = some [3] ∧
                t.text = [] ∧ u.text = ['2', '3'])) = some (some true) := by
  decide +kernel

theorem smallGround_sound {levels : Nat} (few : levels ≤ 3) : smallGround.Sound levels := by
  refine ⟨by decide, fun d pos le => ?_⟩
  unfold smallGround at le ⊢
  unfold dwordSize below
  dsimp only at le ⊢
  bv_omega

/-- The arguments in turn, with the values that they are evaluated to. -/
def Source.alteredTurns (first second : Expr) : List Turn := [⟨first, [[1]]⟩, ⟨second, [[3]]⟩]

/-- The run of the program up to where it has written its arguments. -/
structure Source.Altered (p : Program) (listing : Listing) (x : Site) (info : NodeInfo)
    (first second : Expr) (output : Output) (s t u : Stage .printing) : Prop where
  accepted : Source.altered.program = .ok p
  lowered : p.lower = .ok listing
  short : listing.code.length ≤ 2 ^ 32
  sound : smallGround.Sound listing.levels
  inside : (p.main.site (bodyLabels p.functions)).Contains x
  written : x.stmt = .write info [first, second] false
  found : outputOf (p.main.frames []) x.used [first, second] = .ok output
  starts : (Stage.opening p 16).Starts p listing smallGround
  reaches : Stage.Reaches p listing smallGround (Stage.opening p 16) s
  hosts : listing.Hosts p.functions p.main [] (output.code ++ output.printing false) s.process.position
  runs : s.Runs p listing smallGround output.code t
  evaluates : s.Evaluates p listing smallGround (p.main.frames []) x.used
    (Source.alteredTurns first second) t
  shows : t.Runs p listing smallGround (output.printing false) u
  operands : output.operands.map t.process.machine.contents? = [some [2], some [3]]
  signs : first.signs = [.conversion .decimal] ∧ second.signs = [.conversion .decimal]
  texts : t.text = [] ∧ u.text = ['2', '3']

theorem Source.exists_altered : ∃ p listing x info first second output s t u,
    Source.Altered p listing x info first second output s t u := by
  obtain ⟨p, accepted, known⟩ := exists_of_map_toOption Source.altered_runs
  obtain ⟨listing, lowered, known⟩ := exists_of_map_toOption known
  rw [Bool.and_eq_true] at known
  obtain ⟨program, known⟩ := known
  obtain ⟨levels, length, target, ⟨entry, enter⟩, has, plain, frames⟩ := of_decide_eq_true program
  obtain ⟨⟨first, second⟩, written, known⟩ := (Option.any_eq_true _ _).mp known
  simp only [Bool.and_eq_true] at known
  obtain ⟨⟨⟨arguments, outputs⟩, bodies⟩, known⟩ := known
  obtain ⟨size, ⟨unknown, shown, cell⟩, ⟨unknown', shown', size', indirect⟩, code⟩ :=
    of_decide_eq_true arguments
  obtain ⟨output, found, outputs⟩ := (Option.any_eq_true _ _).mp outputs
  obtain ⟨evaluation, printing, operands⟩ := of_decide_eq_true outputs
  obtain ⟨body, laid, whole⟩ := (Option.any_eq_true _ _).mp bodies
  obtain ⟨count, whole⟩ := of_decide_eq_true whole
  obtain ⟨s, run, known⟩ := (Option.any_eq_true _ _).mp known
  obtain ⟨s₁, run₁, known⟩ := (Option.any_eq_true _ _).mp known
  obtain ⟨t, run₂, known⟩ := (Option.any_eq_true _ _).mp known
  obtain ⟨u, run₃, known⟩ := (Option.any_eq_true _ _).mp known
  obtain ⟨⟨at_s, at_s₁, at_t, at_u⟩, x, y, x', y', texts⟩ := of_decide_eq_true known
  obtain ⟨position, one⟩ := Prod.mk.inj at_s
  obtain ⟨position₁, one₁⟩ := Prod.mk.inj at_s₁
  obtain ⟨position₂, one₂⟩ := Prod.mk.inj at_t
  obtain ⟨position₃, one₃⟩ := Prod.mk.inj at_u
  have found := toOption_eq_some.mp found
  have code := toOption_eq_some.mp code
  have laid := toOption_eq_some.mp laid
  have small : p.Small listing smallGround := ⟨frames, plain⟩
  obtain ⟨around, assignment, info, written⟩ := Program.exists_of_written written
  have popped : popMemory (frameSlot (4 + second.type.size)) second.type.size = alteredCode.2.1 := by
    rw [size']
    decide
  have placed : Code.Has listing.code 23 (alteredCode.1 ++ alteredCode.2.1 ++ alteredCode.2.2) := has
  have first_run : s.Runs p listing smallGround alteredCode.1 s₁ := by
    refine small.runs (by rw [position, one]; exact run₁) (one₁.trans one.symm) ?_ ?_
    · rw [position, position₁]
      rfl
    · rw [position]
      exact placed.left.left
  have second_run : s₁.Runs p listing smallGround alteredCode.2.1 t := by
    refine small.runs (by rw [position₁, one₁]; exact run₂) (one₂.trans one₁.symm) ?_ ?_
    · rw [position₁, position₂]
      rfl
    · rw [position₁]
      exact placed.left.right
  have third_run : t.Runs p listing smallGround alteredCode.2.2 u := by
    refine small.runs (by rw [position₂, one₂]; exact run₃) (one₃.trans one₂.symm) ?_ ?_
    · rw [position₂, position₃]
      rfl
    · rw [position₂]
      exact placed.right
  have whole_run : s.Runs p listing smallGround output.code t := by
    rw [evaluation]
    exact .append (by rw [position]; exact placed.left) first_run second_run
  have evaluates : s.Evaluates p listing smallGround (p.main.frames []) 4
      [⟨first, [[1]]⟩, ⟨second, [s₁.process.machine.topmost second.type.size]⟩] t :=
    .variable unknown cell x (.other unknown' indirect code first_run (by rw [popped]; exact second_run)
      (.done _ t))
  rw [size', y] at evaluates
  have depth : (4096 - 4096 : Word).toNat ≤ 1024 := by decide
  refine ⟨p, listing, ⟨none, p.main.locals.size, bodyLabels p.functions + labelsOf [assignment],
    .write info [first, second] false⟩, info, first, second, output, s, t, u, ?_⟩
  constructor
  case accepted => exact accepted
  case lowered => exact lowered
  case short =>
    rw [length]
    decide
  case sound => exact smallGround_sound (by omega)
  case inside =>
    rw [Function.site, written]
    exact .single (.inl (.block none _ _ around [assignment] [] _))
  case written => rfl
  case found =>
    rw [size]
    exact found
  case starts => exact ⟨target, rfl, rfl, rfl, small.fits depth⟩
  case reaches => exact small.reaches run
  case hosts =>
    refine ⟨16, body.take 2, [], by rw [entry]; exact target, ?_, ?_⟩
    · rw [laid, evaluation, printing, ← whole, List.append_nil, List.take_append_drop]
    · rw [position, enter, List.length_take, count]
      rfl
  case runs => exact whole_run
  case evaluates =>
    rw [size]
    exact evaluates
  case shows =>
    rw [printing]
    exact third_run
  case operands =>
    rw [operands, List.map_cons, List.map_cons, x', y']
    rfl
  case signs => exact ⟨Expr.signs_of_type unknown shown, Expr.signs_of_type unknown' shown'⟩
  case texts => exact texts

-- From left to right the variable has its first value when its turn comes.
theorem Source.altered_shown : ∃ p listing x info first second output s t u,
    Source.altered.program = .ok p ∧ p.lower = .ok listing ∧
      (p.main.site (bodyLabels p.functions)).Contains x ∧ x.stmt = .write info [first, second] false ∧
      outputOf (p.main.frames []) x.used [first, second] = .ok output ∧
      (Stage.opening p 16).Starts p listing smallGround ∧
      Stage.Reaches p listing smallGround (Stage.opening p 16) s ∧
      s.Runs p listing smallGround output.code t ∧
      t.Runs p listing smallGround (output.printing false) u ∧
      s.Evaluates p listing smallGround (p.main.frames []) x.used [⟨first, [[1]]⟩, ⟨second, [[3]]⟩] t ∧
      output.operands.map t.process.machine.contents? = [some [2], some [3]] ∧
      Environment.printing.Prints decimals id ∧ t.text = [] ∧ u.text = ['2', '3'] ∧
      Format.print decimals first.signs [[1]] ++ Format.print decimals second.signs [[3]] = ['1', '3'] := by
  obtain ⟨p, listing, x, info, first, second, output, s, t, u, altered⟩ := Source.exists_altered
  refine ⟨p, listing, x, info, first, second, output, s, t, u, altered.accepted, altered.lowered,
    altered.inside, altered.written, altered.found, altered.starts, altered.reaches, altered.runs,
    altered.shows, altered.evaluates, altered.operands, Environment.printing_prints, altered.texts.1,
    altered.texts.2, ?_⟩
  rw [altered.signs.1, altered.signs.2]
  decide

theorem Source.altered_evaluated : ∃ p listing x info first second output s t u,
    Source.Altered p listing x info first second output s t u ∧
      ∃ turns, turns.map Turn.argument = [first, second] ∧
        s.Evaluates p listing smallGround (p.main.frames []) x.used turns t ∧
        turns.flatMap (Turn.handed (p.main.frames []) t.process.machine) = [[2], [3]] ∧
        turns.flatMap (fun turn => Format.print decimals turn.argument.signs
          (turn.handed (p.main.frames []) t.process.machine)) = ['2', '3'] := by
  obtain ⟨p, listing, x, info, first, second, output, s, t, u, altered⟩ := Source.exists_altered
  have split : p.bodies = p.functions ++ p.main :: [] := rfl
  obtain ⟨output', found, -, -, -, runs⟩ := Source.writes_evaluated altered.accepted altered.lowered
    altered.short split altered.inside altered.written
  rw [altered.found, Except.ok.injEq] at found
  subst found
  obtain ⟨turns, whole, evaluates, operands, texts⟩ := runs .printing smallGround (Stage.opening p 16) s t
    altered.sound Environment.printing_behaves altered.starts altered.reaches altered.hosts altered.runs
  have handed : turns.flatMap (Turn.handed (p.main.frames []) t.process.machine) = [[2], [3]] := by
    have same : ([[2], [3]] : List (List Word)).map some = _ := altered.operands.symm.trans operands
    exact (List.map_injective_iff.mpr (Option.some_injective _) same).symm
  have shown := texts decimals id Environment.printing_prints u altered.shows
  obtain ⟨before, after⟩ := altered.texts
  refine ⟨p, listing, x, info, first, second, output, s, t, u, altered, turns, whole, evaluates, handed, ?_⟩
  have text : u.text = t.text ++ _ := shown
  rw [before, after, List.nil_append] at text
  rw [text]
  exact (List.append_nil _).symm

end PascalX86
