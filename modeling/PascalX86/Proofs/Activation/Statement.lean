import PascalX86.Proofs.Activation.Expression
import PascalX86.Proofs.Frame.Statement

/-!
# Addresses in statements

By induction on the tree: the code of a statement writes to data at addresses that are known and to
the temporaries of its function, and there are no operands at its labels and jumps.
-/

set_option autoImplicit false

namespace PascalX86

open Register

variable {f : Frames} {σ : Scopes} {kept : Region} {bound used size : Nat} {ranges : List Range}

section Temporaries

theorem Flow.writes_temporary {φ : Flow} (inside : (Region.below used size).Within kept)
    (room : used + size < 2 ^ 31) : φ.Writes f σ kept (frameSlot (used + size)) size := by
  refine .inr ⟨rfl, ?_⟩
  rw [reaching_frameSlot room]
  exact inside

theorem takes_popTemporary (top : kept.start + kept.size < 2 ^ 31)
    (inside : (Region.below used size).Within kept) (room : used + size < 2 ^ 31)
    (small : size ≤ maxSize) :
    Code.Takes f σ kept (popMemory (frameSlot (used + size)) size) [] (Item.plains size) [] :=
  fun _ _ stack => ⟨_, rfl, flows_popMemory (Flow.writes_temporary inside room) top small stack⟩

end Temporaries

theorem lowers_conditionPasses (kept : Region) {e : Expr} (spans : f.Spans σ) (sound : e.Sound σ bound)
    (calls : e.All (Expr.Calls σ)) (integer : e.type = .integer) :
    Lowers False (conditionCode f e) fun code => Code.Passes f σ kept code e.ranges := by
  have pushed := Expr.lowers_takes kept spans sound calls
  rw [integer] at pushed
  refine pushed.bind fun code takes => .pure ?_
  have test : Code.Takes f σ kept [.instruction .test [eax, eax]] [] [] [] :=
    takes_computes (by decide) []
  exact (takes.silent ((takes_popEax .plain).append test)).passes

section Output

/-- Each argument is evaluated and moved to its place. -/
theorem lowers_outputPasses (spans : f.Spans σ) (top : kept.start + kept.size < 2 ^ 31)
    {arguments : List Expr} (each : ∀ e ∈ arguments, e.Sound σ bound ∧ e.type.isScalar = true)
    (calls : ∀ e ∈ arguments, e.All (Expr.Calls σ))
    (inside : (Region.below used (outputTemporaries f arguments)).Within kept)
    (room : used + outputTemporaries f arguments < 2 ^ 31) :
    Lowers False (outputOf f used arguments) fun output =>
      Code.Passes f σ kept output.code (rangesOf arguments) := by
  induction arguments generalizing used with
  | nil => exact .pure fun φ empty => ⟨φ, empty, .nil φ⟩
  | cons e arguments ih =>
      rw [List.forall_mem_cons] at each calls
      obtain ⟨⟨sound, scalar⟩, others⟩ := each
      rw [outputTemporaries] at inside room
      have later : (Region.below (used + e.temporary f) (outputTemporaries f arguments)).Within kept :=
        (Region.below_within (Nat.le_add_right _ _) (by omega)).trans inside
      have rest := ih others calls.2 later (by omega)
      unfold outputOf
      split
      · next value known =>
        have free : e.temporary f = 0 := by simp [Expr.temporary, known]
        have none : e.ranges = [] := by cases e <;> simp_all [Expr.value?, Expr.ranges]
        rw [free, Nat.add_zero] at rest
        rw [rangesOf, none]
        split
        · exact rest.bind fun output passes => .pure passes
        · exact .malformed id
      · next unknown =>
        split
        · next conversion shown =>
          split
          · next cell direct =>
            obtain ⟨info, symbol, rfl, -⟩ := Expr.exists_reference_of_direct? direct
            exact rest.bind fun output passes => .pure passes
          · next indirect =>
            have own : e.temporary f = e.type.size := by simp [Expr.temporary, unknown, indirect]
            have small := (Ty.proper_of_isScalar scalar).size_le
            rw [own] at rest inside room ⊢
            have first : (Region.below used e.type.size).Within kept :=
              (Region.below_within (Nat.le_refl _) (by omega)).trans inside
            refine (Expr.lowers_takes kept spans sound calls.1).bind fun code takes => ?_
            have popped := @takes_popTemporary f σ kept _ _ top first (by omega) small
            exact rest.bind fun output passes => .pure ((takes.silent popped).passes.append passes)
        · exact .runtimeString

theorem lowers_writePasses (spans : f.Spans σ) (top : kept.start + kept.size < 2 ^ 31)
    {arguments : List Expr} (newline : Bool)
    (each : ∀ e ∈ arguments, e.Sound σ bound ∧ e.type.isScalar = true)
    (calls : ∀ e ∈ arguments, e.All (Expr.Calls σ))
    (inside : (Region.below used (outputTemporaries f arguments)).Within kept)
    (room : used + outputTemporaries f arguments < 2 ^ 31) :
    Lowers False (writeCode f used arguments newline) fun code =>
      Code.Passes f σ kept code (rangesOf arguments) := by
  refine (lowers_outputPasses spans top each calls inside room).bind fun output passes => ?_
  dsimp only
  split
  · exact .pure passes
  · refine .pure (passes.silent fun φ empty => ⟨⟨φ.stack, .plain, none⟩, empty, .single (.output _)⟩)

end Output

section Input

variable {r : Reference}

/-- The address is in `eax` when the data at it is read. -/
theorem Reference.Refers.popped (refers : r.Refers f σ kept ranges size) {φ : Flow} (empty : φ.stack = []) :
    ∃ level, Code.Flows f σ kept φ (r.address ++ [.instruction .pop [eax]]) ranges
      ⟨[], .ref size, level⟩ := by
  obtain ⟨φ', stack, flows⟩ := refers.address φ [] empty
  have popped := flows.append (.single (.popEax stack))
  rw [List.append_nil] at popped
  exact ⟨_, popped⟩

theorem Reference.Refers.scanned (refers : r.Refers f σ kept ranges size) {format : String}
    (reads : (scan format [eax]).scanned ≤ size) :
    Code.Passes f σ kept (r.address ++ [.instruction .pop [eax]] ++ [scan format [eax]]) ranges := by
  intro φ empty
  obtain ⟨level, flows⟩ := refers.popped empty
  have read := flows.append (.single (.input (.inr rfl) reads))
  rw [List.append_nil] at read
  exact ⟨_, rfl, read⟩

/-- The dword of a character is cleared before its low byte is read. -/
theorem Reference.Refers.cleared (refers : r.Refers f σ kept ranges 4) {format : String}
    (reads : (scan format [eax]).scanned ≤ 4) :
    Code.Passes f σ kept (r.address ++ [.instruction .pop [eax]] ++
      [.instruction .mov [Memory.dword eax 0, .immediate 0], scan format [eax]]) ranges := by
  intro φ empty
  obtain ⟨level, flows⟩ := refers.popped empty
  have writes : Flow.Writes f σ kept ⟨[], .ref 4, level⟩ (Memory.dword eax 0) 4 :=
    .inl (.computed rfl rfl (by decide) ⟨Int.le_refl _, Int.le_refl _⟩)
  have clears : Command.Flows f σ kept ⟨[], .ref 4, level⟩
      (.instruction .mov [Memory.dword eax 0, .immediate 0]) [] ⟨[], .ref 4, level⟩ :=
    .replace (by decide) writes
  have read := flows.append (.cons clears (.single (.input (.inr rfl) reads)))
  rw [List.append_nil, List.append_nil] at read
  exact ⟨_, rfl, read⟩

theorem lowers_readTargetPasses (spans : f.Spans σ) {e : Expr} (sound : e.Sound σ bound)
    (calls : e.All (Expr.Calls σ)) (target : e.IsTarget) :
    Lowers False (readTargetCode f e) fun code => Code.Passes f σ kept code e.ranges := by
  have found := Expr.lowers_refers kept spans sound calls target.isReference
  refine found.bind fun r refers => ?_
  dsimp only
  split
  · next type =>
    rw [type] at refers
    exact .pure (refers.scanned (by decide))
  · next type =>
    rw [type] at refers
    exact .pure (refers.scanned (by decide))
  · next type =>
    rw [type] at refers
    exact .pure (refers.cleared (by decide))
  · exact .malformed id

theorem lowers_readPasses (spans : f.Spans σ) (newline : Bool) {targets : List Expr}
    (each : ∀ e ∈ targets, e.Sound σ bound ∧ e.IsTarget)
    (calls : ∀ e ∈ targets, e.All (Expr.Calls σ)) :
    Lowers False (readCode f newline targets) fun code =>
      Code.Passes f σ kept code (rangesOf targets) := by
  induction targets with
  | nil =>
      cases newline with
      | true =>
          exact .pure fun φ empty => ⟨⟨φ.stack, .plain, none⟩, empty,
            .single (@Command.Flows.input f σ kept φ _ 0 (.inl (by decide)) (by decide))⟩
      | false => exact .pure fun φ empty => ⟨φ, empty, .nil φ⟩
  | cons e targets ih =>
      rw [List.forall_mem_cons] at each calls
      exact (lowers_readTargetPasses spans each.1.1 calls.1 each.1.2).bind fun code passes =>
        (ih each.2 calls.2).bind fun rest passes' => .pure (passes.append passes')

end Input

section Loops

variable {r : Reference}

/-- The counter is found and stepped. -/
theorem Reference.Refers.advance (refers : r.Refers f σ kept ranges 4) (direction : Direction) :
    Code.Passes f σ kept (r.resolve.1 ++ [.instruction direction.step [r.resolve.2, .immediate 1]])
      ranges := by
  intro φ empty
  obtain ⟨φ', stack, flows, opens⟩ := refers.resolve (by decide) φ
  have replaces : direction.step.replaces = true := by cases direction <;> rfl
  have steps : Command.Flows f σ kept φ'
      (.instruction direction.step [r.resolve.2, .immediate 1]) [] φ' :=
    .replace replaces (.inl opens)
  have stepped := flows.append (.single steps)
  rw [List.append_nil] at stepped
  exact ⟨φ', stack.trans empty, stepped⟩

/-- The counter is found and compared with the bound. -/
theorem Reference.Refers.compare (refers : r.Refers f σ kept ranges 4) (last : Memory) :
    Code.Passes f σ kept (r.resolve.1 ++
      [.instruction .mov [eax, r.resolve.2], .instruction .cmp [eax, last]]) ranges := by
  intro φ empty
  obtain ⟨φ', stack, flows, -⟩ := refers.resolve (by decide) φ
  obtain ⟨φ'', stack', compared⟩ := @takes_computes f σ kept
    [.instruction .mov [eax, r.resolve.2], .instruction .cmp [eax, last]]
    (by simp [Command.computes, Opcode.computes, Opcode.isJump]) [] φ' [] (stack.trans empty)
  have both := flows.append compared
  rw [List.append_nil] at both
  exact ⟨φ'', stack', both⟩

end Loops

section Trees

/-- The temporaries of a statement are among the bytes that are kept, in range. -/
def Site.Fits (f : Frames) (kept : Region) (s : Site) : Prop :=
  (Region.below s.used (s.stmt.temporaries f)).Within kept ∧ s.used + s.stmt.temporaries f < 2 ^ 31

theorem Site.Fits.inside {s t : Site} (fits : s.Fits f kept) (contains : s.Contains t) :
    t.Fits f kept := by
  obtain ⟨inner, outer⟩ := contains.temporaries (f := f)
  exact ⟨(Region.below_within inner outer).trans fits.1, Nat.lt_of_le_of_lt outer fits.2⟩

theorem Site.Fits.part {s t : Site} (fits : s.Fits f kept) (part : s.Part t) : t.Fits f kept :=
  fits.inside (.single (.inl part))

theorem Site.Fits.turn {s t : Site} {l : Loop} (fits : s.Fits f kept) (turn : s.Turn l t) :
    t.Fits f kept :=
  fits.inside (.single (.inr ⟨l, turn⟩))

theorem Code.Passes.mark {code : Code} (passes : Code.Passes f σ kept code ranges) (marks : Code)
    (each : ∀ c ∈ marks, c.isMark = true) : Code.Passes f σ kept (code ++ marks) ranges :=
  passes.silent (Code.passes_marks each)

mutual

theorem Stmt.lowers_passes (spans : f.Spans σ) (top : kept.start + kept.size < 2 ^ 31) :
    ∀ {s : Stmt} (loop? : Option Loop) (used label : Nat), s.Sound σ bound →
    s.All (Expr.Calls σ) (Stmt.Calls σ) → Site.Fits f kept ⟨loop?, used, label, s⟩ →
    Lowers False (s.code f loop? used label) fun code => Code.Passes f σ kept code s.ranges
  | .assign info target value, _, _, _, sound, calls, _ => by
      obtain ⟨checked, left, right⟩ := Stmt.all_assign.mp sound
      obtain ⟨-, inLeft, inRight⟩ := Stmt.all_assign.mp calls
      obtain ⟨reference, same⟩ := checked.obeys
      have pushed := Expr.lowers_takes kept spans right inRight
      have found := Expr.lowers_refers kept spans left inLeft reference
      refine pushed.bind fun code takes => found.bind fun r refers => .pure ?_
      rw [← Ty.size_eq_of_same same] at takes
      exact (takes.append (refers.store top left.self.proper.size_le)).passes
  | .ifThen info condition body, loop?, used, label, sound, calls, fits => by
      obtain ⟨⟨checked, test⟩, inner⟩ := Stmt.all_ifThen.mp sound
      obtain ⟨⟨-, inTest⟩, calls⟩ := Stmt.all_ifThen.mp calls
      refine (lowers_conditionPasses kept spans test inTest checked.obeys).bind fun test passes => ?_
      refine (Stmt.lowers_passes spans top loop? used (label + 2) inner calls
        (fits.part (.ifThen ..))).bind fun body passes' => .pure ?_
      have branch : Code.Passes f σ kept [jump .jz (numbered "else" label)] [] :=
        Code.passes_marks (by simp [jump, Command.isMark, Opcode.isJump])
      exact (passes.append (passes'.after branch)).mark _ (by simp [Command.isMark])
  | .ifElse info condition body otherwise, loop?, used, label, sound, calls, fits => by
      obtain ⟨⟨checked, test⟩, inner, inner'⟩ := Stmt.all_ifElse.mp sound
      obtain ⟨⟨-, inTest⟩, calls, calls'⟩ := Stmt.all_ifElse.mp calls
      refine (lowers_conditionPasses kept spans test inTest checked.obeys).bind fun test passes => ?_
      refine (Stmt.lowers_passes spans top loop? used (label + 2) inner calls
        (fits.part (.first ..))).bind fun first passes' => ?_
      refine (Stmt.lowers_passes spans top loop? used (label + 2 + body.labels) inner' calls'
        (fits.part (.second ..))).bind fun second passes'' => .pure ?_
      have branch : Code.Passes f σ kept [jump .jz (numbered "else" label)] [] :=
        Code.passes_marks (by simp [jump, Command.isMark, Opcode.isJump])
      have taken := (passes.append (passes'.after branch)).mark
        [jump .jmp (numbered "endif" (label + 1)), .label (numbered "else" label)]
        (by simp [jump, Command.isMark, Opcode.isJump])
      exact (taken.append passes'').mark _ (by simp [Command.isMark])
  | .while info condition body, loop?, used, label, sound, calls, fits => by
      obtain ⟨⟨checked, test⟩, inner⟩ := Stmt.all_while.mp sound
      obtain ⟨⟨-, inTest⟩, calls⟩ := Stmt.all_while.mp calls
      refine (Stmt.lowers_passes spans top _ used (label + 3) inner calls
        (fits.turn (.while ..))).bind fun body passes' => ?_
      refine (lowers_conditionPasses kept spans test inTest checked.obeys).bind
        fun test passes => .pure ?_
      have enter : Code.Passes f σ kept
          [jump .jmp (numbered "while_cond" label), .label (numbered "while_body" (label + 1))] [] :=
        Code.passes_marks (by simp [jump, Command.isMark, Opcode.isJump])
      have turn := (passes'.after enter).mark [.label (numbered "while_cond" label)]
        (by simp [Command.isMark])
      exact (turn.append passes).mark _ (by simp [jump, Command.isMark, Opcode.isJump])
  | .for info counter first last direction body, loop?, used, label, sound, calls, fits => by
      obtain ⟨⟨checked, hcounter, hfirst, hlast⟩, inner⟩ := Stmt.all_for.mp sound
      obtain ⟨⟨-, inCounter, inFirst, inLast⟩, calls⟩ := Stmt.all_for.mp calls
      obtain ⟨target, like, sameFirst, sameLast, -⟩ := checked.obeys
      have size := Ty.size_of_isIntegerLike like
      have found := Expr.lowers_refers kept spans hcounter inCounter target.isReference
      have pushed := Expr.lowers_takes kept spans hfirst inFirst
      have pushed' := Expr.lowers_takes kept spans hlast inLast
      refine pushed.bind fun first takes => found.bind fun r refers => pushed'.bind fun last takes' => ?_
      refine (Stmt.lowers_passes spans top _ (used + dwordSize) (label + 4) inner calls
        (fits.turn (.for ..))).bind fun body passes => .pure ?_
      rw [sameFirst] at takes
      rw [sameLast, size] at takes'
      have start := (takes.append (refers.store top hcounter.self.proper.size_le)).passes
      rw [size] at refers
      obtain ⟨inside, room⟩ := fits
      rw [Stmt.temporaries] at inside room
      dsimp only at inside room
      have own : (Region.below used dwordSize).Within kept :=
        (Region.below_within (Nat.le_refl _) (by omega)).trans inside
      have popped := @takes_popTemporary f σ kept used dwordSize top own (by omega) (by decide)
      rw [popMemory, frameSlot, Memory.dwords_dword] at popped
      have enter := ((takes'.silent popped).passes).mark
        [jump .jmp (numbered "for_cond" label), .label (numbered "for_body" (label + 1))]
        (by simp [jump, Command.isMark, Opcode.isJump])
      have next : Code.Passes f σ kept [.label (numbered "for_next" (label + 2))] [] :=
        Code.passes_marks (by simp [Command.isMark])
      have advance := ((refers.advance direction).after next).mark
        [.label (numbered "for_cond" label)] (by simp [Command.isMark])
      have compare := (refers.compare (frameSlot (used + dwordSize))).mark
        [jump direction.again (numbered "for_body" (label + 1)), .label (numbered "for_end" (label + 3))]
        (by cases direction <;> simp [jump, Command.isMark, Opcode.isJump, Direction.again])
      have turns := (((start.append enter).append passes).append advance).append compare
      simp only [List.append_assoc, List.cons_append, List.nil_append, Stmt.ranges] at turns ⊢
      exact turns
  | .continue info, loop?, _, _, _, _, _ => by
      cases loop? with
      | none => exact .malformed id
      | some loop => exact .pure (Code.passes_marks (by simp [jump, Command.isMark, Opcode.isJump]))
  | .break info, loop?, _, _, _, _, _ => by
      cases loop? with
      | none => exact .malformed id
      | some loop => exact .pure (Code.passes_marks (by simp [jump, Command.isMark, Opcode.isJump]))
  | .read info targets newline, _, _, _, sound, calls, _ => by
      obtain ⟨checked, each⟩ := Stmt.all_read.mp sound
      exact lowers_readPasses spans newline (fun e mem => ⟨each e mem, (checked.obeys e mem).1⟩)
        (Stmt.all_read.mp calls).2
  | .write info arguments newline, loop?, used, label, sound, calls, fits => by
      obtain ⟨checked, each⟩ := Stmt.all_write.mp sound
      exact lowers_writePasses spans top newline (fun e mem => ⟨each e mem, checked.obeys e mem⟩)
        (Stmt.all_write.mp calls).2 fits.1 fits.2
  | .call info function arguments, _, _, _, sound, calls, _ => by
      obtain ⟨checked, each⟩ := Stmt.all_call.mp sound
      obtain ⟨named, inEach⟩ := Stmt.all_call.mp calls
      have sound : function.Sound := checked.grounded
      have named : σ.Names function := named
      obtain ⟨same, takes⟩ := checked.obeys
      have call : Lowers False (callCode info function (argumentsCode f function.parameters arguments))
          fun code => Code.Takes f σ kept code (rangesOf arguments) []
            (Item.plains function.result.size) :=
        lowers_callTakes sound named (lowers_argumentsTakes kept spans each inEach takes)
      have room : info.type.size ≤ maxSize := same ▸ sound.result_le
      rw [← same] at call
      refine call.bind fun code takes => .pure ?_
      exact (takes.silent (takes_discard (Item.length_plains info.type.dvd_size).symm room)).passes
  | .block info statements, loop?, used, label, sound, calls, fits => by
      obtain ⟨-, each⟩ := Stmt.all_block.mp sound
      exact lowers_blockPasses spans top loop? used label each (Stmt.all_block.mp calls).2
        fun before x after split => fits.part (split ▸ .block ..)

theorem lowers_blockPasses (spans : f.Spans σ) (top : kept.start + kept.size < 2 ^ 31) :
    ∀ {statements : List Stmt} (loop? : Option Loop) (used label : Nat),
    (∀ s ∈ statements, s.Sound σ bound) →
    (∀ s ∈ statements, s.All (Expr.Calls σ) (Stmt.Calls σ)) →
    (∀ before x after, statements = before ++ x :: after →
      Site.Fits f kept ⟨loop?, used, label + labelsOf before, x⟩) →
    Lowers False (blockCode f loop? used label statements) fun code =>
      Code.Passes f σ kept code (rangesOfBlock statements)
  | [], _, _, _, _, _, _ => .pure fun φ empty => ⟨φ, empty, .nil φ⟩
  | s :: statements, loop?, used, label, each, calls, fits => by
      obtain ⟨head, rest⟩ := List.forall_mem_cons.mp each
      obtain ⟨inHead, inRest⟩ := List.forall_mem_cons.mp calls
      have first := Stmt.lowers_passes spans top loop? used label head inHead
        (fits [] s statements rfl)
      have others := lowers_blockPasses spans top loop? used (label + s.labels) rest inRest
        fun before x after split => by
          rw [Nat.add_assoc]
          exact fits (s :: before) x after (split ▸ rfl)
      exact first.bind fun code passes => others.bind fun code' passes' =>
        .pure (passes.append passes')

end

end Trees

end PascalX86
