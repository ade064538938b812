import Mathlib.Data.Option.Basic
import PascalX86.Proofs.Frame.Expression
import PascalX86.Proofs.Frame.Temporary
import PascalX86.Proofs.Lowering.Statement

/-!
# Accesses of statements

Besides what their expressions touch, statements touch the temporaries that they keep. A loop finds
its counter again after each label, and so may go by what `esi` was loaded from there.
-/

set_option autoImplicit false

namespace PascalX86

open Register

variable {f : Frames} {σ : Scopes} {hidden : Region → Prop} {bound : Nat}

section Temporaries

variable {used size : Nat} {m : Memory}

theorem Frames.touches_temporary (mem : hidden (.below used size)) (room : used + size < 2 ^ 31)
    (held : Option Memory) (base : m.base = .register ebp)
    (within : m.region.Within ((frameSlot (used + size)).reaching size)) :
    f.Touches σ hidden held m := by
  rw [reaching_frameSlot room] at within
  exact .temporary mem base within

theorem Frames.safe_popTemporary (mem : hidden (.below used size)) (room : used + size < 2 ^ 31)
    (small : size ≤ maxSize) :
    (popMemory (frameSlot (used + size)) size).Safe (f.Touches σ hidden) := by
  apply safe_of_forall
  intro c inside m access held
  obtain ⟨d, part, accesses, -⟩ := accesses_of_mem_popMemory inside
  rw [accesses, List.mem_singleton] at access
  subst access
  have top : (frameSlot (used + size)).displacement.toInt + size < 2 ^ 31 := by
    have start : (frameSlot (used + size)).displacement.toInt = -(used + size : Nat) :=
      toInt_neg_ofNat (Nat.le_of_lt room)
    omega
  exact touches_temporary mem room held (base_of_mem_dwords part) (within_of_mem_dwords part small top)

end Temporaries

theorem safe_labels {code : Code} (silent : ∀ c ∈ code, c.accesses = []) (P : Option Memory → Memory → Prop) :
    code.Safe P :=
  safe_of_forall fun c mem m inside => by simp [silent c mem] at inside

/-- The cell that a reference to a dword stands for may be touched right after it was found. -/
theorem Reference.Points.cell {r : Reference} (points : r.Points (f.Touches σ hidden) 4)
    (held : Option Memory) : f.Touches σ hidden (Code.pointer? held r.resolve.1) r.resolve.2 := by
  have width : r.resolve.2.width = .dword := by
    obtain ⟨code, place⟩ := r
    cases place with
    | memory m => exact points.width m rfl
    | stack => rfl
  apply points.dword f.touches_computed _ held
  have same : (r.resolve.2.sized .dword).offset (Int32.ofNat 0) = r.resolve.2 := by
    rw [← width]
    simp [Memory.offset, Memory.sized]
  exact List.mem_map.mpr ⟨0, by decide, same⟩

theorem lowers_conditionAccesses (hidden : Region → Prop) {e : Expr} (spans : f.Spans σ) (sound : e.Sound σ bound) :
    Lowers False (conditionCode f e) fun code => code.Safe (f.Touches σ hidden) := by
  have test : Code.Safe (f.Touches σ hidden) [.instruction .pop [eax], .instruction .test [eax, eax]] :=
    f.safe_computed (by decide)
  exact (Expr.lowers_accesses hidden spans sound).bind fun code safe => .pure (safe.append test)

section Output

/-- A variable of the frame is found from its frame pointer, without code. -/
theorem Expr.exists_reference_of_direct? {e : Expr} {cell : Memory} (direct : e.direct? f = some cell) :
    ∃ info symbol, e = .var info symbol ∧ f.reference info.span symbol = .ok ⟨[], .memory cell⟩ ∧
      cell.base = .register ebp := by
  cases e with
  | var info symbol =>
      simp only [direct?, bind, Option.bind_eq_some_iff] at direct
      obtain ⟨slot, found, u, allowed, ⟨code, place⟩, answered, same⟩ := direct
      have allowed : slot.level = f.level ∧ (symbol.kind = .var ∨ symbol.kind = .const) := by
        by_contra refused
        rw [guard, if_neg refused] at allowed
        cases allowed
      obtain ⟨level, kind⟩ := allowed
      obtain rfl : place = .memory cell := by
        cases place <;> simp_all
      have answered := toOption_eq_some.mp answered
      refine ⟨info, symbol, rfl, ?_⟩
      have shape := answered
      simp only [Frames.reference, found, bind_eq_ok] at shape
      obtain ⟨d, -, shape⟩ := shape
      have own : f.pointer slot.level = ([], ebp) := by rw [Frames.pointer, if_pos level]
      rw [own] at shape
      rcases kind with kind | kind <;> rw [kind] at shape <;> cases shape <;> exact ⟨answered, rfl⟩
  | _ => cases direct

theorem Conversion.bytes_width {t : Ty} {c : Conversion} (h : Conversion.ofType? t = some c) :
    c.width.bytes = t.size := by
  cases t <;> cases h <;> rfl

theorem Frames.touches_direct {e : Expr} {cell : Memory} {c : Conversion} (spans : f.Spans σ)
    (sound : e.Sound σ bound) (direct : e.direct? f = some cell)
    (conversion : Conversion.ofType? e.type = some c) (held : Option Memory) :
    f.Touches σ hidden held (cell.sized c.width) := by
  obtain ⟨info, symbol, rfl, answered, -⟩ := Expr.exists_reference_of_direct? direct
  have points := (Expr.lowers_points hidden spans sound rfl).result _ answered
  rcases points.place cell rfl with base | ⟨o, within, -, -, good⟩
  · exact f.touches_computed held _ eax base (by decide)
  · rw [← Conversion.bytes_width conversion] at within
    exact good held (cell.sized c.width) rfl within

theorem lowers_outputAccesses (spans : f.Spans σ) {arguments : List Expr} {used : Nat}
    (each : ∀ e ∈ arguments, e.Sound σ bound ∧ e.type.isScalar = true)
    (kept : ∀ r ∈ outputRegions f used arguments, hidden r)
    (room : used + outputTemporaries f arguments < 2 ^ 31) :
    Lowers False (outputOf f used arguments) fun output =>
      output.code.Safe (f.Touches σ hidden) ∧
        ∀ m ∈ output.operands, ∀ held, f.Touches σ hidden held m := by
  induction arguments generalizing used with
  | nil => exact .pure ⟨safe_nil, by simp⟩
  | cons e arguments ih =>
      rw [List.forall_mem_cons] at each
      rw [outputRegions, List.forall_mem_cons] at kept
      rw [outputTemporaries, ← Nat.add_assoc] at room
      obtain ⟨⟨sound, scalar⟩, others⟩ := each
      have rest := ih others kept.2 room
      unfold outputOf
      split
      · next value known =>
        have free : e.temporary f = 0 := by simp [Expr.temporary, known]
        split
        · rw [free, Nat.add_zero] at rest
          exact rest.bind fun output both => .pure both
        · exact .malformed id
      · next unknown =>
        split
        · next conversion shown =>
          have joined {code : Code} {cell : Memory} (safe : code.Safe (f.Touches σ hidden))
              (touches : ∀ held, f.Touches σ hidden held (cell.sized conversion.width)) :
              Lowers False (do
                let rest ← outputOf f (used + e.temporary f) arguments
                return (⟨code ++ rest.code, .conversion conversion :: rest.pieces,
                  cell.sized conversion.width :: rest.operands⟩ : Output))
                fun output => output.code.Safe (f.Touches σ hidden) ∧
                  ∀ m ∈ output.operands, ∀ held, f.Touches σ hidden held m :=
            rest.bind fun output both =>
              .pure ⟨safe.append both.1, List.forall_mem_cons.mpr ⟨touches, both.2⟩⟩
          split
          · next cell direct =>
            exact joined safe_nil fun held => f.touches_direct spans sound direct shown held
          · next indirect =>
            have size : e.temporary f = e.type.size := by simp [Expr.temporary, unknown, indirect]
            have small := (Ty.proper_of_isScalar scalar).size_le
            rw [size] at kept room
            have value : Lowers False (e.code f) fun code => code.Safe (f.Touches σ hidden) :=
              Expr.lowers_accesses hidden spans sound
            refine value.bind fun code safe => joined ?_ fun held => ?_
            · exact safe.append (f.safe_popTemporary kept.1 (by omega) small)
            · apply f.touches_temporary kept.1 (by omega) held rfl
              rw [← Conversion.bytes_width shown]
              exact ⟨Int.le_refl _, Int.le_refl _⟩
        · exact .runtimeString

theorem lowers_writeAccesses (spans : f.Spans σ) {arguments : List Expr} {used : Nat} (newline : Bool)
    (each : ∀ e ∈ arguments, e.Sound σ bound ∧ e.type.isScalar = true)
    (kept : ∀ r ∈ outputRegions f used arguments, hidden r)
    (room : used + outputTemporaries f arguments < 2 ^ 31) :
    Lowers False (writeCode f used arguments newline) fun code => code.Safe (f.Touches σ hidden) := by
  refine (lowers_outputAccesses spans each kept room).bind fun output both => ?_
  obtain ⟨safe, operands⟩ := both
  dsimp only
  split
  · exact .pure safe
  · refine .pure (safe.append ?_)
    apply safe_of_forall
    rw [List.forall_mem_singleton]
    intro m mem held
    have mem : m ∈ output.operands := by
      simpa [Command.accesses, Operand.memory?, List.filterMap_map] using mem
    exact operands m mem held

end Output

section Input

theorem lowers_readTargetAccesses (spans : f.Spans σ) {e : Expr} (sound : e.Sound σ bound)
    (target : e.IsTarget) :
    Lowers False (readTargetCode f e) fun code => code.Safe (f.Touches σ hidden) := by
  have points : Lowers False (e.reference f) fun r => r.Points (f.Touches σ hidden) e.type.size :=
    Expr.lowers_points hidden spans sound target.isReference
  refine points.bind fun r points => ?_
  have popped : Code.Safe (f.Touches σ hidden) [.instruction .pop [eax]] := f.safe_computed (by decide)
  have scanned (format : String) : Code.Safe (f.Touches σ hidden) [scan format [eax]] :=
    safe_labels (by simp [scan, Command.accesses, Operand.memory?]) _
  have cleared (format : String) : Code.Safe (f.Touches σ hidden)
      [.instruction .mov [Memory.dword eax 0, .immediate 0], scan format [eax]] := by
    show Code.Safe _ ([.instruction .mov [Memory.dword eax 0, .immediate 0]] ++ [scan format [eax]])
    exact (f.safe_computed (by decide)).append (scanned format)
  have address := points.address.append popped
  dsimp only
  split
  · exact .pure (address.append (scanned _))
  · exact .pure (address.append (scanned _))
  · exact .pure (address.append (cleared _))
  · exact .malformed id

theorem lowers_readAccesses (spans : f.Spans σ) (newline : Bool) {targets : List Expr}
    (each : ∀ e ∈ targets, e.Sound σ bound ∧ e.IsTarget) :
    Lowers False (readCode f newline targets) fun code => code.Safe (f.Touches σ hidden) := by
  induction targets with
  | nil =>
      have skipped : Code.Safe (f.Touches σ hidden) [skipLine] :=
        safe_labels (by simp [skipLine, scan, Command.accesses, Operand.memory?]) _
      cases newline with
      | true => exact .pure skipped
      | false => exact .pure safe_nil
  | cons e targets ih =>
      rw [List.forall_mem_cons] at each
      exact (lowers_readTargetAccesses spans each.1.1 each.1.2).bind fun code safe =>
        (ih each.2).bind fun rest safe' => .pure (safe.append safe')

end Input

section Loops

variable {r : Reference}

/-- After a reference was found, its cell may be stepped, up to the next label. -/
theorem Reference.Points.advance (points : r.Points (f.Touches σ hidden) 4) (direction : Direction)
    (test : String) :
    Code.Safe (f.Touches σ hidden)
      (r.resolve.1 ++ [.instruction direction.step [r.resolve.2, .immediate 1], .label test]) := by
  intro held
  rw [Code.accesses_append, List.forall_mem_append]
  refine ⟨points.resolve held, ?_⟩
  have cell := points.cell held
  cases direction <;> simpa [Code.accesses, Command.accesses, Operand.memory?, Direction.step] using cell

theorem Reference.Points.compare (points : r.Points (f.Touches σ hidden) 4) {last : Memory}
    (touches : ∀ held, f.Touches σ hidden held last) (direction : Direction) (start stop : String) :
    Code.Safe (f.Touches σ hidden)
      (r.resolve.1 ++ [.instruction .mov [eax, r.resolve.2], .instruction .cmp [eax, last],
        jump direction.again start, .label stop]) := by
  intro held
  rw [Code.accesses_append, List.forall_mem_append]
  refine ⟨points.resolve held, ?_⟩
  have cell := points.cell held
  -- Neither comparing nor the move before it changes what `esi` holds.
  have both : ∀ a ∈ Code.accesses (Code.pointer? held r.resolve.1)
      [.instruction .mov [eax, r.resolve.2], .instruction .cmp [eax, last]],
      f.Touches σ hidden a.1 a.2 :=
    List.forall_mem_cons.mpr ⟨cell, List.forall_mem_singleton.mpr (touches _)⟩
  cases direction <;> exact both

end Loops

section Trees

/-- All temporaries of a statement and those in it are among the hidden ones, in range. -/
def Site.Keeps (f : Frames) (hidden : Region → Prop) (s : Site) : Prop :=
  s.used + s.stmt.temporaries f < 2 ^ 31 ∧ ∀ t, s.Contains t → ∀ r ∈ t.hidden f, hidden r

theorem Site.Keeps.inside {s t : Site} (keeps : s.Keeps f hidden) (contains : s.Contains t) :
    t.Keeps f hidden := by
  have counted := (contains.temporaries (f := f)).2
  refine ⟨Nat.lt_of_le_of_lt counted keeps.1, fun u inner => keeps.2 u ?_⟩
  exact Relation.ReflTransGen.trans contains inner

theorem Site.Keeps.part {s t : Site} (keeps : s.Keeps f hidden) (part : s.Part t) : t.Keeps f hidden :=
  keeps.inside (.single (.inl part))

theorem Site.Keeps.turn {s t : Site} {l : Loop} (keeps : s.Keeps f hidden) (turn : s.Turn l t) :
    t.Keeps f hidden :=
  keeps.inside (.single (.inr ⟨l, turn⟩))

mutual

/-- Statements touch what their expressions do, and the temporaries that are kept for them. -/
theorem Stmt.lowers_accesses (hidden : Region → Prop) (spans : f.Spans σ) : ∀ {s : Stmt} (loop? : Option Loop)
    (used label : Nat), s.Sound σ bound → Site.Keeps f hidden ⟨loop?, used, label, s⟩ →
    Lowers False (s.code f loop? used label) fun code => code.Safe (f.Touches σ hidden)
  | .assign info target value, _, _, _, sound, _ => by
      obtain ⟨checked, left, right⟩ := Stmt.all_assign.mp sound
      have found : Lowers False (target.reference f) fun r =>
          r.Points (f.Touches σ hidden) target.type.size :=
        Expr.lowers_points hidden spans left checked.obeys.1
      exact (Expr.lowers_accesses hidden spans right).bind fun code safe => found.bind fun r points =>
        .pure (safe.append (points.store f.touches_computed))
  | .ifThen info condition body, loop?, used, label, sound, keeps => by
      obtain ⟨⟨-, test⟩, inner⟩ := Stmt.all_ifThen.mp sound
      refine (lowers_conditionAccesses hidden spans test).bind fun test safe => ?_
      refine (Stmt.lowers_accesses hidden spans loop? used (label + 2) inner (keeps.part (.ifThen ..))).bind
        fun body safe' => .pure ?_
      have branch : Code.Safe (f.Touches σ hidden) [jump .jz (numbered "else" label)] :=
        safe_labels (by simp [jump, Command.accesses, Operand.memory?]) _
      have ends : Code.Safe (f.Touches σ hidden)
          [.label (numbered "else" label), .label (numbered "endif" (label + 1))] :=
        safe_labels (by simp [Command.accesses]) _
      exact (safe.append (branch.append safe')).append ends
  | .ifElse info condition body otherwise, loop?, used, label, sound, keeps => by
      obtain ⟨⟨-, test⟩, inner, inner'⟩ := Stmt.all_ifElse.mp sound
      refine (lowers_conditionAccesses hidden spans test).bind fun test safe => ?_
      refine (Stmt.lowers_accesses hidden spans loop? used (label + 2) inner (keeps.part (.first ..))).bind
        fun first safe' => ?_
      refine (Stmt.lowers_accesses hidden spans loop? used (label + 2 + body.labels) inner'
        (keeps.part (.second ..))).bind fun second safe'' => .pure ?_
      have branch : Code.Safe (f.Touches σ hidden) [jump .jz (numbered "else" label)] :=
        safe_labels (by simp [jump, Command.accesses, Operand.memory?]) _
      have middle : Code.Safe (f.Touches σ hidden)
          [jump .jmp (numbered "endif" (label + 1)), .label (numbered "else" label)] :=
        safe_labels (by simp [jump, Command.accesses, Operand.memory?]) _
      have stop : Code.Safe (f.Touches σ hidden) [.label (numbered "endif" (label + 1))] :=
        safe_labels (by simp [Command.accesses]) _
      exact (((safe.append (branch.append safe')).append middle).append safe'').append stop
  | .while info condition body, loop?, used, label, sound, keeps => by
      obtain ⟨⟨-, test⟩, inner⟩ := Stmt.all_while.mp sound
      refine (Stmt.lowers_accesses hidden spans _ used (label + 3) inner (keeps.turn (.while ..))).bind
        fun body safe' => ?_
      refine (lowers_conditionAccesses hidden spans test).bind fun test safe => .pure ?_
      have enter : Code.Safe (f.Touches σ hidden)
          [jump .jmp (numbered "while_cond" label), .label (numbered "while_body" (label + 1))] :=
        safe_labels (by simp [jump, Command.accesses, Operand.memory?]) _
      have again : Code.Safe (f.Touches σ hidden) [.label (numbered "while_cond" label)] :=
        safe_labels (by simp [Command.accesses]) _
      have stop : Code.Safe (f.Touches σ hidden)
          [jump .jnz (numbered "while_body" (label + 1)), .label (numbered "while_end" (label + 2))] :=
        safe_labels (by simp [jump, Command.accesses, Operand.memory?]) _
      exact (((enter.append safe').append again).append safe).append stop
  | .for info counter first last direction body, loop?, used, label, sound, keeps => by
      obtain ⟨⟨checked, hcounter, hfirst, hlast⟩, inner⟩ := Stmt.all_for.mp sound
      obtain ⟨target, like, -⟩ := checked.obeys
      have size := Ty.size_of_isIntegerLike like
      have found : Lowers False (counter.reference f) fun r => r.Points (f.Touches σ hidden) 4 := by
        rw [← size]
        exact Expr.lowers_points hidden spans hcounter target.isReference
      refine (Expr.lowers_accesses hidden spans hfirst).bind fun first safe => found.bind fun r points => ?_
      refine (Expr.lowers_accesses hidden spans hlast).bind fun last safe' => ?_
      refine (Stmt.lowers_accesses hidden spans _ (used + dwordSize) (label + 4) inner
        (keeps.turn (.for ..))).bind fun body safe'' => .pure ?_
      have kept : hidden (.below used dwordSize) := keeps.2 _ .refl _ List.mem_cons_self
      have room : used + dwordSize < 2 ^ 31 := by
        have := keeps.1
        simp only [Stmt.temporaries] at this
        omega
      have touches (held : Option Memory) :
          f.Touches σ hidden held (frameSlot (used + dwordSize)) :=
        f.touches_temporary kept room held rfl ⟨Int.le_refl _, Int.le_refl _⟩
      have enter : Code.Safe (f.Touches σ hidden) [.instruction .pop [frameSlot (used + dwordSize)],
          jump .jmp (numbered "for_cond" label), .label (numbered "for_body" (label + 1))] := by
        apply safe_of_forall
        simp [Command.accesses, Operand.memory?, jump]
        exact touches
      have next : Code.Safe (f.Touches σ hidden) [.label (numbered "for_next" (label + 2))] :=
        safe_labels (by simp [Command.accesses]) _
      have advance := points.advance direction (numbered "for_cond" label)
      have compare := points.compare touches direction (numbered "for_body" (label + 1))
        (numbered "for_end" (label + 3))
      have start := ((safe.append (points.store f.touches_computed)).append safe').append enter
      have turns := ((start.append safe'').append (next.append advance)).append compare
      rw [← size] at turns
      simp only [List.append_assoc, List.cons_append, List.nil_append] at turns ⊢
      exact turns
  | .continue info, loop?, _, _, _, _ => by
      cases loop? with
      | none => exact .malformed id
      | some loop => exact .pure (safe_labels (by simp [jump, Command.accesses, Operand.memory?]) _)
  | .break info, loop?, _, _, _, _ => by
      cases loop? with
      | none => exact .malformed id
      | some loop => exact .pure (safe_labels (by simp [jump, Command.accesses, Operand.memory?]) _)
  | .read info targets newline, _, _, _, sound, _ => by
      obtain ⟨checked, each⟩ := Stmt.all_read.mp sound
      exact lowers_readAccesses spans newline fun e mem => ⟨each e mem, (checked.obeys e mem).1⟩
  | .write info arguments newline, loop?, used, label, sound, keeps => by
      obtain ⟨checked, each⟩ := Stmt.all_write.mp sound
      exact lowers_writeAccesses spans newline (fun e mem => ⟨each e mem, checked.obeys e mem⟩)
        (keeps.2 _ .refl) keeps.1
  | .call info function arguments, _, _, _, sound, _ => by
      obtain ⟨checked, each⟩ := Stmt.all_call.mp sound
      have call : Lowers False
          (callCode info function (argumentsCode f function.parameters arguments))
          fun code => code.Safe (f.Touches σ hidden) :=
        f.lowers_callAccesses (lowers_argumentsAccesses hidden spans each checked.obeys.2)
      exact call.bind fun code safe => .pure (safe.append (f.safe_discard _))
  | .block info statements, loop?, used, label, sound, keeps => by
      obtain ⟨-, each⟩ := Stmt.all_block.mp sound
      exact lowers_blockAccesses hidden spans loop? used label each fun before x after split =>
        keeps.part (split ▸ .block ..)

theorem lowers_blockAccesses (hidden : Region → Prop) (spans : f.Spans σ) : ∀ {statements : List Stmt} (loop? : Option Loop)
    (used label : Nat), (∀ s ∈ statements, s.Sound σ bound) →
    (∀ before x after, statements = before ++ x :: after →
      Site.Keeps f hidden ⟨loop?, used, label + labelsOf before, x⟩) →
    Lowers False (blockCode f loop? used label statements) fun code =>
      code.Safe (f.Touches σ hidden)
  | [], _, _, _, _, _ => .pure safe_nil
  | s :: statements, loop?, used, label, each, keeps => by
      obtain ⟨head, rest⟩ := List.forall_mem_cons.mp each
      have first := Stmt.lowers_accesses hidden spans loop? used label head (keeps [] s statements rfl)
      have others := lowers_blockAccesses hidden spans loop? used (label + s.labels) rest
        fun before x after split => by
          rw [Nat.add_assoc]
          exact keeps (s :: before) x after (split ▸ rfl)
      exact first.bind fun code safe => others.bind fun code' safe' => .pure (safe.append safe')

end

end Trees

end PascalX86
