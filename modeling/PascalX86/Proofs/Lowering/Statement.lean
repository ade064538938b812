import PascalX86.Proofs.Lowering.Expression

/-!
# Lowering of checked statements

The code of a checked statement leaves the stack as it found it, and so it is at each of its labels
and jumps. Malformed trees are ruled out as for expressions; jumps need a loop around them.
-/

set_option autoImplicit false

namespace PascalX86

open Register

variable {f : Frames} {σ : Scopes} {bound : Nat} {A : Prop}

section Marks

theorem settles_label (name : String) : Settles [.label name] 0 0 := .mark rfl

theorem settles_jump (op : Opcode) (target : String) (jumps : op.isJump = true) :
    Settles [jump op target] 0 0 := by
  refine .mark ?_
  cases op <;> first | rfl | simp [Opcode.isJump] at jumps

theorem settles_enterFor (bound : Memory) (test start : String) :
    Settles [.instruction .pop [bound], jump .jmp test, .label start] 4 0 := by
  have popped : Moves [.instruction .pop [bound]] 4 0 := .single rfl rfl
  exact popped.settles.append ((settles_jump .jmp test rfl).append (settles_label start))

theorem settles_advance (direction : Direction) (cell : Memory) (test : String) :
    Settles [.instruction direction.step [cell, .immediate 1], .label test] 0 0 := by
  have moved : Moves [.instruction direction.step [cell, .immediate 1]] 0 0 := by
    cases direction <;> exact .single rfl rfl
  exact moved.settles.append (settles_label test)

theorem settles_compare (direction : Direction) (cell bound : Memory) (start stop : String) :
    Settles [.instruction .mov [eax, cell], .instruction .cmp [eax, bound],
      jump direction.again start, .label stop] 0 0 := by
  have jumps : direction.again.isJump = true := by cases direction <;> rfl
  have compares : Moves [.instruction .mov [eax, cell], .instruction .cmp [eax, bound]] 0 0 :=
    .append (.single rfl rfl) (.single rfl rfl)
  exact compares.settles.append ((settles_jump _ start jumps).append (settles_label stop))

end Marks

theorem lowers_conditionCode {e : Expr} (sound : e.Sound σ bound) (type : e.type = .integer) :
    Lowers (f.Cover σ) (conditionCode f e) fun code => Moves code 0 0 := by
  have pushed := Expr.lowers_code (f := f) sound
  rw [type] at pushed
  refine pushed.bind fun code moves => .pure (moves.append ?_)
  exact ⟨by decide, by decide⟩

section Output

theorem output?_of_isScalar {v : Value} {t : Ty} (fits : v.Fits t) (scalar : t.isScalar = true) :
    v.output?.isSome = true := by
  cases v <;> cases t <;> simp_all [Value.Fits, Ty.isScalar, Value.output?]

theorem lowers_outputOf (used : Nat) {arguments : List Expr}
    (each : ∀ e ∈ arguments, e.Sound σ bound ∧ e.type.isScalar = true) :
    Lowers (f.Cover σ) (outputOf f used arguments) fun output => Moves output.code 0 0 := by
  induction arguments generalizing used with
  | nil => exact .pure (.nil 0)
  | cons e arguments ih =>
      rw [List.forall_mem_cons] at each
      obtain ⟨⟨sound, scalar⟩, others⟩ := each
      unfold outputOf
      split
      · next value known =>
        have shown := output?_of_isScalar (sound.self.obeys.fits known) scalar
        split
        · exact (ih used others).bind fun rest moves => .pure moves
        · next missing =>
          obtain ⟨text, some⟩ := Option.isSome_iff_exists.mp shown
          exact absurd some (missing text)
      · split
        · next conversion _ =>
          -- Variables of the frame are read in place, everything else goes through a temporary.
          have joined {code : Code} (cell : Memory) (moves : Moves code 0 0) :
              Lowers (f.Cover σ) (do
                let rest ← outputOf f (used + e.temporary f) arguments
                return (⟨code ++ rest.code, .conversion conversion :: rest.pieces,
                  cell.sized conversion.width :: rest.operands⟩ : Output))
                fun output => Moves output.code 0 0 :=
            (ih _ others).bind fun rest moves' => .pure (moves.append moves')
          split
          · next cell _ => exact joined cell (.nil 0)
          · refine (Expr.lowers_code sound).bind fun code pushed => joined _ ?_
            exact pushed.append (moves_popMemory _ e.type.dvd_size)
        · exact .runtimeString

theorem lowers_writeCode (used : Nat) {arguments : List Expr} (newline : Bool)
    (each : ∀ e ∈ arguments, e.Sound σ bound ∧ e.type.isScalar = true) :
    Lowers (f.Cover σ) (writeCode f used arguments newline) fun code => Moves code 0 0 := by
  refine (lowers_outputOf used each).bind fun output moves => ?_
  dsimp only
  split
  · exact .pure moves
  · exact .pure (moves.append (.single rfl rfl))

end Output

section Input

theorem lowers_readTargetCode {e : Expr} (sound : e.Sound σ bound) (target : e.IsTarget)
    (type : e.type = .integer ∨ e.type = .double ∨ e.type = .char) :
    Lowers (f.Cover σ) (readTargetCode f e) fun code => Moves code 0 0 := by
  refine (Expr.lowers_reference sound target.isReference).bind fun r finds => ?_
  have address : Moves (r.address ++ [.instruction .pop [eax]]) 0 0 :=
    finds.address.append (.single rfl rfl)
  have scans (format : String) : Moves [scan format [eax]] 0 0 := .single rfl rfl
  rcases type with type | type | type <;> simp only [type]
  · exact .pure (address.append (scans _))
  · exact .pure (address.append (scans _))
  · exact .pure (address.append (.append (.single rfl rfl) (scans _)))

theorem lowers_readCode (newline : Bool) {targets : List Expr}
    (each : ∀ e ∈ targets, e.Sound σ bound)
    (rule : ∀ e ∈ targets, e.IsTarget ∧ (e.type = .integer ∨ e.type = .double ∨ e.type = .char)) :
    Lowers (f.Cover σ) (readCode f newline targets) fun code => Moves code 0 0 := by
  induction targets with
  | nil =>
      cases newline with
      | true => exact .pure (.single rfl rfl)
      | false => exact .pure (.nil 0)
  | cons e targets ih =>
      rw [List.forall_mem_cons] at each rule
      refine (lowers_readTargetCode each.1 rule.1.1 rule.1.2).bind fun code moves => ?_
      exact (ih each.2 rule.2).bind fun rest moves' => .pure (moves.append moves')

end Input

section Straight

variable {info : NodeInfo} {loop? : Option Loop} {used label : Nat}

theorem lowers_assignment {target value : Expr}
    (sound : (Stmt.assign info target value).Sound σ bound) :
    Lowers (f.Cover σ) ((Stmt.assign info target value).code f loop? used label)
      fun code => Moves code 0 0 := by
  obtain ⟨checked, left, right⟩ := Stmt.all_assign.mp sound
  obtain ⟨reference, same⟩ := checked.obeys
  refine (Expr.lowers_code right).bind fun code pushed => ?_
  refine (Expr.lowers_reference left reference).bind fun r finds => .pure ?_
  rw [← Ty.size_eq_of_same same] at pushed
  exact pushed.append (finds.store target.type.dvd_size)

theorem lowers_input {targets : List Expr} {newline : Bool}
    (sound : (Stmt.read info targets newline).Sound σ bound) :
    Lowers (f.Cover σ) ((Stmt.read info targets newline).code f loop? used label)
      fun code => Moves code 0 0 := by
  obtain ⟨checked, each⟩ := Stmt.all_read.mp sound
  exact lowers_readCode newline each checked.obeys

theorem lowers_output {arguments : List Expr} {newline : Bool}
    (sound : (Stmt.write info arguments newline).Sound σ bound) :
    Lowers (f.Cover σ) ((Stmt.write info arguments newline).code f loop? used label)
      fun code => Moves code 0 0 := by
  obtain ⟨checked, each⟩ := Stmt.all_write.mp sound
  have both : ∀ e ∈ arguments, e.Sound σ bound ∧ e.type.isScalar = true :=
    fun e mem => ⟨each e mem, checked.obeys e mem⟩
  exact lowers_writeCode used newline both

theorem lowers_calling {function : Signature} {arguments : List Expr}
    (sound : (Stmt.call info function arguments).Sound σ bound) :
    Lowers (f.Cover σ) ((Stmt.call info function arguments).code f loop? used label)
      fun code => Moves code 0 0 := by
  obtain ⟨checked, each⟩ := Stmt.all_call.mp sound
  obtain ⟨same, takes⟩ := checked.obeys
  have room : info.type.size ≤ maxSize := same ▸ checked.grounded.result_le
  have call : Lowers (f.Cover σ)
      (callCode info function (argumentsCode f function.parameters arguments))
      fun code => Moves code 0 function.result.size :=
    lowers_callCode checked.grounded (lowers_argumentsCode each takes)
  rw [← same] at call
  exact call.bind fun code pushed => .pure (pushed.append (moves_discard room))

end Straight

section Trees

mutual

theorem Stmt.lowers_code : ∀ {s : Stmt} (loop? : Option Loop) (used label : Nat),
    s.Sound σ bound → (A → f.Cover σ) → (A → s.jumps = true → loop?.isSome = true) →
    Lowers A (s.code f loop? used label) fun code => Settles code 0 0
  | .assign info target value, _, _, _, sound, cover, _ =>
      ((lowers_assignment sound).mono fun _ => Moves.settles).assuming cover
  | .ifThen info condition body, loop?, used, label, sound, cover, jumps => by
      obtain ⟨⟨checked, test⟩, inner⟩ := Stmt.all_ifThen.mp sound
      refine ((lowers_conditionCode test checked.obeys).assuming cover).bind fun test tested => ?_
      refine (Stmt.lowers_code loop? used (label + 2) inner cover jumps).bind fun body settled => .pure ?_
      have branch := (settles_jump .jz (numbered "else" label) rfl).append settled
      have ends := (settles_label (numbered "else" label)).append
        (settles_label (numbered "endif" (label + 1)))
      exact (tested.settles.append branch).append ends
  | .ifElse info condition body otherwise, loop?, used, label, sound, cover, jumps => by
      obtain ⟨⟨checked, test⟩, inner, inner'⟩ := Stmt.all_ifElse.mp sound
      have first (a : A) (h : body.jumps = true) : loop?.isSome = true :=
        jumps a (by simp [Stmt.jumps, h])
      have second (a : A) (h : otherwise.jumps = true) : loop?.isSome = true :=
        jumps a (by simp [Stmt.jumps, h])
      refine ((lowers_conditionCode test checked.obeys).assuming cover).bind fun test tested => ?_
      refine (Stmt.lowers_code loop? used (label + 2) inner cover first).bind fun code settled => ?_
      refine (Stmt.lowers_code loop? used (label + 2 + body.labels) inner' cover second).bind
        fun code' settled' => .pure ?_
      have branch := (settles_jump .jz (numbered "else" label) rfl).append settled
      have middle := (settles_jump .jmp (numbered "endif" (label + 1)) rfl).append
        (settles_label (numbered "else" label))
      have stop := settles_label (numbered "endif" (label + 1))
      exact (((tested.settles.append branch).append middle).append settled').append stop
  | .while info condition body, loop?, used, label, sound, cover, jumps => by
      obtain ⟨⟨checked, test⟩, inner⟩ := Stmt.all_while.mp sound
      refine (Stmt.lowers_code _ used (label + 3) inner cover fun _ _ => rfl).bind fun body settled => ?_
      refine ((lowers_conditionCode test checked.obeys).assuming cover).bind fun test tested => .pure ?_
      have enter := (settles_jump .jmp (numbered "while_cond" label) rfl).append
        ((settles_label (numbered "while_body" (label + 1))).append settled)
      have again := settles_label (numbered "while_cond" label)
      have stop := (settles_jump .jnz (numbered "while_body" (label + 1)) rfl).append
        (settles_label (numbered "while_end" (label + 2)))
      exact ((enter.append again).append tested.settles).append stop
  | .for info counter first last direction body, loop?, used, label, sound, cover, jumps => by
      obtain ⟨⟨checked, hcounter, hfirst, hlast⟩, inner⟩ := Stmt.all_for.mp sound
      obtain ⟨target, like, same, same', -⟩ := checked.obeys
      have size := Ty.size_of_isIntegerLike like
      have pushed := Expr.lowers_code (f := f) hfirst
      have pushed' := Expr.lowers_code (f := f) hlast
      rw [same, size] at pushed
      rw [same', size] at pushed'
      refine (pushed.assuming cover).bind fun first pushed => ?_
      refine ((Expr.lowers_reference hcounter target.isReference).assuming cover).bind fun r finds => ?_
      refine (pushed'.assuming cover).bind fun last pushed' => ?_
      refine (Stmt.lowers_code _ (used + dwordSize) (label + 4) inner cover fun _ _ => rfl).bind
        fun body settled => .pure ?_
      have store : Settles (r.store counter.type.size) 4 0 :=
        size ▸ (finds.store counter.type.dvd_size).settles
      have enter := settles_enterFor (frameSlot (used + dwordSize)) (numbered "for_cond" label)
        (numbered "for_body" (label + 1))
      have next := (settles_label (numbered "for_next" (label + 2))).append finds.resolve.settles
      have advance := settles_advance direction r.resolve.2 (numbered "for_cond" label)
      have compare := settles_compare direction r.resolve.2 (frameSlot (used + dwordSize))
        (numbered "for_body" (label + 1)) (numbered "for_end" (label + 3))
      have start := ((pushed.settles.append store).append pushed'.settles).append enter
      exact ((((start.append settled).append next).append advance).append finds.resolve.settles).append
        compare
  | .continue info, loop?, _, _, _, _, jumps => by
      cases loop? with
      | none => exact .malformed fun a => absurd (jumps a rfl) nofun
      | some loop => exact .pure (settles_jump _ _ rfl)
  | .break info, loop?, _, _, _, _, jumps => by
      cases loop? with
      | none => exact .malformed fun a => absurd (jumps a rfl) nofun
      | some loop => exact .pure (settles_jump _ _ rfl)
  | .read info targets newline, _, _, _, sound, cover, _ =>
      ((lowers_input sound).mono fun _ => Moves.settles).assuming cover
  | .write info arguments newline, _, _, _, sound, cover, _ =>
      ((lowers_output sound).mono fun _ => Moves.settles).assuming cover
  | .call info function arguments, _, _, _, sound, cover, _ =>
      ((lowers_calling sound).mono fun _ => Moves.settles).assuming cover
  | .block info statements, loop?, used, label, sound, cover, jumps => by
      obtain ⟨checked, each⟩ := Stmt.all_block.mp sound
      exact lowers_blockCode loop? used label each cover jumps

theorem lowers_blockCode : ∀ {statements : List Stmt} (loop? : Option Loop) (used label : Nat),
    (∀ s ∈ statements, s.Sound σ bound) → (A → f.Cover σ) →
    (A → Stmt.jumpsOf statements = true → loop?.isSome = true) →
    Lowers A (blockCode f loop? used label statements) fun code => Settles code 0 0
  | [], _, _, _, _, _, _ => .pure (Moves.nil 0).settles
  | s :: statements, loop?, used, label, each, cover, jumps => by
      obtain ⟨head, rest⟩ := List.forall_mem_cons.mp each
      have first (a : A) (h : s.jumps = true) : loop?.isSome = true :=
        jumps a (by simp [Stmt.jumpsOf, h])
      have others (a : A) (h : Stmt.jumpsOf statements = true) : loop?.isSome = true :=
        jumps a (by simp [Stmt.jumpsOf, h])
      refine (Stmt.lowers_code loop? used label head cover first).bind fun code settled => ?_
      exact (lowers_blockCode loop? used (label + s.labels) rest cover others).bind
        fun code' settled' => .pure (settled.append settled')

end

end Trees

end PascalX86
