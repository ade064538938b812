import PascalX86.Proofs.Lowering.Listing

/-!
# Jumps and calls resolve

Jumps stay inside the code of their function, those out of a loop go to a label of the innermost one,
and every call goes to the one function that its signature names.
-/

set_option autoImplicit false

namespace PascalX86

open Register

section Jumps

/-- The jumps in code go to these labels. -/
def Code.JumpsTo (code : Code) (names : List String) : Prop :=
  ∀ op operands, .instruction op operands ∈ code → op.isJump = true →
    ∃ name ∈ names, operands = [.raw name]

def Loop.names : Option Loop → List String
  | some loop => [loop.next, loop.stop]
  | none => []

variable {first second code : Code} {names names' : List String}

@[simp] theorem jumpsTo_nil : Code.JumpsTo [] names := by
  simp [Code.JumpsTo]

theorem jumpsTo_instruction {op : Opcode} {operands : List Operand} (plain : op.isJump = false) :
    Code.JumpsTo (.instruction op operands :: code) names ↔ code.JumpsTo names := by
  simp only [Code.JumpsTo, List.mem_cons, Command.instruction.injEq]
  constructor
  · exact fun h op os inside => h op os (.inr inside)
  · rintro h op os (⟨rfl, -⟩ | inside) jumps
    · rw [plain] at jumps
      cases jumps
    · exact h op os inside jumps

@[simp] theorem jumpsTo_append :
    (first ++ second).JumpsTo names ↔ first.JumpsTo names ∧ second.JumpsTo names := by
  simp only [Code.JumpsTo, List.mem_append]
  constructor
  · exact fun h => ⟨fun op os mem => h op os (.inl mem), fun op os mem => h op os (.inr mem)⟩
  · exact fun h op os mem => mem.elim (h.1 op os) (h.2 op os)

@[simp] theorem jumpsTo_label {name : String} :
    Code.JumpsTo (.label name :: code) names ↔ code.JumpsTo names := by
  simp [Code.JumpsTo]

theorem jumpsTo_jump {op : Opcode} {name : String} (mem : name ∈ names) :
    Code.JumpsTo (jump op name :: code) names ↔ code.JumpsTo names := by
  simp only [Code.JumpsTo, jump, List.mem_cons, Command.instruction.injEq]
  constructor
  · exact fun h op os inside => h op os (.inr inside)
  · rintro h op os (⟨-, rfl⟩ | inside) jumps
    · exact ⟨name, mem, rfl⟩
    · exact h op os inside jumps

theorem Code.JumpsTo.mono (h : code.JumpsTo names) (more : ∀ name ∈ names, name ∈ names') :
    code.JumpsTo names' := by
  intro op os mem jumps
  obtain ⟨name, known, eq⟩ := h op os mem jumps
  exact ⟨name, more name known, eq⟩

theorem jumpsTo_of_straight (straight : ∀ c ∈ code, c.isMark = false) (names : List String) :
    code.JumpsTo names := by
  intro op os mem jumps
  have plain := straight _ mem
  rw [Command.isMark, jumps] at plain
  cases plain

theorem Moves.jumpsTo {a b : Nat} (moves : Moves code a b) (names : List String) :
    code.JumpsTo names :=
  jumpsTo_of_straight moves.straight names

end Jumps

section Statements

variable {f : Frames} {σ : Scopes} {bound : Nat}

mutual

/-- The jumps of a statement go to its own labels, or to those of the loop around it. -/
theorem Stmt.lowers_jumps : ∀ {s : Stmt} (loop? : Option Loop) (used label : Nat),
    s.Sound σ bound →
    Lowers False (s.code f loop? used label) fun code =>
      code.JumpsTo (s.names label ++ Loop.names loop?)
  | .assign info target value, _, _, _, sound =>
      ((lowers_assignment sound).mono fun _ moves => moves.jumpsTo _).assuming False.elim
  | .ifThen info condition body, loop?, used, label, sound => by
      obtain ⟨⟨checked, test⟩, inner⟩ := Stmt.all_ifThen.mp sound
      refine ((lowers_conditionCode test checked.obeys).assuming False.elim).bind fun test tested => ?_
      refine (Stmt.lowers_jumps loop? used (label + 2) inner).bind fun code jumps => .pure ?_
      have otherwise : numbered "else" label ∈ (Stmt.ifThen info condition body).names label ++
          Loop.names loop? := by simp [Stmt.names]
      have jumps := jumps.mono fun name mem => show name ∈
        (Stmt.ifThen info condition body).names label ++ Loop.names loop? by
          simp only [Stmt.names, List.mem_append] at mem ⊢
          tauto
      simp [tested.jumpsTo, jumpsTo_jump otherwise, jumps]
  | .ifElse info condition body otherwise, loop?, used, label, sound => by
      obtain ⟨⟨checked, test⟩, inner, inner'⟩ := Stmt.all_ifElse.mp sound
      refine ((lowers_conditionCode test checked.obeys).assuming False.elim).bind fun test tested => ?_
      refine (Stmt.lowers_jumps loop? used (label + 2) inner).bind fun code jumps => ?_
      refine (Stmt.lowers_jumps loop? used (label + 2 + body.labels) inner').bind
        fun code' jumps' => .pure ?_
      have second : numbered "else" label ∈ (Stmt.ifElse info condition body otherwise).names label ++
          Loop.names loop? := by simp [Stmt.names]
      have stop : numbered "endif" (label + 1) ∈
          (Stmt.ifElse info condition body otherwise).names label ++ Loop.names loop? := by
        simp [Stmt.names]
      have jumps := jumps.mono fun name mem => show name ∈
        (Stmt.ifElse info condition body otherwise).names label ++ Loop.names loop? by
          simp only [Stmt.names, List.mem_append] at mem ⊢
          tauto
      have jumps' := jumps'.mono fun name mem => show name ∈
        (Stmt.ifElse info condition body otherwise).names label ++ Loop.names loop? by
          simp only [Stmt.names, List.mem_append] at mem ⊢
          tauto
      simp [tested.jumpsTo, jumpsTo_jump second, jumpsTo_jump stop, jumps, jumps']
  | .while info condition body, loop?, used, label, sound => by
      obtain ⟨⟨checked, test⟩, inner⟩ := Stmt.all_while.mp sound
      refine (Stmt.lowers_jumps _ used (label + 3) inner).bind fun code jumps => ?_
      refine ((lowers_conditionCode test checked.obeys).assuming False.elim).bind fun test tested => .pure ?_
      have first : numbered "while_cond" label ∈ (Stmt.while info condition body).names label ++
          Loop.names loop? := by simp [Stmt.names]
      have start : numbered "while_body" (label + 1) ∈ (Stmt.while info condition body).names label ++
          Loop.names loop? := by simp [Stmt.names]
      -- Labels of the loop that the body jumps to are labels of the statement.
      have jumps := jumps.mono fun name mem => show name ∈
        (Stmt.while info condition body).names label ++ Loop.names loop? by
          simp only [Stmt.names, Loop.names, List.mem_append, List.mem_cons] at mem ⊢
          tauto
      simp [tested.jumpsTo, jumpsTo_jump first, jumpsTo_jump start, jumps]
  | .for info counter first last direction body, loop?, used, label, sound => by
      obtain ⟨⟨checked, hcounter, hfirst, hlast⟩, inner⟩ := Stmt.all_for.mp sound
      obtain ⟨target, -⟩ := checked.obeys
      refine ((Expr.lowers_code hfirst).assuming False.elim).bind fun start pushed => ?_
      refine ((Expr.lowers_reference hcounter target.isReference).assuming False.elim).bind
        fun r finds => ?_
      refine ((Expr.lowers_code hlast).assuming False.elim).bind fun stop pushed' => ?_
      refine (Stmt.lowers_jumps _ (used + dwordSize) (label + 4) inner).bind fun code jumps => .pure ?_
      have test : numbered "for_cond" label ∈
          (Stmt.for info counter first last direction body).names label ++ Loop.names loop? := by
        simp [Stmt.names]
      have again : numbered "for_body" (label + 1) ∈
          (Stmt.for info counter first last direction body).names label ++ Loop.names loop? := by
        simp [Stmt.names]
      have jumps := jumps.mono fun name mem => show name ∈
        (Stmt.for info counter first last direction body).names label ++ Loop.names loop? by
          simp only [Stmt.names, Loop.names, List.mem_append, List.mem_cons] at mem ⊢
          tauto
      have store := (finds.store counter.type.dvd_size).jumpsTo
      have found := finds.resolve.jumpsTo
      unfold Reference.resolve at found
      have step : direction.step.isJump = false := by cases direction <;> rfl
      have plain : Opcode.isJump .pop = false ∧ Opcode.isJump .mov = false ∧ Opcode.isJump .cmp = false :=
        ⟨rfl, rfl, rfl⟩
      simp [pushed.jumpsTo, store, pushed'.jumpsTo, found, jumpsTo_jump test, jumpsTo_jump again, jumps,
        jumpsTo_instruction step, jumpsTo_instruction plain.1, jumpsTo_instruction plain.2.1,
        jumpsTo_instruction plain.2.2]
  | .continue info, loop?, _, _, _ => by
      cases loop? with
      | none => exact .malformed id
      | some loop => exact .pure ((jumpsTo_jump (by simp [Loop.names])).mpr jumpsTo_nil)
  | .break info, loop?, _, _, _ => by
      cases loop? with
      | none => exact .malformed id
      | some loop => exact .pure ((jumpsTo_jump (by simp [Loop.names])).mpr jumpsTo_nil)
  | .read info targets newline, _, _, _, sound =>
      ((lowers_input sound).mono fun _ moves => moves.jumpsTo _).assuming False.elim
  | .write info arguments newline, _, _, _, sound =>
      ((lowers_output sound).mono fun _ moves => moves.jumpsTo _).assuming False.elim
  | .call info function arguments, _, _, _, sound =>
      ((lowers_calling sound).mono fun _ moves => moves.jumpsTo _).assuming False.elim
  | .block info statements, loop?, used, label, sound => by
      obtain ⟨checked, each⟩ := Stmt.all_block.mp sound
      exact lowers_blockJumps loop? used label each

theorem lowers_blockJumps : ∀ {statements : List Stmt} (loop? : Option Loop) (used label : Nat),
    (∀ s ∈ statements, s.Sound σ bound) →
    Lowers False (blockCode f loop? used label statements) fun code =>
      code.JumpsTo (namesOf label statements ++ Loop.names loop?)
  | [], _, _, _, _ => .pure jumpsTo_nil
  | s :: statements, loop?, used, label, each => by
      obtain ⟨head, rest⟩ := List.forall_mem_cons.mp each
      refine (Stmt.lowers_jumps loop? used label head).bind fun code jumps => ?_
      refine (lowers_blockJumps loop? used (label + s.labels) rest).bind fun code' jumps' => .pure ?_
      rw [jumpsTo_append]
      refine ⟨jumps.mono fun name mem => ?_, jumps'.mono fun name mem => ?_⟩
      · simp only [namesOf, List.mem_append] at mem ⊢
        tauto
      · simp only [namesOf, List.mem_append] at mem ⊢
        tauto

end

end Statements

section Callees

variable {σ : Scopes}

mutual

theorem Expr.names_callees : ∀ {e : Expr}, e.All (Expr.Calls σ) → ∀ g ∈ e.callees, σ.Names g
  | .var .., _, g, mem | .const .., _, g, mem | .aggregate .., _, g, mem => by cases mem
  | .index .., calls, g, mem => by
      obtain ⟨-, left, right⟩ := Expr.all_index.mp calls
      exact (List.mem_append.mp mem).elim (Expr.names_callees left g) (Expr.names_callees right g)
  | .binary .., calls, g, mem => by
      obtain ⟨-, left, right⟩ := Expr.all_binary.mp calls
      exact (List.mem_append.mp mem).elim (Expr.names_callees left g) (Expr.names_callees right g)
  | .field .., calls, g, mem => Expr.names_callees (Expr.all_field.mp calls).2 g mem
  | .negate .., calls, g, mem => Expr.names_callees (Expr.all_negate.mp calls).2 g mem
  | .complement .., calls, g, mem => Expr.names_callees (Expr.all_complement.mp calls).2 g mem
  | .cast .., calls, g, mem => Expr.names_callees (Expr.all_cast.mp calls).2 g mem
  | .call .., calls, g, mem => by
      obtain ⟨named, each⟩ := Expr.all_call.mp calls
      rcases List.mem_append.mp mem with mem | mem
      · exact Expr.names_calleesOf each g mem
      · exact List.mem_singleton.mp mem ▸ named

theorem Expr.names_calleesOf : ∀ {arguments : List Expr}, (∀ e ∈ arguments, e.All (Expr.Calls σ)) →
    ∀ g ∈ Expr.calleesOf arguments, σ.Names g
  | e :: arguments, each, g, mem => by
      rw [List.forall_mem_cons] at each
      exact (List.mem_append.mp mem).elim (Expr.names_callees each.1 g)
        (Expr.names_calleesOf each.2 g)

end

mutual

theorem Stmt.names_callees : ∀ {s : Stmt}, s.All (Expr.Calls σ) (Stmt.Calls σ) →
    ∀ g ∈ s.callees, σ.Names g
  | .assign .., calls, g, mem => by
      obtain ⟨-, left, right⟩ := Stmt.all_assign.mp calls
      exact (List.mem_append.mp mem).elim (Expr.names_callees right g) (Expr.names_callees left g)
  | .ifThen .., calls, g, mem => by
      obtain ⟨⟨-, test⟩, inner⟩ := Stmt.all_ifThen.mp calls
      exact (List.mem_append.mp mem).elim (Expr.names_callees test g) (Stmt.names_callees inner g)
  | .ifElse .., calls, g, mem => by
      obtain ⟨⟨-, test⟩, inner, inner'⟩ := Stmt.all_ifElse.mp calls
      rcases List.mem_append.mp mem with mem | mem
      · exact (List.mem_append.mp mem).elim (Expr.names_callees test g) (Stmt.names_callees inner g)
      · exact Stmt.names_callees inner' g mem
  | .while .., calls, g, mem => by
      obtain ⟨⟨-, test⟩, inner⟩ := Stmt.all_while.mp calls
      exact (List.mem_append.mp mem).elim (Stmt.names_callees inner g) (Expr.names_callees test g)
  | .for .., calls, g, mem => by
      obtain ⟨⟨-, -, first, last⟩, inner⟩ := Stmt.all_for.mp calls
      rcases List.mem_append.mp mem with mem | mem
      · exact (List.mem_append.mp mem).elim (Expr.names_callees first g) (Expr.names_callees last g)
      · exact Stmt.names_callees inner g mem
  | .continue _, _, g, mem | .break _, _, g, mem => by cases mem
  | .read .., calls, g, mem => Expr.names_calleesOf (Stmt.all_read.mp calls).2 g mem
  | .write .., calls, g, mem => Expr.names_calleesOf (Stmt.all_write.mp calls).2 g mem
  | .call .., calls, g, mem => by
      obtain ⟨named, each⟩ := Stmt.all_call.mp calls
      rcases List.mem_append.mp mem with mem | mem
      · exact Expr.names_calleesOf each g mem
      · exact List.mem_singleton.mp mem ▸ named
  | .block .., calls, g, mem => Stmt.names_calleesOf (Stmt.all_block.mp calls).2 g mem

theorem Stmt.names_calleesOf : ∀ {statements : List Stmt},
    (∀ s ∈ statements, s.All (Expr.Calls σ) (Stmt.Calls σ)) →
    ∀ g ∈ Stmt.calleesOf statements, σ.Names g
  | s :: statements, each, g, mem => by
      rw [List.forall_mem_cons] at each
      exact (List.mem_append.mp mem).elim (Stmt.names_callees each.1 g)
        (Stmt.names_calleesOf each.2 g)

end

end Callees

section Programs

variable {p : Program} {g : Function} {before later : List Function}

/-- The one function that a signature names. -/
structure Program.Names (p : Program) (f : Signature) (h : Function) : Prop where
  listed : h ∈ p.functions
  same : h.signature = f
  only : ∀ other ∈ p.functions, other.signature.label = f.label → other = h

theorem Program.Nested.names (nested : p.Nested) {h : Function} (listed : h ∈ p.functions) :
    p.Names h.signature h := by
  refine ⟨listed, rfl, fun other listed' same => ?_⟩
  have distinct : (p.functions.map fun g => g.signature.id).Nodup :=
    List.pairwise_map.mpr (List.pairwise_append.mp nested.distinct).1
  have numbers := congrArg labelNumber same
  rw [Signature.label_eq, Signature.label_eq, labelNumber_numbered, labelNumber_numbered] at numbers
  exact List.inj_on_of_nodup_map distinct listed' listed numbers

theorem Program.Nested.callee (nested : p.Nested) (split : p.bodies = before ++ g :: later) :
    ∀ f ∈ g.body.callees, ∃ h, p.Names f h := by
  obtain ⟨σ, completes, -, -, named⟩ := nested.scopes split
  intro f mem
  obtain ⟨symbol, holds, role⟩ := Stmt.names_callees completes.calls f mem
  obtain ⟨h, listed, rfl⟩ := named symbol f holds role
  exact ⟨h, nested.names listed⟩

theorem Function.Framed.jumpsTo {label : Nat} {inner : Code} (framed : g.Framed later label inner)
    {σ : Scopes} {bound : Nat} (sound : g.body.Sound σ bound) :
    inner.JumpsTo (g.body.names label) := by
  obtain ⟨body, result, lowered, answered, rfl⟩ := framed.parts
  have jumps := (Stmt.lowers_jumps none g.locals.size label sound).result body lowered
  rw [Loop.names, List.append_nil] at jumps
  have enter : (g.enter later).JumpsTo (g.body.names label) := by
    refine jumpsTo_of_straight ?_ _
    unfold Function.enter
    dsimp only
    split <;> simp [Command.isMark, Opcode.isJump]
  have leave : (g.leave later).JumpsTo (g.body.names label) := by
    refine jumpsTo_of_straight ?_ _
    unfold Function.leave
    dsimp only
    split <;> simp [Command.isMark, Opcode.isJump]
  have result : result.JumpsTo (g.body.names label) := by
    rcases answered with rfl | ⟨-, answered⟩
    · exact jumpsTo_nil
    · refine jumpsTo_of_straight ?_ _
      unfold Function.returnCode at answered
      split at answered <;> cases answered <;> simp [Command.isMark, Opcode.isJump]
  simp [jumps, enter, leave, result]

theorem Function.Framed.calls {label : Nat} {inner : Code} (framed : g.Framed later label inner)
    {σ : Scopes} {bound : Nat} (sound : g.body.Sound σ bound) : inner.Calls g.body.callees := by
  obtain ⟨body, result, lowered, answered, rfl⟩ := framed.parts
  have calls := (Stmt.lowers_calls none g.locals.size label sound).result body lowered
  have enter : (g.enter later).Calls [] := by
    unfold Function.enter
    dsimp only
    split <;> rfl
  have leave : (g.leave later).Calls [] := by
    unfold Function.leave
    dsimp only
    split <;> rfl
  have result : result.Calls [] := by
    rcases answered with rfl | ⟨-, answered⟩
    · rfl
    · unfold Function.returnCode at answered
      split at answered <;> cases answered <;> rfl
  exact (enter.after calls).silent (result.append leave)

/-- The label of a loop that a jump out of one of its turns goes to. -/
def Stmt.goal? : Stmt → Option (Loop → String)
  | .break _ => some Loop.stop
  | .continue _ => some Loop.next
  | _ => none

/-- A jump goes to one of the two labels of the innermost loop around it: the code of the loop goes
on at the first one after each turn, and ends with the second one. -/
inductive Site.Leaves (root : Site) (f : Frames) (x : Site) (goal : Loop → String) : Prop where
  | loop {outer turn : Site} {l : Loop} {enter inner again : Code} (around : Site.Contains root outer)
      (turns : Site.Turn outer l turn) (innermost : Site.Within turn x)
      (whole : outer.code f = .ok (enter ++ inner ++ .label l.next :: again ++ [.label l.stop]))
      (body : turn.code f = .ok inner) (jumps : x.code f = .ok [jump .jmp (goal l)])
      (part : [jump .jmp (goal l)] <:+: inner)

theorem Site.Contains.leaves {root x : Site} {f : Frames} {whole : Code} {goal : Loop → String}
    (contains : Site.Contains root x) (lowered : root.code f = .ok whole)
    (outermost : root.stmt.jumps = false) (leaves : x.stmt.goal? = some goal) :
    root.Leaves f x goal := by
  have jumps : x.stmt.jumps = true := by
    cases stmt : x.stmt <;> simp_all [Stmt.goal?, Stmt.jumps]
  rcases contains.innermost with within | ⟨outer, l, turn, around, turns, within⟩
  · rw [within.jumps jumps] at outermost
    cases outermost
  · obtain ⟨code, found, -⟩ := around.code lowered
    obtain ⟨enter, inner, again, body, rfl⟩ := turns.code found
    have loop : x.loop? = some l := by rw [within.loop, turns.loop]
    have own : x.code f = .ok [jump .jmp (goal l)] := by
      obtain ⟨loop?, used, label, stmt⟩ := x
      cases stmt <;> simp_all [Stmt.goal?] <;> subst leaves <;> rfl
    obtain ⟨code, found', part⟩ := Site.Contains.code (Site.Within.contains within) body
    obtain rfl : [jump .jmp (goal l)] = code := Except.ok.inj (own.symm.trans found')
    exact .loop around turns within found body own part

/-- All labels of a listing are distinct. Jumps stay between the label of their function and its last
instruction, those of `break` and `continue` go to the innermost loop, and each call goes to the
one function that its signature names. -/
theorem Source.labels_resolve {source : Source} {p : Program} {listing : Listing}
    (h : source.program = .ok p) (lowered : p.lower = .ok listing) :
    (Code.labels listing.code).Nodup ∧
    ∀ before g later, p.bodies = before ++ g :: later → ∃ front inner back : Code,
      listing.code = front ++ (.label (g.entry later) :: inner ++ [Function.exit later]) ++ back ∧
      inner.JumpsTo (Code.labels inner) ∧
      inner.Calls g.body.callees ∧ (∀ f ∈ g.body.callees, ∃ h, p.Names f h) ∧
      (∀ s ∈ g.body.nodes, ∃ x, (g.site (bodyLabels before)).Contains x ∧ x.stmt = s) ∧
      ∀ x goal, (g.site (bodyLabels before)).Contains x → x.stmt.goal? = some goal →
        (g.site (bodyLabels before)).Leaves (g.frames later) x goal := by
  have nested := Program.nested (Source.derives h)
  refine ⟨nested.labels_nodup lowered, fun before g later split => ?_⟩
  have laid := nested.laid lowered
  rw [split] at laid
  obtain ⟨front, inner, back, placed, framed⟩ := laid.at
  rw [Nat.zero_add] at framed
  obtain ⟨σ, completes⟩ := nested.completes g (by simp [split])
  obtain ⟨bound, sound, jumps⟩ := completes.sound
  obtain ⟨body, result, found, -⟩ := framed.parts
  refine ⟨front, inner, back, placed, ?_, framed.calls sound, nested.callee split, ?_, ?_⟩
  · rw [framed.labels sound]
    exact framed.jumpsTo sound
  · exact Site.exists_place g.body none g.locals.size (bodyLabels before)
  · exact fun x goal contains leaves => contains.leaves found jumps leaves

theorem Source.nested_labels_resolve : ∃ p listing, Source.nested.program = .ok p ∧
    p.lower = .ok listing ∧ (Code.labels listing.code).Nodup ∧
    ∀ before g later, p.bodies = before ++ g :: later → ∃ front inner back : Code,
      listing.code = front ++ (.label (g.entry later) :: inner ++ [Function.exit later]) ++ back ∧
      inner.JumpsTo (Code.labels inner) ∧
      inner.Calls g.body.callees ∧ (∀ f ∈ g.body.callees, ∃ h, p.Names f h) ∧
      (∀ s ∈ g.body.nodes, ∃ x, (g.site (bodyLabels before)).Contains x ∧ x.stmt = s) ∧
      ∀ x goal, (g.site (bodyLabels before)).Contains x → x.stmt.goal? = some goal →
        (g.site (bodyLabels before)).Leaves (g.frames later) x goal := by
  obtain ⟨p, accepted, listing, lowered⟩ := exists_of_bind_toOption Source.nested_lowers
  exact ⟨p, listing, accepted, lowered, Source.labels_resolve accepted lowered⟩

end Programs

end PascalX86
