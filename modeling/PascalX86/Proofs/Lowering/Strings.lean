import PascalX86.Proofs.Lowering.Program

/-!
# Strings at run time

Strings are written as constants. Apart from that, code is only made for strings that are copied from
a place in memory, to be assigned or to be passed as a value.
-/

set_option autoImplicit false

namespace PascalX86

/-- The arguments that are passed as values and not by their addresses. -/
def valuesPassed : List Parameter → List Expr → List Expr
  | p :: parameters, e :: arguments =>
      if p.mode = .byReference then valuesPassed parameters arguments
      else e :: valuesPassed parameters arguments
  | _, _ => []

/-- The operands that stand for their values and not for their places. -/
def Expr.values : Expr → List Expr
  | .index _ _ subscript => [subscript]
  | .negate _ e | .complement _ e | .cast _ e => [e]
  | .binary _ _ left right => [left, right]
  | .call _ function arguments => valuesPassed function.parameters arguments
  | .var .. | .field .. | .const .. | .aggregate .. => []

def Stmt.values : Stmt → List Expr
  | .assign _ _ value => [value]
  | .ifThen _ condition _ | .ifElse _ condition _ _ | .while _ condition _ => [condition]
  | .for _ _ first last _ _ => [first, last]
  | .write _ arguments _ => arguments
  | .call _ function arguments => valuesPassed function.parameters arguments
  | .continue _ | .break _ | .read .. | .block .. => []

/-- Strings are only passed, and those that are passed fulfil `P`. -/
def Expr.Strings (P : Expr → Prop) : Expr → Prop
  | e@(.call ..) => ∀ x ∈ e.values, x.type = .string → P x
  | e => ∀ x ∈ e.values, x.type ≠ .string

/-- Strings are written as constants. Others are only assigned or passed, and these fulfil `P`. -/
def Stmt.Strings (P : Expr → Prop) : Stmt → Prop
  | s@(.assign ..) | s@(.call ..) => ∀ x ∈ s.values, x.type = .string → P x
  | s@(.write ..) => ∀ x ∈ s.values, x.type = .string → x.value?.isSome = true
  | s => ∀ x ∈ s.values, x.type ≠ .string

/-- Strings only come from where they are stored. -/
abbrev Expr.Copies (e : Expr) : Prop := e.Strings fun x => x.isReference = true

abbrev Stmt.Copies (s : Stmt) : Prop := s.Strings fun x => x.isReference = true

section Expressions

variable {f : Frames} {e : Expr}

theorem Expr.all_copies_of_value? (known : e.value?.isSome = true) : e.All Expr.Copies := by
  cases e with
  | const info value => exact all_const.mpr nofun
  | aggregate info value => exact all_aggregate.mpr nofun
  | _ => cases known

/-- The machine has no code for a string that is computed. -/
theorem Expr.isReference_of_code (obeys : e.Obeys) (text : e.type = .string) :
    Lowers False (e.code f) fun _ => e.isReference = true := by
  cases e with
  | var info symbol => exact ⟨fun _ _ => rfl, False.elim⟩
  | index info array subscript => exact ⟨fun _ _ => obeys.1, False.elim⟩
  | field info record f => exact ⟨fun _ _ => obeys.1, False.elim⟩
  | const info value | aggregate info value =>
      have type : info.type = .string := text
      simp only [code, constantCode, type]
      exact .runtimeString
  | negate info operand =>
      have type : info.type = .string := text
      have typed : info.type = operand.type ∧ (operand.type = .integer ∨ operand.type = .double) := obeys
      rw [type] at typed
      rcases typed with ⟨same, same' | same'⟩ <;> rw [same'] at same <;> cases same
  | complement info operand =>
      have type : info.type = .string := text
      have typed : info.type = .integer := obeys.1
      rw [type] at typed
      cases typed
  | binary info op left right =>
      have type : info.type = .string := text
      obtain ⟨same, -, typed⟩ := obeys
      rw [type] at typed
      have operands : left.type = .string := by
        rcases Operator.type_cases typed with h | ⟨h, -⟩ | ⟨h, -⟩ | ⟨h, -⟩ | ⟨h, -⟩ <;>
          obtain ⟨operands, result⟩ := OperationType.mk.inj h <;> first | exact operands | cases result
      simp only [code, binaryCode, operands]
      exact .runtimeString
  | cast info operand =>
      have type : info.type = .string := text
      have converts : operand.type.Converts info.type := obeys
      rw [type] at converts
      generalize source : operand.type = t at converts
      cases converts
      simp only [code, castCode, type, source]
      exact .runtimeString
  | call info function arguments =>
      have type : function.result = .string := obeys.1 ▸ text
      refine Lowers.bind (P := fun _ => True) ⟨fun _ _ => trivial, False.elim⟩ fun _ _ => ?_
      rw [type]
      exact .bind .aggregateResult fun _ h => h

end Expressions

section Trees

variable {f : Frames}

theorem lowers_elementCopies {info : NodeInfo} {array index : Expr} {base : Lowered Reference}
    {code : Lowered Code} (found : Lowers False base fun _ => array.All Expr.Copies)
    (pushed : Lowers False code fun _ => index.All Expr.Copies) :
    Lowers False (elementReference info array.type base (index.value?.bind Value.integer?) code)
      fun _ => array.All Expr.Copies ∧ index.All Expr.Copies := by
  unfold elementReference
  split
  · dsimp only
    split
    · next n constant =>
      have known : index.value?.isSome = true := by
        obtain ⟨v, known, -⟩ := Option.bind_eq_some_iff.mp constant
        rw [known]
        rfl
      exact found.bind fun _ copies => .pure ⟨copies, Expr.all_copies_of_value? known⟩
    · exact found.bind fun _ copies => pushed.bind fun _ copies' => .pure ⟨copies, copies'⟩
  · exact .malformed id

mutual

theorem Expr.lowers_referenceCopies : ∀ {e : Expr}, e.All Expr.Obeys →
    Lowers False (e.reference f) fun _ => e.All Expr.Copies
  | .var info symbol, _ => ⟨fun _ _ => Expr.all_var.mpr nofun, False.elim⟩
  | .index info array subscript, obeys => by
      obtain ⟨own, base, index⟩ := Expr.all_index.mp obeys
      refine (lowers_elementCopies (Expr.lowers_referenceCopies base)
        (Expr.lowers_copies index)).mono fun _ copies => Expr.all_index.mpr ⟨?_, copies⟩
      simp [Expr.Copies, Expr.Strings, Expr.values, own.2.1]
  | .field info record f, obeys =>
      (Expr.lowers_referenceCopies (Expr.all_field.mp obeys).2).bind fun _ copies =>
        .pure (Expr.all_field.mpr ⟨nofun, copies⟩)
  | .const .., _ | .aggregate .., _ | .negate .., _ | .complement .., _ | .binary .., _ | .cast .., _
  | .call .., _ => .malformed id

/-- Where there is code for an expression, its strings are copied. -/
theorem Expr.lowers_copies : ∀ {e : Expr}, e.All Expr.Obeys →
    Lowers False (e.code f) fun _ => e.All Expr.Copies
  | .var info symbol, _ => ⟨fun _ _ => Expr.all_var.mpr nofun, False.elim⟩
  | .index info array subscript, obeys => by
      obtain ⟨own, base, index⟩ := Expr.all_index.mp obeys
      refine (lowers_elementCopies (Expr.lowers_referenceCopies base)
        (Expr.lowers_copies index)).bind fun _ copies => .pure (Expr.all_index.mpr ⟨?_, copies⟩)
      simp [Expr.Copies, Expr.Strings, Expr.values, own.2.1]
  | .field info record f, obeys =>
      (Expr.lowers_referenceCopies (Expr.all_field.mp obeys).2).bind fun _ copies =>
        .pure (Expr.all_field.mpr ⟨nofun, copies⟩)
  | .const info value, _ => ⟨fun _ _ => Expr.all_const.mpr nofun, False.elim⟩
  | .aggregate info value, _ => ⟨fun _ _ => Expr.all_aggregate.mpr nofun, False.elim⟩
  | .negate info operand, obeys => by
      obtain ⟨own, inner⟩ := Expr.all_negate.mp obeys
      refine (Expr.lowers_copies inner).bind fun _ copies => .pure (Expr.all_negate.mpr ⟨?_, copies⟩)
      rcases own.2 with type | type <;> simp [Expr.Copies, Expr.Strings, Expr.values, type]
  | .complement info operand, obeys => by
      obtain ⟨own, inner⟩ := Expr.all_complement.mp obeys
      refine (Expr.lowers_copies inner).bind fun _ copies => .pure (Expr.all_complement.mpr ⟨?_, copies⟩)
      rcases own.2 with type | type <;> simp [Expr.Copies, Expr.Strings, Expr.values, type]
  | .binary info op left right, obeys => by
      obtain ⟨own, first, second⟩ := Expr.all_binary.mp obeys
      have joined (other : left.type ≠ .string) (copies : left.All Expr.Copies ∧ right.All Expr.Copies) :
          (Expr.binary info op left right).All Expr.Copies := by
        refine Expr.all_binary.mpr ⟨?_, copies⟩
        simp [Expr.Copies, Expr.Strings, Expr.values, ← own.1, other]
      unfold Expr.code binaryCode
      split
      · exact .runtimeString
      · next type =>
        refine (Expr.lowers_copies first).bind fun _ copies => (Expr.lowers_copies second).bind
          fun _ copies' => ?_
        dsimp only
        split
        · exact .pure (joined (by simp [type]) ⟨copies, copies'⟩)
        · exact .malformed id
      · next other _ =>
        refine (Expr.lowers_copies first).bind fun _ copies => (Expr.lowers_copies second).bind
          fun _ copies' => .pure (joined other ⟨copies, copies'⟩)
  | .cast info operand, obeys => by
      obtain ⟨own, inner⟩ := Expr.all_cast.mp obeys
      have other : operand.type ≠ .string := by
        intro text
        have converts : operand.type.Converts info.type := own
        rw [text] at converts
        cases converts
      have copied (copies : operand.All Expr.Copies) : (Expr.cast info operand).All Expr.Copies :=
        Expr.all_cast.mpr ⟨by simp [Expr.Copies, Expr.Strings, Expr.values, other], copies⟩
      have copies := Expr.lowers_copies inner
      unfold Expr.code castCode
      split
      · exact copies.mono fun _ => copied
      · exact copies.mono fun _ => copied
      · exact copies.mono fun _ => copied
      · exact copies.mono fun _ => copied
      · exact copies.bind fun _ copies => .pure (copied copies)
      · exact copies.bind fun _ copies => .pure (copied copies)
      · exact .runtimeString
      · exact .malformed id
  | .call info function arguments, obeys => by
      obtain ⟨own, each⟩ := Expr.all_call.mp obeys
      refine (lowers_argumentsCopies each own.2.2).bind fun _ copies => ?_
      exact ⟨fun _ _ => Expr.all_call.mpr ⟨copies.2, copies.1⟩, False.elim⟩

theorem lowers_argumentsCopies : ∀ {parameters : List Parameter} {arguments : List Expr},
    (∀ e ∈ arguments, e.All Expr.Obeys) → List.Forall₂ Parameter.Takes parameters arguments →
    Lowers False (argumentsCode f parameters arguments) fun _ =>
      (∀ e ∈ arguments, e.All Expr.Copies) ∧
        ∀ e ∈ valuesPassed parameters arguments, e.type = .string → e.isReference = true
  | _, [], _, .nil => .pure ⟨by simp, nofun⟩
  | p :: parameters, e :: arguments, each, .cons takes rest => by
      obtain ⟨first, others⟩ := List.forall_mem_cons.mp each
      have others := lowers_argumentsCopies others rest
      unfold argumentsCode
      cases mode : p.mode with
      | byReference =>
          refine .bind (.map (Expr.lowers_referenceCopies first)) fun _ copies =>
            others.bind fun _ more => .pure ⟨List.forall_mem_cons.mpr ⟨copies, more.1⟩, ?_⟩
          rw [valuesPassed, if_pos mode]
          exact more.2
      | byValue | constant =>
          have reference (text : e.type = .string) := Expr.isReference_of_code (f := f) first.self text
          refine Lowers.bind (P := fun _ => e.All Expr.Copies ∧ (e.type = .string → e.isReference = true))
            ?_ fun _ copies => others.bind fun _ more =>
              .pure ⟨List.forall_mem_cons.mpr ⟨copies.1, more.1⟩, ?_⟩
          · refine ⟨fun code lowered => ⟨(Expr.lowers_copies first).result code lowered, fun text => ?_⟩,
              False.elim⟩
            exact (reference text).result code lowered
          · rw [valuesPassed, if_neg (by simp [mode]), List.forall_mem_cons]
            exact ⟨copies.2, more.2⟩

end

end Trees

section Statements

variable {f : Frames}

theorem lowers_conditionCopies {e : Expr} (obeys : e.All Expr.Obeys) :
    Lowers False (conditionCode f e) fun _ => e.All Expr.Copies :=
  (Expr.lowers_copies obeys).bind fun _ copies => .pure copies

theorem lowers_outputCopies (used : Nat) {arguments : List Expr}
    (each : ∀ e ∈ arguments, e.All Expr.Obeys) :
    Lowers False (outputOf f used arguments) fun _ =>
      ∀ e ∈ arguments, e.All Expr.Copies ∧ (e.type = .string → e.value?.isSome = true) := by
  induction arguments generalizing used with
  | nil => exact .pure (by simp)
  | cons e arguments ih =>
      obtain ⟨obeys, others⟩ := List.forall_mem_cons.mp each
      unfold outputOf
      split
      · next value known =>
        have constant : e.value?.isSome = true := by rw [known]; rfl
        split
        · exact (ih used others).bind fun _ rest => .pure (List.forall_mem_cons.mpr
            ⟨⟨Expr.all_copies_of_value? constant, fun _ => constant⟩, rest⟩)
        · exact .malformed id
      · split
        · next conversion converts =>
          have other : e.type ≠ .string := by
            intro text
            rw [text] at converts
            cases converts
          have joined {code : Code} (cell : Memory) (copies : e.All Expr.Copies) :
              Lowers False (do
                let rest ← outputOf f (used + e.temporary f) arguments
                return (⟨code ++ rest.code, .conversion conversion :: rest.pieces,
                  cell.sized conversion.width :: rest.operands⟩ : Output)) fun _ =>
                ∀ x ∈ e :: arguments, x.All Expr.Copies ∧ (x.type = .string → x.value?.isSome = true) :=
            (ih _ others).bind fun _ rest => .pure (List.forall_mem_cons.mpr
              ⟨⟨copies, fun text => absurd text other⟩, rest⟩)
          split
          · next cell direct =>
            refine joined cell ?_
            cases e with
            | var info symbol => exact Expr.all_var.mpr nofun
            | _ => cases direct
          · exact (Expr.lowers_copies obeys).bind fun _ copies => joined _ copies
        · exact .runtimeString

theorem lowers_readCopies (newline : Bool) {targets : List Expr}
    (each : ∀ e ∈ targets, e.All Expr.Obeys) :
    Lowers False (readCode f newline targets) fun _ => ∀ e ∈ targets, e.All Expr.Copies := by
  induction targets with
  | nil => exact ⟨fun _ _ => by simp, False.elim⟩
  | cons e targets ih =>
      obtain ⟨obeys, others⟩ := List.forall_mem_cons.mp each
      have target : Lowers False (readTargetCode f e) fun _ => e.All Expr.Copies :=
        (Expr.lowers_referenceCopies obeys).bind fun _ copies => ⟨fun _ _ => copies, False.elim⟩
      exact target.bind fun _ copies => (ih others).bind fun _ rest =>
        .pure (List.forall_mem_cons.mpr ⟨copies, rest⟩)

mutual

/-- Where there is code for a statement, its strings are written as constants or copied. -/
theorem Stmt.lowers_copies : ∀ {s : Stmt} (loop? : Option Loop) (used label : Nat),
    s.All Expr.Obeys Stmt.Obeys →
    Lowers False (s.code f loop? used label) fun _ => s.All Expr.Copies Stmt.Copies
  | .assign info target value, _, _, _, obeys => by
      obtain ⟨-, left, right⟩ := Stmt.all_assign.mp obeys
      have own : Lowers False (value.code f) fun _ =>
          value.All Expr.Copies ∧ (value.type = .string → value.isReference = true) :=
        ⟨fun code lowered => ⟨(Expr.lowers_copies right).result code lowered,
          fun text => (Expr.isReference_of_code right.self text).result code lowered⟩, False.elim⟩
      refine own.bind fun _ copies => (Expr.lowers_referenceCopies left).bind fun _ copies' =>
        .pure (Stmt.all_assign.mpr ⟨?_, copies', copies.1⟩)
      simpa [Stmt.Copies, Stmt.Strings, Stmt.values] using copies.2
  | .ifThen info condition body, loop?, used, label, obeys => by
      obtain ⟨⟨type, test⟩, inner⟩ := Stmt.all_ifThen.mp obeys
      have type : condition.type = .integer := type
      refine (lowers_conditionCopies test).bind fun _ copies =>
        (Stmt.lowers_copies loop? used (label + 2) inner).bind fun _ copies' =>
          .pure (Stmt.all_ifThen.mpr ⟨⟨?_, copies⟩, copies'⟩)
      simp [Stmt.Copies, Stmt.Strings, Stmt.values, type]
  | .ifElse info condition body otherwise, loop?, used, label, obeys => by
      obtain ⟨⟨type, test⟩, inner, inner'⟩ := Stmt.all_ifElse.mp obeys
      have type : condition.type = .integer := type
      refine (lowers_conditionCopies test).bind fun _ copies =>
        (Stmt.lowers_copies loop? used (label + 2) inner).bind fun _ copies' =>
          (Stmt.lowers_copies loop? used (label + 2 + body.labels) inner').bind fun _ copies'' =>
            .pure (Stmt.all_ifElse.mpr ⟨⟨?_, copies⟩, copies', copies''⟩)
      simp [Stmt.Copies, Stmt.Strings, Stmt.values, type]
  | .while info condition body, loop?, used, label, obeys => by
      obtain ⟨⟨type, test⟩, inner⟩ := Stmt.all_while.mp obeys
      have type : condition.type = .integer := type
      refine (Stmt.lowers_copies _ used (label + 3) inner).bind fun _ copies' =>
        (lowers_conditionCopies test).bind fun _ copies =>
          .pure (Stmt.all_while.mpr ⟨⟨?_, copies⟩, copies'⟩)
      simp [Stmt.Copies, Stmt.Strings, Stmt.values, type]
  | .for info counter first last direction body, loop?, used, label, obeys => by
      obtain ⟨⟨own, target, start, stop⟩, inner⟩ := Stmt.all_for.mp obeys
      obtain ⟨-, like, same, same', -⟩ := own
      have other : counter.type ≠ .string := fun text => by simp [text, Ty.isIntegerLike] at like
      refine (Expr.lowers_copies start).bind fun _ copies =>
        (Expr.lowers_referenceCopies target).bind fun _ copies' =>
          (Expr.lowers_copies stop).bind fun _ copies'' =>
            (Stmt.lowers_copies _ (used + dwordSize) (label + 4) inner).bind fun _ copies''' =>
              .pure (Stmt.all_for.mpr ⟨⟨?_, copies', copies, copies''⟩, copies'''⟩)
      simp [Stmt.Copies, Stmt.Strings, Stmt.values, same, same', other]
  | .continue info, _, _, _, _ => ⟨fun _ _ => Stmt.all_continue.mpr nofun, False.elim⟩
  | .break info, _, _, _, _ => ⟨fun _ _ => Stmt.all_break.mpr nofun, False.elim⟩
  | .read info targets newline, _, _, _, obeys =>
      (lowers_readCopies newline (Stmt.all_read.mp obeys).2).mono fun _ copies =>
        Stmt.all_read.mpr ⟨nofun, copies⟩
  | .write info arguments newline, _, used, _, obeys => by
      refine (lowers_outputCopies used (Stmt.all_write.mp obeys).2).bind fun _ copies =>
        ⟨fun _ _ => Stmt.all_write.mpr ⟨?_, fun e mem => (copies e mem).1⟩, False.elim⟩
      exact fun e mem => (copies e mem).2
  | .call info function arguments, _, _, _, obeys => by
      obtain ⟨own, each⟩ := Stmt.all_call.mp obeys
      have copied : Lowers False (argumentsCode f function.parameters arguments) fun _ =>
          (Stmt.call info function arguments).All Expr.Copies Stmt.Copies :=
        (lowers_argumentsCopies each own.2).mono fun _ copies =>
          Stmt.all_call.mpr ⟨copies.2, copies.1⟩
      exact Lowers.bind (copied.bind fun _ copies => ⟨fun _ _ => copies, False.elim⟩)
        fun _ copies => .pure copies
  | .block info statements, loop?, used, label, obeys =>
      (lowers_blockCopies loop? used label (Stmt.all_block.mp obeys).2).mono fun _ copies =>
        Stmt.all_block.mpr ⟨nofun, copies⟩

theorem lowers_blockCopies : ∀ {statements : List Stmt} (loop? : Option Loop) (used label : Nat),
    (∀ s ∈ statements, s.All Expr.Obeys Stmt.Obeys) →
    Lowers False (blockCode f loop? used label statements) fun _ =>
      ∀ s ∈ statements, s.All Expr.Copies Stmt.Copies
  | [], _, _, _, _ => .pure (by simp)
  | s :: statements, loop?, used, label, each => by
      obtain ⟨head, rest⟩ := List.forall_mem_cons.mp each
      exact (Stmt.lowers_copies loop? used label head).bind fun _ copies =>
        (lowers_blockCopies loop? used (label + s.labels) rest).bind fun _ copies' =>
          .pure (List.forall_mem_cons.mpr ⟨copies, copies'⟩)

end

end Statements

section Programs

theorem Function.lowers_copies {g : Function} (obeys : g.body.All Expr.Obeys Stmt.Obeys) (f : Frames)
    (label : Nat) :
    Lowers False (g.bodyCode f label) fun _ => g.body.All Expr.Copies Stmt.Copies :=
  Stmt.lowers_copies none g.locals.size label obeys

theorem lowers_functionsCopies (label : Nat) {functions : List Function}
    (obeys : ∀ g ∈ functions, g.body.All Expr.Obeys Stmt.Obeys) :
    Lowers False (functionsCode label functions) fun _ =>
      ∀ g ∈ functions, g.body.All Expr.Copies Stmt.Copies := by
  induction functions generalizing label with
  | nil => exact .pure (by simp)
  | cons g later ih =>
      obtain ⟨own, others⟩ := List.forall_mem_cons.mp obeys
      have copied : Lowers False (g.code (g.frames later) label) fun _ =>
          g.body.All Expr.Copies Stmt.Copies :=
        Lowers.bind (P := fun _ => True) ⟨fun _ _ => trivial, False.elim⟩ fun _ _ =>
          (Function.lowers_copies own _ _).bind fun _ copies => .pure copies
      exact copied.bind fun _ copies => (ih (label + g.body.labels) others).bind fun _ copies' =>
        .pure (List.forall_mem_cons.mpr ⟨copies, copies'⟩)

theorem Program.lowers_copies {p : Program}
    (obeys : ∀ g ∈ p.main :: p.functions, g.body.All Expr.Obeys Stmt.Obeys) :
    Lowers False p.lower fun _ => ∀ g ∈ p.main :: p.functions, g.body.All Expr.Copies Stmt.Copies := by
  obtain ⟨main, functions⟩ := List.forall_mem_cons.mp obeys
  have copied : Lowers False (p.main.mainCode (bodyLabels p.functions)) fun _ =>
      p.main.body.All Expr.Copies Stmt.Copies :=
    (Function.lowers_copies main _ _).bind fun _ copies => .pure copies
  exact (lowers_functionsCopies 0 functions).bind fun _ copies => copied.bind fun _ copies' =>
    .pure (List.forall_mem_cons.mpr ⟨copies', copies⟩)

/-- Where there is code, strings are written as constants, or copied from where they are stored to be
assigned or passed. Otherwise the program has an error: its strings are computed, or the result of a
function is in no register. -/
theorem Source.strings_copied {source : Source} {p : Program} (h : source.program = .ok p) :
    (∀ listing, p.lower = .ok listing →
      ∀ g ∈ p.main :: p.functions, g.body.All Expr.Copies Stmt.Copies) ∧
    ((∃ g ∈ p.main :: p.functions, ¬g.body.All Expr.Copies Stmt.Copies) →
      (∃ span, p.lower = .error ⟨.runtimeString, span⟩) ∨
        ∃ type span, p.lower = .error ⟨.aggregateResult type, span⟩) := by
  have checked := Source.checked h
  have copies : Lowers False p.lower fun _ =>
      ∀ g ∈ p.main :: p.functions, g.body.All Expr.Copies Stmt.Copies := by
    refine Program.lowers_copies fun g mem => ?_
    obtain ⟨σ, sound⟩ := checked.sound g mem
    exact Stmt.All.mono sound (fun _ => Expr.Checked.obeys) fun _ => Stmt.Checked.obeys
  refine ⟨copies.result, fun ⟨g, mem, other⟩ => ?_⟩
  have never := (Program.lowers checked).error trivial
  match lowered : p.lower with
  | .ok listing => exact absurd (copies.result listing lowered g mem) other
  | .error ⟨.runtimeString, span⟩ => exact .inl ⟨span, rfl⟩
  | .error ⟨.aggregateResult type, span⟩ => exact .inr ⟨type, span, rfl⟩
  | .error ⟨.malformed fault, span⟩ => exact absurd lowered (never fault span)

def Source.pages : Source := ⟨"pages.pas", [
  "type line = record text: string end;",
  "var page: array[0..1] of line; s: string; i: integer;",
  "procedure next(given: string; var kept: string); begin kept := given end;",
  "begin page[i].text := s;",
  "next(page[1].text, s);",
  "writeln('line', i) end."], .endOfFile⟩

theorem Source.pages_lower :
    (Source.pages.program.toOption.bind fun p => p.lower.toOption).isSome = true := by
  decide +kernel

theorem Source.pages_copied : ∃ p listing, Source.pages.program = .ok p ∧ p.lower = .ok listing ∧
    ∀ g ∈ p.main :: p.functions, g.body.All Expr.Copies Stmt.Copies := by
  obtain ⟨p, accepted, listing, lowered⟩ := exists_of_bind_toOption Source.pages_lower
  exact ⟨p, listing, accepted, lowered, (Source.strings_copied accepted).1 listing lowered⟩

def Source.twoStrings : Source :=
  ⟨"input.pas", ["var s, t: string; begin s := t; end."], .endOfFile⟩

def Stmt.assignsString : Stmt → Bool
  | .assign _ _ value => (value.type matches .string)
  | _ => false

theorem Source.twoStrings_assigns : Source.twoStrings.program.toOption.map
    (fun p => (p.lower.toOption.isSome, p.main.body.nodes.any Stmt.assignsString)) =
      some (true, true) := by
  decide +kernel

-- The value of the assignment is not a constant, and it is no argument of a write.
theorem Source.twoStrings_not_constant : ∃ p listing, Source.twoStrings.program = .ok p ∧
    p.lower = .ok listing ∧
    ¬p.main.body.All (Expr.Strings fun _ => False) (Stmt.Strings fun _ => False) := by
  obtain ⟨p, accepted, facts⟩ := exists_of_map_toOption Source.twoStrings_assigns
  simp only [Prod.mk.injEq, List.any_eq_true] at facts
  obtain ⟨lowered, s, mem, assigns⟩ := facts
  cases answer : p.lower with
  | error e => simp [answer, Except.toOption] at lowered
  | ok listing =>
      refine ⟨p, listing, accepted, answer, fun constants => ?_⟩
      have own := (constants s mem).1
      cases s with
      | assign info target value =>
          refine own value (List.mem_singleton.mpr rfl) ?_
          simp only [Stmt.assignsString] at assigns
          split at assigns
          · assumption
          · cases assigns
      | _ => cases assigns

end Programs

end PascalX86
