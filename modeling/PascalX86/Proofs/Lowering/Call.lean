import PascalX86.Proofs.Lowering.Site

/-!
# Calls in code

The calls in the code of a tree are those of its call nodes, in the order in which the nodes are
evaluated.
-/

set_option autoImplicit false

namespace PascalX86

open Register

section Trees

mutual

/-- The functions that an expression calls, in the order of the calls. -/
def Expr.callees : Expr → List Signature
  | .var .. | .const .. | .aggregate .. => []
  | .index _ left right | .binary _ _ left right => left.callees ++ right.callees
  | .field _ e _ | .negate _ e | .complement _ e | .cast _ e => e.callees
  | .call _ function arguments => Expr.calleesOf arguments ++ [function]

def Expr.calleesOf : List Expr → List Signature
  | [] => []
  | e :: arguments => e.callees ++ Expr.calleesOf arguments

end

mutual

/-- The functions that a statement calls, in the order of the calls in its code. The condition of a
loop stands behind the body. -/
def Stmt.callees : Stmt → List Signature
  | .assign _ target value => value.callees ++ target.callees
  | .ifThen _ condition body => condition.callees ++ body.callees
  | .ifElse _ condition body otherwise => condition.callees ++ body.callees ++ otherwise.callees
  | .while _ condition body => body.callees ++ condition.callees
  | .for _ _ first last _ body => first.callees ++ last.callees ++ body.callees
  | .continue _ | .break _ => []
  | .read _ operands _ | .write _ operands _ => Expr.calleesOf operands
  | .call _ function arguments => Expr.calleesOf arguments ++ [function]
  | .block _ statements => Stmt.calleesOf statements

def Stmt.calleesOf : List Stmt → List Signature
  | [] => []
  | s :: statements => s.callees ++ Stmt.calleesOf statements

end

end Trees

section Code

def Command.called? : Command → Option (List Operand)
  | .instruction .call operands => some operands
  | _ => none

/-- The operands of the calls in code. -/
def Code.calls (code : Code) : List (List Operand) := code.filterMap Command.called?

/-- Code that calls these functions, one after the other. -/
def Code.Calls (code : Code) (callees : List Signature) : Prop :=
  Code.calls code = callees.map fun f => [.raw f.label]

variable {first second code : Code} {callees callees' : List Signature} {m : Memory} {size : Nat}

theorem Code.Calls.append (h : first.Calls callees) (h' : second.Calls callees') :
    (first ++ second).Calls (callees ++ callees') := by
  unfold Code.Calls Code.calls at *
  rw [List.filterMap_append, List.map_append, h, h']

theorem Code.Calls.silent (h : first.Calls callees) (h' : second.Calls []) :
    (first ++ second).Calls callees := by
  have both := h.append h'
  rwa [List.append_nil] at both

theorem Code.Calls.after (h : first.Calls []) (h' : second.Calls callees) :
    (first ++ second).Calls callees :=
  h.append h'

theorem calls_pushMemory (m : Memory) (size : Nat) : (pushMemory m size).Calls [] := by
  simp [Code.Calls, Code.calls, pushMemory, Command.called?]

theorem calls_popMemory (m : Memory) (size : Nat) : (popMemory m size).Calls [] := by
  simp [Code.Calls, Code.calls, popMemory, Command.called?]

theorem calls_push (v : Value) : v.push.Calls [] := by
  simp [Code.Calls, Code.calls, Value.push, Command.called?]

theorem calls_discard (size : Nat) : (discard size).Calls [] := by
  unfold discard
  split <;> rfl

theorem calls_integerCode (op : Operator) : op.integerCode.Calls [] := by
  cases op <;> rfl

theorem calls_doubleCode {op : Operator} (known : op.doubleCode? = some code) : code.Calls [] := by
  cases op <;> simp [Operator.doubleCode?, Operator.doubleCore?, Operator.doubleCore?.arithmetic,
    Operator.doubleCore?.comparison] at known <;> subst known <;> rfl

theorem calls_negateCode (t : Ty) : (negateCode t).Calls [] := by
  cases t <;> rfl

theorem calls_complementCode (t : Ty) : (complementCode t).Calls [] := by
  cases t <;> rfl

end Code

namespace Reference

variable {r : Reference} {callees : List Signature}

theorem calls_displaced (h : r.code.Calls callees) (bytes : Int32) :
    (r.displaced bytes).code.Calls callees := by
  obtain ⟨code, place⟩ := r
  cases place with
  | memory m => exact h
  | stack =>
      simp only [displaced]
      split
      · exact h
      · exact h.silent rfl

theorem calls_address (h : r.code.Calls callees) : r.address.Calls callees := by
  obtain ⟨code, place⟩ := r
  cases place with
  | memory m => exact h.silent rfl
  | stack => exact h

theorem calls_resolve (h : r.code.Calls callees) : r.resolve.1.Calls callees := by
  obtain ⟨code, place⟩ := r
  cases place with
  | memory m => exact h
  | stack => exact h.silent rfl

theorem calls_load (h : r.code.Calls callees) (size : Nat) : (r.load size).Calls callees :=
  (calls_resolve h).silent (calls_pushMemory _ _)

theorem calls_store (h : r.code.Calls callees) (size : Nat) : (r.store size).Calls callees :=
  (calls_resolve h).silent (calls_popMemory _ _)

end Reference

section Expressions

variable {f : Frames} {σ : Scopes} {bound : Nat} {info : NodeInfo}

theorem Frames.lowers_calls (span : Span) (symbol : Symbol) :
    Lowers False (f.reference span symbol) fun r => r.code.Calls [] := by
  have pointer (level : Nat) : (f.pointer level).1.Calls [] := by
    unfold pointer
    split <;> rfl
  unfold reference
  split
  · exact .malformed id
  · refine (lowers_displacement span False.elim False.elim).bind fun displacement _ => ?_
    split
    · exact .pure ((pointer _).append rfl)
    · exact .pure (pointer _)

theorem lowers_constantCalls (info : NodeInfo) (v : Value) :
    Lowers False (constantCode info v) fun code => code.Calls [] := by
  unfold constantCode
  split
  · exact .runtimeString
  · exact .pure (calls_push v)

theorem lowers_castCalls {source : Ty} {operand : Lowered Code} {callees : List Signature}
    (h : Lowers False operand fun code => code.Calls callees) :
    Lowers False (castCode info source operand) fun code => code.Calls callees := by
  unfold castCode
  split
  · exact h
  · exact h
  · exact h
  · exact h
  · exact h.bind fun code calls => .pure (calls.silent rfl)
  · exact h.bind fun code calls => .pure (calls.silent rfl)
  · exact .runtimeString
  · exact .malformed id

theorem lowers_binaryCalls {op : Operator} {operands : Ty} {left right : Lowered Code}
    {callees callees' : List Signature} (first : Lowers False left fun code => code.Calls callees)
    (second : Lowers False right fun code => code.Calls callees') :
    Lowers False (binaryCode info op operands left right) fun code =>
      code.Calls (callees ++ callees') := by
  unfold binaryCode
  split
  · exact .runtimeString
  · refine first.bind fun l calls => second.bind fun r calls' => ?_
    split
    · next code known => exact .pure ((calls.append calls').silent (calls_doubleCode known))
    · exact .malformed id
  · refine first.bind fun l calls => second.bind fun r calls' => .pure ?_
    exact (calls.append calls').silent (calls_integerCode op)

/-- An index is a constant, which calls nothing, or it is evaluated after the array. -/
theorem lowers_elementCalls {array : Ty} {base : Lowered Reference} {constant? : Option Int32}
    {index : Lowered Code} {callees callees' : List Signature}
    (found : Lowers False base fun r => r.code.Calls callees)
    (second : Lowers False index fun code => code.Calls callees')
    (constant : constant?.isSome = true → callees' = []) :
    Lowers False (elementReference info array base constant? index) fun r =>
      r.code.Calls (callees ++ callees') := by
  unfold elementReference
  split
  · split
    · rw [constant rfl, List.append_nil]
      exact found.bind fun r calls => .pure (r.calls_displaced calls _)
    · refine found.bind fun r calls => second.bind fun code calls' => .pure ?_
      refine ((r.calls_address calls).append calls').silent ?_
      split <;> split <;> rfl
  · exact .malformed id

theorem lowers_callCalls {function : Signature} {arguments : Lowered Code} {callees : List Signature}
    (each : Lowers False arguments fun code => code.Calls callees) :
    Lowers False (callCode info function arguments) fun code => code.Calls (callees ++ [function]) := by
  have result (type : Ty) : Lowers False (resultCode info.span type) fun code => code.Calls [] := by
    unfold resultCode
    split
    · exact .pure rfl
    · exact .pure rfl
    · exact .pure rfl
    · exact .pure rfl
    · exact .aggregateResult
  refine each.bind fun code calls => (result function.result).bind fun last calls' => .pure ?_
  have call : Code.Calls [.instruction .call [.raw function.label]] [function] := rfl
  exact (calls.append (call.silent (calls_discard function.block))).silent calls'

theorem callees_of_value? {e : Expr} (known : e.value?.isSome = true) : e.callees = [] := by
  cases e <;> simp [Expr.value?] at known <;> rw [Expr.callees]

theorem callees_of_subscript {index : Expr} (known : (index.value?.bind Value.integer?).isSome = true) :
    index.callees = [] := by
  obtain ⟨n, known⟩ := Option.isSome_iff_exists.mp known
  obtain ⟨v, known, -⟩ := Option.bind_eq_some_iff.mp known
  exact callees_of_value? (by simp [known])

mutual

theorem Expr.lowers_referenceCalls : ∀ {e : Expr}, e.Sound σ bound →
    Lowers False (e.reference f) fun r => r.code.Calls e.callees
  | .var info symbol, _ => Frames.lowers_calls info.span symbol
  | .index info array index, sound => by
      obtain ⟨-, base, subscript⟩ := Expr.all_index.mp sound
      exact lowers_elementCalls (Expr.lowers_referenceCalls base) (Expr.lowers_calls subscript)
        callees_of_subscript
  | .field info record field, sound => by
      obtain ⟨-, base⟩ := Expr.all_field.mp sound
      exact (Expr.lowers_referenceCalls base).bind fun r calls => .pure (r.calls_displaced calls _)
  | .const .., _ | .aggregate .., _ | .negate .., _ | .complement .., _ | .binary .., _
  | .cast .., _ | .call .., _ => .malformed id

theorem Expr.lowers_calls : ∀ {e : Expr}, e.Sound σ bound →
    Lowers False (e.code f) fun code => code.Calls e.callees
  | .var info symbol, _ =>
      (Frames.lowers_calls info.span symbol).bind fun r calls => .pure (r.calls_load calls _)
  | .index info array index, sound => by
      obtain ⟨-, base, subscript⟩ := Expr.all_index.mp sound
      exact (lowers_elementCalls (Expr.lowers_referenceCalls base) (Expr.lowers_calls subscript)
        callees_of_subscript).bind fun r calls => .pure (r.calls_load calls _)
  | .field info record field, sound => by
      obtain ⟨-, base⟩ := Expr.all_field.mp sound
      exact (Expr.lowers_referenceCalls base).bind fun r calls =>
        .pure ((r.displaced _).calls_load (r.calls_displaced calls _) _)
  | .const info value, _ => lowers_constantCalls info value
  | .aggregate info value, _ => lowers_constantCalls info value
  | .negate info operand, sound => by
      obtain ⟨-, inner⟩ := Expr.all_negate.mp sound
      exact (Expr.lowers_calls inner).bind fun code calls => .pure (calls.silent (calls_negateCode _))
  | .complement info operand, sound => by
      obtain ⟨-, inner⟩ := Expr.all_complement.mp sound
      exact (Expr.lowers_calls inner).bind fun code calls =>
        .pure (calls.silent (calls_complementCode _))
  | .binary info op left right, sound => by
      obtain ⟨-, first, second⟩ := Expr.all_binary.mp sound
      exact lowers_binaryCalls (Expr.lowers_calls first) (Expr.lowers_calls second)
  | .cast info operand, sound => by
      obtain ⟨-, inner⟩ := Expr.all_cast.mp sound
      exact lowers_castCalls (Expr.lowers_calls inner)
  | .call info function arguments, sound => by
      obtain ⟨checked, each⟩ := Expr.all_call.mp sound
      exact lowers_callCalls (lowers_argumentsCalls each checked.obeys.2.2)

theorem lowers_argumentsCalls : ∀ {parameters : List Parameter} {arguments : List Expr},
    (∀ e ∈ arguments, e.Sound σ bound) → List.Forall₂ Parameter.Takes parameters arguments →
    Lowers False (argumentsCode f parameters arguments) fun code =>
      code.Calls (Expr.calleesOf arguments)
  | _, [], _, .nil => .pure rfl
  | p :: parameters, e :: arguments, each, .cons _ rest => by
      obtain ⟨first, others⟩ := List.forall_mem_cons.mp each
      have others := lowers_argumentsCalls others rest
      unfold argumentsCode
      cases p.mode with
      | byReference =>
          have address : Lowers False (Reference.address <$> e.reference f) fun code =>
              code.Calls e.callees :=
            .map ((Expr.lowers_referenceCalls first).mono fun r calls => r.calls_address calls)
          exact address.bind fun code calls => others.bind fun rest calls' => .pure (calls.append calls')
      | byValue | constant =>
          exact (Expr.lowers_calls first).bind fun code calls => others.bind fun rest calls' =>
            .pure (calls.append calls')

end

end Expressions

section Statements

variable {f : Frames} {σ : Scopes} {bound : Nat} {info : NodeInfo}

theorem lowers_conditionCalls {e : Expr} (sound : e.Sound σ bound) :
    Lowers False (conditionCode f e) fun code => code.Calls e.callees :=
  (Expr.lowers_calls sound).bind fun _ calls => .pure (calls.silent rfl)

/-- Variables that are shown in place call nothing, nor do constants. -/
theorem callees_of_direct? {e : Expr} {m : Memory} (known : e.direct? f = some m) :
    e.callees = [] := by
  cases e with
  | var => rfl
  | _ => simp [Expr.direct?] at known

theorem lowers_outputCalls (used : Nat) {arguments : List Expr}
    (each : ∀ e ∈ arguments, e.Sound σ bound) :
    Lowers False (outputOf f used arguments) fun output =>
      output.code.Calls (Expr.calleesOf arguments) := by
  induction arguments generalizing used with
  | nil => exact .pure rfl
  | cons e arguments ih =>
      rw [List.forall_mem_cons] at each
      unfold outputOf
      split
      · next value known =>
        have none := callees_of_value? (e := e) (by simp [known])
        split
        · refine (ih used each.2).bind fun rest calls => .pure ?_
          rw [Expr.calleesOf, none, List.nil_append]
          exact calls
        · exact .malformed id
      · split
        · next conversion _ =>
          have joined {code : Code} (cell : Memory) (first : code.Calls e.callees) :
              Lowers False (do
                let rest ← outputOf f (used + e.temporary f) arguments
                return (⟨code ++ rest.code, .conversion conversion :: rest.pieces,
                  cell.sized conversion.width :: rest.operands⟩ : Output))
                fun output => output.code.Calls (Expr.calleesOf (e :: arguments)) :=
            (ih _ each.2).bind fun rest others => .pure (first.append others)
          split
          · next cell direct =>
            refine joined cell ?_
            rw [callees_of_direct? direct]
            rfl
          · exact (Expr.lowers_calls each.1).bind fun code calls =>
              joined _ (calls.silent (calls_popMemory _ _))
        · exact .runtimeString

theorem lowers_writeCalls (used : Nat) {arguments : List Expr} (newline : Bool)
    (each : ∀ e ∈ arguments, e.Sound σ bound) :
    Lowers False (writeCode f used arguments newline) fun code =>
      code.Calls (Expr.calleesOf arguments) := by
  refine (lowers_outputCalls used each).bind fun output calls => ?_
  dsimp only
  split
  · exact .pure calls
  · exact .pure (calls.silent rfl)

theorem lowers_readCalls (newline : Bool) {targets : List Expr}
    (each : ∀ e ∈ targets, e.Sound σ bound) :
    Lowers False (readCode f newline targets) fun code => code.Calls (Expr.calleesOf targets) := by
  induction targets with
  | nil => cases newline <;> exact .pure rfl
  | cons e targets ih =>
      rw [List.forall_mem_cons] at each
      have first : Lowers False (readTargetCode f e) fun code => code.Calls e.callees := by
        refine (Expr.lowers_referenceCalls each.1).bind fun r calls => ?_
        have pop : Code.Calls [.instruction .pop [eax]] [] := rfl
        have address := (r.calls_address calls).silent pop
        dsimp only
        split
        · exact .pure (address.silent rfl)
        · exact .pure (address.silent rfl)
        · exact .pure (address.silent rfl)
        · exact .malformed id
      exact first.bind fun _ calls => (ih each.2).bind fun _ calls' => .pure (calls.append calls')

mutual

theorem Stmt.lowers_calls : ∀ {s : Stmt} (loop? : Option Loop) (used label : Nat),
    s.Sound σ bound →
    Lowers False (s.code f loop? used label) fun code => code.Calls s.callees
  | .assign info target value, _, _, _, sound => by
      obtain ⟨-, left, right⟩ := Stmt.all_assign.mp sound
      exact (Expr.lowers_calls right).bind fun code calls =>
        (Expr.lowers_referenceCalls left).bind fun r calls' => .pure (calls.append (r.calls_store calls' _))
  | .ifThen info condition body, loop?, used, label, sound => by
      obtain ⟨⟨-, test⟩, inner⟩ := Stmt.all_ifThen.mp sound
      refine (lowers_conditionCalls test).bind fun test calls =>
        (Stmt.lowers_calls loop? used (label + 2) inner).bind fun body calls' => .pure ?_
      have branch : Code.Calls [jump .jz (numbered "else" label)] [] := rfl
      exact (calls.append (branch.after calls')).silent rfl
  | .ifElse info condition body otherwise, loop?, used, label, sound => by
      obtain ⟨⟨-, test⟩, inner, inner'⟩ := Stmt.all_ifElse.mp sound
      refine (lowers_conditionCalls test).bind fun test calls =>
        (Stmt.lowers_calls loop? used (label + 2) inner).bind fun first calls' =>
          (Stmt.lowers_calls loop? used (label + 2 + body.labels) inner').bind fun second calls'' => .pure ?_
      have branch : Code.Calls [jump .jz (numbered "else" label)] [] := rfl
      have middle : Code.Calls
          [jump .jmp (numbered "endif" (label + 1)), .label (numbered "else" label)] [] := rfl
      exact (((calls.append (branch.after calls')).silent middle).append calls'').silent rfl
  | .while info condition body, loop?, used, label, sound => by
      obtain ⟨⟨-, test⟩, inner⟩ := Stmt.all_while.mp sound
      refine (Stmt.lowers_calls _ used (label + 3) inner).bind fun body calls =>
        (lowers_conditionCalls test).bind fun test calls' => .pure ?_
      have start : Code.Calls [jump .jmp (numbered "while_cond" label),
          .label (numbered "while_body" (label + 1))] [] := rfl
      have again : Code.Calls [.label (numbered "while_cond" label)] [] := rfl
      exact (((start.after calls).silent again).append calls').silent rfl
  | .for info counter first last direction body, loop?, used, label, sound => by
      obtain ⟨⟨checked, hcounter, hfirst, hlast⟩, inner⟩ := Stmt.all_for.mp sound
      obtain ⟨-, -, -, -, place, symbol, rfl⟩ := checked.obeys
      refine (Expr.lowers_calls hfirst).bind fun first calls =>
        (Expr.lowers_referenceCalls hcounter).bind fun r none =>
          (Expr.lowers_calls hlast).bind fun last calls' =>
            (Stmt.lowers_calls _ (used + dwordSize) (label + 4) inner).bind fun body calls'' => .pure ?_
      -- The counter is a variable, which is found without calls each time.
      have none : r.code.Calls [] := none
      have enter : Code.Calls [.instruction .pop [frameSlot (used + dwordSize)],
          jump .jmp (numbered "for_cond" label), .label (numbered "for_body" (label + 1))] [] := rfl
      have next : Code.Calls [.label (numbered "for_next" (label + 2))] [] := rfl
      have advance : Code.Calls [.instruction direction.step [r.resolve.2, .immediate 1],
          .label (numbered "for_cond" label)] [] := by
        cases direction <;> rfl
      have compare : Code.Calls [.instruction .mov [eax, r.resolve.2],
          .instruction .cmp [eax, frameSlot (used + dwordSize)],
          jump direction.again (numbered "for_body" (label + 1)),
          .label (numbered "for_end" (label + 3))] [] := by
        cases direction <;> rfl
      have store : (r.store place.type.size).Calls [] := r.calls_store none _
      have found := r.calls_resolve none
      have start := (((calls.silent store).append calls').silent enter).append calls''
      exact (((start.silent (next.after found)).silent advance).silent found).silent compare
  | .continue info, loop?, _, _, _ => by
      cases loop? with
      | none => exact .malformed id
      | some loop => exact .pure rfl
  | .break info, loop?, _, _, _ => by
      cases loop? with
      | none => exact .malformed id
      | some loop => exact .pure rfl
  | .read info targets newline, _, _, _, sound =>
      lowers_readCalls newline (Stmt.all_read.mp sound).2
  | .write info arguments newline, _, used, _, sound =>
      lowers_writeCalls used newline (Stmt.all_write.mp sound).2
  | .call info function arguments, _, _, _, sound => by
      obtain ⟨checked, each⟩ := Stmt.all_call.mp sound
      have call := @lowers_callCalls info function _ _
        (lowers_argumentsCalls (f := f) each checked.obeys.2)
      exact call.bind fun code calls => .pure (calls.silent (calls_discard _))
  | .block info statements, loop?, used, label, sound =>
      lowers_blockCalls loop? used label (Stmt.all_block.mp sound).2

theorem lowers_blockCalls : ∀ {statements : List Stmt} (loop? : Option Loop) (used label : Nat),
    (∀ s ∈ statements, s.Sound σ bound) →
    Lowers False (blockCode f loop? used label statements) fun code =>
      code.Calls (Stmt.calleesOf statements)
  | [], _, _, _, _ => .pure rfl
  | s :: statements, loop?, used, label, each => by
      obtain ⟨head, rest⟩ := List.forall_mem_cons.mp each
      exact (Stmt.lowers_calls loop? used label head).bind fun code calls =>
        (lowers_blockCalls loop? used (label + s.labels) rest).bind fun rest calls' =>
          .pure (calls.append calls')

end

end Statements

end PascalX86
