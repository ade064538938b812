import PascalX86.Proofs.Checking.Sound
import PascalX86.Proofs.Lowering.Piece

/-!
# Lowering of checked expressions

By induction on the tree: the code of a checked expression pushes as many bytes as its type takes,
and there is only no code where the machine lacks something, never because the tree is malformed.
-/

set_option autoImplicit false

namespace PascalX86

/-- What comes of lowering: a result, or an error, which under `A` is none of the tree. -/
structure Lowers {α : Type} (A : Prop) (r : Lowered α) (Q : α → Prop) : Prop where
  result : ∀ a, r = .ok a → Q a
  error : A → ∀ fault span, r ≠ .error ⟨.malformed fault, span⟩

namespace Lowers

variable {α β : Type} {A B : Prop} {r : Lowered α} {f : α → Lowered β} {P Q : α → Prop}
  {R : β → Prop}

theorem pure {a : α} (h : Q a) : Lowers A (pure a) Q := by
  refine ⟨fun b eq => ?_, fun _ _ _ => nofun⟩
  cases eq
  exact h

theorem bind (h : Lowers A r P) (hf : ∀ a, P a → Lowers A (f a) R) : Lowers A (r >>= f) R := by
  cases r with
  | error e =>
      refine ⟨fun b => nofun, fun adequate fault span eq => ?_⟩
      cases eq
      exact h.error adequate fault span rfl
  | ok a => exact hf a (h.result a rfl)

theorem map {g : α → β} (h : Lowers A r fun a => R (g a)) : Lowers A (g <$> r) R := by
  cases r with
  | error e =>
      refine ⟨fun b => nofun, fun adequate fault span eq => ?_⟩
      cases eq
      exact h.error adequate fault span rfl
  | ok a => exact .pure (h.result a rfl)

theorem mono (h : Lowers A r P) (weaker : ∀ a, P a → Q a) : Lowers A r Q :=
  ⟨fun a eq => weaker a (h.result a eq), h.error⟩

theorem assuming (h : Lowers A r Q) (stronger : B → A) : Lowers B r Q :=
  ⟨h.result, fun b => h.error (stronger b)⟩

theorem malformed {span : Span} {fault : TreeFault} (never : ¬A) :
    Lowers A (malformed span fault : Lowered α) Q :=
  ⟨fun _ => nofun, fun adequate => absurd adequate never⟩

theorem runtimeString {span : Span} : Lowers A (runtimeString span : Lowered α) Q :=
  ⟨fun _ => nofun, fun _ _ _ => nofun⟩

theorem aggregateResult {type : Ty} {span : Span} :
    Lowers A (.error ⟨.aggregateResult type, span⟩ : Lowered α) Q :=
  ⟨fun _ => nofun, fun _ _ _ => nofun⟩

end Lowers

/-- Frames for code in the given scopes, with the arguments of every level up to its own. -/
structure Frames.Cover (f : Frames) (σ : Scopes) : Prop where
  scopes : σ.Sound f.level
  blocks : f.level < f.blocks.length

section References

variable {f : Frames} {σ : Scopes} {symbol : Symbol}

theorem exists_slot (fulfilled : symbol.Fulfilled) (referable : symbol.IsReferable) :
    ∃ slot, symbol.slot? = some slot := by
  simp only [Symbol.Fulfilled, Symbol.IsReferable] at fulfilled referable
  cases role : symbol.role with
  | constant value slot =>
      simp only [role] at fulfilled referable
      cases slot with
      | none => simp [referable] at fulfilled
      | some slot => exact ⟨slot, by simp [Symbol.slot?, role]⟩
  | «variable» slot | parameter _ _ slot => exact ⟨slot, by simp [Symbol.slot?, role]⟩
  | typeName | function => simp [role] at referable

theorem Frames.moves_pointer (level : Nat) : Moves (f.pointer level).1 0 0 := by
  unfold pointer
  split
  · exact .nil 0
  · exact .single rfl rfl

theorem Frames.lowers_displacement (span : Span) {slot : Slot} {A : Prop}
    (level : A → slot.level < f.blocks.length) (area : A → slot.area ≠ .fields) :
    Lowers A (f.displacement span symbol slot) fun _ => True := by
  unfold displacement
  split
  · exact .pure trivial
  · exact .pure trivial
  · next missing =>
    refine .malformed fun adequate => ?_
    have inside := level adequate
    rw [List.getElem?_eq_none_iff] at missing
    omega
  · next fields => exact .malformed fun adequate => area adequate fields

theorem Frames.lowers_reference (span : Span) {A : Prop} (cover : A → f.Cover σ)
    (holds : σ.Holds symbol) (referable : symbol.IsReferable) :
    Lowers A (f.reference span symbol) Reference.Finds := by
  unfold reference
  split
  · next missing =>
    refine .malformed fun adequate => ?_
    -- A symbol that is referred to is no scalar constant, and all others have slots.
    have fulfilled := (cover adequate).scopes.fulfilled symbol holds
    obtain ⟨slot, found⟩ := exists_slot fulfilled referable
    rw [found] at missing
    cases missing
  · next slot found =>
    have level (adequate : A) : slot.level < f.blocks.length :=
      Nat.lt_of_le_of_lt ((cover adequate).scopes.slot holds found).1 (cover adequate).blocks
    have area (adequate : A) : slot.area ≠ .fields :=
      ((cover adequate).scopes.slot holds found).2
    refine (lowers_displacement span level area).bind fun displacement _ => ?_
    split
    · exact .pure ((moves_pointer slot.level).append (.single rfl rfl))
    · exact .pure (moves_pointer slot.level)

end References

section Nodes

variable {A : Prop} {info : NodeInfo}

theorem lowers_constantCode {v : Value} (fits : v.Fits info.type) (proper : info.type.Proper) :
    Lowers A (constantCode info v) fun code => Moves code 0 info.type.size := by
  unfold constantCode
  split
  · exact .runtimeString
  · exact .pure (moves_push (fits.length_image proper))

theorem lowers_castCode {source : Ty} {operand : Lowered Code} (converts : source.Converts info.type)
    (h : Lowers A operand fun code => Moves code 0 source.size) :
    Lowers A (castCode info source operand) fun code => Moves code 0 info.type.size := by
  generalize type : info.type = target at converts
  cases converts <;> simp only [castCode, type]
  · exact h
  · exact h
  · exact h.bind fun code pushed => .pure (pushed.append moves_widenCode)
  · exact h.bind fun code pushed => .pure (pushed.append moves_widenCode)
  · exact .runtimeString

theorem lowers_binaryCode {op : Operator} {operands : Ty} {left right : Lowered Code}
    (typed : op.type operands operands = .ok ⟨operands, info.type⟩)
    (first : Lowers A left fun code => Moves code 0 operands.size)
    (second : Lowers A right fun code => Moves code 0 operands.size) :
    Lowers A (binaryCode info op operands left right) fun code => Moves code 0 info.type.size := by
  rcases Operator.type_cases typed with h | ⟨h, kind⟩ | ⟨h, kind⟩ | ⟨h, -⟩ | ⟨h, -⟩ <;>
    obtain ⟨rfl, result⟩ := OperationType.mk.inj h <;> rw [result] <;> simp only [binaryCode]
  · refine first.bind fun l pushed => second.bind fun r pushed' => .pure ?_
    exact (pushed.both pushed').append (moves_integerCode op)
  · refine first.bind fun l pushed => second.bind fun r pushed' => ?_
    split
    · next code known => exact .pure ((pushed.both pushed').append ((moves_doubleCode known).1 kind))
    · next unknown =>
      refine .malformed fun _ => ?_
      cases op <;> simp [Operator.kind, Operator.doubleCode?, Operator.doubleCore?,
        Operator.doubleCore?.arithmetic] at kind unknown
  · refine first.bind fun l pushed => second.bind fun r pushed' => ?_
    split
    · next code known => exact .pure ((pushed.both pushed').append ((moves_doubleCode known).2 kind))
    · next unknown =>
      refine .malformed fun _ => ?_
      cases op <;> simp [Operator.kind, Operator.doubleCode?, Operator.doubleCore?,
        Operator.doubleCore?.comparison] at kind unknown
  · exact .runtimeString
  · exact .runtimeString

theorem lowers_elementReference {array element : Ty} {low high : Int32} {base : Lowered Reference}
    {constant? : Option Int32} {index : Lowered Code} (type : array = .array low high element)
    (found : Lowers A base Reference.Finds) (pushed : Lowers A index fun code => Moves code 0 4) :
    Lowers A (elementReference info array base constant? index) Reference.Finds := by
  subst type
  simp only [elementReference]
  split
  · exact found.bind fun r finds => .pure (finds.displaced _)
  · refine found.bind fun r finds => pushed.bind fun code moves => .pure ?_
    -- The address and the index lie on the stack; the index is added to the address there.
    have operands : Moves (r.address ++ code) 0 8 := finds.address.both moves
    have sum : Moves [.instruction .pop [Register.ebx]] 8 4 := .single rfl rfl
    have fromLow : Moves (if low = 0 then [] else [.instruction .sub [Register.ebx, .immediate low]])
        4 4 := by
      split
      · exact .nil 4
      · exact .single rfl rfl
    have scaled : Moves (if Int32.ofNat element.size = 1 then []
        else [.instruction .imul [Register.ebx, .immediate (Int32.ofNat element.size)]]) 4 4 := by
      split
      · exact .nil 4
      · exact .single rfl rfl
    have added : Moves [.instruction .add [stackTop 0, Register.ebx]] 4 4 := .single rfl rfl
    exact operands.append (((sum.append fromLow).append scaled).append added)

theorem lowers_resultCode (span : Span) (type : Ty) :
    Lowers A (resultCode span type) fun code => Moves code 0 type.size := by
  unfold resultCode
  split
  · exact .pure (.nil 0)
  · exact .pure (.single rfl rfl)
  · exact .pure (.single rfl rfl)
  · exact .pure ⟨by decide, by decide⟩
  · exact .aggregateResult

theorem lowers_callCode {function : Signature} {arguments : Lowered Code} (sound : function.Sound)
    (pushed : Lowers A arguments fun code =>
      Moves code 0 (bytesOf (function.parameters.map Parameter.symbol))) :
    Lowers A (callCode info function arguments) fun code => Moves code 0 function.result.size := by
  refine pushed.bind fun code moves => (lowers_resultCode info.span function.result).bind
    fun result moves' => .pure ?_
  rw [← sound.block] at moves
  have call : Moves [.instruction .call [.raw function.label]] function.block function.block :=
    .single rfl rfl
  exact (moves.append (call.append (moves_discard sound.room))).append moves'

end Nodes

section Trees

variable {f : Frames} {σ : Scopes} {bound : Nat}

mutual

theorem Expr.lowers_reference : ∀ {e : Expr}, e.Sound σ bound → e.isReference = true →
    Lowers (f.Cover σ) (e.reference f) Reference.Finds
  | .var info symbol, sound, _ => by
      have checked := sound.self
      exact Frames.lowers_reference info.span id checked.grounded checked.obeys.2
  | .index info array index, sound, _ => by
      obtain ⟨checked, base, subscript⟩ := Expr.all_index.mp sound
      obtain ⟨reference, integer, low, high, type, -⟩ := checked.obeys
      have pushed := Expr.lowers_code subscript
      rw [integer] at pushed
      exact lowers_elementReference type (Expr.lowers_reference base reference) pushed
  | .field info record f, sound, _ => by
      obtain ⟨checked, base⟩ := Expr.all_field.mp sound
      obtain ⟨reference, -⟩ := checked.obeys
      exact (Expr.lowers_reference base reference).bind fun r finds => .pure (finds.displaced _)

theorem Expr.lowers_code : ∀ {e : Expr}, e.Sound σ bound →
    Lowers (f.Cover σ) (e.code f) fun code => Moves code 0 e.type.size
  | .var info symbol, sound => by
      have checked := sound.self
      refine (Frames.lowers_reference info.span id checked.grounded checked.obeys.2).bind
        fun r finds => .pure (finds.load info.type.dvd_size)
  | .index info array index, sound => by
      obtain ⟨checked, base, subscript⟩ := Expr.all_index.mp sound
      obtain ⟨reference, integer, low, high, type, -⟩ := checked.obeys
      have pushed := Expr.lowers_code subscript
      rw [integer] at pushed
      refine (lowers_elementReference type (Expr.lowers_reference base reference) pushed).bind
        fun r finds => .pure (finds.load info.type.dvd_size)
  | .field info record field, sound => by
      obtain ⟨checked, base⟩ := Expr.all_field.mp sound
      obtain ⟨reference, -⟩ := checked.obeys
      exact (Expr.lowers_reference base reference).bind fun r finds =>
        .pure ((finds.displaced _).load info.type.dvd_size)
  | .const info value, sound => lowers_constantCode sound.self.obeys.2 sound.self.proper
  | .aggregate info value, sound => lowers_constantCode sound.self.obeys.2 sound.self.proper
  | .negate info operand, sound => by
      obtain ⟨checked, inner⟩ := Expr.all_negate.mp sound
      obtain ⟨same, type⟩ := checked.obeys
      refine (Expr.lowers_code inner).bind fun code pushed => .pure ?_
      show Moves _ 0 info.type.size
      rw [same]
      exact pushed.append (moves_negateCode type)
  | .complement info operand, sound => by
      obtain ⟨checked, inner⟩ := Expr.all_complement.mp sound
      obtain ⟨same, type⟩ := checked.obeys
      refine (Expr.lowers_code inner).bind fun code pushed => .pure ?_
      show Moves _ 0 info.type.size
      rw [same]
      exact pushed.append (moves_complementCode type)
  | .binary info op left right, sound => by
      obtain ⟨checked, first, second⟩ := Expr.all_binary.mp sound
      obtain ⟨same, -, typed⟩ := checked.obeys
      have pushed := Expr.lowers_code second
      rw [← same] at pushed typed
      exact lowers_binaryCode typed (Expr.lowers_code first) pushed
  | .cast info operand, sound => by
      obtain ⟨checked, inner⟩ := Expr.all_cast.mp sound
      exact lowers_castCode checked.obeys (Expr.lowers_code inner)
  | .call info function arguments, sound => by
      obtain ⟨checked, each⟩ := Expr.all_call.mp sound
      obtain ⟨same, -, takes⟩ := checked.obeys
      show Lowers _ _ fun code => Moves code 0 info.type.size
      rw [same]
      exact lowers_callCode checked.grounded (lowers_argumentsCode each takes)

theorem lowers_argumentsCode : ∀ {parameters : List Parameter} {arguments : List Expr},
    (∀ e ∈ arguments, e.Sound σ bound) → List.Forall₂ Parameter.Takes parameters arguments →
    Lowers (f.Cover σ) (argumentsCode f parameters arguments) fun code =>
      Moves code 0 (bytesOf (parameters.map Parameter.symbol))
  | _, [], _, .nil => .pure (.nil 0)
  | p :: parameters, e :: arguments, each, .cons takes rest => by
      obtain ⟨first, others⟩ := List.forall_mem_cons.mp each
      have bytes : bytesOf ((p :: parameters).map Parameter.symbol) =
          p.mode.size p.type + bytesOf (parameters.map Parameter.symbol) := rfl
      -- The caller pushes the argument's size, the callee counts the parameter's.
      have value : Lowers (f.Cover σ) (e.code f) fun code => Moves code 0 p.type.size := by
        rw [Ty.size_eq_of_same takes.same]
        exact Expr.lowers_code first
      have others := lowers_argumentsCode others rest
      rw [bytes]
      unfold argumentsCode
      cases mode : p.mode with
      | byReference =>
          have reference := (takes.target mode).isReference
          have address : Lowers (f.Cover σ) (Reference.address <$> e.reference f) fun code =>
              Moves code 0 addressSize :=
            .map ((Expr.lowers_reference first reference).mono fun r finds => finds.address)
          exact address.bind fun code pushed => others.bind fun code' moves => .pure (pushed.both moves)
      | byValue | constant =>
          exact value.bind fun code pushed => others.bind fun code' moves => .pure (pushed.both moves)

end

end Trees

end PascalX86
