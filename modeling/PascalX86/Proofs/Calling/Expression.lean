import PascalX86.Proofs.Calling.Piece
import PascalX86.Proofs.Checking.Call
import PascalX86.Proofs.Lowering.Expression

/-!
# Operands of expressions

By induction on the tree: the code of an expression piles its value on the stack and leaves what was
there before. Calls release as many bytes as their functions take.
-/

set_option autoImplicit false

namespace PascalX86

open Register

variable {functions : List Function} {f : Frames} {σ : Scopes} {bound : Nat}

/-- The code of one argument: its value, or the address of what it refers to. -/
def argumentCode (f : Frames) (p : Parameter) (e : Expr) : Lowered Code :=
  match p.mode with
  | .byReference => Reference.address <$> e.reference f
  | .byValue | .constant => e.code f

theorem argumentsCode_cons (f : Frames) (p : Parameter) (parameters : List Parameter) (e : Expr)
    (arguments : List Expr) :
    argumentsCode f (p :: parameters) (e :: arguments) = (do
      let first ← argumentCode f p e
      return first ++ (← argumentsCode f parameters arguments)) := by
  rw [argumentsCode, argumentCode]
  cases p.mode <;> rfl

/-- The functions of a program that stand at the label of a signature take its arguments. -/
def Signature.Agrees (functions : List Function) (s : Signature) : Prop :=
  ∀ h ∈ functions, h.signature.label = s.label → h.signature.block = s.block

section Nodes

variable {info : NodeInfo}

theorem Frames.lowers_piles (span : Span) (symbol : Symbol) :
    Lowers False (f.reference span symbol) fun r => r.Piles functions := by
  have pointer (level : Nat) : Piles functions (f.pointer level).1 0 0 := by
    unfold Frames.pointer
    split
    · exact .nil 0
    · exact .single rfl rfl
  unfold reference
  split
  · exact .malformed id
  · next slot _ =>
    refine (lowers_displacement span False.elim False.elim).bind fun d _ => ?_
    split
    · exact .pure ((pointer slot.level).append (.single rfl rfl))
    · exact .pure (pointer slot.level)

theorem lowers_constantPiles {v : Value} (fits : v.Fits info.type) (proper : info.type.Proper) :
    Lowers False (constantCode info v) fun code => Piles functions code 0 info.type.size := by
  unfold constantCode
  split
  · exact .runtimeString
  · exact .pure (piles_push (fits.length_image proper))

theorem lowers_castPiles {source : Ty} {operand : Lowered Code} (converts : source.Converts info.type)
    (h : Lowers False operand fun code => Piles functions code 0 source.size) :
    Lowers False (castCode info source operand) fun code => Piles functions code 0 info.type.size := by
  generalize type : info.type = target at converts
  cases converts <;> simp only [castCode, type]
  · exact h
  · exact h
  · exact h.bind fun code piles => .pure (piles.append piles_widenCode)
  · exact h.bind fun code piles => .pure (piles.append piles_widenCode)
  · exact .runtimeString

theorem lowers_binaryPiles {op : Operator} {operands : Ty} {left right : Lowered Code}
    (typed : op.type operands operands = .ok ⟨operands, info.type⟩)
    (first : Lowers False left fun code => Piles functions code 0 operands.size)
    (second : Lowers False right fun code => Piles functions code 0 operands.size) :
    Lowers False (binaryCode info op operands left right) fun code =>
      Piles functions code 0 info.type.size := by
  rcases Operator.type_cases typed with h | ⟨h, kind⟩ | ⟨h, kind⟩ | ⟨h, -⟩ | ⟨h, -⟩ <;>
    obtain ⟨rfl, result⟩ := OperationType.mk.inj h <;> rw [result] <;> simp only [binaryCode]
  · refine first.bind fun l piles => second.bind fun r piles' => .pure ?_
    exact (piles.both piles').append (piles_integerCode op)
  · refine first.bind fun l piles => second.bind fun r piles' => ?_
    split
    · next code known => exact .pure ((piles.both piles').append ((piles_doubleCode known).1 kind))
    · exact .malformed id
  · refine first.bind fun l piles => second.bind fun r piles' => ?_
    split
    · next code known => exact .pure ((piles.both piles').append ((piles_doubleCode known).2 kind))
    · exact .malformed id
  · exact .runtimeString
  · exact .runtimeString

theorem lowers_elementPiles {array element : Ty} {low high : Int32} {base : Lowered Reference}
    {constant? : Option Int32} {index : Lowered Code} (type : array = .array low high element)
    (found : Lowers False base fun r => r.Piles functions)
    (pushed : Lowers False index fun code => Piles functions code 0 4) :
    Lowers False (elementReference info array base constant? index) fun r => r.Piles functions := by
  subst type
  simp only [elementReference]
  split
  · exact found.bind fun r piles => .pure (piles.displaced _)
  · refine found.bind fun r piles => pushed.bind fun code piles' => .pure ?_
    have operands : Piles functions (r.address ++ code) 0 8 := piles.address.both piles'
    have sum : Piles functions [.instruction .pop [Register.ebx]] 8 4 := .single rfl rfl
    have fromLow : Piles functions
        (if low = 0 then [] else [.instruction .sub [Register.ebx, .immediate low]]) 4 4 := by
      split
      · exact .nil 4
      · exact .single rfl rfl
    have scaled : Piles functions (if Int32.ofNat element.size = 1 then []
        else [.instruction .imul [Register.ebx, .immediate (Int32.ofNat element.size)]]) 4 4 := by
      split
      · exact .nil 4
      · exact .single rfl rfl
    have added : Piles functions [.instruction .add [stackTop 0, Register.ebx]] 4 4 := .single rfl rfl
    exact operands.append (((sum.append fromLow).append scaled).append added)

theorem lowers_resultPiles (span : Span) (type : Ty) :
    Lowers False (resultCode span type) fun code => Piles functions code 0 type.size := by
  unfold resultCode
  split
  · exact .pure (.nil 0)
  · exact .pure (.single rfl rfl)
  · exact .pure (.single rfl rfl)
  · exact .pure ⟨rfl, rfl⟩
  · exact .aggregateResult

theorem piles_call {function : Signature} (agrees : function.Agrees functions) :
    Piles functions [.instruction .call [.raw function.label]] function.block function.block := by
  apply Piles.single rfl
  simp only [Command.keeps, List.all_eq_true, decide_eq_true_eq]
  intro h mem
  by_cases same : h.signature.label = function.label
  · exact .inr (Nat.le_of_eq (agrees h mem same))
  · exact .inl same

theorem lowers_callPiles {function : Signature} {arguments : Lowered Code} (sound : function.Sound)
    (agrees : function.Agrees functions)
    (pushed : Lowers False arguments fun code =>
      Piles functions code 0 (bytesOf (function.parameters.map Parameter.symbol))) :
    Lowers False (callCode info function arguments) fun code =>
      Piles functions code 0 function.result.size := by
  have answered : Lowers False (resultCode info.span function.result) fun code =>
      Piles functions code 0 function.result.size :=
    lowers_resultPiles info.span function.result
  refine pushed.bind fun code piles => answered.bind fun result piles' => .pure ?_
  rw [← sound.block] at piles
  exact (piles.append ((piles_call agrees).append (piles_discard sound.room))).append piles'

theorem lowers_argumentPiles {p : Parameter} {e : Expr} (takes : p.Takes e)
    (pushed : Lowers False (e.code f) fun code => Piles functions code 0 e.type.size)
    (found : e.isReference = true → Lowers False (e.reference f) fun r => r.Piles functions) :
    Lowers False (argumentCode f p e) fun code => Piles functions code 0 (p.mode.size p.type) := by
  unfold argumentCode
  rw [← Ty.size_eq_of_same takes.same] at pushed
  cases mode : p.mode with
  | byReference =>
      exact .map ((found (takes.target mode).isReference).mono fun r piles => piles.address)
  | byValue | constant => exact pushed

end Nodes

section Trees

mutual

theorem Expr.lowers_referencePiles (agree : ∀ s, σ.Names s → s.Agrees functions) : ∀ {e : Expr},
    e.Sound σ bound → e.All (Expr.Calls σ) → e.isReference = true →
    Lowers False (e.reference f) fun r => r.Piles functions
  | .var info symbol, _, _, _ => f.lowers_piles info.span symbol
  | .index info array index, sound, calls, _ => by
      obtain ⟨checked, base, subscript⟩ := Expr.all_index.mp sound
      obtain ⟨-, inBase, inSubscript⟩ := Expr.all_index.mp calls
      obtain ⟨reference, integer, low, high, type, -⟩ := checked.obeys
      have pushed := Expr.lowers_piles agree subscript inSubscript
      rw [integer] at pushed
      exact lowers_elementPiles type (Expr.lowers_referencePiles agree base inBase reference) pushed
  | .field info record field, sound, calls, _ => by
      obtain ⟨checked, base⟩ := Expr.all_field.mp sound
      obtain ⟨reference, -⟩ := checked.obeys
      exact (Expr.lowers_referencePiles agree base (Expr.all_field.mp calls).2 reference).bind
        fun r piles => .pure (piles.displaced _)

theorem Expr.lowers_piles (agree : ∀ s, σ.Names s → s.Agrees functions) : ∀ {e : Expr},
    e.Sound σ bound → e.All (Expr.Calls σ) →
    Lowers False (e.code f) fun code => Piles functions code 0 e.type.size
  | .var info symbol, _, _ => (f.lowers_piles info.span symbol).bind fun r piles =>
      .pure (piles.load info.type.dvd_size)
  | .index info array index, sound, calls => by
      obtain ⟨checked, base, subscript⟩ := Expr.all_index.mp sound
      obtain ⟨-, inBase, inSubscript⟩ := Expr.all_index.mp calls
      obtain ⟨reference, integer, low, high, type, -⟩ := checked.obeys
      have pushed := Expr.lowers_piles agree subscript inSubscript
      rw [integer] at pushed
      exact (lowers_elementPiles type (Expr.lowers_referencePiles agree base inBase reference)
        pushed).bind fun r piles => .pure (piles.load info.type.dvd_size)
  | .field info record field, sound, calls => by
      obtain ⟨checked, base⟩ := Expr.all_field.mp sound
      obtain ⟨reference, -⟩ := checked.obeys
      exact (Expr.lowers_referencePiles agree base (Expr.all_field.mp calls).2 reference).bind
        fun r piles => .pure ((piles.displaced _).load info.type.dvd_size)
  | .const info value, sound, _ => lowers_constantPiles sound.self.obeys.2 sound.self.proper
  | .aggregate info value, sound, _ => lowers_constantPiles sound.self.obeys.2 sound.self.proper
  | .negate info operand, sound, calls => by
      obtain ⟨checked, inner⟩ := Expr.all_negate.mp sound
      obtain ⟨same, type⟩ := checked.obeys
      refine (Expr.lowers_piles agree inner (Expr.all_negate.mp calls).2).bind fun code piles => .pure ?_
      show Piles _ _ 0 info.type.size
      rw [same]
      exact piles.append (piles_negateCode type)
  | .complement info operand, sound, calls => by
      obtain ⟨checked, inner⟩ := Expr.all_complement.mp sound
      obtain ⟨same, type⟩ := checked.obeys
      refine (Expr.lowers_piles agree inner (Expr.all_complement.mp calls).2).bind
        fun code piles => .pure ?_
      show Piles _ _ 0 info.type.size
      rw [same]
      exact piles.append (piles_complementCode type)
  | .binary info op left right, sound, calls => by
      obtain ⟨checked, first, second⟩ := Expr.all_binary.mp sound
      obtain ⟨-, inFirst, inSecond⟩ := Expr.all_binary.mp calls
      obtain ⟨same, -, typed⟩ := checked.obeys
      have pushed := Expr.lowers_piles agree second inSecond
      rw [← same] at pushed typed
      exact lowers_binaryPiles typed (Expr.lowers_piles agree first inFirst) pushed
  | .cast info operand, sound, calls => by
      obtain ⟨checked, inner⟩ := Expr.all_cast.mp sound
      exact lowers_castPiles checked.obeys (Expr.lowers_piles agree inner (Expr.all_cast.mp calls).2)
  | .call info function arguments, sound, calls => by
      obtain ⟨checked, each⟩ := Expr.all_call.mp sound
      obtain ⟨named, inEach⟩ := Expr.all_call.mp calls
      obtain ⟨same, -, takes⟩ := checked.obeys
      show Lowers _ _ fun code => Piles functions code 0 info.type.size
      rw [same]
      exact lowers_callPiles checked.grounded (agree function named)
        (lowers_argumentsPiles agree each inEach takes)

theorem lowers_argumentsPiles (agree : ∀ s, σ.Names s → s.Agrees functions) :
    ∀ {parameters : List Parameter} {arguments : List Expr}, (∀ e ∈ arguments, e.Sound σ bound) →
    (∀ e ∈ arguments, e.All (Expr.Calls σ)) → List.Forall₂ Parameter.Takes parameters arguments →
    Lowers False (argumentsCode f parameters arguments) fun code =>
      Piles functions code 0 (bytesOf (parameters.map Parameter.symbol))
  | _, [], _, _, .nil => .pure (.nil 0)
  | p :: parameters, e :: arguments, each, calls, .cons takes rest => by
      obtain ⟨first, others⟩ := List.forall_mem_cons.mp each
      obtain ⟨inFirst, inOthers⟩ := List.forall_mem_cons.mp calls
      have own := lowers_argumentPiles (f := f) takes (Expr.lowers_piles agree first inFirst)
        (Expr.lowers_referencePiles agree first inFirst)
      have others := lowers_argumentsPiles agree others inOthers rest
      rw [argumentsCode_cons]
      exact own.bind fun code piles => others.bind fun rest piles' => .pure (piles.both piles')

end

end Trees

end PascalX86
