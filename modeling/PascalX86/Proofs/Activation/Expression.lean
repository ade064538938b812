import PascalX86.Proofs.Activation.Flow
import PascalX86.Proofs.Calling.Expression
import PascalX86.Proofs.Frame.Expression

/-!
# Addresses in expressions

By induction on the tree: the code of an expression pushes a value that nothing is known of, that of
a reference finds the data of its type, and calls are given what their parameters refer to.
-/

set_option autoImplicit false

namespace PascalX86

open Register

variable {f : Frames} {σ : Scopes} {kept : Region} {bound : Nat}

section Nodes

variable {info : NodeInfo} {ranges ranges' : List Range}

/-- After the code that finds a frame, `ebp` or `esi` points to it. -/
theorem Frames.flows_pointer (level : Nat) (le : level ≤ f.level) (φ : Flow) :
    ∃ φ', φ'.stack = φ.stack ∧ Code.Flows f σ kept φ (f.pointer level).1 [] φ' ∧
      ∀ d, (Memory.dword (f.pointer level).2 d).base = .register ebp ∧ level = f.level ∨
        (Memory.dword (f.pointer level).2 d).base = .register esi ∧ φ'.level = some level := by
  by_cases own : level = f.level
  · simp only [pointer, if_pos own]
    exact ⟨φ, rfl, .nil φ, fun _ => .inl ⟨rfl, own⟩⟩
  · simp only [pointer, if_neg own]
    exact ⟨{ φ with level := some level }, rfl, .single (.pointer le), fun _ => .inr ⟨rfl, rfl⟩⟩

theorem Frames.lowers_refers (span : Span) {symbol : Symbol} (spans : f.Spans σ)
    (holds : σ.Holds symbol) (small : symbol.type.size ≤ maxSize) :
    Lowers False (f.reference span symbol) fun r => r.Refers f σ kept [] symbol.type.size := by
  unfold reference
  split
  · exact .malformed id
  · next slot found =>
    refine (Lowers.answer _).bind fun d displaced => ?_
    have places : f.Places symbol ⟨d.toInt, symbol.storage⟩ := ⟨slot, span, d, found, displaced, rfl⟩
    obtain ⟨-, top⟩ := spans.room symbol _ holds places
    have le := (spans.scopes.slot holds found).1
    have pointer := @Frames.flows_pointer f σ kept slot.level le
    split
    · next kind =>
      refine .pure (.of_memory fun φ => ?_)
      obtain ⟨φ', stack, flows, base⟩ := pointer φ
      refine ⟨{ φ' with address := .ref symbol.type.size }, stack, ?_, ?_⟩
      · exact flows.append (.single (.cell holds found kind places rfl (base d)))
      · exact .computed rfl rfl small ⟨Int.le_refl _, Int.le_refl _⟩
    · next kind =>
      have kind : symbol.kind ≠ .varParameter := kind
      have storage := symbol.storage_of_kind
      rw [if_neg kind] at storage
      refine .pure (.of_memory fun φ => ?_)
      obtain ⟨φ', stack, flows, base⟩ := pointer φ
      refine ⟨φ', stack, flows, .object holds found kind places top (base d) ?_⟩
      rw [storage]
      exact ⟨Int.le_refl _, Int.le_refl _⟩

theorem lowers_constantTakes {v : Value} (fits : v.Fits info.type) (proper : info.type.Proper) :
    Lowers False (constantCode info v) fun code =>
      Code.Takes f σ kept code [] [] (Item.plains info.type.size) := by
  unfold constantCode
  split
  · exact .runtimeString
  · have pushes := @takes_pushes f σ kept (v.image.reverse.map Operand.immediate)
    have count : v.image.length = info.type.size / dwordSize := by
      rw [← fits.length_image proper, Nat.mul_div_cancel _ (by decide)]
    rw [List.map_map, List.length_map, List.length_reverse, count] at pushes
    exact .pure pushes

theorem lowers_castTakes {source : Ty} {operand : Lowered Code} (converts : source.Converts info.type)
    (h : Lowers False operand fun code =>
      Code.Takes f σ kept code ranges [] (Item.plains source.size)) :
    Lowers False (castCode info source operand) fun code =>
      Code.Takes f σ kept code ranges [] (Item.plains info.type.size) := by
  generalize type : info.type = target at converts
  cases converts <;> simp only [castCode, type]
  · exact h
  · exact h
  · exact h.bind fun code takes => .pure (takes.silent takes_widenCode)
  · exact h.bind fun code takes => .pure (takes.silent takes_widenCode)
  · exact .runtimeString

theorem lowers_binaryTakes {op : Operator} {operands : Ty} {left right : Lowered Code}
    (typed : op.type operands operands = .ok ⟨operands, info.type⟩)
    (first : Lowers False left fun code =>
      Code.Takes f σ kept code ranges [] (Item.plains operands.size))
    (second : Lowers False right fun code =>
      Code.Takes f σ kept code ranges' [] (Item.plains operands.size)) :
    Lowers False (binaryCode info op operands left right) fun code =>
      Code.Takes f σ kept code (ranges ++ ranges') [] (Item.plains info.type.size) := by
  rcases Operator.type_cases typed with h | ⟨h, kind⟩ | ⟨h, kind⟩ | ⟨h, -⟩ | ⟨h, -⟩ <;>
    obtain ⟨rfl, result⟩ := OperationType.mk.inj h <;> rw [result] <;> simp only [binaryCode]
  · refine first.bind fun l takes => second.bind fun r takes' => .pure ?_
    exact (takes.both takes').silent (takes_integerCode op)
  · refine first.bind fun l takes => second.bind fun r takes' => ?_
    split
    · next code known => exact .pure ((takes.both takes').silent ((takes_doubleCode known).1 kind))
    · exact .malformed id
  · refine first.bind fun l takes => second.bind fun r takes' => ?_
    split
    · next code known => exact .pure ((takes.both takes').silent ((takes_doubleCode known).2 kind))
    · exact .malformed id
  · exact .runtimeString
  · exact .runtimeString

theorem Frames.refers_field {record : Ty} {fields : Fields} {field : Field} {r : Reference}
    (type : record = .record fields) (proper : record.Proper) (mem : field ∈ fields.layout 0)
    (refers : r.Refers f σ kept ranges record.size) :
    (r.displaced (Int32.ofNat field.offset)).Refers f σ kept ranges field.type.size := by
  subst type
  have small := proper.size_le
  have inside := Fields.inside_of_mem_layout mem
  have size : (Ty.record fields).size = fields.size := rfl
  have offset : (Int32.ofNat field.offset).toInt = field.offset := toInt_ofNat (by omega)
  exact refers.displaced (by omega) (by omega)

/-- A constant index is in range, any other one adds its bounds to those that the code relies on. -/
theorem lowers_elementRefers {array element : Ty} {low high : Int32} {base : Lowered Reference}
    {constant? : Option Int32} {index : Lowered Code} (type : array = .array low high element)
    (proper : array.Proper) (within : ∀ n, constant? = some n → low ≤ n ∧ n ≤ high)
    (found : Lowers False base fun r => r.Refers f σ kept ranges array.size)
    (pushed : Lowers False index fun code => Code.Takes f σ kept code ranges' [] [.plain]) :
    Lowers False (elementReference info array base constant? index) fun r =>
      r.Refers f σ kept (if constant?.isSome then ranges else ranges ++ ranges' ++ array.range?.toList)
        element.size := by
  subst type
  simp only [elementReference]
  split
  · next n =>
    obtain ⟨first, last⟩ := within n rfl
    obtain ⟨low, high⟩ := element_inside proper first last
    exact found.bind fun r refers => .pure (refers.displaced low high)
  · refine found.bind fun r refers => pushed.bind fun code takes => .pure (.of_stack ?_)
    have operands := refers.address.both takes
    have pops : Code.Takes f σ kept [.instruction .pop [ebx]] []
        [.plain, .ref (Ty.array low high element).size] [.ref (Ty.array low high element).size] :=
      (takes_popEbx .plain).more [.ref (Ty.array low high element).size]
    have fromLow : Code.Takes f σ kept
        (if low = 0 then [] else [.instruction .sub [ebx, .immediate low]]) []
        [.ref (Ty.array low high element).size] [.ref (Ty.array low high element).size] := by
      apply takes_computes
      split <;> simp [Command.computes, Opcode.computes, Opcode.isJump]
    have scaled : Code.Takes f σ kept (if Int32.ofNat element.size = 1 then []
        else [.instruction .imul [ebx, .immediate (Int32.ofNat element.size)]]) []
        [.ref (Ty.array low high element).size] [.ref (Ty.array low high element).size] := by
      apply takes_computes
      split <;> simp [Command.computes, Opcode.computes, Opcode.isJump]
    have added : Code.Takes f σ kept [.instruction .add [stackTop 0, ebx]] [⟨low, high, element.size⟩]
        [.ref (Ty.array low high element).size] [.ref element.size] :=
      .single fun _ _ stack => ⟨_, rfl, .index stack proper⟩
    exact operands.append (((pops.append fromLow).append scaled).append added)

theorem lowers_resultTakes (span : Span) (type : Ty) :
    Lowers False (resultCode span type) fun code =>
      Code.Takes f σ kept code [] [] (Item.plains type.size) := by
  unfold resultCode
  split
  · exact .pure (.nil [])
  · exact .pure (takes_push eax)
  · exact .pure (takes_push eax)
  · exact .pure (takes_pushDouble xmm0)
  · exact .aggregateResult

theorem Item.length_plains {size : Nat} (dvd : dwordSize ∣ size) :
    (Item.plains size).length * dwordSize = size := by
  rw [Item.plains, List.length_replicate, Nat.div_mul_cancel dvd]

theorem Parameter.length_items (p : Parameter) :
    p.items.length * dwordSize = p.mode.size p.type := by
  unfold items
  cases p.mode with
  | byReference => rfl
  | byValue | constant => exact Item.length_plains p.type.dvd_size

theorem length_itemsOf (parameters : List Parameter) :
    (itemsOf parameters).length * dwordSize = bytesOf (parameters.map Parameter.symbol) := by
  induction parameters with
  | nil => rfl
  | cons p parameters ih =>
      have own : p.symbol.bytes = p.mode.size p.type := rfl
      rw [itemsOf, List.length_append, Nat.add_mul, ih, p.length_items, List.map_cons, bytesOf, own,
        Nat.add_comm]

theorem Signature.Sound.length_items {function : Signature} (sound : function.Sound) :
    (itemsOf function.parameters).length * dwordSize = function.block :=
  (length_itemsOf function.parameters).trans sound.block.symm

theorem Signature.Sound.length_plains {function : Signature} (sound : function.Sound) :
    (Item.plains function.block).length * dwordSize = function.block :=
  Item.length_plains ⟨_, by rw [← sound.length_items, Nat.mul_comm]⟩

theorem lowers_callTakes {function : Signature} {arguments : Lowered Code} (sound : function.Sound)
    (named : σ.Names function)
    (pushed : Lowers False arguments fun code =>
      Code.Takes f σ kept code ranges [] (itemsOf function.parameters)) :
    Lowers False (callCode info function arguments) fun code =>
      Code.Takes f σ kept code ranges [] (Item.plains function.result.size) := by
  have answered : Lowers False (resultCode info.span function.result) fun code =>
      Code.Takes f σ kept code [] [] (Item.plains function.result.size) :=
    lowers_resultTakes info.span function.result
  refine pushed.bind fun code takes => answered.bind fun result takes' => .pure ?_
  have call : Code.Takes f σ kept [.instruction .call [.raw function.label]] []
      (itemsOf function.parameters) (Item.plains function.block) :=
    .single fun _ _ stack => ⟨_, rfl, .call named stack⟩
  have released : Code.Takes f σ kept (discard function.block) [] (Item.plains function.block) [] :=
    takes_discard sound.length_plains.symm sound.room
  exact (takes.silent (call.append released)).silent takes'

theorem lowers_argumentTakes {p : Parameter} {e : Expr} (takes : p.Takes e)
    (pushed : Lowers False (e.code f) fun code =>
      Code.Takes f σ kept code ranges [] (Item.plains e.type.size))
    (found : e.isReference = true →
      Lowers False (e.reference f) fun r => r.Refers f σ kept ranges e.type.size) :
    Lowers False (argumentCode f p e) fun code => Code.Takes f σ kept code ranges [] p.items := by
  unfold argumentCode Parameter.items
  rw [← Ty.size_eq_of_same takes.same] at pushed found
  cases mode : p.mode with
  | byReference =>
      exact .map ((found (takes.target mode).isReference).mono fun r refers => refers.address)
  | byValue | constant => exact pushed

end Nodes

section Trees

mutual

theorem Expr.lowers_refers (kept : Region) (spans : f.Spans σ) : ∀ {e : Expr}, e.Sound σ bound →
    e.All (Expr.Calls σ) → e.isReference = true →
    Lowers False (e.reference f) fun r => r.Refers f σ kept e.ranges e.type.size
  | .var info symbol, sound, _, _ => by
      have checked := sound.self
      have proper := checked.proper.size_le
      rw [Expr.type, Expr.info, checked.obeys.1] at proper ⊢
      exact f.lowers_refers info.span spans checked.grounded proper
  | .index info array index, sound, calls, _ => by
      obtain ⟨checked, base, subscript⟩ := Expr.all_index.mp sound
      obtain ⟨-, inBase, inSubscript⟩ := Expr.all_index.mp calls
      obtain ⟨reference, integer, low, high, type, within⟩ := checked.obeys
      have pushed := Expr.lowers_takes kept spans subscript inSubscript
      rw [integer] at pushed
      exact lowers_elementRefers type base.self.proper within
        (Expr.lowers_refers kept spans base inBase reference) pushed
  | .field info record field, sound, calls, _ => by
      obtain ⟨checked, base⟩ := Expr.all_field.mp sound
      obtain ⟨reference, type, fields, record, mem⟩ := checked.obeys
      rw [Expr.type, Expr.info, type]
      exact (Expr.lowers_refers kept spans base (Expr.all_field.mp calls).2 reference).bind fun r refers =>
        .pure (Frames.refers_field record base.self.proper mem refers)

theorem Expr.lowers_takes (kept : Region) (spans : f.Spans σ) : ∀ {e : Expr}, e.Sound σ bound →
    e.All (Expr.Calls σ) →
    Lowers False (e.code f) fun code =>
      Code.Takes f σ kept code e.ranges [] (Item.plains e.type.size)
  | .var info symbol, sound, _ => by
      have checked := sound.self
      have proper := checked.proper.size_le
      have refers : Lowers False (f.reference info.span symbol) fun r =>
          r.Refers f σ kept [] info.type.size := by
        rw [Expr.type, Expr.info, checked.obeys.1] at proper
        rw [checked.obeys.1]
        exact f.lowers_refers info.span spans checked.grounded proper
      exact refers.bind fun r refers => .pure (refers.load proper)
  | .index info array index, sound, calls => by
      obtain ⟨checked, base, subscript⟩ := Expr.all_index.mp sound
      obtain ⟨-, inBase, inSubscript⟩ := Expr.all_index.mp calls
      obtain ⟨reference, integer, low, high, type, within⟩ := checked.obeys
      have pushed := Expr.lowers_takes kept spans subscript inSubscript
      rw [integer] at pushed
      exact (lowers_elementRefers type base.self.proper within
        (Expr.lowers_refers kept spans base inBase reference) pushed).bind
          fun r refers => .pure (refers.load checked.proper.size_le)
  | .field info record field, sound, calls => by
      obtain ⟨checked, base⟩ := Expr.all_field.mp sound
      obtain ⟨reference, type, fields, record, mem⟩ := checked.obeys
      refine (Expr.lowers_refers kept spans base (Expr.all_field.mp calls).2 reference).bind
        fun r refers => .pure ?_
      have refers := Frames.refers_field record base.self.proper mem refers
      rw [← type] at refers
      exact refers.load checked.proper.size_le
  | .const info value, sound, _ => lowers_constantTakes sound.self.obeys.2 sound.self.proper
  | .aggregate info value, sound, _ => lowers_constantTakes sound.self.obeys.2 sound.self.proper
  | .negate info operand, sound, calls => by
      obtain ⟨checked, inner⟩ := Expr.all_negate.mp sound
      obtain ⟨same, type⟩ := checked.obeys
      refine (Expr.lowers_takes kept spans inner (Expr.all_negate.mp calls).2).bind
        fun code takes => .pure ?_
      show Code.Takes f σ kept _ operand.ranges [] (Item.plains info.type.size)
      rw [same]
      exact takes.silent (takes_negateCode type)
  | .complement info operand, sound, calls => by
      obtain ⟨checked, inner⟩ := Expr.all_complement.mp sound
      obtain ⟨same, type⟩ := checked.obeys
      refine (Expr.lowers_takes kept spans inner (Expr.all_complement.mp calls).2).bind
        fun code takes => .pure ?_
      show Code.Takes f σ kept _ operand.ranges [] (Item.plains info.type.size)
      rw [same]
      exact takes.silent (takes_complementCode type)
  | .binary info op left right, sound, calls => by
      obtain ⟨checked, first, second⟩ := Expr.all_binary.mp sound
      obtain ⟨-, inFirst, inSecond⟩ := Expr.all_binary.mp calls
      obtain ⟨same, -, typed⟩ := checked.obeys
      have pushed := Expr.lowers_takes kept spans second inSecond
      rw [← same] at pushed typed
      exact lowers_binaryTakes typed (Expr.lowers_takes kept spans first inFirst) pushed
  | .cast info operand, sound, calls => by
      obtain ⟨checked, inner⟩ := Expr.all_cast.mp sound
      exact lowers_castTakes checked.obeys (Expr.lowers_takes kept spans inner (Expr.all_cast.mp calls).2)
  | .call info function arguments, sound, calls => by
      obtain ⟨checked, each⟩ := Expr.all_call.mp sound
      obtain ⟨named, inEach⟩ := Expr.all_call.mp calls
      obtain ⟨same, -, takes⟩ := checked.obeys
      show Lowers _ _ fun code => Code.Takes f σ kept code _ [] (Item.plains info.type.size)
      rw [same]
      exact lowers_callTakes checked.grounded named (lowers_argumentsTakes kept spans each inEach takes)

theorem lowers_argumentsTakes (kept : Region) (spans : f.Spans σ) : ∀ {parameters : List Parameter}
    {arguments : List Expr}, (∀ e ∈ arguments, e.Sound σ bound) →
    (∀ e ∈ arguments, e.All (Expr.Calls σ)) → List.Forall₂ Parameter.Takes parameters arguments →
    Lowers False (argumentsCode f parameters arguments) fun code =>
      Code.Takes f σ kept code (rangesOf arguments) [] (itemsOf parameters)
  | _, [], _, _, .nil => .pure (.nil [])
  | p :: parameters, e :: arguments, each, calls, .cons takes rest => by
      obtain ⟨first, others⟩ := List.forall_mem_cons.mp each
      obtain ⟨inFirst, inOthers⟩ := List.forall_mem_cons.mp calls
      have own := lowers_argumentTakes takes
        (Expr.lowers_takes kept spans first inFirst) (Expr.lowers_refers kept spans first inFirst)
      have others := lowers_argumentsTakes kept spans others inOthers rest
      rw [argumentsCode_cons]
      exact own.bind fun code takes => others.bind fun rest takes' => .pure (takes.both takes')

end

end Trees

end PascalX86
