import PascalX86.Proofs.Frame.Reference

/-!
# Accesses of expressions

By induction on the tree: the code of an expression touches what it names, and nothing else relative
to a frame.
-/

set_option autoImplicit false

namespace PascalX86

open Register

theorem Lowers.answer {α : Type} (r : Lowered α) : Lowers False r fun a => r = .ok a :=
  ⟨fun _ eq => eq, False.elim⟩

variable {f : Frames} {σ : Scopes} {hidden : Region → Prop} {bound : Nat}

/-- Operands at addresses that are computed at run time. -/
def Memory.isComputed (m : Memory) : Bool :=
  match m.base with
  | .register r => r ≠ ebp ∧ r ≠ esi
  | .display => false

theorem Frames.touches_computed (held : Option Memory) (m : Memory) (q : Register)
    (base : m.base = .register q) (plain : q ≠ ebp ∧ q ≠ esi) : f.Touches σ hidden held m :=
  .computed base plain

theorem Frames.safe_computed {code : Code}
    (computed : ∀ c ∈ code, ∀ m ∈ c.accesses, m.isComputed = true) : code.Safe (f.Touches σ hidden) := by
  apply safe_of_forall
  intro c mem m inside held
  have computed := computed c mem m inside
  unfold Memory.isComputed at computed
  split at computed
  · next q base => exact f.touches_computed held m q base (of_decide_eq_true computed)
  · cases computed

section Variables

variable {symbol : Symbol} {slot : Slot} {r : Region}

/-- After the code that finds a frame, `ebp` or `esi` points to it. -/
theorem Frames.touches_pointer (sound : σ.Sound f.level) (holds : σ.Holds symbol)
    (found : symbol.slot? = some slot) (places : f.Places symbol r) :
    (f.pointer slot.level).1.Safe (f.Touches σ hidden) ∧
      ∀ held m, m.base = .register (f.pointer slot.level).2 → m.region.Within r →
        f.Touches σ hidden (Code.pointer? held (f.pointer slot.level).1) m := by
  by_cases level : slot.level = f.level
  · simp only [pointer, if_pos level]
    exact ⟨safe_nil, fun held m base within => .own holds found level places base within⟩
  · simp only [pointer, if_neg level]
    have le := (sound.slot holds found).1
    constructor
    · apply safe_of_forall
      simp [Command.accesses, Operand.memory?]
      exact fun held => .display le rfl
    · intro held m base within
      exact .outer holds found level places base rfl within

theorem Symbol.storage_of_kind (symbol : Symbol) :
    symbol.storage = if symbol.kind = .varParameter then addressSize else symbol.type.size := by
  unfold Symbol.storage Symbol.kind
  cases role : symbol.role with
  | parameter mode default slot => cases mode <;> rfl
  | _ => rfl

theorem Frames.lowers_points (span : Span) (spans : f.Spans σ) (holds : σ.Holds symbol) :
    Lowers False (f.reference span symbol) fun r =>
      r.Points (f.Touches σ hidden) symbol.type.size := by
  unfold reference
  split
  · exact .malformed id
  · next slot found =>
    refine (Lowers.answer _).bind fun d displaced => ?_
    have places : f.Places symbol ⟨d.toInt, symbol.storage⟩ := ⟨slot, span, d, found, displaced, rfl⟩
    obtain ⟨small, top⟩ := spans.room symbol _ holds places
    obtain ⟨safe, touches⟩ := f.touches_pointer spans.scopes holds found places
    have storage := symbol.storage_of_kind
    split
    · next kind =>
      rw [if_pos kind] at storage
      apply Lowers.pure
      refine ⟨?_, ?_, ?_⟩
      · intro held
        rw [Code.accesses_append, List.forall_mem_append]
        refine ⟨safe held, ?_⟩
        have inside : (Memory.dword (f.pointer slot.level).2 d).region.Within ⟨d.toInt, symbol.storage⟩ := by
          rw [storage]
          exact ⟨Int.le_refl _, Int.le_refl _⟩
        simp [Code.accesses, Command.accesses, Operand.memory?]
        exact touches held _ rfl inside
      · rintro m ⟨⟩
        rfl
      · rintro m ⟨⟩
        exact .inl rfl
    · next kind =>
      have kind : symbol.kind ≠ .varParameter := kind
      rw [if_neg kind] at storage
      apply Lowers.pure
      refine ⟨safe, ?_, ?_⟩
      · rintro m ⟨⟩
        rfl
      · rintro m ⟨⟩
        refine .inr ⟨⟨d.toInt, symbol.storage⟩, ?_, small, top, touches⟩
        rw [storage]
        exact ⟨Int.le_refl _, Int.le_refl _⟩

end Variables

section Pieces

variable {info : NodeInfo}

theorem Frames.safe_discard (size : Nat) : (discard size).Safe (f.Touches σ hidden) := by
  apply safe_computed
  unfold discard
  split <;> simp [Command.accesses, Operand.memory?, Operand.ofNat]

theorem Frames.lowers_constantAccesses (value : Value) :
    Lowers False (constantCode info value) fun code => code.Safe (f.Touches σ hidden) := by
  unfold constantCode
  split
  · exact .runtimeString
  · apply Lowers.pure
    apply safe_computed
    simp [Value.push, Command.accesses, Operand.memory?]

theorem Frames.lowers_castAccesses {source : Ty} {operand : Lowered Code}
    (safe : Lowers False operand fun code => code.Safe (f.Touches σ hidden)) :
    Lowers False (castCode info source operand) fun code => code.Safe (f.Touches σ hidden) := by
  have widen : Code.Safe (f.Touches σ hidden) widenCode := safe_computed (by decide)
  unfold castCode
  split
  all_goals first
    | exact safe
    | exact safe.bind fun code safe => .pure (safe.append widen)
    | exact .runtimeString
    | exact .malformed id

theorem Frames.lowers_binaryAccesses {op : Operator} {operands : Ty} {left right : Lowered Code}
    (first : Lowers False left fun code => code.Safe (f.Touches σ hidden))
    (second : Lowers False right fun code => code.Safe (f.Touches σ hidden)) :
    Lowers False (binaryCode info op operands left right) fun code =>
      code.Safe (f.Touches σ hidden) := by
  unfold binaryCode
  split
  · exact .runtimeString
  · refine first.bind fun code safe => second.bind fun code' safe' => ?_
    dsimp only
    split
    · next double known =>
      have core : ∀ c ∈ double, ∀ m ∈ c.accesses, m.isComputed = true := by
        cases op <;> simp only [Operator.doubleCode?, Operator.doubleCore?, Option.map_none,
          reduceCtorEq] at known <;> cases known <;> decide
      exact .pure ((safe.append safe').append (safe_computed core))
    · exact .malformed id
  · have core : ∀ c ∈ op.integerCode, ∀ m ∈ c.accesses, m.isComputed = true := by
      cases op <;> decide
    exact first.bind fun code safe => second.bind fun code' safe' =>
      .pure ((safe.append safe').append (safe_computed core))

theorem Frames.lowers_callAccesses {function : Signature} {arguments : Lowered Code}
    (safe : Lowers False arguments fun code => code.Safe (f.Touches σ hidden)) :
    Lowers False (callCode info function arguments) fun code => code.Safe (f.Touches σ hidden) := by
  have call : Code.Safe (f.Touches σ hidden) [.instruction .call [.raw function.label]] := by
    apply safe_computed
    simp [Command.accesses, Operand.memory?]
  have result : Lowers False (resultCode info.span function.result) fun code =>
      code.Safe (f.Touches σ hidden) := by
    unfold resultCode
    split
    · exact .pure safe_nil
    · exact .pure (safe_computed (by decide))
    · exact .pure (safe_computed (by decide))
    · exact .pure (safe_computed (by decide))
    · exact .aggregateResult
  exact safe.bind fun code safe => result.bind fun code' safe' =>
    .pure ((safe.append (call.append (safe_discard function.block))).append safe')

theorem Frames.lowers_elementPoints {array element : Ty} {low high : Int32} {base : Lowered Reference}
    {constant? : Option Int32} {index : Lowered Code} (type : array = .array low high element)
    (proper : array.Proper) (within : ∀ n, constant? = some n → low ≤ n ∧ n ≤ high)
    (points : Lowers False base fun r => r.Points (f.Touches σ hidden) array.size)
    (safe : Lowers False index fun code => code.Safe (f.Touches σ hidden)) :
    Lowers False (elementReference info array base constant? index) fun r =>
      r.Points (f.Touches σ hidden) element.size := by
  subst type
  simp only [elementReference]
  split
  · next n =>
    obtain ⟨first, last⟩ := within n rfl
    obtain ⟨low, high⟩ := element_inside proper first last
    exact points.bind fun r points => .pure (points.displaced f.touches_computed low high)
  · refine points.bind fun r points => safe.bind fun code safe => .pure (.stack ?_)
    apply (points.address.append safe).append
    apply safe_computed
    simp only [List.forall_mem_cons, List.forall_mem_append]
    refine ⟨⟨⟨by decide, ?_⟩, ?_⟩, by decide, by simp⟩
    · split <;> simp [Command.accesses, Operand.memory?]
    · split <;> simp [Command.accesses, Operand.memory?]

theorem Frames.points_field {record : Ty} {fields : Fields} {field : Field} {r : Reference}
    (type : record = .record fields) (proper : record.Proper) (mem : field ∈ fields.layout 0)
    (points : r.Points (f.Touches σ hidden) record.size) :
    (r.displaced (Int32.ofNat field.offset)).Points (f.Touches σ hidden) field.type.size := by
  subst type
  have small := proper.size_le
  have inside := Fields.inside_of_mem_layout mem
  have size : (Ty.record fields).size = fields.size := rfl
  unfold maxSize at small
  have offset : (Int32.ofNat field.offset).toInt = field.offset := by
    apply Int32.toInt_ofNat_of_lt
    omega
  exact points.displaced f.touches_computed (by omega) (by omega)

end Pieces

section Trees

mutual

/-- A reference stays inside the variable that it starts from. -/
theorem Expr.lowers_points (hidden : Region → Prop) (spans : f.Spans σ) : ∀ {e : Expr}, e.Sound σ bound → e.isReference = true →
    Lowers False (e.reference f) fun r => r.Points (f.Touches σ hidden) e.type.size
  | .var info symbol, sound, _ => by
      have checked := sound.self
      rw [Expr.type, Expr.info, checked.obeys.1]
      exact f.lowers_points info.span spans checked.grounded
  | .index info array index, sound, _ => by
      obtain ⟨checked, base, subscript⟩ := Expr.all_index.mp sound
      obtain ⟨reference, -, low, high, type, within⟩ := checked.obeys
      exact Frames.lowers_elementPoints type base.self.proper within
        (Expr.lowers_points hidden spans base reference) (Expr.lowers_accesses hidden spans subscript)
  | .field info record field, sound, _ => by
      obtain ⟨checked, base⟩ := Expr.all_field.mp sound
      obtain ⟨reference, type, fields, record, mem⟩ := checked.obeys
      rw [Expr.type, Expr.info, type]
      exact (Expr.lowers_points hidden spans base reference).bind fun r points =>
        .pure (Frames.points_field record base.self.proper mem points)

theorem Expr.lowers_accesses (hidden : Region → Prop) (spans : f.Spans σ) : ∀ {e : Expr}, e.Sound σ bound →
    Lowers False (e.code f) fun code => code.Safe (f.Touches σ hidden)
  | .var info symbol, sound => by
      have checked := sound.self
      have points : Lowers False (f.reference info.span symbol) fun r =>
          r.Points (f.Touches σ hidden) info.type.size := by
        rw [checked.obeys.1]
        exact f.lowers_points info.span spans checked.grounded
      exact points.bind fun r points => .pure (points.load f.touches_computed)
  | .index info array index, sound => by
      obtain ⟨checked, base, subscript⟩ := Expr.all_index.mp sound
      obtain ⟨reference, -, low, high, type, within⟩ := checked.obeys
      exact (Frames.lowers_elementPoints type base.self.proper within
        (Expr.lowers_points hidden spans base reference) (Expr.lowers_accesses hidden spans subscript)).bind
          fun r points => .pure (points.load f.touches_computed)
  | .field info record field, sound => by
      obtain ⟨checked, base⟩ := Expr.all_field.mp sound
      obtain ⟨reference, type, fields, record, mem⟩ := checked.obeys
      refine (Expr.lowers_points hidden spans base reference).bind fun r points => .pure ?_
      have points := Frames.points_field record base.self.proper mem points
      rw [← type] at points
      exact points.load f.touches_computed
  | .const info value, sound => f.lowers_constantAccesses value
  | .aggregate info value, sound => f.lowers_constantAccesses value
  | .negate info operand, sound => by
      obtain ⟨checked, inner⟩ := Expr.all_negate.mp sound
      have core : ∀ c ∈ negateCode info.type, ∀ m ∈ c.accesses, m.isComputed = true := by
        unfold negateCode
        split <;> decide
      exact (Expr.lowers_accesses hidden spans inner).bind fun code safe => .pure (safe.append (f.safe_computed core))
  | .complement info operand, sound => by
      obtain ⟨checked, inner⟩ := Expr.all_complement.mp sound
      have core : ∀ c ∈ complementCode operand.type, ∀ m ∈ c.accesses, m.isComputed = true := by
        unfold complementCode
        split <;> decide
      exact (Expr.lowers_accesses hidden spans inner).bind fun code safe => .pure (safe.append (f.safe_computed core))
  | .binary info op left right, sound => by
      obtain ⟨-, first, second⟩ := Expr.all_binary.mp sound
      exact f.lowers_binaryAccesses (Expr.lowers_accesses hidden spans first) (Expr.lowers_accesses hidden spans second)
  | .cast info operand, sound => by
      obtain ⟨-, inner⟩ := Expr.all_cast.mp sound
      exact f.lowers_castAccesses (Expr.lowers_accesses hidden spans inner)
  | .call info function arguments, sound => by
      obtain ⟨checked, each⟩ := Expr.all_call.mp sound
      obtain ⟨-, -, takes⟩ := checked.obeys
      exact f.lowers_callAccesses (lowers_argumentsAccesses hidden spans each takes)

theorem lowers_argumentsAccesses (hidden : Region → Prop) (spans : f.Spans σ) :
    ∀ {parameters : List Parameter} {arguments : List Expr}, (∀ e ∈ arguments, e.Sound σ bound) →
    List.Forall₂ Parameter.Takes parameters arguments →
    Lowers False (argumentsCode f parameters arguments) fun code => code.Safe (f.Touches σ hidden)
  | _, [], _, .nil => .pure safe_nil
  | p :: parameters, e :: arguments, each, .cons takes rest => by
      obtain ⟨first, others⟩ := List.forall_mem_cons.mp each
      have value := Expr.lowers_accesses hidden spans first
      have others := lowers_argumentsAccesses hidden spans others rest
      unfold argumentsCode
      cases mode : p.mode with
      | byReference =>
          have reference := (takes.target mode).isReference
          have address := (Expr.lowers_points hidden spans first reference).mono fun r points => points.address
          exact Lowers.bind (.map address) fun code safe => others.bind fun code' safe' =>
            .pure (safe.append safe')
      | byValue | constant =>
          exact value.bind fun code safe => others.bind fun code' safe' => .pure (safe.append safe')

end

end Trees

end PascalX86
