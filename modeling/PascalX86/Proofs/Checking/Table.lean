import PascalX86.Proofs.Typing.Tree
import PascalX86.Symbol.Scopes

/-!
# Sound tables

What declarations keep of a table: names are told apart, slots lie one after the other in the
table's own area, and every symbol has the storage and the type that its role asks for.
-/

set_option autoImplicit false

namespace PascalX86

def Symbol.bytes (symbol : Symbol) : Nat := if symbol.slot?.isSome then symbol.storage else 0

def bytesOf : List Symbol → Nat
  | [] => 0
  | symbol :: symbols => symbol.bytes + bytesOf symbols

theorem bytesOf_append (first second : List Symbol) :
    bytesOf (first ++ second) = bytesOf first + bytesOf second := by
  induction first with
  | nil => simp [bytesOf]
  | cons symbol first ih => simp [bytesOf, ih, Nat.add_assoc]

structure Signature.Sound (f : Signature) : Prop where
  block : f.block = bytesOf (f.parameters.map Parameter.symbol)
  room : f.block ≤ maxSize
  proper : ∀ p ∈ f.parameters, p.type.Proper
  default : ∀ p ∈ f.parameters, ∀ v, p.default = some v → p.mode ≠ .byReference ∧ v.Fits p.type
  result : f.result = .nil ∨ f.result.Proper

theorem Signature.Sound.result_le {f : Signature} (sound : f.Sound) : f.result.size ≤ maxSize := by
  rcases sound.result with nil | proper
  · rw [nil]
    decide
  · exact proper.size_le

def Symbol.Fulfilled (symbol : Symbol) : Prop :=
  match symbol.role with
  | .typeName | .variable _ => symbol.type.Proper
  | .constant value slot =>
      symbol.type.Proper ∧ value.Fits symbol.type ∧ (slot = none ↔ symbol.type.isScalar = true)
  | .parameter mode default slot =>
      symbol.type.Proper ∧ slot.area = .parameters ∧
        ∀ v, default = some v → mode ≠ .byReference ∧ v.Fits symbol.type
  | .function f => f.Sound

def Symbol.Within (symbol : Symbol) (t : Table) : Prop :=
  ∀ slot, symbol.slot? = some slot →
    slot.level = t.level ∧ slot.area = t.area ∧ slot.offset + symbol.storage ≤ t.size

structure Table.Sound (t : Table) : Prop where
  fulfilled : ∀ symbol ∈ t.symbols, symbol.Fulfilled
  within : ∀ symbol ∈ t.symbols, symbol.Within t
  distinct : t.symbols.Pairwise fun a b => a.name.value.same b.name.value = false
  ordered : t.symbols.Pairwise fun a b =>
    ∀ x y, a.slot? = some x → b.slot? = some y → x.offset + a.storage ≤ y.offset
  size : t.size = bytesOf t.symbols
  room : t.size ≤ maxSize

/-- What a table keeps even where a declaration fails: storage may have been given away for nothing. -/
structure Table.Laid (t : Table) : Prop where
  within : ∀ symbol ∈ t.symbols, symbol.Within t
  distinct : t.symbols.Pairwise fun a b => a.name.value.same b.name.value = false
  ordered : t.symbols.Pairwise fun a b =>
    ∀ x y, a.slot? = some x → b.slot? = some y → x.offset + a.storage ≤ y.offset
  room : t.size ≤ maxSize

theorem Table.Sound.laid {t : Table} (h : t.Sound) : t.Laid := ⟨h.within, h.distinct, h.ordered, h.room⟩

theorem Table.sound_empty (area : Area) (level : Nat) : (Table.empty area level).Sound where
  fulfilled := by simp [Table.empty]
  within := by simp [Table.empty]
  distinct := .nil
  ordered := .nil
  size := rfl
  room := Nat.zero_le _

structure Table.Extends (t : Table) (symbol : Symbol) (t' : Table) : Prop where
  fresh : t.get? symbol.name.value = none
  symbols : t'.symbols = t.symbols ++ [symbol]
  size : t'.size = t.size + symbol.bytes
  room : t.size ≤ maxSize → t'.size ≤ maxSize
  level : t'.level = t.level
  area : t'.area = t.area
  slot : ∀ slot, symbol.slot? = some slot → slot = ⟨t.level, t.size, t.area⟩

theorem Table.Extends.laid {t t' : Table} {symbol : Symbol} (h : t.Extends symbol t') (laid : t.Laid) :
    t'.Laid where
  within := by
    intro other mem slot found
    rw [h.level, h.area, h.size]
    rw [h.symbols, List.mem_append, List.mem_singleton] at mem
    rcases mem with mem | rfl
    · obtain ⟨level, area, inside⟩ := laid.within other mem slot found
      exact ⟨level, area, by omega⟩
    · have taken : other.bytes = other.storage := by simp [Symbol.bytes, found]
      rw [h.slot slot found, taken]
      exact ⟨rfl, rfl, Nat.le_refl _⟩
  distinct := by
    have fresh := h.fresh
    rw [Table.get?, List.find?_eq_none] at fresh
    rw [h.symbols, List.pairwise_append]
    refine ⟨laid.distinct, List.pairwise_singleton _ _, ?_⟩
    intro a mem b last
    rw [List.mem_singleton] at last
    subst last
    simpa using fresh a mem
  ordered := by
    rw [h.symbols, List.pairwise_append]
    refine ⟨laid.ordered, List.pairwise_singleton _ _, ?_⟩
    intro a mem b last x y foundx foundy
    rw [List.mem_singleton] at last
    subst last
    rw [h.slot y foundy]
    exact (laid.within a mem x foundx).2.2
  room := h.room laid.room

theorem Table.Extends.sound {t t' : Table} {symbol : Symbol} (h : t.Extends symbol t') (sound : t.Sound)
    (fulfilled : symbol.Fulfilled) : t'.Sound where
  fulfilled := by
    rw [h.symbols]
    simpa [or_imp, forall_and] using ⟨sound.fulfilled, fulfilled⟩
  within := (h.laid sound.laid).within
  distinct := (h.laid sound.laid).distinct
  ordered := (h.laid sound.laid).ordered
  size := by
    rw [h.symbols, bytesOf_append, h.size, sound.size]
    simp [bytesOf]
  room := h.room sound.room

namespace Declaring

variable {α β : Type} {t t' : Table} {name : Located Name} {type : Ty} {symbol : Symbol}

theorem runOn_bind (d : Declaring α) (f : α → Declaring β) :
    (d >>= f).runOn t = match d.runOn t with
      | (.ok a, t') => (f a).runOn t'
      | (.error e, t') => (.error e, t') := by
  simp only [runOn, ExceptT.run, StateT.run, bind, ExceptT.bind, ExceptT.mk, StateT.bind]
  cases d t with
  | mk answer t' => cases answer <;> rfl

@[simp] theorem runOn_get (f : Table → Declaring β) : (get >>= f).runOn t = (f t).runOn t := rfl

theorem runOn_allocate (bytes : Nat) :
    (allocate bytes).runOn t =
      if t.size + bytes ≤ maxSize then
        (.ok ⟨t.level, t.size, t.area⟩, { t with size := t.size + bytes })
      else (.error .typeTooLarge, t) := by
  simp only [allocate, runOn_get]
  split <;> rfl

theorem runOn_add (new : Symbol) :
    (add new).runOn t =
      match t.get? new.name.value with
      | none => (.ok new, { t with symbols := t.symbols ++ [new] })
      | some _ => (.error (.duplicate new.name.value), t) := by
  simp only [add, runOn_get, Table.checkNew]
  cases t.get? new.name.value <;> rfl

theorem add_ok {new : Symbol} (h : (add new).runOn t = (.ok symbol, t'))
    (slot : new.slot? = none) : symbol = new ∧ t.Extends symbol t' := by
  rw [runOn_add] at h
  split at h
  · next fresh =>
    cases h
    refine ⟨rfl, fresh, rfl, ?_, id, rfl, rfl, ?_⟩
    · simp [Symbol.bytes, slot]
    · simp [slot]
  · cases h

theorem allocate_add_ok {bytes : Nat} {new : Slot → Symbol}
    (h : (allocate bytes >>= fun slot => add (new slot)).runOn t = (.ok symbol, t'))
    (slot : ∀ slot, (new slot).slot? = some slot) (storage : ∀ slot, (new slot).storage = bytes) :
    symbol = new ⟨t.level, t.size, t.area⟩ ∧ t.Extends symbol t' := by
  rw [runOn_bind, runOn_allocate] at h
  by_cases room : t.size + bytes ≤ maxSize
  · simp only [if_pos room, runOn_add] at h
    split at h
    · next fresh =>
      cases h
      refine ⟨rfl, fresh, rfl, ?_, fun _ => room, rfl, rfl, ?_⟩
      · simp [Symbol.bytes, slot, storage]
      · simp [slot]
    · cases h
  · simp only [if_neg room] at h
    cases h

theorem addVariable_ok (h : (addVariable name type).runOn t = (.ok symbol, t')) :
    symbol = ⟨name, type, .variable ⟨t.level, t.size, t.area⟩⟩ ∧ t.Extends symbol t' :=
  allocate_add_ok h (fun _ => rfl) fun _ => rfl

theorem addParameter_ok {mode : Mode} {default : Option Value}
    (h : (addParameter name type mode default).runOn t = (.ok symbol, t')) :
    symbol = ⟨name, type, .parameter mode default ⟨t.level, t.size, t.area⟩⟩ ∧
      t.Extends symbol t' :=
  allocate_add_ok h (fun _ => rfl) fun _ => rfl

theorem addConstant_ok {value : Value} {stored : Bool}
    (h : (addConstant name type value stored).runOn t = (.ok symbol, t')) :
    symbol =
        ⟨name, type,
          .constant value (if stored then some ⟨t.level, t.size, t.area⟩ else none)⟩ ∧
      t.Extends symbol t' := by
  cases stored with
  | true =>
      simp only [addConstant, if_true, bind_map_left] at h
      exact @allocate_add_ok t t' symbol type.size
        (fun slot => ⟨name, type, .constant value (some slot)⟩) h (fun _ => rfl) fun _ => rfl
  | false => exact add_ok h rfl

theorem addType_ok (h : (addType name type).runOn t = (.ok symbol, t')) :
    symbol = ⟨name, type, .typeName⟩ ∧ t.Extends symbol t' :=
  add_ok h rfl

theorem addFunction_ok {f : Signature} (h : (addFunction f).runOn t = (.ok symbol, t')) :
    symbol = ⟨f.name, .function f.ref, .function f⟩ ∧ t.Extends symbol t' :=
  add_ok h rfl

end Declaring

end PascalX86
