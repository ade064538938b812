import PascalX86.Proofs.Frame.Access
import PascalX86.Proofs.Lowering.Expression

/-!
# References stay inside objects

What the code of a function touches: its own variables and temporaries, those of functions around it
by way of the display, and cells at addresses that are computed. Elements and fields stay inside the
variable that they are part of.
-/

set_option autoImplicit false

namespace PascalX86

open Register

/-- Where code finds a symbol, in the frame of the function that owns it. -/
def Frames.Places (f : Frames) (symbol : Symbol) (r : Region) : Prop :=
  ∃ slot span d, symbol.slot? = some slot ∧ f.displacement span symbol slot = .ok d ∧
    r = ⟨d.toInt, symbol.storage⟩

/-- Nothing in scope lies beyond the range of displacements. -/
structure Frames.Spans (f : Frames) (σ : Scopes) : Prop where
  scopes : σ.Sound f.level
  room : ∀ symbol r, σ.Holds symbol → f.Places symbol r →
    r.size ≤ maxSize ∧ r.start + r.size < 2 ^ 31

/-- The accesses of a function, given the cell that `esi` was loaded from and the temporaries. -/
inductive Frames.Touches (f : Frames) (σ : Scopes) (hidden : Region → Prop) (held : Option Memory)
    (m : Memory) : Prop where
  | computed {r : Register} (base : m.base = .register r) (plain : r ≠ ebp ∧ r ≠ esi)
  | own {symbol : Symbol} {slot : Slot} {r : Region} (holds : σ.Holds symbol)
      (found : symbol.slot? = some slot) (level : slot.level = f.level) (places : f.Places symbol r)
      (base : m.base = .register ebp) (within : m.region.Within r)
  | temporary {r : Region} (mem : hidden r) (base : m.base = .register ebp)
      (within : m.region.Within r)
  | outer {symbol : Symbol} {slot : Slot} {r : Region} (holds : σ.Holds symbol)
      (found : symbol.slot? = some slot) (level : slot.level ≠ f.level) (places : f.Places symbol r)
      (base : m.base = .register esi) (loaded : held = some (displayEntry slot.level))
      (within : m.region.Within r)
  | display {level : Nat} (le : level ≤ f.level) (eq : m = displayEntry level)

section Offsets

section Element

variable {low high n : Int32} {element : Ty}

/-- An element lies inside its array. -/
theorem element_within (proper : (Ty.array low high element).Proper) (first : low ≤ n) (last : n ≤ high) :
    0 ≤ (n.toInt - low.toInt) * element.size ∧
      (n.toInt - low.toInt) * element.size + element.size ≤ (Ty.array low high element).size := by
  have size := proper.size_array
  obtain ⟨-, count, -, -⟩ := proper
  rw [Int32.le_iff_toInt_le] at first last
  unfold maxSize at count
  have length : (extent low high : Int) = high.toInt - low.toInt + 1 := by
    unfold extent wordRange
    omega
  -- The elements up to this one take no more than all of them.
  obtain ⟨k, position⟩ := Int.eq_ofNat_of_zero_le (show 0 ≤ n.toInt - low.toInt by omega)
  have upTo : (k + 1) * element.size ≤ extent low high * element.size := by
    apply Nat.mul_le_mul_right
    omega
  have product : (k + 1) * element.size = k * element.size + element.size := Nat.succ_mul _ _
  rw [position, ← Int.natCast_mul, size]
  omega

/-- The place of an element is computed without overflow. -/
theorem element_exact (proper : (Ty.array low high element).Proper) (first : low ≤ n) (last : n ≤ high) :
    ((n - low) * Int32.ofNat element.size).toInt = (n.toInt - low.toInt) * element.size := by
  obtain ⟨start, stop⟩ := element_within proper first last
  have whole := proper.size_le
  obtain ⟨-, count, -, inner⟩ := proper
  have small := inner.size_le
  rw [Int32.le_iff_toInt_le] at first last
  unfold maxSize at count whole small
  have steps : (n - low).toInt = n.toInt - low.toInt := by
    apply toInt_sub_of_fits <;> omega
  have width : (Int32.ofNat element.size).toInt = element.size := by
    apply Int32.toInt_ofNat_of_lt
    omega
  rw [toInt_mul_of_fits] <;> rw [steps, width] <;> omega

theorem element_inside (proper : (Ty.array low high element).Proper) (first : low ≤ n) (last : n ≤ high) :
    0 ≤ ((n - low) * Int32.ofNat element.size).toInt ∧
      ((n - low) * Int32.ofNat element.size).toInt + element.size ≤
        (Ty.array low high element).size := by
  rw [element_exact proper first last]
  exact element_within proper first last

end Element

/-- A field lies inside its record. -/
theorem Fields.inside_of_mem_layout {fields : Fields} {offset : Nat} {f : Field}
    (mem : f ∈ fields.layout offset) :
    offset ≤ f.offset ∧ f.offset + f.type.size ≤ offset + fields.size := by
  induction offset, fields using Fields.layout.induct with
  | case1 => simp at mem
  | case2 offset name type rest ih =>
      rw [Fields.layout_more, List.mem_cons] at mem
      rw [Fields.size_more]
      rcases mem with rfl | mem
      · dsimp only
        omega
      · have inside := ih mem
        omega

end Offsets

namespace Reference

/-- Code that finds so many bytes of one object, or computes where they are. -/
structure Points (P : Option Memory → Memory → Prop) (r : Reference) (size : Nat) : Prop where
  safe : r.code.Safe P
  width : ∀ m, r.place = .memory m → m.width = .dword
  place : ∀ m, r.place = .memory m →
    m.base = .register eax ∨
    ∃ o, (m.reaching size).Within o ∧ o.size ≤ maxSize ∧ o.start + o.size < 2 ^ 31 ∧
      ∀ held m', m'.base = m.base → m'.region.Within o → P (Code.pointer? held r.code) m'

variable {P : Option Memory → Memory → Prop} {r : Reference} {size part : Nat}

theorem Points.stack {code : Code} (safe : code.Safe P) :
    (⟨code, .stack⟩ : Reference).Points P size := by
  refine ⟨safe, ?_, ?_⟩
  · rintro m ⟨⟩
  · rintro m ⟨⟩

section

variable (computed : ∀ held m q, m.base = .register q → q ≠ ebp ∧ q ≠ esi → P held m)

include computed

theorem Points.displaced (points : r.Points P size) {bytes : Int32} (low : 0 ≤ bytes.toInt)
    (high : bytes.toInt + part ≤ size) : (r.displaced bytes).Points P part := by
  obtain ⟨code, place⟩ := r
  cases place with
  | memory m =>
      refine ⟨points.safe, ?_, ?_⟩
      · rintro m' ⟨⟩
        exact points.width m rfl
      · rintro m' ⟨⟩
        rcases points.place m rfl with base | ⟨o, within, small, top, good⟩
        · exact .inl base
        · refine .inr ⟨o, ?_, small, top, good⟩
          rw [Memory.reaching_within] at within ⊢
          have start : (m.displacement + bytes).toInt = m.displacement.toInt + bytes.toInt := by
            have := m.displacement.le_toInt
            have := m.displacement.toInt_lt
            apply toInt_add_of_fits <;> omega
          rw [Memory.offset, start]
          omega
  | stack =>
      by_cases zero : bytes = 0
      · simp only [Reference.displaced, if_pos zero]
        exact .stack points.safe
      · simp only [Reference.displaced, if_neg zero]
        apply Points.stack
        apply points.safe.append
        apply safe_of_forall
        simp [Command.accesses, Operand.memory?, stackTop]
        exact fun held => computed held _ esp rfl (by decide)

omit computed in
theorem Points.address (points : r.Points P size) : r.address.Safe P := by
  obtain ⟨code, place⟩ := r
  cases place with
  | memory m =>
      apply points.safe.append
      apply safe_of_forall
      simp [Command.accesses, Operand.memory?]
  | stack => exact points.safe

omit computed in
theorem Points.resolve (points : r.Points P size) : r.resolve.1.Safe P := by
  obtain ⟨code, place⟩ := r
  cases place with
  | memory m => exact points.safe
  | stack =>
      apply points.safe.append
      apply safe_of_forall
      simp [Command.accesses, Operand.memory?]

/-- Every dword of what is found may be touched right after it was found. -/
theorem Points.dword (points : r.Points P size) {d : Memory} (mem : d ∈ r.resolve.2.dwords size)
    (held : Option Memory) : P (Code.pointer? held r.resolve.1) d := by
  obtain ⟨code, place⟩ := r
  cases place with
  | memory m =>
      rcases points.place m rfl with base | ⟨o, within, small, top, good⟩
      · apply computed _ d eax
        · rw [base_of_mem_dwords mem]
          exact base
        · decide
      · apply good held d (base_of_mem_dwords mem)
        have inside := Memory.reaching_within.mp within
        apply Region.Within.trans _ within
        apply within_of_mem_dwords (m := m) mem <;> omega
  | stack => exact computed _ d eax (base_of_mem_dwords mem) (by decide)

theorem Points.load (points : r.Points P size) : (r.load size).Safe P := by
  intro held
  rw [Reference.load, Code.accesses_append, List.forall_mem_append]
  refine ⟨points.resolve held, ?_⟩
  apply forall_accesses
  · intro c mem m inside
    obtain ⟨d, found, accesses, -⟩ := accesses_of_mem_pushMemory mem
    rw [accesses, List.mem_singleton] at inside
    subst inside
    exact points.dword computed found held
  · intro c mem
    obtain ⟨d, -, -, keeps⟩ := accesses_of_mem_pushMemory mem
    exact keeps _

theorem Points.store (points : r.Points P size) : (r.store size).Safe P := by
  intro held
  rw [Reference.store, Code.accesses_append, List.forall_mem_append]
  refine ⟨points.resolve held, ?_⟩
  apply forall_accesses
  · intro c mem m inside
    obtain ⟨d, found, accesses, -⟩ := accesses_of_mem_popMemory mem
    rw [accesses, List.mem_singleton] at inside
    subst inside
    exact points.dword computed found held
  · intro c mem
    obtain ⟨d, -, -, keeps⟩ := accesses_of_mem_popMemory mem
    exact keeps _

end

end Reference

end PascalX86
