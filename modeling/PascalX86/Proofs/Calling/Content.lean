import Mathlib.Data.List.Forall2
import PascalX86.Proofs.Calling.Stack

/-!
# Values on the stack

What pushes leave on the stack: constants as their images, objects as they are in memory, the lowest
dword at the lowest address each time, and references as addresses.
-/

set_option autoImplicit false

namespace PascalX86

open Register

namespace Bytes

/-- So many dwords in a row, the one at the lowest address first. -/
def words (b : Bytes) (a : Word) (n : Nat) : List Word :=
  (List.range n).map fun k => b.dword (a + .ofNat 32 (k * dwordSize))

variable {b b' : Bytes} {a c v : Word} {n : Nat}

theorem words_succ : b.words a (n + 1) = b.dword a :: b.words (a + 4) n := by
  have next (k : Nat) : a + .ofNat 32 ((k + 1) * dwordSize) = a + 4 + .ofNat 32 (k * dwordSize) := by
    unfold dwordSize
    bv_omega
  have first : a + .ofNat 32 (0 * dwordSize) = a := by bv_omega
  simp only [words, List.range_succ_eq_map, List.map_cons, List.map_map, Function.comp_def,
    Nat.succ_eq_add_one, next, first]

theorem words_set_of_outside (outside : ∀ k < n, Apart (a + .ofNat 32 (k * dwordSize)) c) :
    (b.set c v).words a n = b.words a n := by
  apply List.map_congr_left
  intro k inside
  exact dword_set_apart (outside k (List.mem_range.mp inside))

theorem dword_congr (same : ∀ i < 4, b (a + .ofNat 32 i) = b' (a + .ofNat 32 i)) :
    b.dword a = b'.dword a := by
  have first : b a = b' a := by simpa using same 0 (by decide)
  have second : b (a + 1) = b' (a + 1) := same 1 (by decide)
  have third : b (a + 2) = b' (a + 2) := same 2 (by decide)
  have last : b (a + 3) = b' (a + 3) := same 3 (by decide)
  rw [dword, dword, first, second, third, last]

end Bytes

namespace Machine

variable {functions : List Function} {top : Word} {room k n size : Nat} {m m' s : Machine} {v w : Word}

/-- A machine after so many pushes. -/
structure Pushed (m : Machine) (k : Nat) (s : Machine) : Prop where
  eq : s = { m with bytes := s.bytes, esp := below m.esp (k * dwordSize) }
  bytes : ∀ c, (∀ j < k * dwordSize, c ≠ below m.esp (j + 1)) → s.bytes c = m.bytes c

theorem Pushed.zero (m : Machine) : m.Pushed 0 m := by
  have esp : below m.esp (0 * dwordSize) = m.esp := by
    unfold below
    bv_omega
  refine ⟨?_, fun _ _ => rfl⟩
  rw [esp]

theorem Pushed.before (pushed : (m.push w).Pushed k s) : m.Pushed (k + 1) s := by
  have lower (n : Nat) : below (m.push w).esp n = below m.esp (n + dwordSize) := by
    show below (m.esp - 4) n = _
    unfold below dwordSize
    bv_omega
  have more : (k + 1) * dwordSize = k * dwordSize + dwordSize := Nat.succ_mul _ _
  obtain ⟨eq, kept⟩ := pushed
  rw [lower, ← more] at eq
  refine ⟨eq, fun c outside => ?_⟩
  rw [kept c]
  · show m.bytes.set (m.esp - 4) w c = m.bytes c
    rw [Bytes.set, if_neg]
    intro inside
    apply outside (3 - (c - (m.esp - 4)).toNat) (by unfold dwordSize; omega)
    unfold below
    bv_omega
  · intro j inside
    have other := outside (j + dwordSize) (by omega)
    rwa [Nat.add_right_comm, ← lower] at other

theorem words_push (small : (n + 1) * dwordSize ≤ 2 ^ 32) :
    (m.push w).bytes.words (m.push w).esp (n + 1) = w :: m.bytes.words m.esp n := by
  have next : (m.push w).esp + 4 = m.esp := by
    show m.esp - 4 + 4 = m.esp
    bv_omega
  have outside : ∀ k < n, Bytes.Apart (m.esp + .ofNat 32 (k * dwordSize)) (m.esp - 4) := by
    intro k inside
    unfold dwordSize at *
    constructor <;> bv_omega
  rw [Bytes.words_succ, next]
  show (m.bytes.set (m.esp - 4) w).dword (m.esp - 4) ::
    (m.bytes.set (m.esp - 4) w).words m.esp n = _
  rw [Bytes.dword_set_self, Bytes.words_set_of_outside outside]

theorem Does.executed {op : Opcode} {operands : List Operand}
    (does : m.Does functions top (.instruction op operands) m') (plain : op.isDouble = false)
    (other : op ≠ .call) : m.instruction? op operands = some m' := by
  cases does with
  | exact executed => exact executed
  | double double => simp [plain] at double
  | store => cases plain
  | call => exact absurd rfl other

/-- Pushing operands one after the other leaves their values on the stack, the last one on top. -/
theorem runs_pushes {operands : List Operand} {values : List Word}
    (runs : m.Runs functions top room (operands.map fun x => .instruction .push [x]) m')
    (known : List.Forall₂ (fun x v => ∀ k < operands.length, ∀ s : Machine, m.Pushed k s →
      s.value? x = some v) operands values)
    (small : (operands.length + n) * dwordSize < 2 ^ 32) :
    m.Pushed operands.length m' ∧
      m'.bytes.words m'.esp (operands.length + n) = values.reverse ++ m.bytes.words m.esp n := by
  induction operands generalizing m values n with
  | nil =>
      cases known
      cases runs
      rw [List.length_nil, Nat.zero_add]
      exact ⟨.zero _, rfl⟩
  | cons x operands ih =>
      obtain _ | ⟨first, rest⟩ := known
      rename_i v values
      obtain _ | ⟨does, -, runs⟩ := runs
      rename_i next
      have executed := does.executed rfl (by decide)
      have pushed : next = m.push v := by
        have value := first 0 (Nat.zero_lt_succ _) m (.zero m)
        simpa [instruction?, unary?, value] using executed.symm
      subst pushed
      rw [List.length_cons] at small rest ⊢
      unfold dwordSize at small
      have later : List.Forall₂ (fun y w => ∀ k < operands.length, ∀ s : Machine,
          (m.push v).Pushed k s → s.value? y = some w) operands values := by
        refine rest.imp fun y w value k inside s pushed => ?_
        exact value (k + 1) (Nat.succ_lt_succ inside) s pushed.before
      obtain ⟨pushed, same⟩ := ih (n := n + 1) runs later (by unfold dwordSize; omega)
      refine ⟨pushed.before, ?_⟩
      rw [Nat.add_assoc, Nat.add_comm 1 n, same, words_push (by unfold dwordSize; omega)]
      simp

theorem runs_push {x : Value} (runs : m.Runs functions top room x.push m')
    (small : x.image.length * dwordSize < 2 ^ 32) :
    m'.bytes.words m'.esp x.image.length = x.image.map Int32.toBitVec := by
  have code : x.push = (x.image.reverse.map Operand.immediate).map fun y => .instruction .push [y] := by
    rw [List.map_map]
    rfl
  rw [code] at runs
  have known : List.Forall₂ (fun y v => ∀ k < (x.image.reverse.map Operand.immediate).length, ∀ s,
      m.Pushed k s → s.value? y = some v) (x.image.reverse.map Operand.immediate)
      (x.image.reverse.map Int32.toBitVec) := by
    rw [List.forall₂_map_left_iff, List.forall₂_map_right_iff, List.forall₂_same]
    exact fun _ _ _ _ _ _ => rfl
  obtain ⟨-, same⟩ := runs_pushes (n := 0) runs known (by simpa using small)
  simpa [Bytes.words] using same

end Machine

/-- Operands that go by registers which pushes leave alone. -/
structure Memory.Anchored (x : Memory) : Prop where
  width : x.width = .dword
  base : x.base = .register ebp ∨ x.base = .register esi ∨ x.base = .register eax

theorem Memory.Anchored.offset {x : Memory} (anchored : x.Anchored) (bytes : Int32) :
    (x.offset bytes).Anchored :=
  ⟨anchored.width, anchored.base⟩

namespace Machine

variable {functions : List Function} {top : Word} {room k size : Nat} {m m' s : Machine} {a : Word}
  {x : Memory}

theorem exists_address (anchored : x.Anchored) (m : Machine) : ∃ a, m.address? x = some a := by
  unfold address?
  rcases anchored.base with base | base | base <;> rw [base] <;> exact ⟨_, rfl⟩

theorem Pushed.address? (pushed : m.Pushed k s) (anchored : x.Anchored) :
    s.address? x = m.address? x := by
  rw [pushed.eq]
  unfold Machine.address?
  rcases anchored.base with base | base | base <;> rw [base] <;> rfl

theorem address?_offset (bytes : Int32) (address : m.address? x = some a) :
    m.address? (x.offset bytes) = some (a + bytes.toBitVec) := by
  obtain ⟨width, base, displacement⟩ := x
  have sum : (displacement + bytes).toBitVec = displacement.toBitVec + bytes.toBitVec := rfl
  cases base with
  | register r =>
      obtain ⟨v, known, rfl⟩ := Option.map_eq_some_iff.mp address
      simp only [Machine.address?, Memory.offset, known, Option.map_some, sum, BitVec.add_assoc]
  | display =>
      cases address
      simp only [Machine.address?, Memory.offset, sum, BitVec.add_assoc]

/-- Pushing an object puts its dwords on the stack in the order in which they lie in memory. -/
theorem runs_pushMemory (runs : m.Runs functions top room (pushMemory x size) m')
    (anchored : x.Anchored) (address : m.address? x = some a) (small : size < 2 ^ 32)
    (apart : ∀ i < size, ∀ j < size, a + .ofNat 32 i ≠ below m.esp (j + 1)) :
    m'.bytes.words m'.esp (size / dwordSize) = m.bytes.words a (size / dwordSize) := by
  have code : pushMemory x size =
      ((x.dwords size).reverse.map Operand.memory).map fun y => .instruction .push [y] := by
    rw [List.map_map]
    rfl
  have length : ((x.dwords size).reverse.map Operand.memory).length = size / dwordSize := by simp
  have whole : size / dwordSize * dwordSize ≤ size := Nat.div_mul_le_self _ _
  rw [code] at runs
  have known : List.Forall₂ (fun y v => ∀ k < ((x.dwords size).reverse.map Operand.memory).length,
      ∀ s : Machine, m.Pushed k s → s.value? y = some v) ((x.dwords size).reverse.map Operand.memory)
      (m.bytes.words a (size / dwordSize)).reverse := by
    rw [length, List.forall₂_map_left_iff, List.forall₂_reverse_iff]
    unfold Memory.dwords Bytes.words
    rw [List.forall₂_map_left_iff, List.forall₂_map_right_iff, List.forall₂_same]
    intro n mem k before s pushed
    rw [List.mem_range] at mem
    have own : ((x.sized .dword).offset (.ofNat (n * dwordSize))).Anchored := ⟨rfl, anchored.base⟩
    have found : s.address? ((x.sized .dword).offset (.ofNat (n * dwordSize))) =
        some (a + .ofNat 32 (n * dwordSize)) := by
      rw [pushed.address? own]
      exact address?_offset (.ofNat _) address
    have same : s.bytes.dword (a + .ofNat 32 (n * dwordSize)) =
        m.bytes.dword (a + .ofNat 32 (n * dwordSize)) := by
      apply Bytes.dword_congr
      intro i inside
      apply pushed.bytes
      intro j pushed
      rw [BitVec.add_assoc, ← BitVec.ofNat_add]
      unfold dwordSize at *
      exact apart (n * 4 + i) (by omega) j (by omega)
    rw [value?, if_pos own.width, found, Option.map_some, same]
  obtain ⟨-, same⟩ := runs_pushes (n := 0) runs known (by rw [length, Nat.add_zero]; omega)
  simpa [length, Bytes.words] using same

/-- The address of what a reference has found, after its code. -/
def addressOf (m : Machine) : Place → Option Word
  | .memory x => m.address? x
  | .stack => some (m.bytes.dword m.esp)

end Machine

/-- References to operands that pushes leave alone, or to addresses on the stack. -/
def Reference.Anchored (r : Reference) : Prop := ∀ x, r.place = .memory x → x.Anchored

namespace Reference

variable {r : Reference}

theorem anchored_stack (code : Code) : (⟨code, .stack⟩ : Reference).Anchored := by
  rintro x ⟨⟩

theorem Anchored.displaced (anchored : r.Anchored) (bytes : Int32) : (r.displaced bytes).Anchored := by
  obtain ⟨code, place⟩ := r
  cases place with
  | memory x =>
      rintro y ⟨⟩
      exact (anchored x rfl).offset bytes
  | stack =>
      simp only [displaced]
      split <;> exact anchored_stack _

theorem Anchored.resolve (anchored : r.Anchored) : r.resolve.2.Anchored := by
  obtain ⟨code, place⟩ := r
  cases place with
  | memory x => exact anchored x rfl
  | stack => exact ⟨rfl, .inr (.inr rfl)⟩

end Reference

namespace Machine

variable {functions : List Function} {top : Word} {room : Nat} {m m' : Machine} {r : Reference}

/-- The address that a reference pushes is the one where it found its object. -/
theorem runs_address (runs : m.Runs functions top room r.address m') (anchored : r.Anchored) :
    ∃ s : Machine, m.Runs functions top room r.code s ∧
      s.addressOf r.place = some (m'.bytes.dword m'.esp) := by
  obtain ⟨code, place⟩ := r
  cases place with
  | stack => exact ⟨m', runs, rfl⟩
  | memory x =>
      obtain ⟨s, before, after⟩ := runs_append.mp runs
      obtain _ | ⟨loads, -, after⟩ := after
      obtain _ | ⟨pushes, -, after⟩ := after
      cases after
      obtain ⟨a, address⟩ := exists_address (anchored x rfl) s
      have loaded := loads.executed rfl (by decide)
      have pushed := pushes.executed rfl (by decide)
      simp only [instruction?, binary?, address] at loaded
      cases loaded
      cases pushed
      refine ⟨s, before, address.trans ?_⟩
      exact congrArg some Bytes.dword_set_self.symm

/-- The operand that code resolves a reference to stands at the address that the reference found. -/
theorem runs_resolve (runs : m.Runs functions top room r.resolve.1 m') (anchored : r.Anchored) :
    ∃ (s : Machine) (a : Word), m.Runs functions top room r.code s ∧ s.addressOf r.place = some a ∧
      m'.address? r.resolve.2 = some a ∧ m'.bytes = s.bytes := by
  obtain ⟨code, place⟩ := r
  cases place with
  | memory x =>
      obtain ⟨a, address⟩ := exists_address (anchored x rfl) m'
      exact ⟨m', a, runs, address, address, rfl⟩
  | stack =>
      obtain ⟨s, before, after⟩ := runs_append.mp runs
      obtain ⟨pops, -⟩ := runs_single.mp after
      have popped := pops.executed rfl (by decide)
      cases popped
      refine ⟨s, _, before, rfl, ?_, rfl⟩
      exact congrArg some (BitVec.add_zero _)

end Machine

end PascalX86
