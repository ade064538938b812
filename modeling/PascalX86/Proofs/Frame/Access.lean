import Mathlib.Algebra.Group.Int.Defs
import Mathlib.Algebra.Group.Nat.Defs
import PascalX86.Proofs.Lowering.Piece

/-!
# Accesses to memory

Which operands in memory code reads or writes, and where the cell lies that `esi` was loaded from
before. Displacements are exact as long as objects lie in the range of 32-bit integers.
-/

set_option autoImplicit false

namespace PascalX86

open Register

section Integers

theorem toInt_add_of_fits {a b : Int32} (low : -2 ^ 31 ≤ a.toInt + b.toInt)
    (high : a.toInt + b.toInt < 2 ^ 31) : (a + b).toInt = a.toInt + b.toInt := by
  rw [Int32.toInt_add]
  apply Int.bmod_eq_of_le <;> omega

theorem toInt_sub_of_fits {a b : Int32} (low : -2 ^ 31 ≤ a.toInt - b.toInt)
    (high : a.toInt - b.toInt < 2 ^ 31) : (a - b).toInt = a.toInt - b.toInt := by
  rw [Int32.toInt_sub]
  apply Int.bmod_eq_of_le <;> omega

theorem toInt_mul_of_fits {a b : Int32} (low : -2 ^ 31 ≤ a.toInt * b.toInt)
    (high : a.toInt * b.toInt < 2 ^ 31) : (a * b).toInt = a.toInt * b.toInt := by
  rw [Int32.toInt_mul]
  apply Int.bmod_eq_of_le <;> omega

theorem toInt_neg_ofNat {n : Nat} (le : n ≤ 2 ^ 31) : (-Int32.ofNat n).toInt = -n := by
  rw [Int32.toInt_neg]
  rcases Nat.lt_or_eq_of_le le with lt | rfl
  · rw [Int32.toInt_ofNat_of_lt lt]
    apply Int.bmod_eq_of_le <;> omega
  · decide

end Integers

/-- Bytes in a row, the first of which lies at a displacement from the frame pointer. -/
structure Region where
  start : Int
  size : Nat

namespace Region

def Within (r s : Region) : Prop :=
  s.start ≤ r.start ∧ r.start + r.size ≤ s.start + s.size

/-- No byte lies in both regions. -/
def Apart (r s : Region) : Prop :=
  r.start + r.size ≤ s.start ∨ s.start + s.size ≤ r.start

theorem Within.trans {r s t : Region} (h : r.Within s) (h' : s.Within t) : r.Within t := by
  unfold Within at *
  omega

theorem Apart.symm {r s : Region} (h : r.Apart s) : s.Apart r := Or.symm h

end Region

def Width.bytes : Width → Nat
  | .byte => 1
  | .dword => 4
  | .qword => 8

namespace Memory

/-- So many bytes from where an operand stands. -/
def reaching (m : Memory) (size : Nat) : Region := ⟨m.displacement.toInt, size⟩

def region (m : Memory) : Region := m.reaching m.width.bytes

theorem reaching_within {m : Memory} {size : Nat} {r : Region} :
    (m.reaching size).Within r ↔
      r.start ≤ m.displacement.toInt ∧ m.displacement.toInt + size ≤ r.start + r.size :=
  Iff.rfl

end Memory

def Operand.memory? : Operand → Option Memory
  | .memory m => some m
  | _ => none

/-- The operands in memory that a command reads or writes. That of `lea` only stands for its
address. -/
def Command.accesses : Command → List Memory
  | .label _ => []
  | .instruction .lea _ => []
  | .instruction _ operands => operands.filterMap Operand.memory?

/-- The cell that `esi` was loaded from. Nothing is known of it after labels, jumps and calls. -/
def Command.pointer? (held : Option Memory) : Command → Option Memory
  | .label _ => none
  | .instruction .mov [.register .esi, .memory m] => some m
  | .instruction op operands =>
      if op.isJump ∨ op ∈ [.call, .printf, .invoke] ∨ .register esi ∈ operands then none else held

namespace Code

def pointer? (held : Option Memory) (code : Code) : Option Memory :=
  code.foldl (fun held c => c.pointer? held) held

/-- The operands in memory that code reads or writes, each with the cell that `esi` was loaded
from. -/
def accesses (held : Option Memory) : Code → List (Option Memory × Memory)
  | [] => []
  | c :: code => c.accesses.map (held, ·) ++ accesses (c.pointer? held) code

theorem accesses_append (held : Option Memory) (first second : Code) :
    Code.accesses held (first ++ second) =
      Code.accesses held first ++ Code.accesses (Code.pointer? held first) second := by
  induction first generalizing held with
  | nil => rfl
  | cons c first ih =>
      rw [List.cons_append, accesses, ih, accesses, List.append_assoc]
      rfl

end Code

/-- Whatever `esi` holds before, the accesses of the code have the property. -/
def Code.Safe (P : Option Memory → Memory → Prop) (code : Code) : Prop :=
  ∀ held, ∀ a ∈ Code.accesses held code, P a.1 a.2

section Safe

variable {P : Option Memory → Memory → Prop} {first second code : Code}

theorem safe_nil : Code.Safe P [] := by
  intro held a mem
  cases mem

theorem Code.Safe.append (h : first.Safe P) (h' : second.Safe P) : (first ++ second).Safe P := by
  intro held
  rw [accesses_append, List.forall_mem_append]
  exact ⟨h held, h' _⟩

/-- Accesses that do not go by `esi` are the same whatever it holds. -/
theorem safe_of_forall (each : ∀ c ∈ code, ∀ m ∈ c.accesses, ∀ held, P held m) : code.Safe P := by
  intro held
  induction code generalizing held with
  | nil => simp [Code.accesses]
  | cons c code ih =>
      rw [List.forall_mem_cons] at each
      rw [Code.accesses, List.forall_mem_append]
      refine ⟨?_, ih each.2 _⟩
      intro a mem
      obtain ⟨m, inside, rfl⟩ := List.mem_map.mp mem
      exact each.1 m inside held

/-- Code that leaves `esi` alone, with accesses that suit what it holds before. -/
theorem forall_accesses {held : Option Memory} (each : ∀ c ∈ code, ∀ m ∈ c.accesses, P held m)
    (keeps : ∀ c ∈ code, c.pointer? held = held) : ∀ a ∈ Code.accesses held code, P a.1 a.2 := by
  induction code with
  | nil => simp [Code.accesses]
  | cons c code ih =>
      rw [List.forall_mem_cons] at each keeps
      rw [Code.accesses, List.forall_mem_append, keeps.1]
      refine ⟨?_, ih each.2 keeps.2⟩
      intro a mem
      obtain ⟨m, inside, rfl⟩ := List.mem_map.mp mem
      exact each.1 m inside

end Safe

section Dwords

variable {m m' : Memory} {size : Nat}

theorem base_of_mem_dwords (mem : m' ∈ m.dwords size) : m'.base = m.base := by
  obtain ⟨k, -, rfl⟩ := List.mem_map.mp mem
  rfl

/-- The dwords of an operand lie inside the bytes that it reaches. -/
theorem within_of_mem_dwords (mem : m' ∈ m.dwords size) (small : size ≤ maxSize)
    (high : m.displacement.toInt + size < 2 ^ 31) :
    m'.region.Within (m.reaching size) := by
  obtain ⟨k, inside, rfl⟩ := List.mem_map.mp mem
  rw [List.mem_range, dwordSize] at inside
  unfold maxSize at small
  have last : k * 4 + 4 ≤ size := by omega
  have before := m.displacement.le_toInt
  have offset : (Int32.ofNat (k * 4)).toInt = k * 4 := by
    rw [Int32.toInt_ofNat_of_lt (by omega)]
    omega
  have start : (m.displacement + Int32.ofNat (k * 4)).toInt = m.displacement.toInt + k * 4 := by
    rw [toInt_add_of_fits] <;> omega
  show _ ≤ (m.displacement + Int32.ofNat (k * 4)).toInt ∧
    (m.displacement + Int32.ofNat (k * 4)).toInt + 4 ≤ _
  rw [start]
  constructor
  · show m.displacement.toInt ≤ _
    omega
  · show _ ≤ m.displacement.toInt + (size : Int)
    omega

theorem accesses_of_mem_pushMemory {c : Command} (mem : c ∈ pushMemory m size) :
    ∃ d ∈ m.dwords size, c.accesses = [d] ∧ ∀ held, c.pointer? held = held := by
  obtain ⟨d, inside, rfl⟩ := List.mem_map.mp mem
  exact ⟨d, List.mem_reverse.mp inside, rfl, fun held => rfl⟩

theorem accesses_of_mem_popMemory {c : Command} (mem : c ∈ popMemory m size) :
    ∃ d ∈ m.dwords size, c.accesses = [d] ∧ ∀ held, c.pointer? held = held := by
  obtain ⟨d, inside, rfl⟩ := List.mem_map.mp mem
  exact ⟨d, inside, rfl, fun held => rfl⟩

end Dwords

end PascalX86
