import PascalX86.Proofs.Machine.Word
import PascalX86.Proofs.Meaning.Tree
import PascalX86.Symbol.Table

/-!
# The frame at run time

How a machine holds a store: each variable in its slot below the frame pointer, and below the frame
the operands that have been pushed.
-/

set_option autoImplicit false

namespace PascalX86

def below (base : Word) (n : Nat) : Word := base - .ofNat 32 n

section Addresses

variable {base : Word} {n k : Nat}

theorem below_sub (base : Word) (n k : Nat) : below base n - .ofNat 32 k = below base (n + k) := by
  unfold below
  bv_omega

theorem below_add (base : Word) (n k : Nat) : below base (n + k) + .ofNat 32 k = below base n := by
  unfold below
  bv_omega

/-- Two dwords below an address lie apart unless they overlap, for they do not reach around the
memory. -/
theorem apart_below (first : 4 ≤ n) (second : 4 ≤ k) (fits : n ≤ 2 ^ 32) (fits' : k ≤ 2 ^ 32)
    (apart : n + 4 ≤ k ∨ k + 4 ≤ n) : Bytes.Apart (below base n) (below base k) := by
  have difference : below base n - below base k = .ofNat 32 (k + (2 ^ 32 - n)) := by
    unfold below
    bv_omega
  rw [Bytes.Apart, difference, BitVec.toNat_ofNat]
  omega

end Addresses

structure Table.Spread (t : Table) (size : Nat) : Prop where
  inside : ∀ s ∈ t.symbols, ∀ x, s.role = .variable x → x.offset + 4 ≤ size
  same : ∀ s ∈ t.symbols, ∀ s' ∈ t.symbols, ∀ x y, s.role = .variable x → s'.role = .variable y →
    s.key = s'.key → x = y
  apart : ∀ s ∈ t.symbols, ∀ s' ∈ t.symbols, ∀ x y, s.role = .variable x → s'.role = .variable y →
    s.key ≠ s'.key → x.offset + 4 ≤ y.offset ∨ y.offset + 4 ≤ x.offset

/-- Where the variables of a program lie while it runs. -/
structure Activation where
  base : Word
  size : Nat
  table : Table
  spread : table.Spread size

def Activation.Stacked (a : Activation) (b : Bytes) : List Int32 → Prop
  | [] => True
  | v :: stack => b.dword (below a.base (a.size + 4 * (stack.length + 1))) = v.toBitVec ∧ a.Stacked b stack

/-- A machine holds the values of the variables and some operands. -/
structure Activation.Holds (a : Activation) (σ : Store) (stack : List Int32) (m : Machine) : Prop where
  base : m.ebp = a.base
  top : m.esp = below a.base (a.size + 4 * stack.length)
  values : ∀ s ∈ a.table.symbols, ∀ x, s.role = .variable x →
    m.bytes.dword (below a.base (x.offset + 4)) = (σ s.key).toBitVec
  stacked : a.Stacked m.bytes stack

namespace Activation

variable {a : Activation} {σ : Store} {stack : List Int32} {v w : Int32} {m m' : Machine} {b : Bytes}

theorem Stacked.set {n : Nat} {w : Word} (h : a.Stacked b stack) (positive : 4 ≤ n) (fits : n ≤ 2 ^ 32)
    (room : a.size + 4 * stack.length ≤ 2 ^ 32)
    (outside : n ≤ a.size ∨ a.size + 4 * (stack.length + 1) ≤ n) :
    a.Stacked (b.set (below a.base n) w) stack := by
  induction stack with
  | nil => trivial
  | cons v stack ih =>
      obtain ⟨top, rest⟩ := h
      rw [List.length_cons] at room outside
      refine ⟨?_, ih rest (by omega) (by omega)⟩
      rw [Bytes.dword_set_apart (apart_below (by omega) positive (by omega) fits (by omega))]
      exact top

namespace Holds

theorem congr (h : a.Holds σ stack m) (base : m'.ebp = m.ebp) (top : m'.esp = m.esp)
    (bytes : m'.bytes = m.bytes) : a.Holds σ stack m' := by
  constructor
  · rw [base]
    exact h.base
  · rw [top]
    exact h.top
  · rw [bytes]
    exact h.values
  · rw [bytes]
    exact h.stacked

theorem push (h : a.Holds σ stack m) (room : a.size + 4 * (stack.length + 1) ≤ 2 ^ 32) :
    a.Holds σ (v :: stack) (m.push v.toBitVec) := by
  have lower : m.esp - 4 = below a.base (a.size + 4 * (stack.length + 1)) := by
    rw [h.top]
    exact below_sub a.base (a.size + 4 * stack.length) 4
  constructor
  · exact h.base
  · exact lower
  · intro s mem x role
    have inside := a.spread.inside s mem x role
    have kept := h.values s mem x role
    simp only [Machine.push, Machine.store, lower]
    rw [Bytes.dword_set_apart (apart_below (by omega) (by omega) (by omega) room (by omega))]
    exact kept
  · simp only [Machine.push, Machine.store, lower]
    refine ⟨Bytes.dword_set_self, h.stacked.set (by omega) room (by omega) (by omega)⟩

theorem pop (h : a.Holds σ (v :: stack) m) :
    m.pop.1 = v.toBitVec ∧ a.Holds σ stack m.pop.2 := by
  obtain ⟨top, rest⟩ := h.stacked
  refine ⟨?_, h.base, ?_, h.values, rest⟩
  · rw [← top, Machine.pop, h.top]
    rfl
  · rw [Machine.pop, h.top]
    exact below_add a.base (a.size + 4 * stack.length) 4

theorem replace (h : a.Holds σ (v :: stack) m) (room : a.size + 4 * (stack.length + 1) ≤ 2 ^ 32) :
    a.Holds σ (w :: stack) (m.store m.esp w.toBitVec) := by
  -- Writing on top is popping one operand and pushing another.
  have pushed := (h.pop.2).push (v := w) room
  have back : m.esp + 4 - 4 = m.esp := by bv_omega
  simp only [Machine.push, Machine.pop, Machine.store, back] at pushed
  exact pushed

theorem store (h : a.Holds σ stack m) (room : a.size + 4 * stack.length ≤ 2 ^ 32) {s : Symbol}
    {x : Slot} (mem : s ∈ a.table.symbols) (role : s.role = .variable x) :
    a.Holds (σ.set s v) stack (m.store (below a.base (x.offset + 4)) v.toBitVec) := by
  have inside := a.spread.inside s mem x role
  refine ⟨h.base, h.top, ?_, h.stacked.set (by omega) (by omega) room (by omega)⟩
  intro s' mem' y role'
  have inside' := a.spread.inside s' mem' y role'
  simp only [Machine.store, Store.set]
  -- A slot is either the one that is written or apart from it.
  by_cases same : s'.key = s.key
  · rw [if_pos same, a.spread.same s' mem' s mem y x role' role same]
    exact Bytes.dword_set_self
  · have away := a.spread.apart s' mem' s mem y x role' role same
    rw [if_neg same,
      Bytes.dword_set_apart (apart_below (by omega) (by omega) (by omega) (by omega) (by omega))]
    exact h.values s' mem' y role'

end Holds

end Activation

end PascalX86
