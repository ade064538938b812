import PascalX86.Proofs.Calling.Stack

/-!
# Operands of the pieces of code

Constants, operators and references pile their results on the stack and write to nothing below them.
-/

set_option autoImplicit false

namespace PascalX86

open Register

variable {functions : List Function} {first second code : Code} {a b c : Nat}

theorem Code.keeps_append {d e : Nat} (depth : depthAfter? d first = some e) :
    Code.keeps functions d (first ++ second) =
      (Code.keeps functions d first && Code.keeps functions e second) := by
  induction first generalizing d with
  | nil =>
      cases depth
      rfl
  | cons x first ih =>
      obtain ⟨next, step, rest⟩ := Option.bind_eq_some_iff.mp depth
      simp only [List.cons_append, keeps, step, Option.all_some, ih rest, Bool.and_assoc]

theorem Command.keeps_add {x : Command} {d : Nat} (keeps : x.keeps functions d = true) (more : Nat) :
    x.keeps functions (d + more) = true := by
  unfold Command.keeps Memory.onTop at *
  split at keeps
  · rfl
  · cases keeps
  · simp only [List.all_eq_true, decide_eq_true_eq] at keeps ⊢
    intro h mem
    exact (keeps h mem).imp_right fun le => Nat.le_trans le (Nat.le_add_right d more)
  · simp only [decide_eq_true_eq] at keeps ⊢
    obtain ⟨base, low, high⟩ := keeps
    exact ⟨base, low, by omega⟩
  · rfl

theorem Code.keeps_add {d e : Nat} (depth : depthAfter? d code = some e)
    (keeps : Code.keeps functions d code = true) (more : Nat) :
    Code.keeps functions (d + more) code = true := by
  induction code generalizing d with
  | nil => rfl
  | cons x code ih =>
      obtain ⟨next, step, rest⟩ := Option.bind_eq_some_iff.mp depth
      rw [Code.keeps, Bool.and_eq_true, step] at keeps
      rw [Code.keeps, Bool.and_eq_true, Command.depth?_add step more]
      exact ⟨Command.keeps_add keeps.1 more, ih rest keeps.2⟩

/-- Code that takes the stack from one depth to another and writes to nothing below the first. -/
structure Piles (functions : List Function) (code : Code) (before after : Nat) : Prop where
  depth : depthAfter? before code = some after
  keeps : Code.keeps functions before code = true

namespace Piles

theorem nil (a : Nat) : Piles functions [] a a := ⟨rfl, rfl⟩

theorem append (h : Piles functions first a b) (h' : Piles functions second b c) :
    Piles functions (first ++ second) a c := by
  constructor
  · rw [depthAfter?_append, h.depth]
    exact h'.depth
  · rw [Code.keeps_append h.depth, h.keeps, h'.keeps]
    rfl

theorem more (h : Piles functions code a b) (more : Nat) : Piles functions code (a + more) (b + more) :=
  ⟨depthAfter?_add h.depth more, Code.keeps_add h.depth h.keeps more⟩

theorem both (h : Piles functions first 0 a) (h' : Piles functions second 0 b) :
    Piles functions (first ++ second) 0 (a + b) := by
  have later := h'.more a
  rw [Nat.zero_add, Nat.add_comm] at later
  exact h.append later

theorem single {x : Command} (depth : x.depth? a = some b) (keeps : x.keeps functions a = true) :
    Piles functions [x] a b := by
  constructor
  · simp [depthAfter?, depth]
  · simp [Code.keeps, depth, keeps]

end Piles

/-- Code that writes to registers and pushes only. -/
theorem Moves.piles (moves : Moves code a b) (quiet : ∀ x ∈ code, ∀ d, x.keeps functions d = true) :
    Piles functions code a b := by
  refine ⟨moves.depth, ?_⟩
  clear moves
  induction code generalizing a with
  | nil => rfl
  | cons x code ih =>
      rw [List.forall_mem_cons] at quiet
      rw [Code.keeps, quiet.1, Bool.true_and]
      cases step : x.depth? a with
      | none => rfl
      | some d => exact ih quiet.2

section Pieces

theorem piles_pushMemory (m : Memory) {size : Nat} (dvd : dwordSize ∣ size) :
    Piles functions (pushMemory m size) 0 size := by
  apply (moves_pushMemory m dvd).piles
  intro x mem d
  obtain ⟨cell, -, rfl⟩ := List.mem_map.mp mem
  rfl

theorem piles_push {v : Value} {t : Ty} (length : v.image.length * dwordSize = t.size) :
    Piles functions v.push 0 t.size := by
  apply (moves_push length).piles
  intro x mem d
  obtain ⟨n, -, rfl⟩ := List.mem_map.mp mem
  rfl

theorem piles_discard {size : Nat} (le : size ≤ maxSize) : Piles functions (discard size) size 0 := by
  apply (moves_discard le).piles
  unfold discard
  split <;> simp [Command.keeps]

theorem piles_integerCode (op : Operator) : Piles functions op.integerCode 8 4 := by
  cases op <;> exact ⟨rfl, rfl⟩

theorem piles_doubleCode {op : Operator} (h : op.doubleCode? = some code) :
    (op.kind = .arithmetic → Piles functions code 16 8) ∧
      (op.kind = .comparison → Piles functions code 16 4) := by
  cases op <;> simp [Operator.doubleCode?, Operator.doubleCore?, Operator.doubleCore?.arithmetic,
    Operator.doubleCore?.comparison] at h <;> subst h <;> simp [Operator.kind] <;>
    exact ⟨rfl, rfl⟩

theorem piles_negateCode {t : Ty} (h : t = .integer ∨ t = .double) :
    Piles functions (negateCode t) t.size t.size := by
  rcases h with rfl | rfl <;> exact ⟨rfl, rfl⟩

theorem piles_complementCode {t : Ty} (h : t = .integer ∨ t = .double) :
    Piles functions (complementCode t) t.size 4 := by
  rcases h with rfl | rfl <;> exact ⟨rfl, rfl⟩

theorem piles_widenCode : Piles functions widenCode 4 8 := ⟨rfl, rfl⟩

end Pieces

namespace Reference

variable {r : Reference} {size : Nat}

def Piles (functions : List Function) (r : Reference) : Prop :=
  PascalX86.Piles functions r.code 0 r.held

theorem Piles.displaced (h : r.Piles functions) (bytes : Int32) : (r.displaced bytes).Piles functions := by
  obtain ⟨code, place⟩ := r
  cases place with
  | memory m => exact h
  | stack =>
      simp only [Reference.displaced]
      split
      · exact h
      · exact h.append (.single rfl rfl)

theorem Piles.address (h : r.Piles functions) : PascalX86.Piles functions r.address 0 addressSize := by
  obtain ⟨code, place⟩ := r
  cases place with
  | memory m => exact h.append ⟨rfl, rfl⟩
  | stack => exact h

theorem Piles.resolve (h : r.Piles functions) : PascalX86.Piles functions r.resolve.1 0 0 := by
  obtain ⟨code, place⟩ := r
  cases place with
  | memory m => exact h
  | stack => exact h.append (.single rfl rfl)

theorem Piles.load (h : r.Piles functions) (dvd : dwordSize ∣ size) :
    PascalX86.Piles functions (r.load size) 0 size :=
  h.resolve.append (piles_pushMemory _ dvd)

end Reference

end PascalX86
