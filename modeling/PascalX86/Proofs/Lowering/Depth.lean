import PascalX86.Lowering.Operation
import PascalX86.Lowering.Statement
import PascalX86.Proofs.Typing.Size

/-!
# Stack depth of code

How deep the stack is at each point of a piece of code, in bytes from where the code starts. Calls
are neutral: what they leave on the stack is released by instructions of their own.
-/

set_option autoImplicit false

namespace PascalX86

open Register

def Opcode.isJump : Opcode → Bool
  | .jmp | .jz | .jnz | .jle | .jge => true
  | _ => false

/-- Labels and jumps, which connect one place of the code with another. -/
def Command.isMark : Command → Bool
  | .label _ => true
  | .instruction op _ => op.isJump

/-- The depth after a command. There is none where the stack would fall below its start, or where
the stack pointer is written in any other way. -/
def Command.depth? (depth : Nat) : Command → Option Nat
  | .label _ => some depth
  | .instruction .push _ => some (depth + dwordSize)
  | .instruction .pop [.register .esp] => none
  | .instruction .pop _ => if dwordSize ≤ depth then some (depth - dwordSize) else none
  | .instruction .sub [.register .esp, .immediate n] =>
      if 0 ≤ n.toInt then some (depth + n.toInt.toNat) else none
  | .instruction .add [.register .esp, .immediate n] =>
      if 0 ≤ n.toInt ∧ n.toInt.toNat ≤ depth then some (depth - n.toInt.toNat) else none
  | .instruction .ret _ => none
  | .instruction _ (.register .esp :: _) => none
  | .instruction _ _ => some depth

def depthAfter? (depth : Nat) : Code → Option Nat
  | [] => some depth
  | c :: code => (c.depth? depth).bind fun depth => depthAfter? depth code

theorem depthAfter?_append (depth : Nat) (first second : Code) :
    depthAfter? depth (first ++ second) =
      (depthAfter? depth first).bind fun depth => depthAfter? depth second := by
  induction first generalizing depth with
  | nil => rfl
  | cons c first ih => simp only [List.cons_append, depthAfter?, ih, Option.bind_assoc]

theorem Command.depth?_add {c : Command} {depth depth' : Nat} (h : c.depth? depth = some depth')
    (more : Nat) : c.depth? (depth + more) = some (depth' + more) := by
  unfold depth? at h ⊢
  split at h <;> grind

theorem depthAfter?_add {code : Code} {depth depth' : Nat} (h : depthAfter? depth code = some depth')
    (more : Nat) : depthAfter? (depth + more) code = some (depth' + more) := by
  induction code generalizing depth with
  | nil =>
      cases h
      rfl
  | cons c code ih =>
      obtain ⟨next, first, rest⟩ := Option.bind_eq_some_iff.mp h
      rw [depthAfter?, Command.depth?_add first more]
      exact ih rest

/-- Code without labels and jumps that takes the stack from one depth to another. -/
structure Moves (code : Code) (before after : Nat) : Prop where
  depth : depthAfter? before code = some after
  straight : ∀ c ∈ code, c.isMark = false

/-- Code that takes the stack from one depth to another and is at depth zero at each of its labels
and jumps. -/
structure Settles (code : Code) (before after : Nat) : Prop where
  depth : depthAfter? before code = some after
  marks : ∀ first c rest, code = first ++ c :: rest → c.isMark = true →
    depthAfter? before first = some 0

namespace Moves

variable {first second code : Code} {a b c : Nat}

theorem nil (a : Nat) : Moves [] a a := ⟨rfl, by simp⟩

theorem append (h : Moves first a b) (h' : Moves second b c) : Moves (first ++ second) a c := by
  refine ⟨?_, ?_⟩
  · rw [depthAfter?_append, h.depth]
    exact h'.depth
  · rw [List.forall_mem_append]
    exact ⟨h.straight, h'.straight⟩

theorem more (h : Moves code a b) (more : Nat) : Moves code (a + more) (b + more) :=
  ⟨depthAfter?_add h.depth more, h.straight⟩

theorem both (h : Moves first 0 a) (h' : Moves second 0 b) : Moves (first ++ second) 0 (a + b) := by
  have later := h'.more a
  rw [Nat.zero_add, Nat.add_comm] at later
  exact h.append later

theorem settles (h : Moves code a b) : Settles code a b := by
  refine ⟨h.depth, fun first c rest eq mark => ?_⟩
  have plain := h.straight c (by simp [eq])
  simp [plain] at mark

theorem single {x : Command} (depth : x.depth? a = some b) (plain : x.isMark = false) :
    Moves [x] a b :=
  ⟨by simp [depthAfter?, depth], by simpa using plain⟩

end Moves

namespace Settles

variable {first second : Code} {a b c : Nat}

theorem mark {x : Command} (depth : x.depth? 0 = some 0) : Settles [x] 0 0 := by
  refine ⟨by simp [depthAfter?, depth], fun first y rest eq _ => ?_⟩
  cases first with
  | nil => rfl
  | cons z first => simp at eq

theorem append (h : Settles first a b) (h' : Settles second b c) : Settles (first ++ second) a c := by
  refine ⟨?_, fun before x after eq mark => ?_⟩
  · rw [depthAfter?_append, h.depth]
    exact h'.depth
  · rcases List.append_eq_append_iff.mp eq with ⟨rest, rfl, eq'⟩ | ⟨rest, eq', eq''⟩
    · rw [depthAfter?_append, h.depth]
      exact h'.marks rest x after eq' mark
    · cases rest with
      | nil =>
          -- The mark is the first command of the second piece.
          rw [List.append_nil] at eq'
          have start := h'.marks [] x after eq''.symm mark
          rw [← eq', h.depth]
          exact start
      | cons y rest =>
          rw [List.cons_append, List.cons.injEq] at eq''
          exact h.marks before x rest (eq''.1 ▸ eq') mark

end Settles

section Parts

theorem moves_replicate_push (size : Nat) {operands : List (List Operand)}
    (length : operands.length * dwordSize = size) :
    Moves (operands.map fun os => .instruction .push os) 0 size := by
  subst length
  induction operands with
  | nil => exact .nil 0
  | cons os operands ih =>
      have first : Moves [.instruction .push os] 0 dwordSize := .single rfl rfl
      have size : (os :: operands).length * dwordSize = dwordSize + operands.length * dwordSize := by
        rw [List.length_cons, Nat.succ_mul, Nat.add_comm]
      rw [size]
      exact first.both ih

theorem moves_pushMemory (m : Memory) {size : Nat} (dvd : dwordSize ∣ size) :
    Moves (pushMemory m size) 0 size := by
  have length : ((m.dwords size).reverse.map fun d => [Operand.memory d]).length * dwordSize = size := by
    simp [Nat.div_mul_cancel dvd]
  simpa [pushMemory, Function.comp_def] using moves_replicate_push size length

theorem moves_popMemory (m : Memory) {size : Nat} (dvd : dwordSize ∣ size) :
    Moves (popMemory m size) size 0 := by
  -- Which cells are popped does not matter, so the induction is on any list of them.
  have pops (cells : List Memory) : Moves (cells.map fun (d : Memory) => .instruction .pop [d])
      (cells.length * dwordSize) 0 := by
    induction cells with
    | nil => exact .nil 0
    | cons d cells ih =>
        have first : Moves [.instruction .pop [.memory d]] ((d :: cells).length * dwordSize)
            (cells.length * dwordSize) := by
          refine .single ?_ rfl
          simp [Command.depth?, Nat.succ_mul]
        exact first.append ih
  have h := pops (m.dwords size)
  rwa [Memory.length_dwords, Nat.div_mul_cancel dvd] at h

theorem toInt_ofNat {n : Nat} (h : n ≤ maxSize) : (Int32.ofNat n).toInt = n := by
  rw [Int32.toInt_ofNat_of_lt]
  exact Nat.lt_of_le_of_lt h (by decide)

theorem moves_discard {size : Nat} (le : size ≤ maxSize) : Moves (discard size) size 0 := by
  unfold discard
  split
  · next zero => exact zero ▸ .nil 0
  · refine .single ?_ rfl
    simp [Command.depth?, Operand.ofNat, toInt_ofNat le]

theorem moves_push {v : Value} {t : Ty} (length : v.image.length * dwordSize = t.size) :
    Moves v.push 0 t.size := by
  have h := @moves_replicate_push t.size (v.image.reverse.map fun d => [Operand.immediate d])
    (by simpa using length)
  simpa [Value.push, Function.comp_def] using h

end Parts

end PascalX86
