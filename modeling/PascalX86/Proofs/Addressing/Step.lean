import PascalX86.Proofs.Activation.Rule

/-!
# Steps of addresses

What the code of one selector does to an address. An operand is moved by its displacement, an address
on the stack by an addition, and an index on the stack is scaled and added to the address below it.
-/

set_option autoImplicit false

namespace PascalX86

open Register

section Pieces

/-- Code that pushes the address of a place. -/
def Place.pushing : Place → Code
  | .memory x => [.instruction .lea [eax, x], .instruction .push [eax]]
  | .stack => []

/-- Code that moves a place by so many bytes. -/
def Place.displacing (bytes : Int32) : Place → Code
  | .memory _ => []
  | .stack => if bytes = 0 then [] else [.instruction .add [stackTop 0, .immediate bytes]]

def Place.displaced (bytes : Int32) : Place → Place
  | .memory x => .memory (x.offset bytes)
  | .stack => .stack

/-- Code that adds an index on top of the stack to the address below it. -/
def addIndex (low size : Int32) : Code :=
  let fromLow := if low = 0 then [] else [.instruction .sub [ebx, .immediate low]]
  let scaled := if size = 1 then [] else [.instruction .imul [ebx, .immediate size]]
  .instruction .pop [ebx] :: fromLow ++ scaled ++ [.instruction .add [stackTop 0, ebx]]

namespace Reference

variable (r : Reference)

theorem address_eq : r.address = r.code ++ r.place.pushing := by
  obtain ⟨code, place⟩ := r
  cases place with
  | memory x => rfl
  | stack => exact (List.append_nil code).symm

theorem displaced_eq (bytes : Int32) :
    r.displaced bytes = ⟨r.code ++ r.place.displacing bytes, r.place.displaced bytes⟩ := by
  obtain ⟨code, place⟩ := r
  cases place with
  | memory x => simp [displaced, Place.displacing, Place.displaced]
  | stack =>
      simp only [displaced, Place.displacing, Place.displaced]
      split <;> simp

end Reference

theorem elementReference_constant {info : NodeInfo} {low high n : Int32} {element : Ty} {r : Reference}
    {index : Lowered Code} :
    elementReference info (.array low high element) (.ok r) (some n) index =
      .ok (r.displaced ((n - low) * .ofNat element.size)) :=
  rfl

theorem elementReference_computed {info : NodeInfo} {low high : Int32} {element : Ty} {r : Reference}
    {index : Code} :
    elementReference info (.array low high element) (.ok r) none (.ok index) =
      .ok ⟨r.code ++ (r.place.pushing ++ index) ++ addIndex low (.ofNat element.size), .stack⟩ := by
  rw [← List.append_assoc, ← r.address_eq]
  rfl

end Pieces

/-- Instructions that a machine performs by itself. -/
def Command.isOwn : Command → Bool
  | .instruction op _ => !op.isDouble && op ≠ .call
  | .label _ => false

namespace Machine

variable {functions : List Function} {top : Word} {room depth : Nat} {m m' : Machine} {a : Word}
  {code : Code} {place : Place} {low size : Int32}

section Runs

theorem Runs.depth_le (runs : m.Runs functions top room code m') (le : m.depth top ≤ room) :
    m'.depth top ≤ room := by
  induction runs with
  | nil => exact le
  | cons _ fits _ ih => exact ih fits

theorem Runs.run? (runs : m.Runs functions top room code m') (own : ∀ c ∈ code, c.isOwn = true) :
    m.run? code = some m' := by
  induction runs with
  | nil => rfl
  | @cons m m' m'' c code does _ _ ih =>
      rw [List.forall_mem_cons] at own
      cases c with
      | label name => cases own.1
      | instruction op operands =>
          have plain := own.1
          simp only [Command.isOwn, Bool.and_eq_true, Bool.not_eq_true', decide_eq_true_eq] at plain
          rw [Machine.run?, does.executed plain.1 plain.2, Option.bind_some]
          exact ih own.2

end Runs

/-- A machine that has found an object at an address, with so many bytes below it on the stack. -/
def Locates (m : Machine) (top : Word) (depth : Nat) (a : Word) : Place → Prop
  | .memory x => m.esp = below top depth ∧ m.address? x = some a
  | .stack => m.esp = below top (depth + addressSize) ∧ m.bytes.dword m.esp = a

theorem Locates.addressOf (locates : m.Locates top depth a place) : m.addressOf place = some a := by
  cases place with
  | memory x => exact locates.2
  | stack => exact congrArg some locates.2

theorem Locates.pushed (locates : m.Locates top depth a place)
    (runs : m.Runs functions top room place.pushing m') : m'.Locates top depth a .stack := by
  cases place with
  | stack =>
      cases runs
      exact locates
  | memory x =>
      obtain ⟨esp, address⟩ := locates
      have loaded : m.instruction? .lea [Register.eax, x] = some { m with eax := a } := by
        simp only [instruction?, binary?, address]
        rfl
      have ran := runs.run? (by simp [Place.pushing, Command.isOwn, Opcode.isDouble])
      simp only [Place.pushing, run?, loaded, Option.bind_some] at ran
      cases ran
      refine ⟨?_, Bytes.dword_set_self⟩
      show m.esp - 4 = _
      rw [esp]
      exact below_sub top depth 4

theorem Locates.displaced (locates : m.Locates top depth a place) {bytes : Int32}
    (runs : m.Runs functions top room (place.displacing bytes) m') :
    m'.Locates top depth (a + bytes.toBitVec) (place.displaced bytes) := by
  cases place with
  | memory x =>
      cases runs
      exact ⟨locates.1, address?_offset bytes locates.2⟩
  | stack =>
      obtain ⟨esp, address⟩ := locates
      show m'.Locates top depth _ .stack
      simp only [Place.displacing] at runs
      split at runs
      · next zero =>
        cases runs
        rw [zero]
        exact ⟨esp, address.trans (BitVec.add_zero a).symm⟩
      · have ran := runs.run? (by simp [Command.isOwn, Opcode.isDouble])
        simp only [run?, instruction?_add_top (y := .immediate bytes) rfl, Option.bind_some] at ran
        cases ran
        refine ⟨esp, ?_⟩
        show (m.bytes.set m.esp _).dword m.esp = _
        rw [Bytes.dword_set_self, address]

/-- The code of an index leaves its value on top of the address that was there before. -/
theorem Locates.indexed (locates : m.Locates top depth a .stack)
    (runs : m.Runs functions top room code m') (piles : Piles functions code 0 4)
    (small : room < 2 ^ 31) (deep : depth + 4 ≤ room) :
    m'.esp = below top (depth + 8) ∧ m'.bytes.dword (m'.esp + 4) = a := by
  obtain ⟨esp, address⟩ := locates
  obtain ⟨moved, -⟩ := Moved.of_runs runs small piles.depth piles.keeps esp deep
  have above : m'.esp + 4 = below top (depth + 4) := by
    rw [moved.esp]
    exact below_add top (depth + 4) 4
  refine ⟨moved.esp, ?_⟩
  rw [above, ← address, esp]
  exact dword_below fun d _ le => moved.bytes d le

/-- Subtracting nothing and multiplying by one are left out. -/
theorem run?_indexing (m : Machine) (low size : Int32) : ∃ flags, m.run?
    ((if low = 0 then [] else [.instruction .sub [Register.ebx, .immediate low]]) ++
      if size = 1 then [] else [.instruction .imul [Register.ebx, .immediate size]]) =
      some { m with ebx := (m.ebx - low.toBitVec) * size.toBitVec, flags := flags } := by
  have steps : ∃ flags, m.run? (if low = 0 then [] else [.instruction .sub [Register.ebx, .immediate low]]) =
      some { m with ebx := m.ebx - low.toBitVec, flags := flags } := by
    split
    · next zero =>
      refine ⟨m.flags, ?_⟩
      rw [zero]
      exact congrArg (fun v => some { m with ebx := v }) (BitVec.sub_zero m.ebx).symm
    · exact ⟨_, rfl⟩
  obtain ⟨flags, stepped⟩ := steps
  rw [run?_append_of_eq stepped]
  split
  · next one =>
    refine ⟨flags, ?_⟩
    rw [one]
    exact congrArg (fun v => some { m with ebx := v, flags := flags }) (BitVec.mul_one _).symm
  · exact ⟨_, rfl⟩

/-- The address of an element comes of the address of the array and the index above it. -/
theorem locates_element (esp : m.esp = below top (depth + 8)) (address : m.bytes.dword (m.esp + 4) = a)
    (runs : m.Runs functions top room (addIndex low size) m') :
    m'.Locates top depth (a + (m.bytes.dword m.esp - low.toBitVec) * size.toBitVec) .stack := by
  have own : ∀ c ∈ addIndex low size, c.isOwn = true := by
    unfold addIndex
    grind [Command.isOwn, Opcode.isDouble]
  have ran := runs.run? own
  obtain ⟨flags, scaled⟩ :=
    { m with ebx := m.bytes.dword m.esp, esp := m.esp + 4 }.run?_indexing low size
  have popped : m.instruction? .pop [Register.ebx] =
      some { m with ebx := m.bytes.dword m.esp, esp := m.esp + 4 } := rfl
  simp only [addIndex, List.cons_append, run?, popped, Option.bind_some] at ran
  rw [run?_append_of_eq scaled, run?, instruction?_add_top (y := Register.ebx) rfl] at ran
  cases ran
  refine ⟨?_, ?_⟩
  · show m.esp + 4 = _
    rw [esp]
    exact below_add top (depth + 4) 4
  · show (m.bytes.set (m.esp + 4) _).dword (m.esp + 4) = _
    rw [Bytes.dword_set_self, address]

end Machine

end PascalX86
