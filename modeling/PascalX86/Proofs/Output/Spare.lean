import PascalX86.Proofs.Activation.Stage

/-!
# Temporaries that are spared

A command changes no temporary but those that it names, and neither does anything that is called.
-/

set_option autoImplicit false

namespace PascalX86

open Register

variable {env : Environment} {l : Ground} {levels : Nat} {a b : env.Call} {outer : List env.Call}
  {f : Frames} {σ : Scopes} {φ φ' : Flow} {m m' : Machine} {w v : Word} {op : Opcode} {x : Memory}
  {operands : List Operand} {ranges : List Range} {size d i k : Nat}

theorem Command.mem_accesses (plain : op ≠ .lea) (mem : .memory x ∈ operands) :
    x ∈ (Command.instruction op operands).accesses := by
  unfold accesses
  split
  · next same => cases same
  · next same =>
    cases same
    exact absurd rfl plain
  · next same =>
    cases same
    exact List.mem_filterMap.mpr ⟨_, mem, rfl⟩

theorem Bytes.set_below {bytes : Bytes} {top : Word} (near : 4 ≤ k) (small : k < 2 ^ 32)
    (small' : d < 2 ^ 32) (other : d + 4 ≤ k ∨ k < d) :
    bytes.set (below top k) v (below top d) = bytes (below top d) := by
  by_contra differs
  obtain ⟨i, lt, eq⟩ := Flow.exists_of_set_ne differs
  rw [below_add_of_le (by omega)] at eq
  have := below_inj eq (by omega) (by omega)
  omega

namespace Environment.Call

/-- A byte between the variables of a function and its operands. -/
def Hides (l : Ground) (a : env.Call) (size d : Nat) : Prop :=
  a.base l + a.function.locals.size < d ∧ d ≤ a.base l + size

/-- What a command refers to relative to the frame pointer takes in a byte of the stack. -/
def Names (l : Ground) (a : env.Call) (c : Command) (d : Nat) : Prop :=
  ∃ x ∈ c.accesses, x.base = .register ebp ∧ (x.reaching 4).Has (a.base l - d)

end Environment.Call

namespace Flow

section Stack

variable (sound : l.Sound levels) (holds : φ.Holds l levels a outer size m)
  (hides : a.Hides l size d)

include sound holds hides

/-- The operands lie below the temporaries. -/
theorem Holds.operand_ne (inside : i < 4 * φ.stack.length) : m.esp + .ofNat 32 i ≠ below l.top d := by
  intro eq
  have fits := holds.fits
  have room := sound.room
  have upper := hides.2
  rw [holds.esp, below_add_of_le (by omega)] at eq
  have := below_inj eq (by omega) (by omega)
  omega

theorem Holds.pushed (near : (m.push v).depth l.top ≤ l.room) :
    (m.push v).bytes (below l.top d) = m.bytes (below l.top d) := by
  have fits := holds.fits
  have room := sound.room
  have upper := hides.2
  have esp : (m.push v).esp = below l.top (a.base l + size + 4 * (φ.stack.length + 1)) :=
    Machine.esp_push holds.esp v
  rw [Machine.depth_of_esp esp (by omega)] at near
  have cell : (m.push v).bytes = m.bytes.set (m.push v).esp v := rfl
  rw [cell, esp]
  exact Bytes.set_below (by omega) (by omega) (by omega) (by omega)

theorem Holds.set_operand (inside : i + 4 ≤ 4 * φ.stack.length) :
    m.bytes.set (m.esp + .ofNat 32 i) v (below l.top d) = m.bytes (below l.top d) := by
  by_contra differs
  obtain ⟨k, lt, eq⟩ := exists_of_set_ne differs
  rw [BitVec.add_assoc, ← BitVec.ofNat_add] at eq
  exact holds.operand_ne sound hides (by omega) eq.symm

theorem Holds.set_top (more : φ.stack ≠ []) :
    m.bytes.set m.esp v (below l.top d) = m.bytes (below l.top d) := by
  have some := List.length_pos_iff.mpr more
  have top := holds.set_operand (v := v) sound hides (i := 0) (by omega)
  rwa [show m.esp + .ofNat 32 0 = m.esp from BitVec.add_zero _] at top

end Stack

section Writing

variable (sound : l.Sound levels) (nests : l.Nests (a :: outer)) (sees : a.Sees outer f σ)
  (holds : φ.Holds l levels a outer (a.function.frameSize f) m)
  (hides : a.Hides l (a.function.frameSize f) d)

include sound nests sees holds hides

/-- Code writes to data, which is no temporary, or to temporaries that it names. -/
theorem Holds.set_spares (writes : φ.Writes f σ (a.function.hidden f) x 4)
    (unnamed : x.base = .register ebp → ¬ (x.reaching 4).Has (a.base l - d))
    (address : m.address? x = some w) :
    m.bytes.set w v (below l.top d) = m.bytes (below l.top d) := by
  have fits := holds.fits
  have room := sound.room
  have upper := hides.2
  by_contra differs
  obtain ⟨i, lt, eq⟩ := exists_of_set_ne differs
  rcases writes with opens | ⟨base, within⟩
  · obtain ⟨d', pos, near, same, data⟩ := holds.points nests sees opens address i lt
    rw [same] at eq
    obtain rfl := below_inj eq (by omega) (by omega)
    exact nests.not_data_below hides.1 data
  · obtain ⟨d', place, -, inside, same⟩ := holds.own_cell base within address lt
    rw [same] at eq
    obtain rfl := below_inj eq (by omega) (by omega)
    apply unnamed base
    show x.displacement.toInt ≤ _ ∧ _ < x.displacement.toInt + 4
    omega

end Writing

section Commands

variable (sound : l.Sound levels) (nests : l.Nests (a :: outer)) (sees : a.Sees outer f σ)
  (behaves : env.Behaves l levels) (holds : φ.Holds l levels a outer (a.function.frameSize f) m)
  (hides : a.Hides l (a.function.frameSize f) d)

include sound nests holds hides

/-- What is around the machine changes data at most. -/
theorem Holds.outside_spares (known : l.Points (a :: outer) m.eax k)
    (bytes : ∀ d, 0 < d → d ≤ m.depth l.top → (∀ i < k, m.eax + .ofNat 32 i ≠ below l.top d) →
      m'.bytes (below l.top d) = m.bytes (below l.top d)) :
    m'.bytes (below l.top d) = m.bytes (below l.top d) := by
  have fits := holds.fits
  have room := sound.room
  obtain ⟨lower, upper⟩ := hides
  have depth := Machine.depth_of_esp holds.esp (by omega)
  refine bytes d (by omega) (by omega) fun i lt eq => ?_
  obtain ⟨d', pos, near, same, data⟩ := known i lt
  rw [same] at eq
  obtain rfl := below_inj eq (by omega) (by omega)
  exact nests.not_data_below lower data

include sees behaves

theorem Holds.spares
    (flows : (Command.instruction op operands).Flows f σ (a.function.hidden f) φ ranges φ')
    (plain : op.isJump = false) (other : op ≠ .call) (does : env.Does m op operands m')
    (near : m'.depth l.top ≤ l.room) (unnamed : ¬ a.Names l (.instruction op operands) d) :
    m'.bytes (below l.top d) = m.bytes (below l.top d) := by
  have apart {x : Memory} (plain : op ≠ .lea) (mem : .memory x ∈ operands)
      (base : x.base = .register ebp) : ¬ (x.reaching 4).Has (a.base l - d) :=
    fun has => unnamed ⟨x, Command.mem_accesses plain mem, base, has⟩
  cases flows with
  | mark mark =>
      rw [Command.isMark, plain] at mark
      cases mark
  | push x =>
      obtain ⟨v, -, eq⟩ := Option.bind_eq_some_iff.mp (does.executed rfl)
      cases eq
      exact holds.pushed sound hides near
  | pushAddress =>
      have eq := does.executed rfl
      cases eq
      exact holds.pushed sound hides near
  | popEax stack =>
      have eq := does.executed rfl
      cases eq
      rfl
  | popEbx stack =>
      have eq := does.executed rfl
      cases eq
      rfl
  | @popMemory item rest x stack writes =>
      have popped := holds.popped sound nests stack
      obtain ⟨w, address, rfl⟩ := Machine.assign?_memory (does.executed rfl)
      exact popped.set_spares sound nests sees hides (writes.congr rfl rfl)
        (apart (by decide) List.mem_cons_self) address
  | @replace op x operands replaces writes =>
      obtain ⟨w, v, flags, address, rfl⟩ := does.replaced replaces
      refine holds.set_spares sound nests sees hides writes (apart ?_ List.mem_cons_self) address
      rintro rfl
      cases replaces
  | @operand op offset operands i replaces _ place plain =>
      obtain ⟨w, v, flags, address, rfl⟩ := does.replaced replaces
      obtain ⟨v, known, rfl⟩ := Machine.address?_of_register rfl address
      cases known
      obtain ⟨lt, -⟩ := List.getElem?_eq_some_iff.mp plain
      unfold dwordSize at place
      have offset : (stackTop offset).displacement.toBitVec = .ofNat 32 (4 * i) :=
        offset_toBitVec (show offset.toInt = (4 * i : Nat) by omega)
      rw [offset]
      exact holds.set_operand sound hides (by omega)
  | double stack =>
      obtain ⟨flags, bytes, rfl, outside⟩ := does.double_top behaves rfl
      refine outside _ ?_
      by_contra close
      have inside : (below l.top d - m.esp).toNat < 4 * φ.stack.length := by
        have near : (below l.top d - m.esp).toNat < 8 := Nat.lt_of_not_le close
        rw [stack, List.length_cons, List.length_cons]
        omega
      apply holds.operand_ne sound hides inside
      rw [BitVec.ofNat_toNat, BitVec.setWidth_eq]
      bv_omega
  | displace stack =>
      have eq := does.executed rfl
      rw [Machine.instruction?_add_top rfl] at eq
      cases eq
      exact holds.set_top sound hides (by simp [stack])
  | index stack =>
      have eq := does.executed rfl
      rw [Machine.instruction?_add_top rfl] at eq
      cases eq
      exact holds.set_top sound hides (by simp [stack])
  | compute computes => rw [(does.stays behaves computes).bytes]
  | cell =>
      obtain ⟨v, value, eq⟩ := Option.bind_eq_some_iff.mp (does.executed rfl)
      cases eq
      rfl
  | address =>
      obtain ⟨w, address, eq⟩ := Option.bind_eq_some_iff.mp (does.executed rfl)
      cases eq
      rfl
  | pointer =>
      have eq := does.executed rfl
      cases eq
      rfl
  | reserve =>
      have eq := does.executed rfl
      cases eq
      rfl
  | release =>
      have eq := does.executed rfl
      cases eq
      rfl
  | call => exact absurd rfl other
  | output =>
      obtain ⟨s, s', performed⟩ := does.performed rfl
      obtain ⟨-, -, -, -, bytes⟩ := behaves.routine (.inl rfl) performed
      have none : (Command.instruction .printf operands).scanned = 0 := by
        simp [Command.scanned, scan]
      exact holds.outside_spares sound nests hides (holds.scanned (.inl none) (Nat.le_of_eq none)) bytes
  | @input operands size known reads =>
      obtain ⟨s, s', performed⟩ := does.performed rfl
      obtain ⟨-, -, -, -, bytes⟩ := behaves.routine (.inr rfl) performed
      exact holds.outside_spares sound nests hides (holds.scanned known reads) bytes

end Commands

end Flow

end PascalX86
