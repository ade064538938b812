import PascalX86.Proofs.Activation.Operand

/-!
# Commands at work

What one instruction of a body does to a process at work, given what is known of addresses before it.
-/

set_option autoImplicit false

namespace PascalX86

open Register

namespace Machine

variable {m m' : Machine} {op : Opcode} {x : Memory} {r : Register} {operands : List Operand} {v : Word}

theorem assign?_memory (assigned : m.assign? v (.memory x) = some m') :
    ∃ w, m.address? x = some w ∧ m' = { m with bytes := m.bytes.set w v } := by
  simp only [assign?] at assigned
  split at assigned
  · obtain ⟨w, address, rfl⟩ := Option.map_eq_some_iff.mp assigned
    exact ⟨w, address, rfl⟩
  · cases assigned

/-- Instructions on an operand in memory replace one dword. -/
theorem instruction?_replaces (replaces : op.replaces = true)
    (executed : m.instruction? op (.memory x :: operands) = some m') :
    ∃ w v flags, m.address? x = some w ∧
      m' = { m with bytes := m.bytes.set w v, flags := flags } := by
  have written {v : Word} {s : Machine} {flags : Option Flags}
      (assigned : m.assign? v (.memory x) = some s) (eq : m' = s.setFlags flags) :
      ∃ w v flags, m.address? x = some w ∧ m' = { m with bytes := m.bytes.set w v, flags := flags } := by
    obtain ⟨w, address, rfl⟩ := assign?_memory assigned
    exact ⟨w, v, flags, address, eq⟩
  have unflagged {v : Word} (assigned : m.assign? v (.memory x) = some m') :
      ∃ w v flags, m.address? x = some w ∧ m' = { m with bytes := m.bytes.set w v, flags := flags } := by
    obtain ⟨w, address, rfl⟩ := assign?_memory assigned
    exact ⟨w, v, m.flags, address, rfl⟩
  match operands, executed with
  | [], executed =>
      cases op <;> simp [Opcode.replaces] at replaces <;>
        simp [instruction?, unary?, bind, Option.bind_eq_some_iff, guard, failure] at executed
      · obtain ⟨v, -, s, assigned, rfl⟩ := executed
        exact written assigned rfl
      · obtain ⟨v, -, assigned⟩ := executed
        exact unflagged assigned
  | [y], executed =>
      cases op <;> simp [Opcode.replaces] at replaces <;>
        simp [instruction?, binary?, arithmetic?, bind, Option.bind_eq_some_iff] at executed
      · obtain ⟨v, -, assigned⟩ := executed
        exact unflagged assigned
      all_goals
        obtain ⟨_, _, _, _, s, assigned, rfl⟩ := executed
        exact written assigned rfl
  | _ :: _ :: _, executed => cases executed

/-- The memory is left alone, and so are the registers by which it is found. -/
structure Stays (m m' : Machine) : Prop where
  bytes : m'.bytes = m.bytes
  esp : m'.esp = m.esp
  ebp : m'.ebp = m.ebp
  esi : m'.esi = m.esi
  display : m'.display = m.display

theorem Stays.of_assign {r : Register} (assigned : m.assign? v (.register r) = some m')
    (other : r ∉ [Register.esp, .ebp, .esi]) : Stays m m' := by
  cases r <;> first
    | exact absurd (by decide) other
    | cases assigned <;> exact ⟨rfl, rfl, rfl, rfl, rfl⟩

theorem Stays.flags {s : Machine} (stays : Stays m s) (flags : Option Flags) : Stays m (s.setFlags flags) :=
  ⟨stays.bytes, stays.esp, stays.ebp, stays.esi, stays.display⟩

theorem Stays.of_computes (computes : op.computes = true) (other : r ∉ [Register.esp, .ebp, .esi])
    (executed : m.instruction? op (.register r :: operands) = some m') : Stays m m' := by
  match operands, executed with
  | [], executed =>
      simp only [instruction?, unary?] at executed
      split at executed
      · cases computes
      · cases computes
      · simp only [bind, Option.bind_eq_some_iff] at executed
        obtain ⟨v, -, s, assigned, eq⟩ := executed
        cases eq
        exact (Stays.of_assign assigned other).flags _
      · simp only [bind, Option.bind_eq_some_iff] at executed
        obtain ⟨v, -, assigned⟩ := executed
        exact .of_assign assigned other
      · simp only [bind, Option.bind_eq_some_iff, divide?] at executed
        obtain ⟨v, -, divided⟩ := executed
        split at divided
        · cases divided
        · cases divided
          exact ⟨rfl, rfl, rfl, rfl, rfl⟩
      · simp only [bind, Option.bind_eq_some_iff] at executed
        obtain ⟨-, -, flags, -, condition, -, rest⟩ := executed
        cases rest
        exact ⟨rfl, rfl, rfl, rfl, rfl⟩
  | [y], executed =>
      simp only [instruction?, binary?] at executed
      split at executed
      · simp only [bind, Option.bind_eq_some_iff] at executed
        obtain ⟨v, -, assigned⟩ := executed
        exact .of_assign assigned other
      · simp only [bind, Option.bind_eq_some_iff] at executed
        obtain ⟨-, -, assigned⟩ := executed
        exact .of_assign assigned other
      · cases computes
      · simp only [bind, Option.bind_eq_some_iff] at executed
        obtain ⟨-, -, a, -, v, -, s, assigned, rest⟩ := executed
        cases rest
        exact (Stays.of_assign assigned other).flags _
      · simp only [bind, Option.bind_eq_some_iff] at executed
        obtain ⟨-, -, a, -, v, -, s, assigned, rest⟩ := executed
        cases rest
        exact (Stays.of_assign assigned other).flags _
      · simp only [bind, Option.bind_eq_some_iff] at executed
        obtain ⟨a, -, b, -, flags, -, rest⟩ := executed
        cases rest
        exact ⟨rfl, rfl, rfl, rfl, rfl⟩
      · simp only [bind, Option.bind_eq_some_iff] at executed
        obtain ⟨a, -, b, -, flags, -, rest⟩ := executed
        cases rest
        exact ⟨rfl, rfl, rfl, rfl, rfl⟩
      · simp only [bind, Option.bind_eq_some_iff] at executed
        obtain ⟨a, -, b, -, pair, -, s, assigned, rest⟩ := executed
        cases rest
        exact (Stays.of_assign assigned other).flags _
  | _ :: _ :: _, executed => cases executed

end Machine

namespace Environment

/-- What a process does with an instruction, by itself or by what is around it. -/
inductive Does (env : Environment) (m : Machine) (op : Opcode) (operands : List Operand) (m' : Machine) :
    Prop where
  | inside (plain : op.isOutside = false) (executed : m.instruction? op operands = some m')
  | outside {s s' : env.State} (outside : op.isOutside = true)
      (performed : env.perform? op operands m s = some (m', s'))

/-- Instructions on doubles write to no more than their operand in memory, and to no register but
those for doubles. The routines of the runtime leave the frame and stack pointers, the display and
the stack as they are, apart from what they are told to read into. -/
structure Behaves (env : Environment) (l : Ground) (levels : Nat) : Prop where
  double : ∀ {op : Opcode} {operands : List Operand} {m m' : Machine} {s s' : env.State},
    op.isDouble = true → env.perform? op operands m s = some (m', s') →
    ∃ flags bytes, m' = { m with flags := flags, bytes := bytes } ∧
      ∀ c, (∀ x w, operands.head? = some (.memory x) → m.address? x = some w →
        x.width.bytes ≤ (c - w).toNat) → bytes c = m.bytes c
  routine : ∀ {op : Opcode} {operands : List Operand} {m m' : Machine} {s s' : env.State},
    op = .printf ∨ op = .invoke → env.perform? op operands m s = some (m', s') →
    m'.ebp = m.ebp ∧ m'.esp = m.esp ∧ m'.display = m.display ∧
      (∀ n < levels, m'.entry n = m.entry n) ∧
      ∀ d, 0 < d → d ≤ m.depth l.top →
        (∀ i < (Command.instruction op operands).scanned, m.eax + .ofNat 32 i ≠ below l.top d) →
        m'.bytes (below l.top d) = m.bytes (below l.top d)

variable {env : Environment} {code : Code} {c c' : env.Process} {op : Opcode} {operands : List Operand}
  {m m' : Machine} {name : String}

theorem Does.executed (does : env.Does m op operands m') (plain : op.isOutside = false) :
    m.instruction? op operands = some m' := by
  cases does with
  | inside _ executed => exact executed
  | outside outside =>
      rw [plain] at outside
      cases outside

theorem Does.replaced {x : Memory} (does : env.Does m op (.memory x :: operands) m')
    (replaces : op.replaces = true) : ∃ w v flags, m.address? x = some w ∧
      m' = { m with bytes := m.bytes.set w v, flags := flags } := by
  have inside : op.isOutside = false := by
    cases op <;> first | rfl | cases replaces
  exact Machine.instruction?_replaces replaces (does.executed inside)

theorem Does.performed (does : env.Does m op operands m') (outside : op.isOutside = true) :
    ∃ s s', env.perform? op operands m s = some (m', s') := by
  cases does with
  | inside plain =>
      rw [plain] at outside
      cases outside
  | outside _ performed => exact ⟨_, _, performed⟩

theorem does_of_step (found : code[c.position]? = some (.instruction op operands))
    (plain : op.isJump = false) (other : op ≠ .call ∧ op ≠ .ret) (next : env.step? code c = some c') :
    env.Does c.machine op operands c'.machine ∧ c'.position = c.position + 1 := by
  unfold step? at next
  rw [found] at next
  split at next
  · next same =>
    cases same
    exact absurd rfl other.1
  · next same =>
    cases same
    exact absurd rfl other.2
  · next same =>
    cases same
    split at next
    · next outside =>
      simp only [bind, Option.bind_eq_some_iff] at next
      obtain ⟨⟨m', s'⟩, performed, eq⟩ := next
      cases eq
      exact ⟨.outside outside performed, rfl⟩
    · next inside =>
      simp only [bind, Option.bind_eq_some_iff] at next
      obtain ⟨config, stepped, eq⟩ := next
      cases eq
      unfold Code.step? at stepped
      rw [found] at stepped
      split at stepped
      · next same => cases same
      · next same => cases same
      · next name same =>
        cases same
        have silent : Code.taken? op c.machine.flags = none := by
          cases op <;> simp_all [Code.taken?, Opcode.awaited?, Opcode.isJump]
        simp [silent] at stepped
      · next same =>
        cases same
        simp only [bind, Option.bind_eq_some_iff] at stepped
        obtain ⟨m', executed, eq⟩ := stepped
        cases eq
        exact ⟨.inside (by simpa using inside) executed, rfl⟩
  · next same => cases same
  · next same => cases same

theorem moves_of_jump (found : code[c.position]? = some (.instruction op [.raw name]))
    (jumps : op.isJump = true) (next : env.step? code c = some c') :
    c'.machine = c.machine ∧
      (c'.position = c.position + 1 ∨ code.target? name = some c'.position) := by
  unfold step? at next
  rw [found] at next
  split at next
  · next same =>
    cases same
    cases jumps
  · next same => cases same
  · next same =>
    cases same
    split at next
    · next outside =>
      cases op <;> first | exact absurd jumps (by decide) | exact absurd outside (by decide)
    · simp only [bind, Option.bind_eq_some_iff] at next
      obtain ⟨config, stepped, eq⟩ := next
      cases eq
      unfold Code.step? at stepped
      rw [found] at stepped
      simp only [bind, Option.bind_eq_some_iff] at stepped
      obtain ⟨taken, -, stepped⟩ := stepped
      split at stepped
      · simp only [Option.bind_eq_some_iff] at stepped
        obtain ⟨j, target, eq⟩ := stepped
        cases eq
        exact ⟨rfl, .inr target⟩
      · cases stepped
        exact ⟨rfl, .inl rfl⟩
  · next same => cases same
  · next same => cases same

theorem calls_of_step (found : code[c.position]? = some (.instruction .call [.raw name]))
    (next : env.step? code c = some c') : code.target? name = some c'.position ∧
      c'.machine = c.machine.push (.ofNat 32 (c.position + 1)) := by
  unfold step? at next
  rw [found] at next
  obtain ⟨j, target, eq⟩ := Option.bind_eq_some_iff.mp next
  cases eq
  exact ⟨target, rfl⟩

theorem returns_of_step (found : code[c.position]? = some (.instruction .ret []))
    (next : env.step? code c = some c') :
    c'.position = c.machine.pop.1.toNat ∧ c'.machine = c.machine.pop.2 := by
  unfold step? at next
  rw [found] at next
  cases next
  exact ⟨rfl, rfl⟩

end Environment

end PascalX86
