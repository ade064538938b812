import PascalX86.Proofs.Activation.Holding

/-!
# Operands at work

What a process finds at the operands that code writes to, and that it is still at work when it writes
there, pushes a dword or takes one from the stack.
-/

set_option autoImplicit false

namespace PascalX86
open Register

variable {env : Environment} {l : Ground} {levels : Nat} {a : env.Call} {outer : List env.Call}
  {f : Frames} {σ : Scopes} {kept : Region} {size n : Nat} {φ φ' : Flow} {m m' : Machine} {w v : Word}

/-- The call whose frame the display shows at a level: the innermost one of a function there. -/
def shown (calls : List env.Call) (level : Nat) : Option env.Call :=
  calls.find? fun b => b.level = level

namespace Environment.Call

/-- The calls of the functions around, in which code finds the variables in scope. -/
structure Sees (a : env.Call) (outer : List env.Call) (f : Frames) (σ : Scopes) : Prop where
  level : f.level = a.level
  around : ∀ n ≤ a.level, ∃ b, shown (a :: outer) n = some b
  owner : ∀ symbol slot, σ.Holds symbol → symbol.slot? = some slot →
    ∃ b, shown (a :: outer) slot.level = some b ∧ b.function.Owns symbol slot ∧
      ∀ r, f.Places symbol r → r = b.function.region symbol slot

end Environment.Call

theorem shown_mem {calls : List env.Call} {b : env.Call} {level : Nat} (h : shown calls level = some b) :
    b ∈ calls ∧ b.level = level := by
  refine ⟨List.mem_of_find?_eq_some h, ?_⟩
  simpa using List.find?_some h

theorem shown_self : shown (a :: outer) a.level = some a := by
  simp [shown]

theorem shown_cons {level : Nat} (other : a.level ≠ level) :
    shown (a :: outer) level = shown outer level := by
  simp [shown, other]

namespace Flow

section Addresses

variable {x : Memory} (nests : l.Nests (a :: outer)) (sees : a.Sees outer f σ)
  (fits : a.base l + a.function.locals.size ≤ l.room) (holds : φ.Holds l levels a outer size m)

include nests sees fits holds

/-- The frame that a register points to, in which code finds a symbol. -/
theorem Holds.owner {symbol : Symbol} {slot : Slot} (named : σ.Holds symbol)
    (found : symbol.slot? = some slot) (base : x.base = .register ebp ∧ slot.level = f.level ∨
      x.base = .register esi ∧ φ.level = some slot.level) (address : m.address? x = some w) :
    ∃ b ∈ a :: outer, b.Proper l ∧ b.base l + b.function.locals.size ≤ l.room ∧
      b.function.Owns symbol slot ∧ (∀ r, f.Places symbol r → r = b.function.region symbol slot) ∧
      w = b.frame + x.displacement.toBitVec := by
  obtain ⟨b, visible, owns, places⟩ := sees.owner symbol slot named found
  obtain ⟨mem, level⟩ := shown_mem visible
  refine ⟨b, mem, nests.proper b mem, ?_, owns, places, ?_⟩
  · have inside := nests.fits mem
    omega
  · unfold Machine.address? at address
    rcases base with ⟨base, own⟩ | ⟨base, other⟩
    · rw [own, sees.level, shown_self, Option.some.injEq] at visible
      subst visible
      rw [base] at address
      simp only [Machine.register?, Option.map_some, Option.some.injEq] at address
      rw [← address, holds.active.frame]
    · obtain ⟨b', visible', pointer⟩ := holds.pointer _ other
      rw [shown, visible', Option.some.injEq] at visible
      subst visible
      rw [base] at address
      simp only [Machine.register?, Option.map_some, Option.some.injEq] at address
      rw [← address, pointer]

theorem Opens.points (opens : φ.Opens f σ x n) (address : m.address? x = some w) :
    l.Points (a :: outer) w n := by
  cases opens with
  | object named found kind places top base within =>
      obtain ⟨b, mem, proper, room, owns, region, rfl⟩ :=
        holds.owner nests sees fits named found base address
      rw [region _ places] at within
      exact .of_region mem proper room owns found kind within
  | @computed whole base known small within =>
      rw [Memory.reaching_within] at within
      dsimp only at within
      unfold Machine.address? at address
      rw [base] at address
      simp only [Machine.register?, Option.map_some, Option.some.injEq] at address
      have points := holds.address whole known
      have offset : x.displacement.toBitVec = .ofNat 32 x.displacement.toInt.toNat := by
        rw [Machine.toNat_of_toInt (by omega), Int.toNat_natCast, BitVec.ofNat_toNat,
          BitVec.setWidth_eq]
      rw [← address, offset]
      exact points.shift (by omega)

end Addresses

theorem exists_of_set_ne {b : Bytes} {c : Word} (differs : b.set w v c ≠ b c) :
    ∃ i < 4, c = w + .ofNat 32 i := by
  refine ⟨(c - w).toNat, ?_, ?_⟩
  · by_contra outside
    exact differs (if_neg outside)
  · bv_omega

section Stack

variable {stack rest : List Item} {address item item' : Item} {level : Option Nat} {i k : Nat}
  {bytes : Bytes} {flags : Option Flags} (sound : l.Sound levels) (nests : l.Nests (a :: outer))
  (locals : a.function.locals.size ≤ size) (holds : φ.Holds l levels a outer size m)

include sound nests locals holds

/-- Changes of data, and of what lies below the variables. -/
theorem Holds.change (frame : m'.ebp = m.ebp) (display : m'.display = m.display)
    (changed : ∀ x, m'.bytes x ≠ m.bytes x → ∃ d, 0 < d ∧ d ≤ l.room ∧ x = below l.top d ∧
      (l.Data (a :: outer) d ∨ a.base l + a.function.locals.size < d))
    (esp : m'.esp = below l.top (a.base l + size + 4 * stack.length))
    (room : a.base l + size + 4 * stack.length ≤ l.room)
    (operands : l.Operands (a :: outer) m'.bytes (a.base l + size) stack)
    (eax : ∀ n, address = .ref n → l.Points (a :: outer) m'.eax n)
    (esi : ∀ n, level = some n → ∃ b, shown (a :: outer) n = some b ∧ m'.esi = b.frame) :
    Holds l levels a outer size ⟨stack, address, level⟩ m' := by
  have fits := holds.fits
  have keeps : a.Keeps l levels outer m m' :=
    .of_bytes sound (by omega) holds.active.display display frame changed
  exact ⟨holds.active.keeps nests keeps, esp, room, operands, eax, esi⟩

/-- Data and temporaries lie above the operands. -/
theorem Holds.written (cells : ∀ i < 4, ∃ d, 0 < d ∧ d ≤ l.room ∧ w + .ofNat 32 i = below l.top d ∧
      (l.Data (a :: outer) d ∨ a.base l + a.function.locals.size < d ∧ d ≤ a.base l + size)) :
    φ.Holds l levels a outer size { m with bytes := m.bytes.set w v, flags := flags } := by
  have fits := holds.fits
  have room := sound.room
  refine holds.change sound nests locals rfl rfl ?_ holds.esp holds.fits ?_ holds.address holds.pointer
  · intro x differs
    obtain ⟨i, lt, rfl⟩ := exists_of_set_ne differs
    obtain ⟨d, pos, near, same, place⟩ := cells i lt
    exact ⟨d, pos, near, same, place.imp_right And.left⟩
  · refine holds.operands.congr fun d above le => ?_
    by_contra differs
    obtain ⟨i, lt, eq⟩ := exists_of_set_ne differs
    obtain ⟨d', pos, near, same, place⟩ := cells i lt
    rw [same] at eq
    obtain rfl := below_inj eq (by omega) (by omega)
    rcases place with data | ⟨-, le⟩
    · exact nests.not_data_below (by omega) data
    · omega

theorem Holds.push (room : (m.push v).depth l.top ≤ l.room) (suits : item.Suits l (a :: outer) v) :
    Holds l levels a outer size { φ with stack := item :: φ.stack } (m.push v) := by
  have fits := holds.fits
  have small := sound.room
  have esp : (m.push v).esp = below l.top (a.base l + size + 4 * (φ.stack.length + 1)) :=
    Machine.esp_push holds.esp v
  rw [Machine.depth_of_esp esp (by omega)] at room
  have cell : (m.push v).bytes = m.bytes.set (below l.top (a.base l + size + 4 * (φ.stack.length + 1))) v := by
    rw [← esp]
    rfl
  have place {i d : Nat} (lt : i < 4) (le : d ≤ l.room) (same : below l.top d =
      below l.top (a.base l + size + 4 * (φ.stack.length + 1)) + .ofNat 32 i) :
      a.base l + size + 4 * φ.stack.length < d := by
    rw [below_add_of_le (by omega)] at same
    have := below_inj same (by omega) (by omega)
    omega
  refine holds.change sound nests locals rfl rfl ?_ esp room ⟨?_, ?_⟩ holds.address holds.pointer
  · intro x differs
    rw [cell] at differs
    obtain ⟨i, lt, rfl⟩ := exists_of_set_ne differs
    exact ⟨a.base l + size + 4 * (φ.stack.length + 1) - i, by omega, by omega,
      below_add_of_le (by omega), .inr (by omega)⟩
  · rw [cell, show a.base l + size + 4 * φ.stack.length + 4 =
      a.base l + size + 4 * (φ.stack.length + 1) by omega, Bytes.dword_set_self]
    exact suits
  · refine holds.operands.congr fun d above le => ?_
    by_contra differs
    rw [cell] at differs
    obtain ⟨i, lt, eq⟩ := exists_of_set_ne differs
    have := place lt (by omega) eq
    omega

/-- The topmost operand is replaced. -/
theorem Holds.top (item' : Item) (stacked : φ.stack = item :: rest) (suits : item'.Suits l (a :: outer) v) :
    Holds l levels a outer size { φ with stack := item' :: rest }
      { m with bytes := m.bytes.set m.esp v, flags := flags } := by
  obtain ⟨-, esp, fits, operands, -, -⟩ := id holds
  rw [stacked, List.length_cons] at esp fits
  rw [stacked] at operands
  have small := sound.room
  refine holds.change sound nests locals rfl rfl ?_ esp fits ⟨?_, ?_⟩ holds.address holds.pointer
  · intro x differs
    obtain ⟨i, lt, rfl⟩ := exists_of_set_ne differs
    rw [esp]
    exact ⟨a.base l + size + 4 * (rest.length + 1) - i, by omega, by omega,
      below_add_of_le (by omega), .inr (by omega)⟩
  · rw [esp, show a.base l + size + 4 * rest.length + 4 =
      a.base l + size + 4 * (rest.length + 1) by omega]
    show item'.Suits l (a :: outer) (Bytes.dword (Bytes.set _ _ _) _)
    rw [Bytes.dword_set_self]
    exact suits
  · refine operands.2.congr fun d above le => ?_
    by_contra differs
    obtain ⟨i, lt, eq⟩ := exists_of_set_ne differs
    rw [esp, below_add_of_le (by omega)] at eq
    have := below_inj eq (by omega) (by omega)
    omega

/-- Operands of which nothing is known are changed. -/
theorem Holds.plain (changed : ∀ x, bytes x ≠ m.bytes x →
      ∃ j, φ.stack[j / 4]? = some .plain ∧ x = m.esp + .ofNat 32 j) :
    φ.Holds l levels a outer size { m with bytes := bytes, flags := flags } := by
  obtain ⟨-, esp, fits, operands, -, -⟩ := id holds
  have small := sound.room
  have inside {j : Nat} (known : φ.stack[j / 4]? = some .plain) : j < 4 * φ.stack.length := by
    obtain ⟨lt, -⟩ := List.getElem?_eq_some_iff.mp known
    omega
  refine holds.change sound nests locals rfl rfl ?_ esp fits ?_ holds.address holds.pointer
  · intro x differs
    obtain ⟨j, known, rfl⟩ := changed x differs
    have lt := inside known
    rw [esp]
    exact ⟨a.base l + size + 4 * φ.stack.length - j, by omega, by omega, below_add_of_le (by omega),
      .inr (by omega)⟩
  · refine operands.change fun d above le other => ?_
    by_contra differs
    obtain ⟨j, known, eq⟩ := changed _ differs
    have lt := inside known
    rw [esp, below_add_of_le (by omega)] at eq
    obtain rfl := below_inj eq (by omega) (by omega)
    apply other
    rw [← known]
    congr 1
    omega

/-- Operands are taken from the stack, and the memory stays. -/
theorem Holds.drop (items : List Item) (stacked : φ.stack = items ++ rest) (bytes : m'.bytes = m.bytes)
    (esp : m'.esp = m.esp + .ofNat 32 (4 * items.length)) (frame : m'.ebp = m.ebp)
    (display : m'.display = m.display) (esi : m'.esi = m.esi)
    (eax : ∀ n, address = .ref n → l.Points (a :: outer) m'.eax n) :
    Holds l levels a outer size ⟨rest, address, φ.level⟩ m' := by
  obtain ⟨-, place, fits, operands, -, -⟩ := id holds
  rw [stacked, List.length_append] at place fits
  rw [stacked, Ground.operands_append] at operands
  refine holds.change sound nests locals frame display ?_ ?_ (by omega) ?_ eax ?_
  · intro x differs
    exact absurd (by rw [bytes]) differs
  · rw [esp, place, below_add_of_le (by omega)]
    congr 1
    omega
  · rw [bytes]
    exact operands.2
  · rw [esi]
    exact holds.pointer

end Stack

end Flow

end PascalX86
