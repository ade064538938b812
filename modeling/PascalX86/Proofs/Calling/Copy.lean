import PascalX86.Proofs.Calling.Content

/-!
# Copies of objects

An object is copied by way of the stack: all of it is pushed, from its highest dword down, and then
popped, from the lowest one up. It arrives as it was, also where the two places overlap.
-/

set_option autoImplicit false

namespace PascalX86

namespace Bytes

variable {b b' : Bytes} {a c v : Word} {i : Nat}

theorem set_outside (outside : ∀ i < 4, c ≠ a + .ofNat 32 i) : b.set a v c = b c := by
  rw [set, if_neg]
  intro inside
  exact outside (c - a).toNat inside (by bv_omega)

theorem byte_dword (b : Bytes) (a : Word) :
    ∀ i < 4, (b.dword a).extractLsb' (8 * i) 8 = b (a + .ofNat 32 i)
  | 0, _ => by
      have low : a + .ofNat 32 0 = a := BitVec.add_zero a
      rw [low, dword]
      exact BitVec.extractLsb'_append_eq_right
  | 1, _ => by
      rw [dword, BitVec.extractLsb'_append_eq_of_le (by decide)]
      exact BitVec.extractLsb'_append_eq_right
  | 2, _ => by
      rw [dword, BitVec.extractLsb'_append_eq_of_le (by decide),
        BitVec.extractLsb'_append_eq_of_le (by decide)]
      exact BitVec.extractLsb'_append_eq_right
  | 3, _ => by
      rw [dword, BitVec.extractLsb'_append_eq_of_le (by decide),
        BitVec.extractLsb'_append_eq_of_le (by decide), BitVec.extractLsb'_append_eq_of_le (by decide)]
      exact BitVec.extractLsb'_eq_self

theorem set_inside (lt : i < 4) : b.set c (b'.dword a) (c + .ofNat 32 i) = b' (a + .ofNat 32 i) := by
  have small : (BitVec.ofNat 32 i).toNat = i := by bv_omega
  rw [set_add (by omega), small, byte_dword b' a i lt]

end Bytes

/-- One of the dwords of an object. -/
def Memory.nth (x : Memory) (n : Nat) : Memory := (x.sized .dword).offset (.ofNat (n * dwordSize))

theorem pushMemory_succ (x : Memory) (n : Nat) : pushMemory x (4 * (n + 1)) =
    .instruction .push [x.nth n] :: pushMemory x (4 * n) := by
  have count (n : Nat) : 4 * n / dwordSize = n := Nat.mul_div_cancel_left n (by decide)
  unfold pushMemory Memory.dwords
  rw [count, count, List.range_succ, List.map_append, List.reverse_append, List.map_append]
  rfl

theorem popMemory_succ (x : Memory) (n : Nat) : popMemory x (4 * (n + 1)) =
    popMemory x (4 * n) ++ [.instruction .pop [x.nth n]] := by
  have count (n : Nat) : 4 * n / dwordSize = n := Nat.mul_div_cancel_left n (by decide)
  unfold popMemory Memory.dwords
  rw [count, count, List.range_succ, List.map_append, List.map_append]
  rfl

namespace Machine

variable {m s : Machine} {x y : Memory} {a b c e : Word} {n : Nat} {bytes : Bytes}

theorem address?_update (base : x.base ≠ .register .esp) (address : m.address? x = some a) :
    { m with bytes := bytes, esp := e }.address? x = some a := by
  rw [← address]
  unfold address?
  split
  · next r same =>
    cases r <;> first | rfl | exact absurd same base
  · rfl

theorem address?_nth (address : m.address? x = some a) (n : Nat) :
    m.address? (x.nth n) = some (a + .ofNat 32 (4 * n)) := by
  unfold Memory.nth
  rw [Nat.mul_comm n]
  exact address?_offset (.ofNat (4 * n)) address

/-- Pushing an object leaves its bytes on the stack, in order. What has been pushed of it does not
reach into what is still to be read. -/
theorem run?_pushMemory (base : x.base ≠ .register .esp) (address : m.address? x = some a)
    (small : 4 * n ≤ 2 ^ 32)
    (clear : ∀ i j, i < j → j < 4 * n → a + .ofNat 32 i ≠ below m.esp (4 * n) + .ofNat 32 j) :
    ∃ bytes, m.run? (pushMemory x (4 * n)) = some { m with bytes := bytes, esp := below m.esp (4 * n) } ∧
      (∀ i < 4 * n, bytes (below m.esp (4 * n) + .ofNat 32 i) = m.bytes (a + .ofNat 32 i)) ∧
      ∀ c, (∀ i < 4 * n, c ≠ below m.esp (4 * n) + .ofNat 32 i) → bytes c = m.bytes c := by
  induction n generalizing m with
  | zero =>
      have esp : below m.esp (4 * 0) = m.esp := BitVec.sub_zero _
      refine ⟨m.bytes, ?_, fun i lt => absurd lt (Nat.not_lt_zero i), fun _ _ => rfl⟩
      rw [esp]
      rfl
  | succ n ih =>
      let w := a + .ofNat 32 (4 * n)
      have value : m.value? (x.nth n) = some (m.bytes.dword w) := by
        rw [value?, if_pos (show (x.nth n).width = .dword from rfl), address?_nth address, Option.map_some]
      have lower : below (m.push (m.bytes.dword w)).esp (4 * n) = below m.esp (4 * (n + 1)) := by
        show below (m.esp - 4) (4 * n) = _
        unfold below
        bv_omega
      have place : m.esp - 4 = below m.esp (4 * (n + 1)) + .ofNat 32 (4 * n) := by
        unfold below
        bv_omega
      have written : (m.push (m.bytes.dword w)).bytes = m.bytes.set (m.esp - 4) (m.bytes.dword w) := rfl
      obtain ⟨bytes, run, copied, kept⟩ := ih (m := m.push (m.bytes.dword w))
        (address?_update base address) (by omega) (by
          rw [lower]
          exact fun i j before inside => clear i j before (by omega))
      rw [lower] at run copied kept
      refine ⟨bytes, ?_, fun i lt => ?_, fun c outside => ?_⟩
      · rw [pushMemory_succ, ← List.singleton_append, run?_append, run?_push, value, Option.map_some,
          Option.bind_some, run]
        rfl
      · by_cases low : i < 4 * n
        · rw [copied i low, written, place, Bytes.set_outside]
          intro k inside
          rw [BitVec.add_assoc, ← BitVec.ofNat_add]
          exact clear i (4 * n + k) (by omega) (by omega)
        · obtain ⟨k, rfl⟩ := Nat.exists_eq_add_of_le (Nat.le_of_not_lt low)
          rw [kept, written, place, BitVec.ofNat_add, ← BitVec.add_assoc, Bytes.set_inside (by omega),
            BitVec.add_assoc]
          intro i inside
          bv_omega
      · rw [kept c fun i inside => outside i (by omega), written, place, Bytes.set_outside]
        intro k inside
        rw [BitVec.add_assoc, ← BitVec.ofNat_add]
        exact outside (4 * n + k) (by omega)

/-- Popping an object moves the bytes on top of the stack to it, in order. What has been written of it
does not reach into what is still to be popped. -/
theorem run?_popMemory (base : y.base ≠ .register .esp) (address : m.address? y = some b)
    (small : 4 * n ≤ 2 ^ 32)
    (clear : ∀ i j, i < j → j < 4 * n → b + .ofNat 32 i ≠ m.esp + .ofNat 32 j) :
    ∃ bytes, m.run? (popMemory y (4 * n)) =
        some { m with bytes := bytes, esp := m.esp + .ofNat 32 (4 * n) } ∧
      (∀ i < 4 * n, bytes (b + .ofNat 32 i) = m.bytes (m.esp + .ofNat 32 i)) ∧
      ∀ c, (∀ i < 4 * n, c ≠ b + .ofNat 32 i) → bytes c = m.bytes c := by
  induction n with
  | zero =>
      have esp : m.esp + .ofNat 32 (4 * 0) = m.esp := BitVec.add_zero _
      refine ⟨m.bytes, ?_, fun i lt => absurd lt (Nat.not_lt_zero i), fun _ _ => rfl⟩
      rw [esp]
      rfl
  | succ n ih =>
      obtain ⟨bytes, run, copied, kept⟩ := ih (by omega) fun i j before inside =>
        clear i j before (by omega)
      let top := m.esp + .ofNat 32 (4 * n)
      let w := b + .ofNat 32 (4 * n)
      have next : top + 4 = m.esp + .ofNat 32 (4 * (n + 1)) := by
        show m.esp + .ofNat 32 (4 * n) + 4 = _
        bv_omega
      have assigned : { m with bytes := bytes, esp := top + 4 }.assign? (bytes.dword top) (y.nth n) =
          some { m with bytes := bytes.set w (bytes.dword top), esp := top + 4 } := by
        rw [assign?, if_pos (show (y.nth n).width = .dword from rfl),
          address?_nth (address?_update base address)]
        rfl
      refine ⟨bytes.set w (bytes.dword top), ?_, fun i lt => ?_, fun c outside => ?_⟩
      · rw [popMemory_succ, run?_append, run, Option.bind_some, run?_pop, ← next]
        exact assigned
      · by_cases low : i < 4 * n
        · rw [Bytes.set_outside, copied i low]
          intro k inside
          show _ ≠ b + .ofNat 32 (4 * n) + .ofNat 32 k
          bv_omega
        · obtain ⟨k, rfl⟩ := Nat.exists_eq_add_of_le (Nat.le_of_not_lt low)
          rw [BitVec.ofNat_add, ← BitVec.add_assoc, Bytes.set_inside (by omega), ← BitVec.add_assoc,
            kept]
          intro i inside eq
          refine clear i (4 * n + k) (by omega) (by omega) ?_
          rw [← eq, BitVec.ofNat_add, ← BitVec.add_assoc]
      · rw [Bytes.set_outside, kept c fun i inside => outside i (by omega)]
        intro k inside
        show c ≠ b + .ofNat 32 (4 * n) + .ofNat 32 k
        rw [BitVec.add_assoc, ← BitVec.ofNat_add]
        exact outside (4 * n + k) (by omega)

/-- A place above the stack pointer is read or written ahead of what is on the stack. This is so even
where the stack reaches around the end of memory. -/
theorem clear_of_above {size i j : Nat} (above : m.esp ≤ a) (room : a.toNat + size ≤ 2 ^ 32) (before : i < j)
    (inside : j < size) : a + .ofNat 32 i ≠ below m.esp size + .ofNat 32 j := by
  unfold below
  bv_omega

/-- Pushing an object and popping it elsewhere copies it, whether or not the places overlap. Besides,
only bytes below the stack pointer change. -/
theorem memory_copied {size : Nat} (whole : 4 ∣ size) (base : x.base ≠ .register .esp)
    (base' : y.base ≠ .register .esp) (address : m.address? x = some a) (address' : m.address? y = some b)
    (above : m.esp ≤ a) (room : a.toNat + size ≤ 2 ^ 32) (above' : m.esp ≤ b)
    (room' : b.toNat + size ≤ 2 ^ 32) :
    ∃ m', m.run? (pushMemory x size ++ popMemory y size) = some m' ∧ m' = { m with bytes := m'.bytes } ∧
      (∀ i < size, m'.bytes (b + .ofNat 32 i) = m.bytes (a + .ofNat 32 i)) ∧
      (∀ c, (∀ i < size, c ≠ b + .ofNat 32 i) → (∀ i < size, c ≠ below m.esp (i + 1)) →
        m'.bytes c = m.bytes c) ∧
      (size ≤ m.esp.toNat → ∀ c, m.esp ≤ c → (∀ i < size, c ≠ b + .ofNat 32 i) →
        m'.bytes c = m.bytes c) := by
  obtain ⟨n, rfl⟩ := whole
  obtain ⟨pushed, push, copied, kept⟩ := run?_pushMemory base address (by omega)
    fun i j before inside => clear_of_above above room before inside
  let e := below m.esp (4 * n)
  have back : e + .ofNat 32 (4 * n) = m.esp := by
    show below m.esp (4 * n) + .ofNat 32 (4 * n) = m.esp
    unfold below
    bv_omega
  obtain ⟨bytes, pop, copied', kept'⟩ := run?_popMemory (m := { m with bytes := pushed, esp := e }) base'
    (address?_update base' address') (by omega)
    fun i j before inside => clear_of_above above' room' before inside
  have outside (c : Word) (target : ∀ i < 4 * n, c ≠ b + .ofNat 32 i)
      (stack : ∀ i < 4 * n, c ≠ below m.esp (i + 1)) : bytes c = m.bytes c := by
    rw [kept' c target]
    refine kept c fun i inside => ?_
    have other := stack (4 * n - i - 1) (by omega)
    unfold below at other ⊢
    bv_omega
  refine ⟨{ m with bytes := bytes }, ?_, rfl, fun i inside => ?_, outside, fun deep c beyond target => ?_⟩
  · rw [run?_append, push, Option.bind_some, pop]
    exact congrArg (fun esp => some { m with bytes := bytes, esp := esp }) back
  · exact (copied' i inside).trans (copied i inside)
  · refine outside c target fun i inside => ?_
    unfold below
    bv_omega

def ramp : Machine := ⟨0, 0, 0, 0, 0, 4096, 4000, none, fun c => c.setWidth 8, 8192⟩

-- Twelve bytes are moved up by four, onto eight of their own.
theorem overlap_copied : ∃ m', ramp.run?
      (pushMemory (.dword .ebp (-12)) 12 ++ popMemory (.dword .ebp (-8)) 12) = some m' ∧
    m'.esp = 4000 ∧ ∀ i < 12, m'.bytes (4088 + .ofNat 32 i) = ramp.bytes (4084 + .ofNat 32 i) := by
  obtain ⟨m', run, eq, copied, -⟩ := memory_copied (m := ramp) (a := 4084) (b := 4088)
    (show 4 ∣ 12 by decide) (show (Memory.dword .ebp (-12)).base ≠ _ by decide)
    (show (Memory.dword .ebp (-8)).base ≠ _ by decide) rfl rfl (by decide) (by decide) (by decide) (by decide)
  exact ⟨m', run, by rw [eq]; rfl, copied⟩

end Machine

end PascalX86
