import PascalX86.Proofs.Activation.Memory

/-!
# Processes at work

What a process finds in its registers and on the stack while it works for the innermost call, and what
it may change without losing any of it.
-/

set_option autoImplicit false

namespace PascalX86

variable {env : Environment} {l : Ground} {levels : Nat} {a : env.Call} {outer : List env.Call}
  {m m' : Machine}

/-- Changes on the stack are none on the display. -/
theorem Ground.Sound.entry_congr (sound : l.Sound levels) (display : m.display = l.display)
    (same : m'.display = m.display)
    (changed : ∀ x, m'.bytes x ≠ m.bytes x → ∃ d, 0 < d ∧ d ≤ l.room ∧ x = below l.top d) {n : Nat}
    (lt : n < levels) : m'.entry n = m.entry n := by
  unfold Machine.entry
  rw [same]
  apply Bytes.dword_congr
  intro i small
  by_contra differs
  obtain ⟨d, pos, near, eq⟩ := changed _ differs
  have apart := sound.apart d pos near
  rw [← eq, ← display] at apart
  have cell : (displayEntry n).displacement.toBitVec = .ofNat 32 (n * dwordSize) := rfl
  rw [cell] at apart
  unfold dwordSize at apart
  bv_omega

namespace Environment.Call

/-- The links of the innermost call, the display, the memory of the callers, and the addresses that
were passed to the calls. -/
structure Active (l : Ground) (levels : Nat) (a : env.Call) (outer : List env.Call) (m : Machine) :
    Prop where
  frame : m.ebp = a.frame
  display : m.display = l.display
  entry : ∀ n < levels, m.entry n = if n = a.level then a.frame else a.caller.machine.entry n
  back : 0 < a.level →
    m.bytes.dword (below l.top (a.depth l + 4)) = .ofNat 32 (a.caller.position + 1)
  saved : 0 < a.level →
    m.bytes.dword (below l.top (a.depth l + 8)) = a.caller.machine.entry a.level
  pointer : 0 < a.level → m.bytes.dword (below l.top (a.depth l + 12)) = a.caller.machine.ebp
  kept : ∀ d, 0 < d → d ≤ a.limit l → ¬ l.Data outer d →
    m.bytes (below l.top d) = a.caller.machine.bytes (below l.top d)
  cells : ∀ first b rest, a :: outer = first ++ b :: rest →
    ∀ q ∈ b.function.signature.parameters, q.mode = .byReference →
      l.Points rest (m.bytes.dword (below l.top (b.limit l + q.slot.offset + 4))) q.type.size

/-- Of what is at or above the variables of the innermost call, nothing but data changes. -/
structure Keeps (l : Ground) (levels : Nat) (a : env.Call) (outer : List env.Call) (m m' : Machine) :
    Prop where
  frame : m'.ebp = m.ebp
  display : m'.display = m.display
  entry : ∀ n < levels, m'.entry n = m.entry n
  bytes : ∀ d, 0 < d → d ≤ a.base l + a.function.locals.size → ¬ l.Data (a :: outer) d →
    m'.bytes (below l.top d) = m.bytes (below l.top d)

theorem Active.keeps (active : a.Active l levels outer m) (nests : l.Nests (a :: outer))
    (keeps : a.Keeps l levels outer m m') : a.Active l levels outer m' := by
  have links {n : Nat} (inner : 0 < a.level) (above : a.depth l ≤ n) (le : n + 4 ≤ a.depth l + 12) :
      m'.bytes.dword (below l.top (n + 4)) = m.bytes.dword (below l.top (n + 4)) := by
    have base := base_of_inner l inner
    apply dword_below
    intro d after before
    exact keeps.bytes d (by omega) (by omega) (nests.not_data_link (by omega) (by omega))
  constructor
  · rw [keeps.frame, active.frame]
  · rw [keeps.display, active.display]
  · intro n lt
    rw [keeps.entry n lt, active.entry n lt]
  · intro inner
    rw [links inner (by omega) (by omega), active.back inner]
  · intro inner
    rw [links (n := a.depth l + 4) inner (by omega) (by omega), active.saved inner]
  · intro inner
    rw [links (n := a.depth l + 8) inner (by omega) (by omega), active.pointer inner]
  · intro d pos le other
    have near : d ≤ a.base l + a.function.locals.size := by
      unfold limit at le
      unfold base
      omega
    rw [keeps.bytes d pos near (nests.not_data_of_le le other), active.kept d pos le other]
  · intro first b rest split q mem mode
    have same : m'.bytes.dword (below l.top (b.limit l + q.slot.offset + 4)) =
        m.bytes.dword (below l.top (b.limit l + q.slot.offset + 4)) := by
      apply dword_below
      intro d after before
      obtain ⟨near, other⟩ := nests.not_data_cell split mem mode after before
      refine keeps.bytes d (by omega) ?_ other
      have inside := nests.depth_le (show b ∈ a :: outer by simp [split])
      omega
    rw [same]
    exact active.cells first b rest split q mem mode

/-- Bytes that change are data, or lie below the variables. -/
theorem Keeps.of_bytes (sound : l.Sound levels) (fits : a.base l + a.function.locals.size ≤ l.room)
    (display : m.display = l.display) (same : m'.display = m.display) (frame : m'.ebp = m.ebp)
    (changed : ∀ x, m'.bytes x ≠ m.bytes x → ∃ d, 0 < d ∧ d ≤ l.room ∧ x = below l.top d ∧
      (l.Data (a :: outer) d ∨ a.base l + a.function.locals.size < d)) :
    a.Keeps l levels outer m m' := by
  have room := sound.room
  refine ⟨frame, same, fun n lt => ?_, fun d pos le other => ?_⟩
  · refine sound.entry_congr display same (fun x differs => ?_) lt
    obtain ⟨d, pos, near, eq, -⟩ := changed x differs
    exact ⟨d, pos, near, eq⟩
  · by_contra differs
    obtain ⟨d', -, near, eq, data⟩ := changed _ differs
    obtain rfl := below_inj eq (by omega) (by omega)
    rcases data with data | deep
    · exact other data
    · omega

end Environment.Call

section Operands

def Item.Suits (l : Ground) (calls : List env.Call) (w : Word) : Item → Prop
  | .plain => True
  | .ref n => l.Points calls w n

/-- The pushed dwords, all of which lie below so many bytes, are what is known of them. -/
def Ground.Operands (l : Ground) (calls : List env.Call) (b : Bytes) (floor : Nat) : List Item → Prop
  | [] => True
  | item :: rest => item.Suits l calls (b.dword (below l.top (floor + 4 * rest.length + 4))) ∧
      Ground.Operands l calls b floor rest

variable {calls : List env.Call} {b b' : Bytes} {floor k n : Nat} {items rest : List Item} {w : Word}

namespace Ground

theorem Operands.congr (operands : l.Operands calls b floor items)
    (same : ∀ d, floor < d → d ≤ floor + 4 * items.length → b' (below l.top d) = b (below l.top d)) :
    l.Operands calls b' floor items := by
  induction items with
  | nil => trivial
  | cons item rest ih =>
      rw [List.length_cons] at same
      refine ⟨?_, ih operands.2 fun d above le => same d above (by omega)⟩
      rw [dword_below (c := b)]
      · exact operands.1
      · exact fun d above le => same d (by omega) (by omega)

theorem operands_append : l.Operands calls b floor (items ++ rest) ↔
    l.Operands calls b (floor + 4 * rest.length) items ∧ l.Operands calls b floor rest := by
  induction items with
  | nil => simp [Operands]
  | cons item items ih =>
      have place : floor + 4 * (items ++ rest).length = floor + 4 * rest.length + 4 * items.length := by
        rw [List.length_append]
        omega
      rw [List.cons_append, Operands, Operands, ih, place, and_assoc]

theorem operands_replicate (k : Nat) : l.Operands calls b floor (.replicate k .plain) := by
  induction k with
  | zero => trivial
  | succ k ih => exact ⟨trivial, ih⟩

/-- Dwords of which nothing is known may change. -/
theorem Operands.change (operands : l.Operands calls b floor items)
    (same : ∀ d, floor < d → d ≤ floor + 4 * items.length →
      items[(floor + 4 * items.length - d) / 4]? ≠ some .plain → b' (below l.top d) = b (below l.top d)) :
    l.Operands calls b' floor items := by
  induction items with
  | nil => trivial
  | cons item rest ih =>
      rw [List.length_cons] at same
      refine ⟨?_, ih operands.2 fun d above le other => same d above (by omega) ?_⟩
      · cases item with
        | plain => trivial
        | ref n =>
            rw [dword_below (c := b)]
            · exact operands.1
            · intro d above le
              refine same d (by omega) (by omega) ?_
              rw [show (floor + 4 * (rest.length + 1) - d) / 4 = 0 by omega]
              simp
      · rw [show (floor + 4 * (rest.length + 1) - d) / 4 = (floor + 4 * rest.length - d) / 4 + 1 by
          omega]
        exact other

end Ground

end Operands

/-- A process at work for the innermost call, whose frame has so many bytes, and what is known of its
registers and operands. -/
structure Flow.Holds (l : Ground) (levels : Nat) (a : env.Call) (outer : List env.Call) (size : Nat)
    (φ : Flow) (m : Machine) : Prop where
  active : a.Active l levels outer m
  esp : m.esp = below l.top (a.base l + size + 4 * φ.stack.length)
  fits : a.base l + size + 4 * φ.stack.length ≤ l.room
  operands : l.Operands (a :: outer) m.bytes (a.base l + size) φ.stack
  address : ∀ n, φ.address = .ref n → l.Points (a :: outer) m.eax n
  pointer : ∀ n, φ.level = some n →
    ∃ b, (a :: outer).find? (fun b => b.level = n) = some b ∧ m.esi = b.frame

namespace Flow

variable {φ φ' : Flow} {size : Nat}

theorem Holds.narrows (narrows : φ.Narrows φ') (holds : φ.Holds l levels a outer size m) :
    φ'.Holds l levels a outer size m := by
  induction narrows with
  | refl => exact holds
  | step stack le _ ih =>
      apply ih
      obtain ⟨active, esp, fits, operands, address, pointer⟩ := holds
      rw [stack] at esp fits operands
      exact ⟨active, esp, fits, ⟨operands.1.narrow le, operands.2⟩, address, pointer⟩

/-- Nothing need be known any more where there are no operands. -/
theorem Holds.blank (holds : φ.Holds l levels a outer size m) (empty : φ.stack = []) :
    Flow.blank.Holds l levels a outer size m := by
  obtain ⟨active, esp, fits, -, -, -⟩ := holds
  rw [empty] at esp fits
  refine ⟨active, esp, fits, trivial, ?_, ?_⟩
  · rintro n ⟨⟩
  · rintro n ⟨⟩

end Flow

end PascalX86
