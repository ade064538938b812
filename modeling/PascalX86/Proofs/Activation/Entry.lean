import PascalX86.Proofs.Activation.Pending

/-!
# Entries and exits of functions

A function that is entered keeps the return address, the entry of the display at its level and the
frame pointer of its caller, and puts them back when it is left.
-/

set_option autoImplicit false

namespace PascalX86

open Register

variable {env : Environment} {l : Ground} {levels k n : Nat} {a : env.Call} {outer : List env.Call}
  {later : List Function} {m m' s : Machine} {v w : Word}

section Display

/-- The display stays as it is, and so do the bytes of the stack down to a depth. -/
structure Machine.Leaves (l : Ground) (levels k : Nat) (m m' : Machine) : Prop where
  display : m'.display = m.display
  entry : ∀ n < levels, m'.entry n = m.entry n
  bytes : ∀ d, 0 < d → d ≤ k → m'.bytes (below l.top d) = m.bytes (below l.top d)

theorem Machine.Leaves.trans (first : m.Leaves l levels k m') (second : m'.Leaves l levels n s)
    (le : k ≤ n) : m.Leaves l levels k s where
  display := second.display.trans first.display
  entry i lt := (second.entry i lt).trans (first.entry i lt)
  bytes d pos near := (second.bytes d pos (by omega)).trans (first.bytes d pos near)

theorem Machine.Leaves.dword (leaves : m.Leaves l levels k m') (le : n + 4 ≤ k) :
    m'.bytes.dword (below l.top (n + 4)) = m.bytes.dword (below l.top (n + 4)) :=
  dword_below fun d above near => leaves.bytes d (by omega) (by omega)

theorem displayEntry_toBitVec (level : Nat) :
    (displayEntry level).displacement.toBitVec = .ofNat 32 (level * dwordSize) := rfl

theorem Ground.Sound.set_display (sound : l.Sound levels) (display : m.display = l.display)
    (level : n < levels) {d : Nat} (pos : 0 < d) (near : d ≤ l.room) :
    m.bytes.set (m.display + (displayEntry n).displacement.toBitVec) v (below l.top d) =
      m.bytes (below l.top d) := by
  have apart := sound.apart d pos near
  have small := (below l.top d - l.display).isLt
  rw [Bytes.set, if_neg]
  rw [display, displayEntry_toBitVec]
  unfold dwordSize at *
  bv_omega

theorem Ground.Sound.entry_set (sound : l.Sound levels) (pos : 0 < l.room) (level : n < levels)
    (same : m'.display = m.display)
    (bytes : m'.bytes = m.bytes.set (m.display + (displayEntry n).displacement.toBitVec) v) {i : Nat}
    (lt : i < levels) : m'.entry i = if i = n then v else m.entry i := by
  have apart := sound.apart 1 (by decide) (by omega)
  have small := (below l.top 1 - l.display).isLt
  unfold Machine.entry
  rw [same, bytes]
  split
  · next eq =>
    subst eq
    exact Bytes.dword_set_self
  · next other =>
    apply Bytes.dword_set_apart
    rw [displayEntry_toBitVec, displayEntry_toBitVec]
    unfold Bytes.Apart dwordSize at *
    generalize m.display = x
    bv_omega

theorem Ground.Sound.leaves_push (sound : l.Sound levels) (display : m.display = l.display)
    (esp : m.esp = below l.top k) (room : k + 4 ≤ l.room) (v : Word) :
    m.Leaves l levels k (m.push v) ∧ (m.push v).esp = below l.top (k + 4) ∧
      (m.push v).bytes.dword (below l.top (k + 4)) = v := by
  have small := sound.room
  have place := Machine.esp_push esp v
  have cells : (m.push v).bytes = m.bytes.set (below l.top (k + 4)) v := by
    rw [← place]
    rfl
  have changed {x : Word} (differs : (m.push v).bytes x ≠ m.bytes x) :
      ∃ d, k < d ∧ d ≤ k + 4 ∧ x = below l.top d := by
    rw [cells] at differs
    obtain ⟨i, lt, rfl⟩ := Flow.exists_of_set_ne differs
    exact ⟨k + 4 - i, by omega, by omega, below_add_of_le (by omega)⟩
  have same : (m.push v).display = m.display := rfl
  refine ⟨⟨same, fun n lt => ?_, fun d pos le => ?_⟩, place, ?_⟩
  · refine sound.entry_congr display same (fun x differs => ?_) lt
    obtain ⟨d, above, le, eq⟩ := changed differs
    exact ⟨d, by omega, by omega, eq⟩
  · by_contra differs
    obtain ⟨d', above, le', eq⟩ := changed differs
    have := below_inj eq (by omega) (by omega)
    omega
  · rw [cells]
    exact Bytes.dword_set_self

end Display

/-- The commands of a function, from its label on, before it makes room for its frame. -/
def Function.saves (g : Function) (later : List Function) : Code :=
  let entry := displayEntry g.signature.level
  let take := [.instruction .push [ebp], .instruction .mov [ebp, esp], .instruction .mov [entry, ebp]]
  .label (g.entry later) :: if later = [] then take else .instruction .push [entry] :: take

theorem Function.enter_eq (g : Function) (later : List Function) :
    .label (g.entry later) :: g.enter later =
      g.saves later ++ [.instruction .sub [esp, .ofNat (g.frameSize (g.frames later))]] := by
  unfold enter saves
  dsimp only
  split <;> rfl

namespace Environment.Call

/-- The machine when the label of the function is reached. The main program is not called. -/
def entered (a : env.Call) : Machine :=
  if a.level = 0 then a.caller.machine
  else a.caller.machine.push (.ofNat 32 (a.caller.position + 1))

/-- The links are made, and the function has no room yet. -/
structure Entered (l : Ground) (levels : Nat) (a : env.Call) (m : Machine) : Prop where
  frame : m.ebp = a.frame
  display : m.display = l.display
  entry : ∀ n < levels, m.entry n = if n = a.level then a.frame else a.caller.machine.entry n
  back : 0 < a.level →
    m.bytes.dword (below l.top (a.depth l + 4)) = .ofNat 32 (a.caller.position + 1)
  saved : 0 < a.level →
    m.bytes.dword (below l.top (a.depth l + 8)) = a.caller.machine.entry a.level
  pointer : 0 < a.level → m.bytes.dword (below l.top (a.depth l + 12)) = a.caller.machine.ebp
  kept : ∀ d, 0 < d → d ≤ a.depth l → m.bytes (below l.top d) = a.caller.machine.bytes (below l.top d)

/-- The frame pointer is taken from the stack pointer and written to the display. -/
theorem Entered.of_leaves (sound : l.Sound levels) (level : a.level < levels) (room : a.base l ≤ l.room)
    (display : a.caller.machine.display = l.display)
    (leaves : a.caller.machine.Leaves l levels (a.depth l) m) (esp : m.esp = below l.top (a.base l))
    (links : 0 < a.level → m.bytes.dword (below l.top (a.depth l + 4)) = .ofNat 32 (a.caller.position + 1) ∧
      m.bytes.dword (below l.top (a.depth l + 8)) = a.caller.machine.entry a.level ∧
      m.bytes.dword (below l.top (a.depth l + 12)) = a.caller.machine.ebp)
    (eq : m' = { m with
      ebp := m.esp
      bytes := m.bytes.set (m.display + (displayEntry a.level).displacement.toBitVec) m.esp }) :
    a.Entered l levels m' := by
  have shown : m.display = l.display := leaves.display.trans display
  have frame : m.esp = a.frame := esp.trans (a.frame_eq l).symm
  have bytes : ∀ d, 0 < d → d ≤ a.base l → m'.bytes (below l.top d) = m.bytes (below l.top d) := by
    intro d pos le
    rw [eq]
    exact sound.set_display shown level pos (by omega)
  have above : a.depth l + 4 ≤ a.base l := by
    rcases a.link_cases with ⟨-, link⟩ | ⟨-, link⟩
    · rw [base, link]
    · rw [base, link]
      omega
  have dword {n : Nat} (le : n + 4 ≤ a.base l) :
      m'.bytes.dword (below l.top (n + 4)) = m.bytes.dword (below l.top (n + 4)) :=
    dword_below fun d above near => bytes d (by omega) (by omega)
  refine ⟨?_, ?_, fun n lt => ?_, fun pos => ?_, fun pos => ?_, fun pos => ?_, fun d pos le => ?_⟩
  · rw [eq]
    exact frame
  · rw [eq]
    exact shown
  · rw [sound.entry_set (m := m) (v := m.esp) (by omega) level (by rw [eq]) (by rw [eq]) lt, frame,
      leaves.entry n lt]
  · rw [dword (by omega), (links pos).1]
  · have := base_of_inner l pos
    rw [dword (n := a.depth l + 4) (by omega), (links pos).2.1]
  · have := base_of_inner l pos
    rw [dword (n := a.depth l + 8) (by omega), (links pos).2.2]
  · rw [bytes d pos (by omega), leaves.bytes d pos le]

theorem esp_saves (outermost : later = [] ↔ a.level = 0)
    (run : a.entered.run? (a.function.saves later) = some m) : m.esp = a.frame := by
  rcases a.link_cases with ⟨zero, link⟩ | ⟨inner, link⟩
  · rw [entered, if_pos zero, Function.saves, if_pos (outermost.mpr zero)] at run
    rw [← Option.some.inj run, frame, link]
    rfl
  · have other : ¬ a.level = 0 := by omega
    rw [entered, if_neg other, Function.saves, if_neg (fun none => other (outermost.mp none))] at run
    rw [← Option.some.inj run, frame, link]
    show a.caller.machine.esp - 4 - 4 - 4 = below a.caller.machine.esp 12
    unfold below
    bv_omega

theorem enters (sound : l.Sound levels) (level : a.level < levels) (room : a.base l ≤ l.room)
    (display : a.caller.machine.display = l.display) (outermost : later = [] ↔ a.level = 0)
    (run : a.entered.run? (a.function.saves later) = some m) : a.Entered l levels m := by
  let c := a.caller.machine
  have esp : c.esp = below l.top (a.depth l) := esp_eq c l.top
  have base : a.base l = a.depth l + a.link := rfl
  rcases a.link_cases with ⟨zero, link⟩ | ⟨inner, link⟩
  · rw [link] at base
    obtain ⟨leaves, place, -⟩ := sound.leaves_push display esp (by omega) c.ebp
    rw [entered, if_pos zero, Function.saves, if_pos (outermost.mpr zero)] at run
    refine Entered.of_leaves sound level room display leaves (base ▸ place) (by omega) ?_
    exact (Option.some.inj run).symm
  · rw [link] at base
    have other : ¬ a.level = 0 := by omega
    let first := c.push (.ofNat 32 (a.caller.position + 1))
    let second := first.push (first.entry a.level)
    obtain ⟨leaves, esp, back⟩ := sound.leaves_push display esp (by omega)
      (.ofNat 32 (a.caller.position + 1))
    obtain ⟨leaves', esp', saved⟩ := sound.leaves_push (m := first) (leaves.display.trans display) esp
      (by omega) (first.entry a.level)
    obtain ⟨leaves'', esp'', pointer⟩ := sound.leaves_push (m := second)
      (leaves'.display.trans (leaves.display.trans display)) esp' (by omega) c.ebp
    rw [entered, if_neg other, Function.saves, if_neg (fun none => other (outermost.mp none))] at run
    refine Entered.of_leaves sound level room display ((leaves.trans leaves' (by omega)).trans leaves'' (by omega))
      (base ▸ esp'') (fun _ => ⟨?_, ?_, pointer⟩) (Option.some.inj run).symm
    · rw [leaves''.dword (by omega), leaves'.dword (by omega)]
      exact back
    · rw [leaves''.dword (n := a.depth l + 4) (by omega), ← leaves.entry a.level level]
      exact saved

/-- What a function leaves behind for its return. -/
structure Left (l : Ground) (levels : Nat) (a : env.Call) (m m' : Machine) : Prop where
  esp : m'.esp = below l.top (a.depth l + 4)
  frame : m'.ebp = a.caller.machine.ebp
  display : m'.display = l.display
  entry : ∀ n < levels, m'.entry n = a.caller.machine.entry n
  bytes : ∀ d, 0 < d → d ≤ l.room → m'.bytes (below l.top d) = m.bytes (below l.top d)

theorem Active.leaves (active : a.Active l levels outer m) (sound : l.Sound levels)
    (level : a.level < levels) (inner : 0 < a.level) (room : a.base l ≤ l.room) (called : later ≠ [])
    (run : m.run? (a.function.leave later) = some m') : a.Left l levels m m' := by
  have base := base_of_inner l inner
  have frame : m.ebp = below l.top (a.depth l + 12) := by
    rw [active.frame, a.frame_eq l, base]
  have next : m.ebp + 4 = below l.top (a.depth l + 8) := by
    rw [frame]
    exact below_add_of_le (k := 4) (by omega)
  have last : m.ebp + 4 + 4 = below l.top (a.depth l + 4) := by
    rw [next]
    exact below_add_of_le (k := 4) (by omega)
  have eq : m' = { m with
      ebp := m.bytes.dword m.ebp
      esp := m.ebp + 4 + 4
      bytes := m.bytes.set (m.display + (displayEntry a.level).displacement.toBitVec)
        (m.bytes.dword (m.ebp + 4)) } := by
    rw [Function.leave, if_neg called] at run
    exact (Option.some.inj run).symm
  rw [last, next, frame] at eq
  refine ⟨?_, ?_, ?_, fun n lt => ?_, fun d pos near => ?_⟩
  · rw [eq]
  · rw [eq]
    exact active.pointer inner
  · rw [eq]
    exact active.display
  · rw [sound.entry_set (m := m) (n := a.level) (by omega) level (by rw [eq]) (by rw [eq]) lt,
      active.entry n lt, active.saved inner]
    split
    · next same => rw [same]
    · rfl
  · rw [eq]
    exact sound.set_display active.display level pos near

end Environment.Call

end PascalX86
