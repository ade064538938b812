import PascalX86.Proofs.Machine.Process
import PascalX86.Proofs.Simulation.Frame

/-!
# Counted loops

The code of a `for` statement stores its first value, keeps its last value beside the variables of the
frame, and runs its body as long as the counter has not passed that value. The counter is advanced
before it is compared, around the ends of the integers.
-/

set_option autoImplicit false

namespace PascalX86

open Register

namespace Direction

/-- The counter after so many turns. -/
def after : Direction → Int32 → Nat → Int32
  | .up, a, n => a + .ofNat n
  | .down, a, n => a - .ofNat n

def values (d : Direction) (a : Int32) (n : Nat) : List Int32 := (List.range n).map (d.after a)

/-- How many integers there are from one to another. -/
def turns : Direction → Int32 → Int32 → Nat
  | .up, a, b => (b.toInt - a.toInt + 1).toNat
  | .down, a, b => (a.toInt - b.toInt + 1).toNat

/-- The last integer in a direction, which no counter passes. -/
def extreme : Direction → Int32
  | .up => .maxValue
  | .down => .minValue

/-- Whether the counter has not passed the bound. -/
def within : Direction → Int32 → Int32 → Bool
  | .up, i, b => i ≤ b
  | .down, i, b => b ≤ i

variable {a b : Int32} {n : Nat}

@[simp] theorem after_zero (d : Direction) (a : Int32) : d.after a 0 = a := by
  cases d <;> simp [after]

theorem after_succ (d : Direction) (a : Int32) (n : Nat) :
    d.after a (n + 1) = d.after (d.after a n) 1 := by
  cases d
  · simp only [after, Int32.ofNat_add, Int32.add_assoc]
  · simp only [after, Int32.ofNat_add, Int32.sub_eq_add_neg, Int32.neg_add, Int32.add_assoc]

theorem values_succ (d : Direction) (a : Int32) (n : Nat) :
    d.values a (n + 1) = d.values a n ++ [d.after a n] := by
  simp [values, List.range_succ]

theorem toInt_after (d : Direction) (a : Int32) (n : Nat) : (d.after a n).toInt =
    (match d with | .up => a.toInt + n | .down => a.toInt - n).bmod (2 ^ 32) := by
  cases d
  · simp [after, Int32.toInt_add, Int32.toInt_ofNat']
  · simp [after, Int32.toInt_sub, Int32.toInt_ofNat']

theorem within_of_lt {d : Direction} (early : n < d.turns a b) : d.within (d.after a n) b = true := by
  have := a.le_toInt
  have := b.toInt_lt
  have := a.toInt_lt
  have := b.le_toInt
  have value := toInt_after d a n
  cases d <;> simp only [turns, within, decide_eq_true_iff, Int32.le_iff_toInt_le] at *
  · rw [value, Int.bmod_eq_of_le] <;> omega
  · rw [value, Int.bmod_eq_of_le] <;> omega

/-- The counter passes every bound but the last integer. -/
theorem within_turns {d : Direction} (bounded : b ≠ d.extreme) :
    d.within (d.after a (d.turns a b)) b = false := by
  have := a.le_toInt
  have := b.toInt_lt
  have := a.toInt_lt
  have := b.le_toInt
  have value := toInt_after d a (d.turns a b)
  cases d <;> simp only [turns, within, extreme, decide_eq_false_iff_not, Int32.le_iff_toInt_le,
    ne_eq, ← Int32.toInt_inj, Int32.toInt_maxValue, Int32.toInt_minValue] at *
  · rw [value, Int.bmod_eq_of_le] <;> omega
  · rw [value, Int.bmod_eq_of_le] <;> omega

theorem within_extreme (d : Direction) (a : Int32) : d.within a d.extreme = true := by
  have := a.le_toInt
  have := a.toInt_lt
  cases d <;> simp only [within, extreme, decide_eq_true_iff, Int32.le_iff_toInt_le,
    Int32.toInt_maxValue, Int32.toInt_minValue] <;> omega

end Direction

section Slots

variable (m : Machine) (n : Nat)

theorem address?_frameSlot : m.address? (frameSlot n) = some (below m.ebp n) := by
  simp only [frameSlot, Memory.dword, Machine.address?, Machine.register?, Option.map_some, below,
    Int32.toBitVec_neg, Option.some.injEq]
  rw [← BitVec.sub_eq_add_neg]
  rfl

theorem value?_frameSlot : m.value? (frameSlot n) = some (m.bytes.dword (below m.ebp n)) := by
  simp only [Machine.value?, address?_frameSlot]
  rfl

theorem assign?_frameSlot (v : Word) :
    m.assign? v (frameSlot n) = some (m.store (below m.ebp n) v) := by
  simp only [Machine.assign?, address?_frameSlot]
  rfl

theorem instruction?_pop_frameSlot : m.instruction? .pop [frameSlot n] =
    some (m.pop.2.store (below m.ebp n) m.pop.1) :=
  assign?_frameSlot m.pop.2 n m.pop.1

/-- A step of the counter, which takes it around the ends of the integers. -/
theorem instruction?_step (d : Direction) {i : Int32}
    (value : m.bytes.dword (below m.ebp n) = i.toBitVec) :
    ∃ flags, m.instruction? d.step [frameSlot n, .immediate 1] =
      some ((m.store (below m.ebp n) (d.after i 1).toBitVec).setFlags (some flags)) := by
  have read := value?_frameSlot m n
  rw [value] at read
  have one : m.value? (.immediate 1) = some 1 := rfl
  cases d with
  | up =>
      refine ⟨.ofAdd i.toBitVec 1, ?_⟩
      simp only [Direction.step, Machine.instruction?, Machine.binary?, read, one,
        Machine.arithmetic?, Option.bind_eq_bind, Option.bind_some, assign?_frameSlot]
      rfl
  | down =>
      refine ⟨.ofSub i.toBitVec 1, ?_⟩
      simp only [Direction.step, Machine.instruction?, Machine.binary?, read, one,
        Machine.arithmetic?, Option.bind_eq_bind, Option.bind_some, assign?_frameSlot]
      rfl

theorem instruction?_mov_frameSlot : m.instruction? .mov [eax, frameSlot n] =
    some { m with eax := m.bytes.dword (below m.ebp n) } := by
  simp only [Machine.instruction?, Machine.binary?, value?_frameSlot, Option.bind_eq_bind,
    Option.bind_some]
  rfl

theorem instruction?_cmp_frameSlot : m.instruction? .cmp [eax, frameSlot n] =
    some (m.setFlags (some (.ofSub m.eax (m.bytes.dword (below m.ebp n))))) := by
  have read : m.value? eax = some m.eax := rfl
  simp only [Machine.instruction?, Machine.binary?, value?_frameSlot, read, Machine.comparison?,
    Option.bind_eq_bind, Option.bind_some]
  rfl

end Slots

namespace Direction

def condition : Direction → Flags.Condition
  | .up => .lessOrEqual
  | .down => .greaterOrEqual

theorem awaited?_again (d : Direction) : d.again.awaited? = some d.condition := by
  cases d <;> rfl

theorem meets_condition (d : Direction) (i b : Int32) :
    (Flags.ofSub i.toBitVec b.toBitVec).meets d.condition = d.within i b := by
  cases d
  · exact Flags.meets_lessOrEqual
  · exact Flags.meets_greaterOrEqual

end Direction

/-- The code of a loop in a listing: its parts, where it begins, the number of its first label, and
how far below the frame pointer the counter and the bound lie. -/
structure CountedLoop where
  direction : Direction
  first : Code
  last : Code
  body : Code
  label : Nat
  counter : Nat
  bound : Nat
  position : Nat

namespace CountedLoop

def enter (l : CountedLoop) : Code :=
  [.instruction .pop [frameSlot l.bound], jump .jmp (numbered "for_cond" l.label),
   .label (numbered "for_body" (l.label + 1))]

def again (l : CountedLoop) : Code :=
  [.label (numbered "for_next" (l.label + 2)),
   .instruction l.direction.step [frameSlot l.counter, .immediate 1],
   .label (numbered "for_cond" l.label),
   .instruction .mov [eax, frameSlot l.counter], .instruction .cmp [eax, frameSlot l.bound],
   jump l.direction.again (numbered "for_body" (l.label + 1)),
   .label (numbered "for_end" (l.label + 3))]

def code (l : CountedLoop) : Code :=
  l.first ++ ([.instruction .pop [frameSlot l.counter]] ++ (l.last ++ (l.enter ++ (l.body ++ l.again))))

section Positions

variable (l : CountedLoop)

/-- Where the first value is stored, once it is on the stack. -/
def store : Nat := l.position + l.first.length

/-- Where the last value is stored. -/
def keep : Nat := l.store + 1 + l.last.length

/-- The label before the body. -/
def start : Nat := l.keep + 2

/-- The label after the body. -/
def next : Nat := l.start + 1 + l.body.length

/-- The label that ends the loop. -/
def stop : Nat := l.next + 6

theorem store_ne_start : l.store ≠ l.start := by
  unfold start keep
  omega

theorem keep_ne_start (k : Fin 2) : l.keep + k ≠ l.start := by
  unfold start
  omega

theorem next_ne_start (k : Nat) : l.next + k ≠ l.start := by
  unfold next
  omega

end Positions

/-- The code stands in a listing, and its two dwords lie apart in the frame. -/
structure Stands (l : CountedLoop) (code : Code) : Prop where
  has : code.Has l.position l.code
  distinct : (Code.labels code).Nodup
  inside : 4 ≤ l.counter
  apart : l.counter + 4 ≤ l.bound
  fits : l.bound ≤ 2 ^ 32

section Layout

variable {l : CountedLoop} {code : Code} (stands : l.Stands code)

include stands

theorem Stands.store : code.Has l.store ([.instruction .pop [frameSlot l.counter]] ++
    (l.last ++ (l.enter ++ (l.body ++ l.again)))) :=
  stands.has.right

theorem Stands.enter : code.Has l.keep (l.enter ++ (l.body ++ l.again)) :=
  stands.store.right.right

theorem Stands.again : code.Has l.next l.again :=
  stands.enter.right.right

end Layout

variable {env : Environment}

/-- The counter, each time when the body begins in the frame at `base`. -/
def watch (l : CountedLoop) (base : Word) (c : env.Process) : Option Int32 :=
  if c.position = l.start ∧ c.machine.ebp = base then
    some (.ofBitVec (c.machine.bytes.dword (below base l.counter)))
  else none

/-- Code up to some position ends there with a value on top of the stack. -/
structure Evaluates (l : CountedLoop) (code : Code) (base : Word) (position : Nat) (v : Int32)
    (c c' : env.Process) : Prop where
  visits : env.Visits code (l.watch base) c [] c'
  position : c'.position = position
  frame : c'.machine.ebp = base
  value : c'.machine.bytes.dword c'.machine.esp = v.toBitVec

/-- Whenever the body begins, it ends after itself with the same counter and bound. -/
def Completes (l : CountedLoop) (code : Code) (base : Word) (c₀ : env.Process) : Prop :=
  ∀ seen c, env.Visits code (l.watch base) c₀ seen c → c.position = l.start + 1 →
    c.machine.ebp = base →
    ∃ c', env.Visits code (l.watch base) c [] c' ∧ c'.position = l.next ∧ c'.machine.ebp = base ∧
      ∀ n ∈ [l.counter, l.bound],
        c'.machine.bytes.dword (below base n) = c.machine.bytes.dword (below base n)

/-- A process somewhere in the loop, with its counter and its bound. -/
structure Holds (l : CountedLoop) (base : Word) (i b : Int32) (position : Nat) (c : env.Process) :
    Prop where
  position : c.position = position
  frame : c.machine.ebp = base
  counter : c.machine.bytes.dword (below base l.counter) = i.toBitVec
  bound : c.machine.bytes.dword (below base l.bound) = b.toBitVec

section Steps

variable {l : CountedLoop} {code : Code} {base : Word} {i a b : Int32} {c c₀ : env.Process}
  {seen : List Int32}

theorem watch_eq_none (elsewhere : c.position ≠ l.start) : l.watch base c = none := by
  simp [watch, elsewhere]

theorem Holds.watch (holds : l.Holds base i b l.start c) : l.watch base c = some i := by
  rw [CountedLoop.watch, if_pos ⟨holds.position, holds.frame⟩, holds.counter]
  rfl

theorem visits_pass {c' : env.Process} (next : env.step? code c = some c')
    (elsewhere : c.position ≠ l.start) : env.Visits code (l.watch base) c [] c' :=
  .pass next (watch_eq_none elsewhere)

/-- Constants are evaluated by one push. -/
theorem evaluates_push {m : Machine} {s : env.State} {j : Nat} {rest : Code}
    (has : Code.Has code j (.instruction .push [.immediate a] :: rest)) (frame : m.ebp = base)
    (elsewhere : j ≠ l.start) :
    l.Evaluates code base (j + 1) a (⟨j, m, s⟩ : env.Process) ⟨j + 1, m.push a.toBitVec, s⟩ :=
  ⟨visits_pass (Environment.step_instruction has rfl) elsewhere, rfl, frame, Bytes.dword_set_self⟩

variable (stands : l.Stands code)

include stands

theorem Stands.apart_slots : Bytes.Apart (below base l.bound) (below base l.counter) ∧
    Bytes.Apart (below base l.counter) (below base l.bound) := by
  have := stands.inside
  have := stands.apart
  have := stands.fits
  constructor <;> apply apart_below <;> omega

theorem Stands.target_start : code.target? (numbered "for_body" (l.label + 1)) = some l.start :=
  Code.target?_of_has stands.distinct stands.enter.tail.tail

theorem Stands.target_test : code.target? (numbered "for_cond" l.label) = some (l.next + 2) :=
  Code.target?_of_has stands.distinct stands.again.tail.tail

/-- The counter is compared with the bound before each turn. -/
theorem Stands.tests (holds : l.Holds base i b (l.next + 2) c) :
    ∃ c', env.Visits code (l.watch base) c [] c' ∧
      l.Holds base i b (if l.direction.within i b then l.start else l.stop) c' := by
  obtain ⟨position, m, s⟩ := c
  obtain ⟨rfl, rfl, counter, bound⟩ := holds
  have labelled := stands.again.tail.tail
  have loaded := instruction?_mov_frameSlot m l.counter
  rw [counter] at loaded
  let m' : Machine := { m with eax := i.toBitVec }
  have compared := instruction?_cmp_frameSlot m' l.bound
  rw [bound] at compared
  let m'' := m'.setFlags (some (.ofSub i.toBitVec b.toBitVec))
  have known : m''.flags = some (.ofSub i.toBitVec b.toBitVec) := rfl
  have jumps := Environment.step_jump (s := s) labelled.tail.tail.tail l.direction.awaited?_again known
    stands.target_start
  rw [Direction.meets_condition] at jumps
  refine ⟨⟨if l.direction.within i b then l.start else l.stop, m'', s⟩, ?_, rfl, rfl, counter, bound⟩
  apply (visits_pass (Environment.step_label labelled) (l.next_ne_start 2)).unseen
  apply (visits_pass (Environment.step_instruction labelled.tail loaded) (l.next_ne_start 3)).unseen
  apply (visits_pass (Environment.step_instruction labelled.tail.tail compared)
    (l.next_ne_start 4)).unseen
  exact visits_pass jumps (l.next_ne_start 5)

/-- The counter is advanced after each turn. -/
theorem Stands.advances (holds : l.Holds base i b l.next c) : ∃ c',
    env.Visits code (l.watch base) c [] c' ∧
      l.Holds base (l.direction.after i 1) b (l.next + 2) c' := by
  obtain ⟨position, m, s⟩ := c
  obtain ⟨rfl, rfl, counter, bound⟩ := holds
  have labelled := stands.again
  obtain ⟨flags, stepped⟩ := instruction?_step m l.counter l.direction counter
  let m' := (m.store (below m.ebp l.counter) (l.direction.after i 1).toBitVec).setFlags (some flags)
  refine ⟨⟨l.next + 2, m', s⟩, ?_, rfl, rfl, Bytes.dword_set_self, ?_⟩
  · apply (visits_pass (Environment.step_label labelled) (l.next_ne_start 0)).unseen
    exact visits_pass (Environment.step_instruction labelled.tail stepped) (l.next_ne_start 1)
  · exact (Bytes.dword_set_apart stands.apart_slots.1).trans bound

/-- What has been evaluated first becomes the counter. -/
theorem Stands.stores {c₁ c₂ : env.Process} (first : l.Evaluates code base l.store a c c₁)
    (stored : env.step? code c₁ = some c₂) :
    c₂.machine.ebp = base ∧ c₂.machine.bytes.dword (below base l.counter) = a.toBitVec := by
  obtain ⟨position, m, s⟩ := c₁
  obtain ⟨-, rfl, rfl, value⟩ := first
  have step : env.step? code ⟨l.store, m, s⟩ = some ⟨l.store + 1, _, s⟩ :=
    Environment.step_instruction stands.store (instruction?_pop_frameSlot m l.counter)
  obtain rfl := Option.some.inj (step.symm.trans stored)
  exact ⟨rfl, Bytes.dword_set_self.trans value⟩

/-- What has been evaluated last becomes the bound, and the loop begins with a test. -/
theorem Stands.enters {c₂ c₃ : env.Process} (last : l.Evaluates code base l.keep b c₂ c₃)
    (counter : c₃.machine.bytes.dword (below base l.counter) = i.toBitVec) :
    ∃ c', env.Visits code (l.watch base) c₃ [] c' ∧ l.Holds base i b (l.next + 2) c' := by
  obtain ⟨position, m, s⟩ := c₃
  obtain ⟨-, rfl, rfl, value⟩ := last
  have popped := instruction?_pop_frameSlot m l.bound
  let m' := m.pop.2.store (below m.ebp l.bound) m.pop.1
  refine ⟨⟨l.next + 2, m', s⟩, ?_, rfl, rfl, ?_, Bytes.dword_set_self.trans value⟩
  · apply (visits_pass (Environment.step_instruction stands.enter popped) (l.keep_ne_start 0)).unseen
    exact visits_pass (Environment.step_jmp stands.enter.tail stands.target_test) (l.keep_ne_start 1)
  · exact (Bytes.dword_set_apart stands.apart_slots.2).trans counter

/-- One turn, from the test before it to the test after it. -/
theorem Stands.turns (completes : l.Completes code base c₀)
    (reached : env.Visits code (l.watch base) c₀ seen c) (holds : l.Holds base i b (l.next + 2) c)
    (within : l.direction.within i b = true) :
    ∃ c', env.Visits code (l.watch base) c₀ (seen ++ [i]) c' ∧
      l.Holds base (l.direction.after i 1) b (l.next + 2) c' := by
  obtain ⟨c₁, tested, holds₁⟩ := stands.tests holds
  rw [if_pos within] at holds₁
  obtain ⟨c₂, began, holds₂⟩ : ∃ c₂, env.step? code c₁ = some c₂ ∧ l.Holds base i b (l.start + 1) c₂ := by
    obtain ⟨position, m, s⟩ := c₁
    obtain ⟨rfl, frame, counter, bound⟩ := holds₁
    exact ⟨_, Environment.step_label stands.enter.tail.tail, rfl, frame, counter, bound⟩
  have here := (reached.trans tested).trans (.see began holds₁.watch)
  rw [List.append_nil] at here
  obtain ⟨c₃, done, position, frame, same⟩ := completes _ c₂ here holds₂.position holds₂.frame
  have holds₃ : l.Holds base i b l.next c₃ :=
    ⟨position, frame, (same _ (by simp)).trans holds₂.counter, (same _ (by simp)).trans holds₂.bound⟩
  obtain ⟨c₄, advanced, holds₄⟩ := stands.advances holds₃
  have there := (here.trans done).trans advanced
  rw [List.append_nil, List.append_nil] at there
  exact ⟨c₄, there, holds₄⟩

/-- As many turns as the counter stays within the bound. -/
theorem Stands.repeats (completes : l.Completes code base c₀)
    (reached : env.Visits code (l.watch base) c₀ seen c) (holds : l.Holds base i b (l.next + 2) c)
    {n : Nat} (within : ∀ k < n, l.direction.within (l.direction.after i k) b = true) :
    ∃ c', env.Visits code (l.watch base) c₀ (seen ++ l.direction.values i n) c' ∧
      l.Holds base (l.direction.after i n) b (l.next + 2) c' := by
  induction n with
  | zero =>
      rw [Direction.after_zero]
      exact ⟨c, by simpa [Direction.values] using reached, holds⟩
  | succ n ih =>
      obtain ⟨c', reached', holds'⟩ := ih fun k early => within k (Nat.lt_succ_of_lt early)
      obtain ⟨c'', reached'', holds''⟩ :=
        stands.turns completes reached' holds' (within n (Nat.lt_succ_self n))
      rw [List.append_assoc, ← Direction.values_succ] at reached''
      rw [← Direction.after_succ] at holds''
      exact ⟨c'', reached'', holds''⟩

/-- The body runs once for each integer from the counter to the bound, and then the loop ends, unless
the bound is the last integer: then there is always another turn. -/
theorem Stands.counts {c₁ c₂ c₃ : env.Process} (completes : l.Completes code base c)
    (first : l.Evaluates code base l.store a c c₁) (stored : env.step? code c₁ = some c₂)
    (last : l.Evaluates code base l.keep b c₂ c₃)
    (counter : c₃.machine.bytes.dword (below base l.counter) = i.toBitVec) :
    (b ≠ l.direction.extreme → ∃ c',
      env.Visits code (l.watch base) c (l.direction.values i (l.direction.turns i b)) c' ∧
        c'.position = l.stop ∧ c'.machine.ebp = base) ∧
    (b = l.direction.extreme → ∀ n, ∃ c',
      env.Visits code (l.watch base) c (l.direction.values i n) c') := by
  obtain ⟨c₄, entered, holds⟩ := stands.enters last counter
  have apart : c₁.position ≠ l.start := by
    rw [first.position]
    exact l.store_ne_start
  have reached := first.visits.unseen ((visits_pass stored apart).unseen (last.visits.unseen entered))
  constructor
  · intro bounded
    obtain ⟨c₅, turned, holds₅⟩ :=
      stands.repeats completes reached holds fun k early => Direction.within_of_lt early
    obtain ⟨c₆, tested, holds₆⟩ := stands.tests holds₅
    rw [Direction.within_turns bounded] at holds₆
    have visits := turned.trans tested
    rw [List.nil_append, List.append_nil] at visits
    exact ⟨c₆, visits, holds₆.position, holds₆.frame⟩
  · rintro rfl n
    obtain ⟨c₅, turned, -⟩ := @repeats env l code base i l.direction.extreme c₄ c [] stands completes reached holds
      n fun k _ => Direction.within_extreme l.direction _
    exact ⟨c₅, turned⟩

end Steps

end CountedLoop

end PascalX86
