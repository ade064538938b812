import Mathlib.Data.List.Pairwise
import PascalX86.Proofs.Activation.Function
import PascalX86.Proofs.Calling.Program
import PascalX86.Proofs.Machine.Process

/-!
# Calls on the stack

Where the calls that have not returned keep their variables. Bytes of the stack are named by how far
they lie below its top, and the calls lie one below the other, with no variable of one among the
links or the operands of another.
-/

set_option autoImplicit false

namespace PascalX86

/-- Where the stack and the display lie. -/
structure Ground where
  top : Word
  room : Nat
  display : Word

/-- The stack takes less than half of the memory, and the display is no part of it. -/
structure Ground.Sound (l : Ground) (levels : Nat) : Prop where
  room : l.room < 2 ^ 31
  apart : ∀ d, 0 < d → d ≤ l.room → levels * dwordSize ≤ (below l.top d - l.display).toNat

/-- The frame pointer that the display holds for a level. -/
def Machine.entry (m : Machine) (level : Nat) : Word :=
  m.bytes.dword (m.display + (displayEntry level).displacement.toBitVec)

/-- A function that was called and has not returned: where it was entered, and what there was just
before the call. -/
structure Environment.Call (env : Environment) where
  function : Function
  entry : Nat
  caller : env.Process

def Region.Has (r : Region) (x : Int) : Prop := r.start ≤ x ∧ x < r.start + r.size

namespace Environment.Call

variable {env : Environment} (l : Ground) (a : env.Call)

def level : Nat := a.function.signature.level

/-- The bytes between the stack of the caller and the frame pointer. The main program keeps nothing
there but the frame pointer that it found. -/
def link : Nat := if a.level = 0 then dwordSize else linkSize

def frame : Word := below a.caller.machine.esp a.link

def depth : Nat := a.caller.machine.depth l.top

def base : Nat := a.depth l + a.link

/-- Where the arguments begin. -/
def limit : Nat := a.depth l - a.function.signature.block

/-- A byte of a variable of the function, or of an argument that is passed by value. -/
def Stores (d : Nat) : Prop :=
  ∃ symbol slot, a.function.Owns symbol slot ∧ symbol.slot? = some slot ∧
    symbol.kind ≠ .varParameter ∧ (a.function.region symbol slot).Has (a.base l - d)

structure Proper : Prop where
  tabled : a.function.Tabled
  block : a.function.signature.block ≤ a.depth l
  outer : a.level = 0 → a.function.signature.block = 0

end Environment.Call

namespace Ground

variable {env : Environment} (l : Ground) (calls : List env.Call)

def Data (d : Nat) : Prop := ∃ a ∈ calls, a.Stores l d

/-- So many bytes from an address on are bytes of variables. -/
def Points (address : Word) (n : Nat) : Prop :=
  ∀ i < n, ∃ d, 0 < d ∧ d ≤ l.room ∧ address + .ofNat 32 i = below l.top d ∧ l.Data calls d

/-- Calls below one another, the innermost first. -/
structure Nests : Prop where
  proper : ∀ a ∈ calls, a.Proper l
  ordered : calls.Pairwise fun a b => b.base l + b.function.locals.size ≤ a.limit l

end Ground

section Addresses

variable {top : Word} {d k n : Nat} {b c : Bytes}

theorem esp_eq (m : Machine) (top : Word) : m.esp = below top (m.depth top) := by
  unfold Machine.depth below
  bv_omega

/-- Displacements lead from one byte of the stack to another. -/
theorem below_displaced {x : Int32} (same : (k : Int) = n - x.toInt) :
    below top n + x.toBitVec = below top k := by
  have value : BitVec.ofInt 32 (n : Int) = .ofInt 32 (k : Int) + .ofInt 32 x.toInt := by
    rw [← BitVec.ofInt_add]
    congr 1
    omega
  rw [BitVec.ofInt_natCast, BitVec.ofInt_natCast] at value
  rw [← BitVec.ofInt_int32ToInt]
  unfold below
  rw [value]
  generalize BitVec.ofInt 32 x.toInt = y
  bv_omega

theorem dword_below (same : ∀ d, n < d → d ≤ n + 4 → b (below top d) = c (below top d)) :
    b.dword (below top (n + 4)) = c.dword (below top (n + 4)) := by
  apply Bytes.dword_congr
  intro i lt
  rw [below_add_of_le (by omega)]
  exact same _ (by omega) (by omega)

end Addresses

namespace Function

variable {g : Function} {symbol : Symbol} {slot : Slot} {q : Parameter}

/-- A parameter by reference is kept in one dword among the arguments. -/
theorem Tabled.cell (tabled : g.Tabled) (mem : q ∈ g.signature.parameters) (mode : q.mode = .byReference) :
    q.slot.area = .parameters ∧ q.slot.offset + 4 ≤ g.signature.block ∧
      g.region q.symbol q.slot = .argument g.signature.block q.slot.offset 4 := by
  have inside := (tabled.arguments.within q.symbol (List.mem_map_of_mem mem) q.slot rfl).2
  have area : q.slot.area = .parameters := inside.1
  have fits : q.slot.offset + q.symbol.storage ≤ g.signature.block := inside.2
  have storage : q.symbol.storage = 4 := by
    simp [Symbol.storage, Parameter.symbol, mode, Mode.size, addressSize]
  rw [storage] at fits
  exact ⟨area, fits, by rw [region, area, storage]⟩

theorem Owns.exists_parameter (owns : g.Owns symbol slot) (tabled : g.Tabled)
    (found : symbol.slot? = some slot) (kind : symbol.kind = .varParameter) :
    ∃ q ∈ g.signature.parameters, q.symbol = symbol ∧ q.mode = .byReference := by
  cases owns with
  | argument mem =>
      obtain ⟨q, listed, rfl⟩ := List.mem_map.mp mem
      refine ⟨q, listed, rfl, ?_⟩
      cases mode : q.mode <;> simp [Symbol.kind, Parameter.symbol, mode] at kind
      rfl
  | locals mem area =>
      -- Locals are no parameters.
      have fulfilled := tabled.locals.fulfilled symbol mem
      unfold Symbol.kind at kind
      unfold Symbol.slot? at found
      unfold Symbol.Fulfilled at fulfilled
      split at kind <;> try cases kind
      next role =>
        rw [role] at found fulfilled
        cases found
        rw [fulfilled.2.1] at area
        cases area

end Function

namespace Environment.Call

variable {env : Environment} {l : Ground} {a : env.Call} {d : Nat}

theorem frame_eq (l : Ground) (a : env.Call) : a.frame = below l.top (a.base l) := by
  rw [frame, esp_eq a.caller.machine l.top, below_below]
  rfl

theorem link_cases (a : env.Call) : a.level = 0 ∧ a.link = 4 ∨ 0 < a.level ∧ a.link = 12 := by
  unfold link
  split
  · next outer => exact .inl ⟨outer, rfl⟩
  · next inner => exact .inr ⟨Nat.pos_of_ne_zero inner, rfl⟩

theorem base_of_inner (l : Ground) (inner : 0 < a.level) : a.base l = a.depth l + 12 := by
  rcases a.link_cases with ⟨outermost, -⟩ | ⟨-, link⟩
  · omega
  · rw [base, link]

theorem Stores.bounds (stores : a.Stores l d) (proper : a.Proper l) :
    (a.limit l < d ∧ d ≤ a.depth l) ∨
      a.base l < d ∧ d ≤ a.base l + a.function.locals.size := by
  obtain ⟨symbol, slot, owns, found, -, low, high⟩ := stores
  have block := proper.block
  rcases owns.region_within proper.tabled found with within | within
  · unfold Region.Within Region.below at within
    dsimp only at within
    right
    omega
  · unfold Region.Within Region.arguments linkSize at within
    dsimp only at within
    rcases a.link_cases with ⟨outer, -⟩ | ⟨-, link⟩
    · have none := proper.outer outer
      omega
    · left
      unfold base at low high
      unfold limit
      omega

theorem Stores.pos (stores : a.Stores l d) (proper : a.Proper l) : 0 < d := by
  rcases stores.bounds proper with ⟨above, -⟩ | ⟨above, -⟩ <;> omega

/-- A parameter by reference is no variable of its own: it keeps an address. -/
theorem not_stores_cell (proper : a.Proper l) {q : Parameter}
    (mem : q ∈ a.function.signature.parameters) (mode : q.mode = .byReference)
    (above : a.limit l + q.slot.offset < d) (below : d ≤ a.limit l + q.slot.offset + 4) :
    ¬ a.Stores l d := by
  rintro ⟨symbol, slot, owns, found, kind, low, high⟩
  have tabled := proper.tabled
  have known := a.function.blocks_frames []
  have listed : q.symbol ∈ a.function.signature.table.symbols := List.mem_map_of_mem mem
  have cell : q.symbol ∈ a.function.symbols := List.mem_append_left _ listed
  have named : q.symbol.kind = .varParameter := by simp [Symbol.kind, Parameter.symbol, mode]
  have other : symbol ≠ q.symbol := by
    rintro rfl
    exact kind named
  obtain ⟨own, level⟩ := tabled.owns owns.mem found
  obtain ⟨own', level'⟩ := tabled.owns cell (show q.symbol.slot? = some q.slot from rfl)
  have places := (own.places tabled found (level ▸ known)).mpr rfl
  have places' := (own'.places tabled rfl (level' ▸ known)).mpr rfl
  have apart : (a.function.region symbol slot).Apart (a.function.region q.symbol q.slot) := by
    have : Std.Symm fun x y => ∀ r s, (a.function.frames []).Places x r →
        (a.function.frames []).Places y s → r.Apart s :=
      ⟨fun x y apart r s first second => (apart s r second first).symm⟩
    exact (Function.symbols_apart tabled known).forall owns.mem cell other _ _ places places'
  obtain ⟨-, fits, place⟩ := tabled.cell mem mode
  have block := proper.block
  rw [place] at apart
  unfold Region.Apart Region.argument linkSize at apart
  dsimp only at apart
  unfold limit at above below
  unfold base at low high
  rcases a.link_cases with ⟨outer, -⟩ | ⟨-, link⟩
  · have none := proper.outer outer
    omega
  · omega

end Environment.Call

namespace Ground

variable {env : Environment} {l : Ground} {a b : env.Call} {calls outer first rest : List env.Call}
  {address : Word} {d k n size : Nat}

theorem Data.append (data : l.Data outer d) (first : List env.Call) : l.Data (first ++ outer) d := by
  obtain ⟨b, mem, stores⟩ := data
  exact ⟨b, List.mem_append_right _ mem, stores⟩

theorem data_cons : l.Data (a :: outer) d ↔ a.Stores l d ∨ l.Data outer d := by
  simp [Data]

theorem Points.append (points : l.Points outer address n) (first : List env.Call) :
    l.Points (first ++ outer) address n := by
  intro i lt
  obtain ⟨d, pos, room, same, data⟩ := points i lt
  exact ⟨d, pos, room, same, data.append first⟩

theorem Points.shift (points : l.Points calls address n) (inside : k + size ≤ n) :
    l.Points calls (address + .ofNat 32 k) size := by
  intro i lt
  obtain ⟨d, pos, room, same, data⟩ := points (k + i) (by omega)
  refine ⟨d, pos, room, ?_, data⟩
  rw [← same]
  bv_omega

theorem Points.narrow (points : l.Points calls address n) (le : size ≤ n) :
    l.Points calls address size :=
  fun i lt => points i (Nat.lt_of_lt_of_le lt le)

/-- Operands in the frame of a call that lie inside a variable of its function. -/
theorem Points.of_region (mem : b ∈ calls) (proper : b.Proper l)
    (fits : b.base l + b.function.locals.size ≤ l.room) {symbol : Symbol} {slot : Slot}
    (owns : b.function.Owns symbol slot) (found : symbol.slot? = some slot)
    (kind : symbol.kind ≠ .varParameter) {m : Memory}
    (within : (m.reaching n).Within (b.function.region symbol slot)) :
    l.Points calls (b.frame + m.displacement.toBitVec) n := by
  intro i lt
  rw [Memory.reaching_within] at within
  have area : 0 < (b.base l : Int) - m.displacement.toInt - i := by
    have block := proper.block
    rcases owns.region_within proper.tabled found with region | region
    · unfold Region.Within Region.below at region
      dsimp only at region
      omega
    · unfold Region.Within Region.arguments linkSize at region
      dsimp only at region
      rcases b.link_cases with ⟨outer, -⟩ | ⟨-, link⟩
      · have none := proper.outer outer
        omega
      · unfold Environment.Call.base
        omega
  obtain ⟨d, value⟩ := Int.eq_ofNat_of_zero_le (Int.le_of_lt area)
  have stores : b.Stores l d := ⟨symbol, slot, owns, found, kind, by omega, by omega⟩
  refine ⟨d, by omega, ?_, ?_, b, mem, stores⟩
  · rcases stores.bounds proper with ⟨-, le⟩ | ⟨-, le⟩
    · unfold Environment.Call.base at fits
      omega
    · omega
  · rw [b.frame_eq l, below_displaced (show ((d + i : Nat) : Int) = b.base l - m.displacement.toInt by omega),
      below_add]

namespace Nests

theorem data_le (nests : l.Nests (a :: outer)) (data : l.Data outer d) : d ≤ a.limit l := by
  obtain ⟨b, mem, stores⟩ := data
  have above := (List.pairwise_cons.mp nests.ordered).1 b mem
  rcases stores.bounds (nests.proper b (List.mem_cons_of_mem _ mem)) with ⟨-, le⟩ | ⟨-, le⟩
  · unfold Environment.Call.base at above
    omega
  · omega

theorem depth_le (nests : l.Nests (a :: outer)) (mem : b ∈ a :: outer) : b.depth l ≤ a.base l := by
  unfold Environment.Call.base
  rcases List.mem_cons.mp mem with rfl | mem
  · omega
  · have above := (List.pairwise_cons.mp nests.ordered).1 b mem
    unfold Environment.Call.base Environment.Call.limit at above
    omega

theorem fits (nests : l.Nests (a :: outer)) (mem : b ∈ a :: outer) :
    b.base l + b.function.locals.size ≤ a.base l + a.function.locals.size := by
  rcases List.mem_cons.mp mem with rfl | mem
  · omega
  · have above := (List.pairwise_cons.mp nests.ordered).1 b mem
    unfold Environment.Call.base Environment.Call.limit at above
    unfold Environment.Call.base
    omega

theorem not_stores (nests : l.Nests (a :: outer)) (le : d ≤ a.limit l) : ¬ a.Stores l d := by
  intro stores
  rcases stores.bounds (nests.proper a List.mem_cons_self) with ⟨above, -⟩ | ⟨above, -⟩
  · omega
  · unfold Environment.Call.limit at le
    unfold Environment.Call.base at above
    omega

theorem not_data_of_le (nests : l.Nests (a :: outer)) (le : d ≤ a.limit l) (other : ¬ l.Data outer d) :
    ¬ l.Data (a :: outer) d := by
  rw [data_cons, not_or]
  exact ⟨nests.not_stores le, other⟩

/-- What a call keeps of its caller is no data. -/
theorem not_data_link (nests : l.Nests (a :: outer)) (above : a.depth l < d) (le : d ≤ a.base l) :
    ¬ l.Data (a :: outer) d := by
  rw [data_cons, not_or]
  constructor
  · intro stores
    rcases stores.bounds (nests.proper a List.mem_cons_self) with ⟨-, le'⟩ | ⟨above', -⟩ <;> omega
  · intro data
    have inside := nests.data_le data
    unfold Environment.Call.limit at inside
    omega

/-- There is no data below the variables of the innermost call. -/
theorem not_data_below (nests : l.Nests (a :: outer)) (above : a.base l + a.function.locals.size < d) :
    ¬ l.Data (a :: outer) d := by
  rw [data_cons, not_or]
  constructor
  · intro stores
    unfold Environment.Call.base at above
    rcases stores.bounds (nests.proper a List.mem_cons_self) with ⟨-, le⟩ | ⟨-, le⟩
    · omega
    · unfold Environment.Call.base at le
      omega
  · intro data
    have inside := nests.data_le data
    unfold Environment.Call.limit at inside
    unfold Environment.Call.base at above
    omega

/-- A call of the list with the addresses that were passed to it. -/
theorem not_data_cell (nests : l.Nests calls) (split : calls = first ++ b :: rest) {q : Parameter}
    (mem : q ∈ b.function.signature.parameters) (mode : q.mode = .byReference)
    (above : b.limit l + q.slot.offset < d) (below : d ≤ b.limit l + q.slot.offset + 4) :
    d ≤ b.depth l ∧ ¬ l.Data calls d := by
  have listed : b ∈ calls := by simp [split]
  have proper := nests.proper b listed
  obtain ⟨-, fits, -⟩ := proper.tabled.cell mem mode
  have block := proper.block
  have near : d ≤ b.depth l := by
    unfold Environment.Call.limit at below
    omega
  refine ⟨near, ?_⟩
  rintro ⟨c, own, stores⟩
  have ordered := nests.ordered
  rw [split] at own ordered
  rcases List.mem_append.mp own with own | own
  · -- The inner calls have their variables further below.
    have deeper := (List.pairwise_append.mp ordered).2.2 c own b List.mem_cons_self
    have bounds := stores.bounds (nests.proper c (by simp [split, own]))
    unfold Environment.Call.limit at bounds deeper
    unfold Environment.Call.base at bounds deeper
    omega
  · rcases List.mem_cons.mp own with rfl | own
    · exact Environment.Call.not_stores_cell proper mem mode above below stores
    · have outward := (List.pairwise_append.mp ordered).2.1
      have higher := (List.pairwise_cons.mp outward).1 c own
      have bounds := stores.bounds (nests.proper c (by simp [split, own]))
      unfold Environment.Call.limit at bounds higher above
      unfold Environment.Call.base at bounds higher
      omega

end Nests

end Ground

end PascalX86
