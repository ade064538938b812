import PascalX86.Proofs.Frame.Statement
import PascalX86.Proofs.Loop.Counted
import PascalX86.Proofs.Output.Format
import PascalX86.Proofs.Output.Stretch

/-!
# Arguments of output statements

The arguments are evaluated one after the other. Those that are no variables of the frame are moved to
temporaries, where they stay whatever the later ones do.
-/

set_option autoImplicit false

namespace PascalX86

open Register

theorem mul_div_dwordSize (n : Nat) : 4 * n / dwordSize = n := Nat.mul_div_cancel_left n (by decide)

namespace Machine

/-- So many dwords from an address on. -/
def dwords (m : Machine) (w : Word) (n : Nat) : List Word :=
  (List.range n).map fun k => m.bytes.dword (w + .ofNat 32 (4 * k))

def contents? (m : Machine) (x : Memory) : Option (List Word) :=
  (m.address? x).map fun w => m.dwords w (x.width.bytes / dwordSize)

/-- What lies on top of the stack. -/
def topmost (m : Machine) (size : Nat) : List Word := m.dwords m.esp (size / dwordSize)

variable {m m' : Machine} {w w' top : Word} {n k d : Nat}

theorem dwords_succ : m.dwords w (n + 1) = m.bytes.dword w :: m.dwords (w + 4) n := by
  unfold dwords
  rw [List.range_succ_eq_map, List.map_cons, List.map_map]
  congr 1
  · rw [show w + .ofNat 32 (4 * 0) = w from BitVec.add_zero w]
  · refine List.map_congr_left fun k _ => ?_
    show m.bytes.dword (w + .ofNat 32 (4 * (k + 1))) = m.bytes.dword (w + 4 + .ofNat 32 (4 * k))
    congr 1
    rw [BitVec.add_assoc]
    congr 1
    bv_omega

/-- Dwords whose bytes stay the same. -/
theorem dwords_congr (le : 4 * n ≤ k)
    (same : ∀ d, k < d + 4 * n → d ≤ k → m'.bytes (below top d) = m.bytes (below top d)) :
    m'.dwords (below top k) n = m.dwords (below top k) n := by
  refine List.map_congr_left fun j mem => ?_
  rw [List.mem_range] at mem
  rw [below_add_of_le (by omega), show k - 4 * j = (k - 4 * j - 4) + 4 by omega]
  exact dword_below fun d above le => same d (by omega) (by omega)

end Machine

/-- Dwords are taken from the stack, the topmost one first, and moved to the bytes below those that are
taken. -/
def frameSlots (used : Nat) : Nat → Code
  | 0 => []
  | n + 1 => .instruction .pop [frameSlot (used + 4 * (n + 1))] :: frameSlots used n

theorem frameSlot_offset (n k : Nat) : (frameSlot (n + k)).offset (.ofNat k) = frameSlot n := by
  have displacement : -Int32.ofNat (n + k) + .ofNat k = -Int32.ofNat n := by
    rw [Int32.ofNat_add, Int32.neg_add, Int32.sub_eq_add_neg, Int32.add_assoc, Int32.add_left_neg,
      Int32.add_zero]
  unfold frameSlot Memory.dword Memory.offset
  rw [displacement]

theorem frameSlots_eq (used n : Nat) : frameSlots used n =
    (List.range n).map fun k => .instruction .pop [frameSlot (used + 4 * n - 4 * k)] := by
  induction n with
  | zero => rfl
  | succ n ih =>
      rw [List.range_succ_eq_map, List.map_cons, List.map_map, frameSlots, ih]
      congr 1
      refine List.map_congr_left fun k _ => ?_
      show _ = Command.instruction .pop [frameSlot (used + 4 * (n + 1) - 4 * (k + 1))]
      rw [show used + 4 * (n + 1) - 4 * (k + 1) = used + 4 * n - 4 * k by omega]

theorem popMemory_frameSlot (used n : Nat) :
    popMemory (frameSlot (used + 4 * n)) (4 * n) = frameSlots used n := by
  rw [frameSlots_eq, popMemory, Memory.dwords, mul_div_dwordSize, List.map_map]
  refine List.map_congr_left fun k mem => ?_
  rw [List.mem_range] at mem
  have place : (frameSlot (used + 4 * n)).offset (.ofNat (k * dwordSize)) =
      frameSlot (used + 4 * n - 4 * k) := by
    rw [← frameSlot_offset (used + 4 * n - 4 * k) (k * dwordSize)]
    unfold dwordSize
    rw [show used + 4 * n - 4 * k + k * 4 = used + 4 * n by omega]
  show Command.instruction .pop [.memory ((frameSlot (used + 4 * n)).offset _)] = _
  rw [place]

/-- An argument whose turn has come, with the values that it has then. A constant, which is part of the
format, has none. -/
structure Turn where
  argument : Expr
  values : List (List Word)

/-- What the format of an output statement says for an argument: the text of a constant, and a
conversion for anything else. -/
def Expr.signs (e : Expr) : List Format.Sign :=
  match e.value? with
  | some value => ((value.output?.map String.toList).getD []).map .character
  | none => ((Conversion.ofType? e.type).map .conversion).toList

/-- Where a variable of the frame is shown from. -/
def Expr.shown? (f : Frames) (e : Expr) : Option Memory := do
  let cell ← e.direct? f
  return cell.sized (← Conversion.ofType? e.type).width

/-- What is handed over of an argument: a variable of the frame as it is at last. -/
def Turn.handed (f : Frames) (m : Machine) (turn : Turn) : List (List Word) :=
  match turn.argument.shown? f with
  | some x => (m.contents? x).toList
  | none => turn.values

namespace Turn

variable {f : Frames} {m : Machine} {turn : Turn} {x : Memory} {v : List Word}

theorem handed_of_shown (shown : turn.argument.shown? f = some x) (found : m.contents? x = some v) :
    turn.handed f m = [v] := by
  rw [handed, shown]
  dsimp only
  rw [found]
  rfl

theorem handed_of_hidden (hidden : turn.argument.shown? f = none) : turn.handed f m = turn.values := by
  rw [handed, hidden]

end Turn

/-- The arguments of an output statement are evaluated from left to right. -/
inductive Stage.Evaluates {env : Environment} (p : Program) (listing : Listing) (l : Ground) (f : Frames) :
    Nat → Stage env → List Turn → Stage env → Prop where
  | done (used : Nat) (s : Stage env) : Evaluates p listing l f used s [] s
  | constant {used : Nat} {s t : Stage env} {e : Expr} {turns : List Turn} {value : Value}
      (known : e.value? = some value) (rest : Evaluates p listing l f used s turns t) :
      Evaluates p listing l f used s (⟨e, []⟩ :: turns) t
  | variable {used : Nat} {s t : Stage env} {e : Expr} {turns : List Turn} {x : Memory} {v : List Word}
      (unknown : e.value? = none) (shown : e.shown? f = some x)
      (found : s.process.machine.contents? x = some v)
      (rest : Evaluates p listing l f used s turns t) :
      Evaluates p listing l f used s (⟨e, [v]⟩ :: turns) t
  | other {used : Nat} {s s₁ s₂ t : Stage env} {e : Expr} {turns : List Turn} {code : Code}
      (unknown : e.value? = none) (indirect : e.direct? f = none) (lowered : e.code f = .ok code)
      (evaluates : s.Runs p listing l code s₁)
      (moves : s₁.Runs p listing l (popMemory (frameSlot (used + e.type.size)) e.type.size) s₂)
      (rest : Evaluates p listing l f (used + e.type.size) s₂ turns t) :
      Evaluates p listing l f used s (⟨e, [s₁.process.machine.topmost e.type.size]⟩ :: turns) t

section Lowering

variable {f : Frames} {used : Nat} {e : Expr} {arguments : List Expr} {output : Output} {cell : Memory}

theorem outputOf_cons (lowered : outputOf f used (e :: arguments) = .ok output) :
    (∃ value text rest, e.value? = some value ∧ value.output? = some text ∧
      outputOf f used arguments = .ok rest ∧
      output = ⟨rest.code, .text text :: rest.pieces, rest.operands⟩) ∨
    e.value? = none ∧ ∃ conversion, Conversion.ofType? e.type = some conversion ∧
      ((∃ cell rest, e.direct? f = some cell ∧ outputOf f used arguments = .ok rest ∧
        output = ⟨rest.code, .conversion conversion :: rest.pieces,
          cell.sized conversion.width :: rest.operands⟩) ∨
      ∃ code rest, e.direct? f = none ∧ e.code f = .ok code ∧
        outputOf f (used + e.type.size) arguments = .ok rest ∧
        output = ⟨code ++ popMemory (frameSlot (used + e.type.size)) e.type.size ++ rest.code,
          .conversion conversion :: rest.pieces,
          (frameSlot (used + e.type.size)).sized conversion.width :: rest.operands⟩) := by
  unfold outputOf at lowered
  split at lowered
  · next value known =>
    split at lowered
    · next text written =>
      obtain ⟨rest, found, eq⟩ := bind_eq_ok.mp lowered
      cases eq
      exact .inl ⟨value, text, rest, known, written, found, rfl⟩
    · cases lowered
  · next unknown =>
    split at lowered
    · next conversion shown =>
      refine .inr ⟨unknown, conversion, shown, ?_⟩
      split at lowered
      · next cell direct =>
        have free : e.temporary f = 0 := by simp [Expr.temporary, direct]
        obtain ⟨pair, own, lowered⟩ := bind_eq_ok.mp lowered
        cases own
        obtain ⟨rest, found, eq⟩ := bind_eq_ok.mp lowered
        cases eq
        rw [free] at found
        exact .inl ⟨cell, rest, direct, found, rfl⟩
      · next indirect =>
        have own : e.temporary f = e.type.size := by simp [Expr.temporary, unknown, indirect]
        obtain ⟨code, evaluated, lowered⟩ := bind_eq_ok.mp lowered
        obtain ⟨pair, first, lowered⟩ := bind_eq_ok.mp lowered
        cases first
        obtain ⟨rest, found, eq⟩ := bind_eq_ok.mp lowered
        cases eq
        rw [own] at found
        exact .inr ⟨code, rest, indirect, evaluated, found, rfl⟩
    · cases lowered

theorem Expr.signs_of_value? {value : Value} {text : String} (known : e.value? = some value)
    (written : value.output? = some text) : e.signs = text.toList.map .character := by
  rw [signs, known]
  dsimp only
  rw [written]
  rfl

theorem Expr.signs_of_type {conversion : Conversion} (unknown : e.value? = none)
    (shown : Conversion.ofType? e.type = some conversion) : e.signs = [.conversion conversion] := by
  rw [signs, unknown]
  dsimp only
  rw [shown]
  rfl

theorem Format.conversions_characters (text : List Char) :
    conversions (text.map Sign.character) = [] := by
  induction text with
  | nil => rfl
  | cons c text ih => exact ih

theorem Expr.conversions_of_value? {value : Value} (known : e.value? = some value) :
    Format.conversions e.signs = [] := by
  rw [signs, known]
  exact Format.conversions_characters _

theorem outputOf_signs (lowered : outputOf f used arguments = .ok output) :
    output.pieces.flatMap Format.Piece.signs = arguments.flatMap Expr.signs := by
  induction arguments generalizing used output with
  | nil =>
      cases lowered
      rfl
  | cons e arguments ih =>
      rw [List.flatMap_cons]
      rcases outputOf_cons lowered with ⟨value, text, rest, known, written, found, rfl⟩ |
        ⟨unknown, conversion, shown, ⟨cell, rest, -, found, rfl⟩ | ⟨code, rest, -, -, found, rfl⟩⟩
      · rw [Expr.signs_of_value? known written, ← ih found]
        rfl
      · rw [Expr.signs_of_type unknown shown, ← ih found]
        rfl
      · rw [Expr.signs_of_type unknown shown, ← ih found]
        rfl

/-- Each argument could also be written alone. -/
theorem outputOf_alone (lowered : outputOf f used arguments = .ok output) :
    ∀ e ∈ arguments, ∀ n, ∃ alone, outputOf f n [e] = .ok alone := by
  induction arguments generalizing used output with
  | nil => exact fun e mem => absurd mem List.not_mem_nil
  | cons e arguments ih =>
      rcases outputOf_cons lowered with ⟨value, text, rest, known, written, found, rfl⟩ |
        ⟨unknown, conversion, shown, ⟨cell, rest, direct, found, rfl⟩ |
          ⟨code, rest, indirect, evaluated, found, rfl⟩⟩
      all_goals refine List.forall_mem_cons.mpr ⟨fun n => ?_, ih found⟩
      · exact ⟨_, by rw [outputOf, known]; dsimp only; rw [written]; rfl⟩
      · exact ⟨_, by rw [outputOf, unknown]; dsimp only; rw [shown]; dsimp only; rw [direct]; rfl⟩
      · exact ⟨_, by
          rw [outputOf, unknown]; dsimp only; rw [shown]; dsimp only; rw [indirect]
          dsimp only; rw [evaluated]; rfl⟩

theorem Expr.base_of_direct? (direct : e.direct? f = some cell) : cell.base = .register ebp := by
  obtain ⟨-, -, -, -, base⟩ := Expr.exists_reference_of_direct? direct
  exact base

theorem Expr.shown?_of_value? {value : Value} (known : e.value? = some value) : e.shown? f = none := by
  cases e with
  | const | aggregate => rfl
  | _ => cases known

theorem Turn.handed_of_value? {value : Value} (known : e.value? = some value) (m : Machine) :
    Turn.handed f m ⟨e, []⟩ = [] := handed_of_hidden (Expr.shown?_of_value? known)

theorem Expr.shown?_of_direct? {conversion : Conversion} (direct : e.direct? f = some cell)
    (shown : Conversion.ofType? e.type = some conversion) :
    e.shown? f = some (cell.sized conversion.width) := by
  simp [shown?, direct, shown]

theorem Expr.shown?_of_indirect (indirect : e.direct? f = none) : e.shown? f = none := by
  simp [shown?, indirect]

theorem Machine.exists_contents? (m : Machine) {x : Memory} (base : x.base = .register .ebp) :
    ∃ v, m.contents? x = some v := by
  unfold contents? address?
  rw [base]
  exact ⟨_, rfl⟩

end Lowering

variable {env : Environment} {p : Program} {listing : Listing} {l : Ground} {a : env.Call}
  {calls outer : List env.Call} {s t : Stage env} {g : Function} {i j n used : Nat}

section Steps

variable (derives : Checking.Program p) (lowered : p.lower = .ok listing)
  (sound : l.Sound listing.levels) (short : listing.code.length ≤ 2 ^ 32)
  (behaves : env.Behaves l listing.levels)

include derives lowered sound short behaves

/-- Dwords are moved from the stack to the temporaries, and the others stay. -/
theorem Stage.Stays.moves (stays : Stays p listing l (a :: outer) i j s t)
    (at_work : AtWork p listing l s.process s.calls) (same : s.calls = a :: outer)
    (back : t.calls = a :: outer) (spot : Spot p listing a.function)
    (lower : spot.start ≤ s.process.position) (upper : s.process.position + n < spot.start + spot.body.length)
    (last : s.process.position + n ≤ t.process.position)
    (has : Code.Has listing.code s.process.position (frameSlots used n))
    (free : a.function.locals.size ≤ used) (room : used + 4 * n ≤ spot.frameSize) :
    ∃ s', s.Runs p listing l (frameSlots used n) s' ∧ Stays p listing l (a :: outer) i j s' t ∧
      s'.process.machine.dwords (below l.top (a.base l + used + 4 * n)) n =
        s.process.machine.dwords s.process.machine.esp n ∧
      (∀ d, a.Hides l spot.frameSize d → d ≤ a.base l + used ∨ a.base l + used + 4 * n < d →
        s'.process.machine.bytes (below l.top d) = s.process.machine.bytes (below l.top d)) ∧
      ∃ k, n ≤ k ∧
        s.process.machine.esp = below l.top (a.base l + spot.frameSize + 4 * k) ∧
        a.base l + spot.frameSize + 4 * k ≤ l.room := by
  have half := sound.room
  induction n generalizing s with
  | zero =>
      obtain ⟨φ, holds⟩ := AtWork.holds derives lowered (same ▸ at_work) spot lower (by omega)
      exact ⟨s, ⟨has, rfl, rfl, .refl⟩, stays, rfl, fun _ _ _ => rfl, φ.stack.length, Nat.zero_le _,
        holds.esp, holds.fits⟩
  | succ n ih =>
      obtain ⟨φ, holds⟩ := AtWork.holds derives lowered (same ▸ at_work) spot lower (by omega)
      obtain ⟨s₁, step, stays₁, same₁, position, -, exact⟩ :=
        stays.next derives lowered sound short behaves at_work rfl same back (by omega) spot lower
          (by omega) has.head rfl
      have at_work₁ := step.reaches.works derives lowered sound short behaves at_work
      obtain ⟨s', runs, stays', moved, spares, k, le, esp₁, fits₁⟩ := ih stays₁ at_work₁ same₁
        (by omega) (by omega) (by omega) (position ▸ has.tail) (by omega)
      obtain ⟨does, -⟩ := Environment.does_of_step has.head rfl ⟨by decide, by decide⟩ (exact rfl)
      have machine := does.executed rfl
      rw [instruction?_pop_frameSlot, Option.some.injEq, holds.active.frame, a.frame_eq l,
        below_below] at machine
      have fits := holds.fits
      have link := a.link_cases
      have base : a.base l = a.depth l + a.link := rfl
      have bytes : s₁.process.machine.bytes = s.process.machine.bytes.set
          (below l.top (a.base l + (used + 4 * (n + 1)))) (s.process.machine.bytes.dword s.process.machine.esp) := by
        rw [← machine]
        rfl
      have esp : s₁.process.machine.esp = s.process.machine.esp + 4 := by
        rw [← machine]
        rfl
      have count : φ.stack.length = k + 1 := by
        have place : below l.top (a.base l + spot.frameSize + 4 * φ.stack.length - 4) =
            below l.top (a.base l + spot.frameSize + 4 * k) := by
          rw [← esp₁, esp, holds.esp]
          exact (below_add_of_le (k := 4) (by omega)).symm
        have := below_inj place (by omega) (by omega)
        omega
      refine ⟨s', runs.cons has (same ▸ step) (same₁.trans same.symm) position, stays', ?_, ?_, ?_⟩
      · have place : a.base l + used + 4 * (n + 1) = a.base l + used + 4 * n + 4 := by omega
        have next : below l.top (a.base l + used + 4 * (n + 1)) + 4 =
            below l.top (a.base l + used + 4 * n) := by
          rw [place]
          exact below_add l.top _ 4
        have first : s'.process.machine.bytes.dword (below l.top (a.base l + used + 4 * (n + 1))) =
            s.process.machine.bytes.dword s.process.machine.esp := by
          rw [place, dword_below (c := s₁.process.machine.bytes), bytes, ← place, Nat.add_assoc,
            Bytes.dword_set_self]
          exact fun d above le => spares d ⟨by omega, by omega⟩ (.inr above)
        rw [Machine.dwords_succ, Machine.dwords_succ, first, next, moved, ← esp, esp₁]
        congr 1
        refine Machine.dwords_congr (by omega) fun d above le => ?_
        rw [bytes]
        exact Bytes.set_below (by omega) (by omega) (by omega) (by omega)
      · intro d hides outside
        rw [spares d hides (by omega), bytes]
        exact Bytes.set_below (by omega) (by omega) (by have := hides.2; omega) (by omega)
      · exact ⟨k + 1, by omega, by rw [holds.esp, count], by omega⟩

/-- The code of an expression has neither labels nor jumps, and names no temporary. -/
def Environment.Call.Quiet (l : Ground) (a : env.Call) (code : Code) : Prop :=
  ∀ x ∈ code, x.isMark = false ∧ ∀ d, a.base l + a.function.locals.size < d → ¬ a.Names l x d

/-- One argument is evaluated and moved to its place. -/
theorem Stage.Stays.keeps {code : Code} (stays : Stays p listing l (a :: outer) i j s t)
    (at_work : AtWork p listing l s.process s.calls) (same : s.calls = a :: outer)
    (back : t.calls = a :: outer) (spot : Spot p listing a.function) (quiet : a.Quiet l code)
    (lower : spot.start ≤ s.process.position)
    (upper : s.process.position + code.length + n < spot.start + spot.body.length)
    (last : s.process.position + code.length + n ≤ t.process.position)
    (has : Code.Has listing.code s.process.position (code ++ frameSlots used n))
    (free : a.function.locals.size ≤ used) (room : used + 4 * n ≤ spot.frameSize) :
    ∃ s₁ s₂, s.Runs p listing l code s₁ ∧ s₁.Runs p listing l (frameSlots used n) s₂ ∧
      Stays p listing l (a :: outer) i j s₂ t ∧
      s₂.process.machine.dwords (below l.top (a.base l + used + 4 * n)) n =
        s₁.process.machine.dwords s₁.process.machine.esp n ∧
      ∀ d, a.Hides l spot.frameSize d → d ≤ a.base l + used →
        s₂.process.machine.bytes (below l.top d) = s.process.machine.bytes (below l.top d) := by
  obtain ⟨s₁, runs, stays₁, spares₁⟩ := stays.stretch derives lowered sound short behaves at_work
    rfl same back spot lower (by omega) (by omega) has.left fun x mem => (quiet x mem).1
  have at_work₁ := runs.stays.reaches.works derives lowered sound short behaves at_work
  have position := runs.position
  obtain ⟨s₂, moves, stays₂, moved, spares₂, -⟩ := stays₁.moves derives lowered sound short behaves
    at_work₁ (runs.calls.trans same) back spot (by omega) (by omega) (by omega)
    (position ▸ has.right) free room
  refine ⟨s₁, s₂, runs, moves, stays₂, moved, fun d hides le => ?_⟩
  rw [spares₂ d hides (.inl le), spares₁ d hides fun x mem => (quiet x mem).2 d hides.1]

/-- Along the code of the arguments they are evaluated one after the other. What then is at their
operands are the values that they had, as long as they are no variables of the frame. -/
theorem Stage.Stays.evaluates {arguments : List Expr} {output : Output} {spot : Spot p listing a.function}
    (stays : Stays p listing l (a :: outer) i t.process.position s t)
    (at_work : AtWork p listing l s.process s.calls) (same : s.calls = a :: outer)
    (back : t.calls = a :: outer) (lower : spot.start ≤ s.process.position)
    (frame : t.process.machine.ebp = below l.top (a.base l))
    (lowered' : outputOf spot.frames used arguments = .ok output)
    (last : s.process.position + output.code.length = t.process.position)
    (upper : t.process.position < spot.start + spot.body.length)
    (has : Code.Has listing.code s.process.position output.code)
    (quiet : ∀ e ∈ arguments, ∀ code, e.code spot.frames = .ok code → a.Quiet l code)
    (free : a.function.locals.size ≤ used)
    (room : used + outputTemporaries spot.frames arguments ≤ spot.frameSize) :
    ∃ turns, turns.map Turn.argument = arguments ∧ Evaluates p listing l spot.frames used s turns t ∧
      output.operands.map t.process.machine.contents? =
        (turns.flatMap (Turn.handed spot.frames t.process.machine)).map some ∧
      (∀ turn ∈ turns, (turn.handed spot.frames t.process.machine).length =
        (Format.conversions turn.argument.signs).length) ∧
      ∀ d, a.Hides l spot.frameSize d → d ≤ a.base l + used →
        t.process.machine.bytes (below l.top d) = s.process.machine.bytes (below l.top d) := by
  induction arguments generalizing used s output with
  | nil =>
      cases lowered'
      obtain rfl := stays.eq_of_le same (Nat.le_of_eq last.symm)
      exact ⟨[], rfl, .done used s, rfl, fun _ mem => absurd mem List.not_mem_nil, fun _ _ _ => rfl⟩
  | cons e arguments ih =>
      obtain ⟨own, others⟩ := List.forall_mem_cons.mp quiet
      rw [outputTemporaries] at room
      rcases outputOf_cons lowered' with ⟨value, text, rest, known, written, found, rfl⟩ |
        ⟨unknown, conversion, shown, ⟨cell, rest, direct, found, rfl⟩ |
          ⟨code, rest, indirect, evaluated, found, rfl⟩⟩
      · obtain ⟨turns, whole, evaluates, operands, lengths, spares⟩ :=
          ih stays at_work same lower found last has others free (by omega)
        have handed := Turn.handed_of_value? (f := spot.frames) known t.process.machine
        refine ⟨⟨e, []⟩ :: turns, by rw [List.map_cons, whole], .constant known evaluates, ?_,
          List.forall_mem_cons.mpr ⟨?_, lengths⟩, spares⟩
        · rw [List.flatMap_cons, handed]
          exact operands
        · rw [handed, Expr.conversions_of_value? known]
          rfl
      · obtain ⟨turns, whole, evaluates, operands, lengths, spares⟩ :=
          ih stays at_work same lower found last has others free (by omega)
        have base : (cell.sized conversion.width).base = .register ebp :=
          (cell.sized_base conversion.width).trans (Expr.base_of_direct? direct)
        have seen := Expr.shown?_of_direct? direct shown
        obtain ⟨v, before⟩ := s.process.machine.exists_contents? base
        obtain ⟨w, after⟩ := t.process.machine.exists_contents? base
        have handed : Turn.handed spot.frames t.process.machine ⟨e, [v]⟩ = [w] :=
          Turn.handed_of_shown seen after
        refine ⟨⟨e, [v]⟩ :: turns, by rw [List.map_cons, whole], .variable unknown seen before evaluates,
          ?_, List.forall_mem_cons.mpr ⟨?_, lengths⟩, spares⟩
        · rw [List.flatMap_cons, handed, List.map_cons, operands, after]
          rfl
        · rw [handed, Expr.signs_of_type unknown shown]
          rfl
      · obtain ⟨n, size⟩ := e.type.dvd_size
        have own' : e.temporary spot.frames = e.type.size := by
          simp [Expr.temporary, unknown, indirect]
        rw [own', size] at room
        have popped : popMemory (frameSlot (used + e.type.size)) e.type.size = frameSlots used n := by
          rw [size]
          exact popMemory_frameSlot used n
        have count : (frameSlots used n).length = n := by simp [frameSlots_eq]
        dsimp only at last has
        rw [popped] at last has
        rw [List.length_append, List.length_append] at last
        obtain ⟨s₁, s₂, runs, moves, stays₂, moved, spares₂⟩ := stays.keeps derives lowered sound short
          behaves at_work same back spot (own code evaluated) lower (by omega) (by omega) has.left free
          (by omega)
        have at_work₁ := runs.stays.reaches.works derives lowered sound short behaves at_work
        have at_work₂ := moves.stays.reaches.works derives lowered sound short behaves at_work₁
        have position₁ := runs.position
        have position₂ := moves.position
        have remaining : Code.Has listing.code s₂.process.position rest.code := by
          have behind := has.right
          rw [List.length_append, ← Nat.add_assoc, ← position₁, ← position₂] at behind
          exact behind
        obtain ⟨turns, whole, evaluates, operands, lengths, spares⟩ := ih stays₂ at_work₂
          (moves.calls.trans (runs.calls.trans same)) (by omega) found (by omega)
          remaining others (by omega) (by omega)
        -- The later arguments spare the place of this one.
        have kept : t.process.machine.dwords (below l.top (a.base l + used + 4 * n)) n =
            s₁.process.machine.topmost e.type.size := by
          rw [Machine.topmost, size, mul_div_dwordSize, ← moved]
          exact Machine.dwords_congr (by omega) fun d above le =>
            spares d ⟨by omega, by omega⟩ (by omega)
        have operand : t.process.machine.contents? ((frameSlot (used + e.type.size)).sized conversion.width) =
            some (s₁.process.machine.topmost e.type.size) := by
          show (t.process.machine.address? (frameSlot (used + e.type.size))).map
            (t.process.machine.dwords · (conversion.width.bytes / dwordSize)) = _
          rw [address?_frameSlot, frame, below_below, Option.map_some, Conversion.bytes_width shown,
            ← kept, size, mul_div_dwordSize, Nat.add_assoc]
        rw [← popped] at moves
        have handed : Turn.handed spot.frames t.process.machine
            ⟨e, [s₁.process.machine.topmost e.type.size]⟩ = [s₁.process.machine.topmost e.type.size] :=
          Turn.handed_of_hidden (Expr.shown?_of_indirect indirect)
        refine ⟨⟨e, [s₁.process.machine.topmost e.type.size]⟩ :: turns, by rw [List.map_cons, whole],
          .other unknown indirect evaluated runs moves evaluates, ?_,
          List.forall_mem_cons.mpr ⟨?_, lengths⟩, fun d hides le => ?_⟩
        · rw [List.flatMap_cons, handed, List.map_cons, operands, operand]
          rfl
        · rw [handed, Expr.signs_of_type unknown shown]
          rfl
        · rw [spares d hides (by omega), spares₂ d hides le]

end Steps

end PascalX86
