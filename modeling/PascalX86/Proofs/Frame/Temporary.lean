import Mathlib.Data.List.Infix
import PascalX86.Proofs.Frame.Access
import PascalX86.Proofs.Lowering.Site

/-!
# Temporaries

The bounds of `for` statements and the arguments of output statements lie below the locals. Those of
a statement stay inside the bytes that are counted for it, and apart from those around it.
-/

set_option autoImplicit false

namespace PascalX86

open Register

/-- So many bytes right below the ones that are taken. -/
def Region.below (used size : Nat) : Region := ⟨-(used + size : Nat), size⟩

theorem Region.below_within {used size used' size' : Nat} (inner : used' ≤ used)
    (outer : used + size ≤ used' + size') : (Region.below used size).Within (.below used' size') := by
  unfold Region.Within Region.below
  dsimp only
  omega

theorem Region.below_apart {used size used' size' : Nat} (after : used + size ≤ used') :
    (Region.below used size).Apart (.below used' size') := by
  unfold Region.Apart Region.below
  dsimp only
  omega

theorem reaching_frameSlot {used size : Nat} (room : used + size < 2 ^ 31) :
    (frameSlot (used + size)).reaching size = .below used size := by
  unfold Memory.reaching Region.below
  rw [frameSlot, Memory.dword, toInt_neg_ofNat (Nat.le_of_lt room)]

/-- Where the arguments of an output statement go. Constants and variables of the frame, which stay
where they are, take no bytes. -/
def outputRegions (f : Frames) (used : Nat) : List Expr → List Region
  | [] => []
  | e :: arguments =>
      .below used (e.temporary f) :: outputRegions f (used + e.temporary f) arguments

/-- The temporaries that a statement keeps itself. -/
def Site.hidden (f : Frames) (s : Site) : List Region :=
  match s.stmt with
  | .for .. => [.below s.used dwordSize]
  | .write _ arguments _ => outputRegions f s.used arguments
  | _ => []

variable {f : Frames}

theorem outputRegions_within {arguments : List Expr} {used : Nat} {r : Region}
    (mem : r ∈ outputRegions f used arguments) :
    r.Within (.below used (outputTemporaries f arguments)) := by
  induction arguments generalizing used with
  | nil => cases mem
  | cons e arguments ih =>
      rw [outputTemporaries]
      rcases List.mem_cons.mp mem with rfl | mem
      · apply Region.below_within <;> omega
      · apply (ih mem).trans
        apply Region.below_within <;> omega

theorem outputRegions_apart (arguments : List Expr) (used : Nat) :
    (outputRegions f used arguments).Pairwise Region.Apart := by
  induction arguments generalizing used with
  | nil => exact .nil
  | cons e arguments ih =>
      refine .cons (fun r mem => ?_) (ih _)
      -- The rest lies below what this argument takes.
      have rest := outputRegions_within mem
      unfold Region.Within Region.below at rest
      unfold Region.Apart Region.below
      dsimp only at rest ⊢
      omega

namespace Site

variable {s t : Site} {l : Loop} {r : Region}

theorem hidden_within (mem : r ∈ s.hidden f) :
    r.Within (.below s.used (s.stmt.temporaries f)) := by
  unfold hidden at mem
  split at mem
  · next eq =>
    rw [List.mem_singleton] at mem
    subst mem
    rw [eq, Stmt.temporaries]
    apply Region.below_within <;> omega
  · next eq =>
    rw [eq]
    exact outputRegions_within mem
  · cases mem

theorem hidden_apart (f : Frames) (s : Site) : (s.hidden f).Pairwise Region.Apart := by
  unfold hidden
  split
  · exact List.pairwise_singleton _ _
  · exact outputRegions_apart _ _
  · exact .nil

theorem temporaries_le_of_mem {statements : List Stmt} {x : Stmt} (mem : x ∈ statements) :
    x.temporaries f ≤ temporariesOf f statements := by
  induction statements with
  | nil => cases mem
  | cons y statements ih =>
      rw [temporariesOf]
      rcases List.mem_cons.mp mem with rfl | mem
      · exact Nat.le_max_left _ _
      · exact Nat.le_trans (ih mem) (Nat.le_max_right _ _)

theorem Part.temporaries (part : Part s t) : t.stmt.temporaries f ≤ s.stmt.temporaries f := by
  cases part with
  | ifThen => exact Nat.le_refl _
  | first => exact Nat.le_max_left _ _
  | second => exact Nat.le_max_right _ _
  | block => exact temporaries_le_of_mem (by simp)

/-- The body of a loop counts from below what the loop keeps itself. -/
theorem Turn.temporaries (turn : Turn s l t) : ∃ own, t.used = s.used + own ∧
    own + t.stmt.temporaries f ≤ s.stmt.temporaries f ∧
    ∀ r ∈ s.hidden f, r.Within (.below s.used own) := by
  cases turn with
  | «while» => exact ⟨0, rfl, Nat.le_of_eq (Nat.zero_add _), by simp [hidden]⟩
  | «for» => exact ⟨dwordSize, rfl, Nat.le_refl _, by simp [hidden, Region.below_within]⟩

theorem Contains.temporaries (contains : Contains s t) :
    s.used ≤ t.used ∧ t.used + t.stmt.temporaries f ≤ s.used + s.stmt.temporaries f := by
  induction contains with
  | refl => exact ⟨Nat.le_refl _, Nat.le_refl _⟩
  | tail _ step ih =>
      rcases step with part | ⟨l, turn⟩
      · have used := part.used
        have less := part.temporaries (f := f)
        omega
      · obtain ⟨own, used, less, -⟩ := turn.temporaries (f := f)
        omega

/-- Whatever lies inside a statement keeps its temporaries among the bytes counted for that
statement. -/
theorem Contains.hidden (contains : Contains s t) (mem : r ∈ t.hidden f) :
    r.Within (.below s.used (s.stmt.temporaries f)) := by
  obtain ⟨inner, outer⟩ := contains.temporaries (f := f)
  exact (hidden_within mem).trans (Region.below_within inner outer)

/-- What a loop keeps is apart from the temporaries in its body. -/
theorem Turn.hidden_apart {turn inner : Site} (turns : Turn s l turn) (contains : Contains turn inner)
    {r' : Region} (mem : r ∈ s.hidden f) (mem' : r' ∈ inner.hidden f) : r.Apart r' := by
  obtain ⟨own, used, -, kept⟩ := turns.temporaries (f := f)
  have first := kept r mem
  have second := contains.hidden mem'
  rw [used] at second
  unfold Region.Within Region.below at first second
  unfold Region.Apart
  dsimp only at first second
  omega

end Site

section Code

variable {code : Code} {r : Region}

@[simp] theorem Memory.dwords_dword (q : Register) (d : Int32) :
    (Memory.dword q d).dwords dwordSize = [.dword q d] := by
  show [((Memory.dword q d).sized .dword).offset (Int32.ofNat 0)] = _
  simp [Memory.dword, Memory.sized, Memory.offset]

/-- Each argument that takes bytes is popped into them. -/
theorem popped_of_mem_outputRegions {arguments : List Expr} {used : Nat} {output : Output}
    (lowered : outputOf f used arguments = .ok output) (mem : r ∈ outputRegions f used arguments)
    (taken : 0 < r.size) :
    ∃ used', r = .below used' r.size ∧ popMemory (frameSlot (used' + r.size)) r.size <:+: output.code := by
  induction arguments generalizing used output with
  | nil => cases mem
  | cons e arguments ih =>
      -- Either the argument takes no bytes, or it is popped right before the others follow.
      have others {output rest : Output} {before : Code} (outside : r ≠ .below used (e.temporary f))
          (lowered : outputOf f (used + e.temporary f) arguments = .ok rest)
          (eq : output.code = before ++ rest.code) :
          ∃ used', r = .below used' r.size ∧
            popMemory (frameSlot (used' + r.size)) r.size <:+: output.code := by
        obtain ⟨used', same, part⟩ := ih lowered ((List.mem_cons.mp mem).resolve_left outside)
        exact ⟨used', same, eq ▸ part.trans (List.suffix_append before rest.code).isInfix⟩
      have untaken (free : e.temporary f = 0) : r ≠ .below used (e.temporary f) := by
        rintro rfl
        rw [free] at taken
        exact Nat.lt_irrefl 0 taken
      unfold outputOf at lowered
      split at lowered
      · next value known =>
        have free : e.temporary f = 0 := by simp [Expr.temporary, known]
        split at lowered
        · simp only [bind_eq_ok] at lowered
          obtain ⟨rest, lowered, eq⟩ := lowered
          cases eq
          rw [← Nat.add_zero used, ← free] at lowered
          exact others (untaken free) lowered (List.nil_append rest.code).symm
        · cases lowered
      · next unknown =>
        split at lowered
        · next conversion shown =>
          split at lowered
          · next cell direct =>
            have free : e.temporary f = 0 := by simp [Expr.temporary, direct]
            simp only [bind_eq_ok] at lowered
            obtain ⟨pair, same, rest, lowered, eq⟩ := lowered
            cases same
            cases eq
            exact others (untaken free) lowered (List.nil_append rest.code).symm
          · next indirect =>
            have size : e.temporary f = e.type.size := by simp [Expr.temporary, unknown, indirect]
            simp only [bind_eq_ok] at lowered
            obtain ⟨code, -, pair, same, rest, lowered, eq⟩ := lowered
            cases same
            cases eq
            by_cases own : r = .below used (e.temporary f)
            · rw [own, size]
              refine ⟨used, rfl, code, rest.code, ?_⟩
              rfl
            · exact others own lowered rfl
        · cases lowered

/-- The code of a statement moves what it keeps from the stack to its place. -/
theorem Site.popped_of_mem_hidden {s : Site} (lowered : s.code f = .ok code) (mem : r ∈ s.hidden f)
    (taken : 0 < r.size) :
    ∃ used, r = .below used r.size ∧ popMemory (frameSlot (used + r.size)) r.size <:+: code := by
  obtain ⟨loop?, used, label, stmt⟩ := s
  cases stmt with
  | «for» info counter first last direction body =>
      obtain rfl := List.mem_singleton.mp mem
      simp only [Site.code, Stmt.code, bind_eq_ok] at lowered
      obtain ⟨start, -, target, -, stop, -, inner, -, eq⟩ := lowered
      cases eq
      refine ⟨used, rfl, ?_⟩
      have popped : popMemory (frameSlot (used + dwordSize)) dwordSize =
          [.instruction .pop [frameSlot (used + dwordSize)]] := by
        simp [popMemory, frameSlot]
      show popMemory (frameSlot (used + dwordSize)) dwordSize <:+: _
      rw [popped, List.singleton_infix_iff]
      simp
  | write info arguments newline =>
      simp only [Site.code, Stmt.code, writeCode, bind_eq_ok] at lowered
      obtain ⟨output, lowered, eq⟩ := lowered
      obtain ⟨used', same, part⟩ := popped_of_mem_outputRegions lowered mem taken
      refine ⟨used', same, part.trans ?_⟩
      split at eq
      · cases eq
        exact List.infix_refl _
      · cases eq
        exact (List.prefix_append _ _).isInfix
  | _ => cases mem

end Code

end PascalX86
