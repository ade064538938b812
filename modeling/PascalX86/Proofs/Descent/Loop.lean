import PascalX86.Proofs.Descent.Basic

/-!
# Loops and recursions

A loop whose turns take tokens makes the same turns under any bound that covers the tokens left, and a
recursion that takes one on its way down reads the same at any such depth. So both are what they would
be without bounds.
-/

set_option autoImplicit false

namespace PascalX86.Parser

variable {α β : Type} {fork : Fork} {n : Nat} {P : Token → Prop}

-- The tokens that a turn of a loop takes: one if the loop goes on.
def turned : Option α → Nat
  | none => 0
  | some _ => 1

-- The turn of a loop does nothing where the text ends.
def Stops (step : Parser (Option α)) : Prop :=
  ∀ s, s.cursor.current.value.isEndOfFile = true → step s = .ok (none, s)

section Loops

variable {step step' : Parser (Option α)} {turn turn' : α → Parser (Option α)}

theorem manyUpTo_of_none {s : ParserState} (stops : step s = .ok (none, s)) (i : Nat) :
    manyUpTo step i s = .ok ([], s) := by
  cases i with
  | zero => rfl
  | succ i => exact bind_of_ok stops

theorem Takes.ended {p q : Parser α} {a : α}
    (stops : ∀ s, s.cursor.current.value.isEndOfFile = true → p s = .ok (a, s))
    (stops' : ∀ s, s.cursor.current.value.isEndOfFile = true → q s = .ok (a, s)) : Moves fork 0 p q := by
  intro s c c' forked none _
  have ends := forked.closed.ends (Nat.le_zero.mp none)
  rw [stops (s.placed c) ends, stops' (s.placed c') (forked.current ▸ ends)]
  exact .answered forked (.refl _)

-- The induction is on the tokens left, which bound the turns from below in both loops.
theorem takes_manyUpTo (takes : Takes fork n (fun _ => True) turned step step') (stops : Stops step)
    (stops' : Stops step') (m : Nat) (le : m ≤ n) (i j : Nat) (hi : m ≤ i) (hj : m ≤ j) :
    Moves fork m (manyUpTo step i) (manyUpTo step' j) := by
  induction m generalizing i j with
  | zero =>
      exact .ended (fun s ends => manyUpTo_of_none (stops s ends) i)
        fun s ends => manyUpTo_of_none (stops' s ends) j
  | succ m ih =>
      obtain ⟨i, rfl⟩ := Nat.exists_eq_add_of_le' (Nat.le_trans (Nat.le_add_left 1 m) hi)
      obtain ⟨j, rfl⟩ := Nat.exists_eq_add_of_le' (Nat.le_trans (Nat.le_add_left 1 m) hj)
      refine (takes.weaken le).bind fun answer => ?_
      cases answer with
      | none => exact .pure rfl
      | some a =>
          have rest := ih (by omega) i j (by omega) (by omega)
          exact rest.seq fun _ => .pure rfl

theorem takes_iterateUpTo (takes : ∀ a, Takes fork n (fun _ => True) turned (turn a) (turn' a))
    (stops : ∀ a, Stops (turn a)) (stops' : ∀ a, Stops (turn' a)) (m : Nat) (le : m ≤ n) (i j : Nat)
    (hi : m ≤ i) (hj : m ≤ j) (a : α) :
    Moves fork m (iterateUpTo turn i a) (iterateUpTo turn' j a) := by
  induction m generalizing i j a with
  | zero =>
      exact .ended (fun s ends => iterateUpTo_of_none (stops a s ends) i)
        fun s ends => iterateUpTo_of_none (stops' a s ends) j
  | succ m ih =>
      obtain ⟨i, rfl⟩ := Nat.exists_eq_add_of_le' (Nat.le_trans (Nat.le_add_left 1 m) hi)
      obtain ⟨j, rfl⟩ := Nat.exists_eq_add_of_le' (Nat.le_trans (Nat.le_add_left 1 m) hj)
      refine ((takes a).weaken le).bind fun answer => ?_
      cases answer with
      | none => exact .pure rfl
      | some b => exact ih (by omega) i j (by omega) (by omega) b

theorem Takes.many (takes : Takes fork n (fun _ => True) turned step step') (stops : Stops step)
    (stops' : Stops step') : Takes fork n P (fun _ => 0) (many step) (many step') :=
  .bounded fun m le i j hi hj => (takes_manyUpTo takes stops stops' m le i j hi hj).any

theorem Takes.iterate (takes : ∀ a, Takes fork n (fun _ => True) turned (turn a) (turn' a))
    (stops : ∀ a, Stops (turn a)) (stops' : ∀ a, Stops (turn' a)) (a : α) :
    Takes fork n P (fun _ => 0) (iterate turn a) (iterate turn' a) :=
  .bounded fun m le i j hi hj => (takes_iterateUpTo takes stops stops' m le i j hi hj a).any

end Loops

section Lists

variable {p q : Parser α} {m : Mark} {k : Nat}

/-- The turn of a loop over items that a mark stands in front of. -/
def listed (m : Mark) (item : Parser α) : Parser (Option α) := do
  if ← eat m then
    return some (← item)
  else
    return none

/-- The turn of a loop over items that start with a name. -/
def named (item : Parser α) : Parser (Option α) := do
  if ← atName then
    return some (← item)
  else
    return none

theorem separatedBy_eq (m : Mark) (item : Parser α) :
    separatedBy m item = (do return (← item) :: (← many (listed m item))) := rfl

theorem whileNames_eq (item : Parser α) :
    whileNames item = (do return (← item) :: (← many (named item))) := rfl

theorem isName_inner (u : Token) (is : u.isName = true) : u.isEndOfFile = false := by
  cases u <;> first | rfl | cases is

theorem test_at_end {r : Token → Bool} {f : Bool → Parser α} {s : ParserState}
    (inner : ∀ u : Token, r u = true → u.isEndOfFile = false)
    (ends : s.cursor.current.value.isEndOfFile = true) : ((do return r (← token)) >>= f) s = f false s := by
  have fails : r s.cursor.current.value = false :=
    Bool.eq_false_iff.mpr fun is => Bool.noConfusion ((inner _ is).symm.trans ends)
  show f (r s.cursor.current.value) s = _
  rw [fails]

theorem look_at_end {f : Token → Parser α} {s : ParserState}
    (ends : s.cursor.current.value.isEndOfFile = true) : (token >>= f) s = f .endOfFile s := by
  show f s.cursor.current.value s = _
  generalize s.cursor.current.value = u at ends ⊢
  cases u <;> first | rfl | cases ends

theorem stops_listed : Stops (listed m p) := fun s ends =>
  have absent : eat m s = .ok (false, s) := test_at_end isMark_inner ends
  bind_of_ok absent

theorem stops_named : Stops (named p) := fun _ ends => test_at_end isName_inner ends

theorem takes_listed (h : Moves fork (n - 1) p q) : Takes fork n P turned (listed m p) (listed m q) :=
  (takes_eat m).eaten (h.seq fun _ => .pure rfl) (.pure rfl)

theorem takes_named (h : Takes fork n (fun _ => True) (fun _ => 1) p q) :
    Takes fork n P turned (named p) (named q) :=
  .test (h.any.bind fun _ => .pure rfl) (.pure rfl)

theorem Takes.separatedBy (h : Takes fork n (fun _ => True) (fun _ => k) p q) :
    Takes fork n P (fun _ => k) (separatedBy m p) (separatedBy m q) := by
  have item : Moves fork (n - k - 1) p q := (h.weaken (by omega)).mono fun _ => Nat.zero_le _
  rw [separatedBy_eq, separatedBy_eq]
  refine h.any.bind fun a => ?_
  rw [Nat.sub_self]
  exact (Takes.many (takes_listed item) stops_listed stops_listed).seq fun _ => .pure rfl

theorem Takes.whileNames (h : Takes fork n (fun _ => True) (fun _ => 1) p q) :
    Takes fork n P (fun _ => 1) (whileNames p) (whileNames q) := by
  rw [whileNames_eq, whileNames_eq]
  refine h.any.bind fun a => ?_
  have item := takes_named (P := fun _ => True) (h.weaken (Nat.sub_le n 1))
  exact (Takes.many item stops_named stops_named).seq fun _ => .pure rfl

theorem takes_identifiers : Takes fork n P (fun _ => 1) identifiers identifiers :=
  takes_identifier.separatedBy

end Lists

section Recursion

variable {p q : Parser α} {k : α → Nat}

/-- Where the text has an end, the parser moves forward over `k a` tokens or more if it answers `a`. -/
def Consumes (k : α → Nat) (p : Parser α) : Prop :=
  ∀ s, s.cursor.Closed → ∀ a s', p s = .ok (a, s') → s'.cursor.Closed ∧ s.cursor.Passes (k a) s'.cursor

-- The parser never moves back.
abbrev Forward (p : Parser α) : Prop := p.Consumes fun _ => 0

/-- The production goes down only after it has taken a token: what it does is decided by what is done
inside it where fewer tokens are left. -/
def Descends (rule : Parser α → Parser β) : Prop :=
  ∀ p q : Parser α, p.Forward → q.Forward → ∀ s, s.cursor.Closed →
    (∀ s', s'.cursor.Closed → s'.cursor.remaining < s.cursor.remaining → p s' = q s') →
    rule p s = rule q s

/-- A recursion with a depth for each token that is left. -/
def unbounded (p : Nat → Parser α) : Parser α := do
  p (← remaining)

/-- A recursion of the grammar without a bound: it goes down, and does what the production does with it
inside. -/
structure Recursive (rule : Parser α → Parser α) (p : Parser α) : Prop where
  forward : p.Forward
  equation : ∀ s, s.cursor.Closed → p s = rule p s
  descends : Descends rule

/-- A recursion of the grammar up to some depth. Where no token is left both the production and the
lowest depth fail alike. -/
structure Grounded (expected : List Expectation) (rule : Parser α → Parser α) (p : Nat → Parser α) :
    Prop where
  zero : p 0 = unexpected expected
  succ : ∀ n, p (n + 1) = rule (p n)
  ends : ∀ p s, s.cursor.current.value.isEndOfFile = true → rule p s = (unexpected expected : Parser α) s
  takes : ∀ {fork n p q}, Moves fork n p q → Moves fork (n + 1) (rule p) (rule q)

theorem Takes.consumes (h : ∀ n, Takes .none n (fun _ => True) k p p) : p.Consumes k := by
  intro s closed a s' run
  have alike := h _ s s.cursor s.cursor (.nil closed) (Nat.le_refl _) trivial
  rw [show s.placed s.cursor = s from rfl, run] at alike
  cases alike with
  | answered forked passes => exact ⟨forked.closed, passes⟩

theorem Consumes.takes (hp : p.Consumes k)
    (same : ∀ s, s.cursor.Closed → s.cursor.remaining ≤ n → p s = q s) :
    Takes .none n P k p q := by
  intro s c c' forked least _
  have closed := forked.closed
  rw [forked.eq, ← same (s.placed c) closed least]
  cases run : p (s.placed c) with
  | error e => exact .failed e
  | ok answer =>
      obtain ⟨a, s'⟩ := answer
      obtain ⟨closed', passes⟩ := hp _ closed _ _ run
      exact .answered (s := s') (.nil closed') passes

theorem Takes.run_eq (h : Takes .none n (fun _ => True) k p q) {s : ParserState} (closed : s.cursor.Closed)
    (least : s.cursor.remaining ≤ n) : p s = q s := by
  have alike := h s s.cursor s.cursor (.nil closed) least trivial
  change Alike .none k s.cursor (p s) (q s) at alike
  generalize p s = r at alike ⊢
  generalize q s = r' at alike ⊢
  cases alike with
  | failed e => rfl
  | apart here => cases here
  | answered forked passes => rw [forked.eq]

theorem Descends.of_takes {rule : Parser α → Parser β}
    (ends : ∀ p q s, s.cursor.current.value.isEndOfFile = true → rule p s = rule q s)
    (takes : ∀ {n p q}, Moves .none n p q → Moves .none (n + 1) (rule p) (rule q)) : Descends rule := by
  intro p q hp hq s closed same
  cases left : s.cursor.remaining with
  | zero => exact ends p q s (closed.ends left)
  | succ n =>
      have inside : Moves .none n p q := hp.takes fun s' closed' least => same s' closed' (by omega)
      exact (takes inside).run_eq closed (Nat.le_of_eq left)

namespace Grounded

variable {expected : List Expectation} {rule : Parser α → Parser α} {p : Nat → Parser α}
  (h : Grounded expected rule p)

include h

theorem run_at_end (i : Nat) {s : ParserState} (ends : s.cursor.current.value.isEndOfFile = true) :
    p i s = (unexpected expected : Parser α) s := by
  cases i with
  | zero => rw [h.zero]
  | succ i => rw [h.succ, h.ends _ _ ends]

theorem moves (m : Nat) (i j : Nat) (hi : m ≤ i) (hj : m ≤ j) : Moves fork m (p i) (p j) := by
  induction m generalizing i j with
  -- Either depth may be used up here, but then there is no token left to go down with.
  | zero =>
      intro s c c' forked none _
      have ends : c.current.value.isEndOfFile = true := forked.closed.ends (Nat.le_zero.mp none)
      have ends' : c'.current.value.isEndOfFile = true := forked.current ▸ ends
      rw [h.run_at_end (s := s.placed c) i ends, h.run_at_end (s := s.placed c') j ends']
      exact (Takes.unexpected : Moves fork 0 _ _) s c c' forked none trivial
  | succ m ih =>
      obtain ⟨i, rfl⟩ := Nat.exists_eq_add_of_le' (Nat.le_trans (Nat.le_add_left 1 m) hi)
      obtain ⟨j, rfl⟩ := Nat.exists_eq_add_of_le' (Nat.le_trans (Nat.le_add_left 1 m) hj)
      rw [h.succ, h.succ]
      exact h.takes (ih i j (by omega) (by omega))

theorem moves_remaining : Moves fork n (unbounded p) (unbounded p) :=
  .bounded fun m _ => h.moves m

theorem moves_unbounded : Moves fork n (p n) (unbounded p) :=
  .unbounded fun m least i => h.moves m n i least

theorem recursive : Recursive rule (unbounded p) := by
  refine ⟨Takes.consumes fun n => h.moves_remaining, fun s closed => ?_, .of_takes ?_ h.takes⟩
  · have deeper : Moves .none s.cursor.remaining (p s.cursor.remaining) (p (s.cursor.remaining + 1)) :=
      h.moves _ _ _ (Nat.le_refl _) (Nat.le_add_right _ 1)
    rw [h.succ] at deeper
    calc unbounded p s
        = p s.cursor.remaining s := rfl
      _ = rule (p s.cursor.remaining) s := deeper.run_eq closed (Nat.le_refl _)
      _ = rule (unbounded p) s := (h.takes h.moves_unbounded).run_eq closed (Nat.le_add_right _ 1)
  · exact fun p q s ends => (h.ends p s ends).trans (h.ends q s ends).symm

end Grounded

/-- Without any bound there is one way only to go down and come back. -/
theorem Recursive.unique {rule : Parser α → Parser α} {q : Parser α} (h : Recursive rule p)
    (forward : q.Forward) (equation : ∀ s, s.cursor.Closed → q s = rule q s) {s : ParserState}
    (closed : s.cursor.Closed) : q s = p s := by
  induction left : s.cursor.remaining using Nat.strongRecOn generalizing s with
  | ind m ih =>
      rw [equation s closed, h.equation s closed]
      refine h.descends q p forward h.forward s closed fun s' closed' fewer => ?_
      exact ih _ (left ▸ fewer) closed' rfl

end Recursion

section Unrolling

variable {step : Parser (Option α)} {turn : α → Parser (Option α)} {s : ParserState}

-- One turn more than there are tokens changes nothing, and then the first one can be set apart.
theorem many_run (takes : ∀ n, Takes .none n (fun _ => True) turned step step) (stops : Stops step)
    (closed : s.cursor.Closed) :
    many step s = (do
      match ← step with
      | none => return []
      | some a => return a :: (← many step) : Parser (List α)) s := by
  generalize left : s.cursor.remaining = m
  have deeper : Moves .none m (manyUpTo step m) (manyUpTo step (m + 1)) :=
    takes_manyUpTo (takes m) stops stops m (Nat.le_refl m) m _ (Nat.le_refl m) (Nat.le_add_right m 1)
  have inside : Moves .none m (manyUpTo step m) (many step) := .unbounded fun i least j hj =>
    takes_manyUpTo (takes m) stops stops i least m j least hj
  have least := Nat.le_of_eq left
  calc many step s
      = manyUpTo step m s := by rw [← left]; rfl
    _ = manyUpTo step (m + 1) s := deeper.run_eq closed least
    _ = _ := by
        have first := (takes m).mono fun _ => Nat.zero_le _
        refine Takes.run_eq (k := fun _ => 0) (first.seq fun answer => ?_) closed least
        cases answer with
        | none => exact .pure rfl
        | some a => exact inside.seq fun _ => .pure rfl

theorem iterate_run (takes : ∀ n a, Takes .none n (fun _ => True) turned (turn a) (turn a))
    (stops : ∀ a, Stops (turn a)) (a : α) (closed : s.cursor.Closed) :
    iterate turn a s = (do
      match ← turn a with
      | none => return a
      | some next => iterate turn next : Parser α) s := by
  generalize left : s.cursor.remaining = m
  have deeper : Moves .none m (iterateUpTo turn m a) (iterateUpTo turn (m + 1) a) :=
    takes_iterateUpTo (takes m) stops stops m (Nat.le_refl m) m _ (Nat.le_refl m) (Nat.le_add_right m 1) a
  have inside (b : α) : Moves .none m (iterateUpTo turn m b) (iterate turn b) := .unbounded fun i least j hj =>
    takes_iterateUpTo (takes m) stops stops i least m j least hj b
  have least := Nat.le_of_eq left
  calc iterate turn a s
      = iterateUpTo turn m a s := by rw [← left]; rfl
    _ = iterateUpTo turn (m + 1) a s := deeper.run_eq closed least
    _ = _ := by
        have first := (takes m a).mono fun _ => Nat.zero_le _
        refine Takes.run_eq (k := fun _ => 0) (first.seq fun answer => ?_) closed least
        cases answer with
        | none => exact .pure rfl
        | some b => exact inside b

end Unrolling

end PascalX86.Parser
