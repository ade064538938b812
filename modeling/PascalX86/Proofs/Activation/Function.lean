import PascalX86.Proofs.Activation.Callee
import PascalX86.Proofs.Activation.Statement
import PascalX86.Proofs.Lowering.Jump
import PascalX86.Proofs.Machine.Run

/-!
# Functions at work

Where the code of a function stands in a listing, and what it knows of addresses at each position. A
jump goes to a label of the same body, and there are no operands at either.
-/

set_option autoImplicit false

namespace PascalX86

open Register

section Flows

variable {f : Frames} {σ : Scopes} {kept : Region} {φ φ' φ'' : Flow} {first second code : Code}
  {ranges : List Range} {c : Command}

/-- Less is known of the data that the topmost operand is the address of. -/
inductive Flow.Narrows : Flow → Flow → Prop where
  | refl (φ : Flow) : Narrows φ φ
  | step {φ φ' : Flow} {size part : Nat} {rest : List Item} (stack : φ.stack = .ref size :: rest)
      (le : part ≤ size) (further : Narrows { φ with stack := .ref part :: rest } φ') : Narrows φ φ'

theorem Flow.Narrows.empty (narrows : φ.Narrows φ') : φ'.stack = [] ↔ φ.stack = [] := by
  induction narrows with
  | refl => rfl
  | step stack _ _ ih => simp [ih, stack]

theorem Code.Flows.uncons (flows : Code.Flows f σ kept φ (c :: code) ranges φ'') :
    ∃ φ₀ φ' own rest, φ.Narrows φ₀ ∧ ranges = own ++ rest ∧ c.Flows f σ kept φ₀ own φ' ∧
      Code.Flows f σ kept φ' code rest φ'' := by
  generalize whole : c :: code = both at flows
  induction flows with
  | nil => cases whole
  | cons step rest =>
      cases whole
      exact ⟨_, _, _, _, .refl _, rfl, step, rest⟩
  | narrow stack le _ ih =>
      obtain ⟨φ₀, φ', own, rest, narrows, split, step, flows⟩ := ih whole
      exact ⟨φ₀, φ', own, rest, .step stack le narrows, split, step, flows⟩

theorem Code.Flows.ended (flows : Code.Flows f σ kept φ [] ranges φ') : φ.Narrows φ' := by
  generalize whole : ([] : Code) = none at flows
  induction flows with
  | nil => exact .refl _
  | cons => cases whole
  | narrow stack le _ ih => exact .step stack le (ih whole)

theorem Code.Flows.split (flows : Code.Flows f σ kept φ (first ++ second) ranges φ'') :
    ∃ φ' passed rest, ranges = passed ++ rest ∧ Code.Flows f σ kept φ first passed φ' ∧
      Code.Flows f σ kept φ' second rest φ'' := by
  generalize whole : first ++ second = both at flows
  induction flows generalizing first with
  | nil φ =>
      obtain ⟨rfl, rfl⟩ := List.append_eq_nil_iff.mp whole
      exact ⟨φ, [], [], rfl, .nil φ, .nil φ⟩
  | @cons φ φ' φ'' c code own others step rest ih =>
      cases first with
      | nil =>
          subst whole
          exact ⟨φ, [], own ++ others, rfl, .nil φ, .cons step rest⟩
      | cons x first =>
          cases whole
          obtain ⟨φ₁, passed, remaining, rfl, before, after⟩ := ih rfl
          exact ⟨φ₁, own ++ passed, remaining, by rw [List.append_assoc], .cons step before, after⟩
  | narrow stack le _ ih =>
      obtain ⟨φ₁, passed, rest, split, before, after⟩ := ih whole
      exact ⟨φ₁, passed, rest, split, .narrow stack le before, after⟩

theorem Flow.Writes.base_ne {m : Memory} {n : Nat} (writes : φ.Writes f σ kept m n) :
    m.base ≠ .register esp := by
  rcases writes with opens | ⟨base, -⟩
  · cases opens with
    | object _ _ _ _ _ base => rcases base with ⟨base, -⟩ | ⟨base, -⟩ <;> simp [base]
    | computed base => simp [base]
  · simp [base]

/-- Code relies on bounds where it adds an index to an address, and nowhere else. -/
theorem Command.Flows.length_ranges (flows : c.Flows f σ kept φ ranges φ') :
    ranges.length = if c = .indexing then 1 else 0 := by
  cases flows with
  | index => simp
  | mark mark =>
      rw [if_neg]
      · rfl
      · rintro rfl
        cases mark
  | replace _ writes =>
      rw [if_neg]
      · rfl
      · intro same
        simp only [Command.indexing, Command.instruction.injEq, List.cons.injEq,
          Operand.memory.injEq] at same
        exact writes.base_ne (same.2.1 ▸ rfl)
  | compute computes =>
      rw [if_neg]
      · rfl
      · rintro rfl
        cases computes
  | _ => simp_all [Command.indexing, stackTop, Memory.dword]

theorem Code.Flows.length_ranges (flows : Code.Flows f σ kept φ code ranges φ') :
    ranges.length = code.countP (· = .indexing) := by
  induction flows with
  | nil => rfl
  | cons step _ ih =>
      rw [List.length_append, step.length_ranges, ih, List.countP_cons, Nat.add_comm]
      simp
  | narrow _ _ _ ih => exact ih

theorem Opcode.computes_of_command {op : Opcode} {operands : List Operand}
    (computes : (Command.instruction op operands).computes = true) : op.computes = true := by
  unfold Command.computes at computes
  split at computes
  · next same =>
    cases same
    rfl
  · next same =>
    cases same
    exact (Bool.and_eq_true_iff.mp computes).1
  · cases computes

theorem Command.Flows.of_mark (flows : c.Flows f σ kept φ ranges φ') (mark : c.isMark = true) :
    φ.stack = [] ∧ φ' = .blank := by
  have replaces {op : Opcode} (replaces : op.replaces = true) : op.isJump = false := by
    cases op <;> first | rfl | cases replaces
  cases flows with
  | mark _ empty => exact ⟨empty, rfl⟩
  | replace r | operand r =>
      rw [Command.isMark, replaces r] at mark
      cases mark
  | compute computes =>
      cases c with
      | label => cases computes
      | instruction op operands =>
          have computes := Opcode.computes_of_command computes
          unfold Opcode.computes at computes
          rw [Command.isMark] at mark
          simp [mark] at computes
  | _ => cases mark

theorem Command.Flows.of_call {operands : List Operand}
    (flows : (Command.instruction .call operands).Flows f σ kept φ ranges φ') :
    ∃ function rest, operands = [.raw function.label] ∧ σ.Names function ∧
      φ.stack = itemsOf function.parameters ++ rest ∧
      φ' = ⟨Item.plains function.block ++ rest, .plain, none⟩ := by
  cases flows with
  | call named stack => exact ⟨_, _, rfl, named, stack, rfl⟩
  | mark mark => cases mark
  | replace replaces | operand replaces => cases replaces
  | compute computes => exact absurd (Opcode.computes_of_command computes) (by decide)

theorem Command.Flows.ne_ret {op : Opcode} {operands : List Operand}
    (flows : (Command.instruction op operands).Flows f σ kept φ ranges φ') : op ≠ .ret := by
  rintro rfl
  cases flows with
  | mark mark => cases mark
  | replace replaces | operand replaces => cases replaces
  | compute computes => exact absurd (Opcode.computes_of_command computes) (by decide)

end Flows

/-- The part of a frame that holds the temporaries. -/
def Function.hidden (g : Function) (f : Frames) : Region := .below g.locals.size (g.body.temporaries f)

section Listings

variable {p : Program} {l : Listing} {g h : Function} {before later : List Function} {σ : Scopes}
  {bound : Nat}

theorem Function.passes_returnCode {f : Frames} {kept : Region} {result : Code}
    (answered : g.returnCode = .ok result) : Code.Passes f σ kept result [] := by
  unfold returnCode at answered
  split at answered <;> cases answered
  · exact fun φ empty => ⟨φ, empty, .nil φ⟩
  all_goals exact (takes_computes (by decide) []).passes

/-- The code of a body and of the result after it. -/
theorem Function.Framed.passes {label : Nat} {body result : Code} (stands : g.Stands p later σ)
    (sound : g.body.Sound σ bound) (calls : g.body.All (Expr.Calls σ) (Stmt.Calls σ))
    (small : g.frameSize (g.frames later) < 2 ^ 31)
    (lowered : g.bodyCode (g.frames later) label = .ok body)
    (answered : result = [] ∨ later ≠ [] ∧ g.returnCode = .ok result) :
    Code.Passes (g.frames later) σ (g.hidden (g.frames later)) (body ++ result) g.body.ranges := by
  unfold Function.frameSize at small
  have fits : Site.Fits (g.frames later) (g.hidden (g.frames later)) (g.site label) :=
    ⟨⟨Int.le_refl _, Int.le_refl _⟩, small⟩
  have top : (g.hidden (g.frames later)).start + (g.hidden (g.frames later)).size < 2 ^ 31 := by
    unfold hidden Region.below
    dsimp only
    omega
  have own := (Stmt.lowers_passes stands.spans top none g.locals.size label sound calls fits).result
    body lowered
  rcases answered with rfl | ⟨-, answered⟩
  · rw [List.append_nil]
    exact own
  · exact own.silent (passes_returnCode answered)

/-- A function at its place in a listing. -/
structure Extent (p : Program) (l : Listing) (g : Function) where
  before : List Function
  later : List Function
  front : Code
  body : Code
  result : Code
  back : Code
  split : p.bodies = before ++ g :: later
  whole : l.code = front ++ (.label (g.entry later) :: (g.enter later ++ (body ++ result) ++
    g.leave later) ++ [Function.exit later]) ++ back
  after : ∃ label, Laid label later back
  lowered : g.bodyCode (g.frames later) (bodyLabels before) = .ok body
  answered : result = [] ∨ later ≠ [] ∧ g.returnCode = .ok result

/-- What is known of the code at the place of a function. -/
structure Spot (p : Program) (l : Listing) (g : Function) extends Extent p l g where
  scopes : Scopes
  stands : g.Stands p later scopes
  covers : g.Covers later scopes
  passes : Code.Passes (g.frames later) scopes (g.hidden (g.frames later)) (body ++ result)
    g.body.ranges
  jumps : Code.JumpsTo (body ++ result) (Code.labels body)

theorem Program.Nested.exists_place (nested : p.Nested) (lowered : p.lower = .ok l)
    (split : p.bodies = before ++ g :: later) :
    ∃ s : Extent p l g, s.before = before ∧ s.later = later := by
  have laid := nested.laid lowered
  rw [split] at laid
  obtain ⟨front, inner, back, whole, framed, after⟩ := laid.around
  obtain ⟨body, result, own, answered, rfl⟩ := framed.parts
  rw [Nat.zero_add] at own
  refine ⟨⟨before, later, front, body, result, back, split, ?_, ⟨_, after⟩, own, answered⟩, rfl, rfl⟩
  rw [whole]
  simp

theorem Program.Nested.exists_spot (nested : p.Nested) (lowered : p.lower = .ok l)
    (split : p.bodies = before ++ g :: later) (small : g.frameSize (g.frames later) < 2 ^ 31) :
    ∃ s : Spot p l g, s.before = before ∧ s.later = later := by
  obtain ⟨σ, completes, scopes, covers⟩ := nested.covered split
  obtain ⟨bound, sound, -⟩ := completes.sound
  obtain ⟨place, rfl, rfl⟩ := nested.exists_place lowered split
  have stands := nested.stands_of_covers split scopes covers
  have framed : g.Framed place.later (bodyLabels place.before)
      (g.enter place.later ++ place.body ++ (place.result ++ g.leave place.later)) :=
    ⟨place.body, place.result, place.lowered, place.answered, rfl⟩
  have names := (Stmt.lowers_labels none g.locals.size _ sound).result place.body place.lowered
  have jumps := framed.jumpsTo sound
  rw [← names, jumpsTo_append, jumpsTo_append, jumpsTo_append] at jumps
  exact ⟨⟨place, σ, stands, covers,
    Function.Framed.passes stands sound completes.calls small place.lowered place.answered,
    jumpsTo_append.mpr ⟨jumps.1.2, jumps.2.1⟩⟩, rfl, rfl⟩

namespace Extent

variable (s : Extent p l g)

/-- Where the body begins. -/
def start : Nat := s.front.length + 1 + (g.enter s.later).length

def code : Code := s.body ++ s.result

def stop : Nat := s.start + s.code.length

/-- The commands before the body, its label included. -/
def opening : Code := .label (g.entry s.later) :: g.enter s.later

def closing : Code := g.leave s.later ++ [Function.exit s.later]

theorem has : Code.Has l.code s.front.length (s.opening ++ (s.code ++ s.closing)) := by
  have placed := Code.has_middle s.front (s.opening ++ (s.code ++ s.closing)) s.back
  rw [s.whole]
  simpa [opening, code, closing] using placed

theorem has_body : Code.Has l.code s.start (s.code ++ s.closing) := by
  have placed := s.has.right
  have first : s.front.length + s.opening.length = s.start := by
    rw [opening, List.length_cons, start]
    omega
  rwa [first] at placed

theorem has_closing : Code.Has l.code s.stop s.closing := s.has_body.right

theorem countP_opening : s.opening.countP (· = .indexing) = 0 := by
  rw [List.countP_eq_zero]
  unfold opening Function.enter
  dsimp only
  split <;> simp [Command.indexing]

/-- Counted from the label of the function, only the body computes indexes. -/
theorem countP_before {first second : Code} (parts : s.code = first ++ second) :
    ((l.code.take (s.start + first.length)).drop s.front.length).countP (· = .indexing) =
      first.countP (· = .indexing) := by
  obtain ⟨after, eq⟩ := s.has
  have length : s.start + first.length - s.front.length = (s.opening ++ first).length := by
    rw [start, opening, List.length_append, List.length_cons]
    omega
  have ahead : s.opening ++ (s.code ++ s.closing) ++ after =
      (s.opening ++ first) ++ (second ++ s.closing ++ after) := by
    rw [parts]
    simp only [List.append_assoc]
  rw [List.drop_take, ← eq, length, ahead, List.take_left, List.countP_append, countP_opening,
    Nat.zero_add]

/-- Behind the last instruction of the function. -/
def finish (s : Extent p l g) : Nat := s.stop + s.closing.length

section Places

variable {t : Extent p l h} (distinct : (Code.labels l.code).Nodup)

include distinct

theorem target?_entry (s : Extent p l g) : l.code.target? (g.entry s.later) = some s.front.length :=
  Code.target?_of_has distinct s.has.left

/-- The code of functions that come later in the list stands behind. -/
theorem finish_le (s : Extent p l g) (t : Extent p l h) (earlier : s.before.length < t.before.length) :
    s.finish ≤ t.front.length := by
  obtain ⟨between, rest⟩ : ∃ between, s.later = between ++ h :: t.later := by
    have same := s.split.symm.trans t.split
    rw [List.append_eq_append_iff] at same
    rcases same with ⟨more, eq, rest⟩ | ⟨more, eq, -⟩
    · cases more with
      | nil => simp [eq] at earlier
      | cons x more => exact ⟨more, (List.cons_eq_cons.mp rest).2⟩
    · rw [eq, List.length_append] at earlier
      omega
  obtain ⟨label, laid⟩ := s.after
  rw [rest] at laid
  obtain ⟨front, inner, back, eq, -⟩ := laid.around
  have length : (s.front ++ s.opening ++ s.code ++ s.closing ++ front).length =
      s.finish + front.length := by
    simp [finish, stop, start, opening]
    omega
  have found : Code.Has l.code (s.finish + front.length)
      (.label (h.entry t.later) :: (inner ++ [Function.exit t.later])) := by
    have placed := Code.has_middle (s.front ++ s.opening ++ s.code ++ s.closing ++ front)
      (.label (h.entry t.later) :: (inner ++ [Function.exit t.later])) back
    rw [length] at placed
    rw [s.whole, eq]
    simpa [opening, code, closing] using placed
  have same := (Code.target?_of_has distinct found).symm.trans (target?_entry distinct t)
  rw [Option.some.injEq] at same
  omega

/-- No position belongs to two functions. -/
theorem meet (s : Extent p l g) (t : Extent p l h) {position : Nat}
    (inside : s.front.length ≤ position ∧ position < s.finish)
    (inside' : t.front.length ≤ position ∧ position < t.finish) :
    g = h ∧ s.later = t.later ∧ s.front.length = t.front.length ∧ s.body = t.body := by
  have length : s.before.length = t.before.length := by
    rcases Nat.lt_trichotomy s.before.length t.before.length with less | same | less
    · have := finish_le distinct s t less
      omega
    · exact same
    · have := finish_le distinct t s less
      omega
  obtain ⟨before, rest⟩ := List.append_inj (s.split.symm.trans t.split) length
  obtain ⟨rfl, later⟩ := List.cons_eq_cons.mp rest
  have places := target?_entry distinct s
  rw [later, target?_entry distinct t, Option.some.injEq] at places
  have bodies := s.lowered
  rw [later, before, t.lowered] at bodies
  exact ⟨rfl, later, places.symm, (Except.ok.inj bodies).symm⟩

end Places

end Extent

namespace Spot

variable (s : Spot p l g)

/-- What is known before the command at a position of the body. -/
def At (position : Nat) (φ : Flow) : Prop :=
  ∃ first second passed ranges φ', s.code = first ++ second ∧ position = s.start + first.length ∧
    g.body.ranges = passed ++ ranges ∧ passed.length = first.countP (· = .indexing) ∧
    φ'.stack = [] ∧
    Code.Flows (g.frames s.later) s.scopes (g.hidden (g.frames s.later)) φ second ranges φ'

theorem at_start : s.At s.start .blank := by
  obtain ⟨φ', empty, flows⟩ := s.passes .blank rfl
  exact ⟨[], s.code, [], g.body.ranges, φ', rfl, rfl, rfl, rfl, empty, flows⟩

variable {position : Nat} {φ : Flow} {name : String}

variable {s}

/-- The body goes on with a command, or it has come to its end. -/
theorem At.command (here : s.At position φ) :
    (position = s.stop ∧ ∃ φ', φ.Narrows φ' ∧ φ'.stack = []) ∨
    ∃ c φ₀ φ' own, l.code[position]? = some c ∧ c ∈ s.code ∧ φ.Narrows φ₀ ∧
      c.Flows (g.frames s.later) s.scopes (g.hidden (g.frames s.later)) φ₀ own φ' ∧
      s.At (position + 1) φ' ∧
      ∀ r, own = [r] →
        g.body.ranges[((l.code.take position).drop s.front.length).countP (· = .indexing)]? = some r := by
  obtain ⟨first, second, passed, ranges, last, parts, rfl, split, count, empty, flows⟩ := here
  cases second with
  | nil =>
      refine .inl ⟨?_, last, flows.ended, empty⟩
      rw [Extent.stop, parts, List.append_nil]
  | cons c second =>
      obtain ⟨φ₀, φ', own, rest, narrows, rfl, step, flows⟩ := flows.uncons
      have found : Code.Has l.code (s.start + first.length) (c :: (second ++ s.closing)) := by
        have placed := s.has_body
        rw [parts, List.append_assoc] at placed
        exact placed.right
      refine .inr ⟨c, φ₀, φ', own, found.head, by simp [parts], narrows, step, ?_, ?_⟩
      · refine ⟨first ++ [c], second, passed ++ own, rest, last, by simp [parts], by simp; omega,
          by rw [split, List.append_assoc], ?_, empty, flows⟩
        rw [List.length_append, count, step.length_ranges, List.countP_append]
        simp [List.countP_cons]
      · rintro r rfl
        rw [s.countP_before parts, split, ← count, List.getElem?_append_right (Nat.le_refl _),
          Nat.sub_self]
        rfl

/-- A jump goes to a label of the body, where nothing is known. -/
theorem exists_target (distinct : (Code.labels l.code).Nodup) (mem : name ∈ Code.labels s.body) :
    ∃ j, l.code.target? name = some j ∧ s.At j .blank := by
  obtain ⟨c, inside, named⟩ := List.mem_filterMap.mp mem
  obtain ⟨first, second, parts⟩ := List.append_of_mem inside
  cases c with
  | instruction op operands => cases named
  | label other =>
      cases named
      have parts : s.code = first ++ .label name :: (second ++ s.result) := by
        rw [Extent.code, parts, List.append_assoc, List.cons_append]
      obtain ⟨last, empty, flows⟩ := s.passes .blank rfl
      rw [← Extent.code, parts] at flows
      obtain ⟨φ', passed, ranges, split, before, after⟩ := flows.split
      obtain ⟨φ₀, φ₁, own, rest, narrows, rfl, step, flows⟩ := after.uncons
      have found : Code.Has l.code (s.start + first.length)
          (.label name :: (second ++ s.result ++ s.closing)) := by
        have placed := s.has_body
        rw [parts, List.append_assoc] at placed
        exact placed.right
      refine ⟨s.start + first.length, Code.target?_of_has distinct found, first,
        .label name :: (second ++ s.result), passed, own ++ rest, last, parts, rfl, split,
        before.length_ranges, empty, ?_⟩
      cases step with
      | mark mark _ => exact .cons (.mark mark rfl) flows
      | compute computes => cases computes

theorem jumps_mem {op : Opcode} {operands : List Operand} (mem : .instruction op operands ∈ s.code)
    (jumps : op.isJump = true) : ∃ name ∈ Code.labels s.body, operands = [.raw name] :=
  s.jumps op operands mem jumps

end Spot

end Listings

end PascalX86
