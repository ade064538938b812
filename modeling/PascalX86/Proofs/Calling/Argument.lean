import PascalX86.Proofs.Calling.Content
import PascalX86.Proofs.Calling.Expression
import PascalX86.Proofs.Checking.Body
import PascalX86.Proofs.Lowering.Site

/-!
# Arguments on the stack

Where the code of a call leaves the argument for each parameter, and what it leaves there.
-/

set_option autoImplicit false

namespace PascalX86

open Register

section References

variable {f : Frames}

theorem Frames.anchored {span : Span} {symbol : Symbol} {r : Reference}
    (found : f.reference span symbol = .ok r) : r.Anchored := by
  unfold reference at found
  split at found
  · cases found
  · next slot _ =>
    obtain ⟨d, -, found⟩ := bind_eq_ok.mp found
    have base : ∀ d, (Memory.dword (f.pointer slot.level).2 d).Anchored := by
      intro d
      unfold pointer
      split
      · exact ⟨rfl, .inl rfl⟩
      · exact ⟨rfl, .inr (.inl rfl)⟩
    split at found
    · cases found
      rintro x ⟨⟩
      exact ⟨rfl, .inr (.inr rfl)⟩
    · cases found
      rintro x ⟨⟩
      exact base d

theorem anchored_element {info : NodeInfo} {array : Ty} {base : Lowered Reference}
    {constant? : Option Int32} {index : Lowered Code} {r : Reference}
    (anchored : ∀ r, base = .ok r → r.Anchored)
    (found : elementReference info array base constant? index = .ok r) : r.Anchored := by
  unfold elementReference at found
  split at found
  · split at found
    · obtain ⟨r, lowered, eq⟩ := bind_eq_ok.mp found
      cases eq
      exact (anchored r lowered).displaced _
    · obtain ⟨r, -, found⟩ := bind_eq_ok.mp found
      obtain ⟨code, -, eq⟩ := bind_eq_ok.mp found
      cases eq
      exact Reference.anchored_stack _
  · cases found

theorem Expr.anchored : ∀ {e : Expr} {r : Reference}, e.reference f = .ok r → r.Anchored
  | .var info symbol, r, found => by
      rw [Expr.reference] at found
      exact Frames.anchored found
  | .index info array subscript, r, found => by
      rw [Expr.reference] at found
      exact anchored_element (fun _ lowered => Expr.anchored lowered) found
  | .field info record part, r, found => by
      rw [Expr.reference] at found
      obtain ⟨r, lowered, eq⟩ := bind_eq_ok.mp found
      cases eq
      exact (Expr.anchored lowered).displaced _
  | .const .., _, found | .aggregate .., _, found | .negate .., _, found | .complement .., _, found
  | .binary .., _, found | .cast .., _, found | .call .., _, found => by
      simp [Expr.reference, malformed] at found

/-- Expressions that refer to objects load them. -/
theorem Expr.code_of_isReference {e : Expr} {code : Code} (reference : e.isReference = true)
    (lowered : e.code f = .ok code) :
    ∃ r, e.reference f = .ok r ∧ code = r.load e.type.size := by
  cases e with
  | var | index =>
      obtain ⟨r, found, eq⟩ := bind_eq_ok.mp lowered
      cases eq
      exact ⟨r, found, rfl⟩
  | field info record field =>
      obtain ⟨r, found, eq⟩ := bind_eq_ok.mp lowered
      cases eq
      exact ⟨_, bind_eq_ok.mpr ⟨r, found, rfl⟩, rfl⟩
  | _ => simp [isReference, root?] at reference

theorem Expr.code_of_value? {e : Expr} {v : Value} {code : Code} (known : e.value? = some v)
    (lowered : e.code f = .ok code) : code = v.push := by
  have constant {info : NodeInfo} (lowered : constantCode info v = .ok code) : code = v.push := by
    unfold constantCode at lowered
    split at lowered <;> cases lowered
    rfl
  cases e <;> simp only [value?, Option.some.injEq, reduceCtorEq] at known
  all_goals
    subst known
    exact constant lowered

end References

/-- What the code of an argument leaves on the stack, the lowest dword at the lowest address: the
address of an argument by reference, an object as it is in memory, a constant as its image. -/
structure Parameter.Carries (p : Parameter) (e : Expr) (functions : List Function) (f : Frames)
    (top : Word) (room : Nat) (m m' : Machine) : Prop where
  address : p.mode = .byReference → ∃ (r : Reference) (s : Machine), e.reference f = .ok r ∧
    m.Runs functions top room r.code s ∧ s.addressOf r.place = some (m'.bytes.dword m'.esp)
  object : p.mode ≠ .byReference → e.isReference = true →
    ∃ (r : Reference) (s : Machine) (a : Word), e.reference f = .ok r ∧
      m.Runs functions top room r.code s ∧ s.addressOf r.place = some a ∧
      ((∀ i < p.type.size, ∀ j < p.type.size, a + .ofNat 32 i ≠ m'.esp + .ofNat 32 j) →
        m'.bytes.words m'.esp (p.type.size / dwordSize) = s.bytes.words a (p.type.size / dwordSize))
  constant : p.mode ≠ .byReference → ∀ v, e.value? = some v →
    m'.bytes.words m'.esp (p.type.size / dwordSize) = v.image.map Int32.toBitVec

section Contents

variable {functions : List Function} {f : Frames} {σ : Scopes} {bound : Nat} {top : Word}
  {room base : Nat} {m m' : Machine} {p : Parameter} {e : Expr} {piece : Code}

theorem argumentCode_of_ne (value : p.mode ≠ .byReference) : argumentCode f p e = e.code f := by
  unfold argumentCode
  cases mode : p.mode with
  | byReference => exact absurd mode value
  | byValue | constant => rfl

theorem Parameter.Takes.carries (takes : p.Takes e) (agree : ∀ s, σ.Names s → s.Agrees functions)
    (sound : e.Sound σ bound) (calls : e.All (Expr.Calls σ))
    (lowered : argumentCode f p e = .ok piece) (runs : m.Runs functions top room piece m')
    (small : room < 2 ^ 31) (esp : m.esp = below top base) (inside : base ≤ room) :
    p.Carries e functions f top room m m' := by
  have size : p.type.size = e.type.size := Ty.size_eq_of_same takes.same
  have bound := sound.self.proper.size_le
  unfold maxSize at bound
  refine ⟨fun mode => ?_, fun value reference => ?_, fun value v known => ?_⟩
  · simp only [argumentCode, mode] at lowered
    cases found : e.reference f with
    | error fault => simp [found] at lowered
    | ok r =>
        rw [found] at lowered
        cases lowered
        obtain ⟨s, before, address⟩ := Machine.runs_address runs (Expr.anchored found)
        exact ⟨r, s, rfl, before, address⟩
  · rw [argumentCode_of_ne value] at lowered
    obtain ⟨r, found, rfl⟩ := Expr.code_of_isReference reference lowered
    have anchored := Expr.anchored found
    have piles := (Expr.lowers_referencePiles agree sound calls reference).result r found
    have loads := piles.load e.type.dvd_size
    obtain ⟨t, resolved, pushed⟩ := Machine.runs_append.mp runs
    obtain ⟨s, a, before, address, same, bytes⟩ := Machine.runs_resolve resolved anchored
    obtain ⟨back, -⟩ := Machine.Moved.of_runs resolved small piles.resolve.depth piles.resolve.keeps
      esp inside
    obtain ⟨moved, -⟩ := Machine.Moved.of_runs runs small loads.depth loads.keeps esp inside
    refine ⟨r, s, a, found, before, address, fun apart => ?_⟩
    rw [size] at apart ⊢
    rw [← bytes]
    apply Machine.runs_pushMemory pushed anchored.resolve same (by omega)
    -- The object is named by addresses, the bytes that are pushed by their depth.
    intro i lt j lt' met
    apply apart i lt (e.type.size - 1 - j) (by omega)
    rw [met, back.esp, moved.esp]
    unfold below
    bv_omega
  · rw [argumentCode_of_ne value] at lowered
    obtain rfl := Expr.code_of_value? known lowered
    have length := (sound.self.obeys.fits known).length_image sound.self.proper
    have words := Machine.runs_push runs (by omega)
    rw [size, ← length, Nat.mul_div_cancel _ (by decide)]
    exact words

end Contents

theorem exists_argumentsCode {f : Frames} {first second : List Parameter} {earlier later : List Expr}
    (aligned : earlier.length = first.length) {code : Code}
    (lowered : argumentsCode f (first ++ second) (earlier ++ later) = .ok code) :
    ∃ before after, argumentsCode f first earlier = .ok before ∧
      argumentsCode f second later = .ok after ∧ code = before ++ after := by
  induction first generalizing earlier code with
  | nil =>
      obtain rfl := List.length_eq_zero_iff.mp aligned
      have nothing : argumentsCode f [] [] = .ok [] := by simp [argumentsCode, pure, Except.pure]
      exact ⟨[], code, nothing, lowered, rfl⟩
  | cons p first ih =>
      cases earlier with
      | nil => cases aligned
      | cons e earlier =>
          rw [List.cons_append, List.cons_append, argumentsCode_cons] at lowered
          obtain ⟨piece, own, lowered⟩ := bind_eq_ok.mp lowered
          obtain ⟨rest, others, eq⟩ := bind_eq_ok.mp lowered
          cases eq
          obtain ⟨before, after, found, found', rfl⟩ := ih (Nat.succ.inj aligned) others
          refine ⟨piece ++ before, after, ?_, found', by rw [List.append_assoc]⟩
          rw [argumentsCode_cons]
          exact bind_eq_ok.mpr ⟨piece, own, bind_eq_ok.mpr ⟨before, found, rfl⟩⟩

/-- A parameter of a function and the argument for it, among the others. -/
structure Passing (function : Signature) (arguments : List Expr) where
  first : List Parameter
  parameter : Parameter
  rest : List Parameter
  earlier : List Expr
  argument : Expr
  later : List Expr
  parameters : function.parameters = first ++ parameter :: rest
  passed : arguments = earlier ++ argument :: later
  aligned : earlier.length = first.length

namespace Passing

variable {function : Signature} {arguments : List Expr}

def offset (x : Passing function arguments) : Nat := x.parameter.slot.offset

def size (x : Passing function arguments) : Nat := x.parameter.mode.size x.parameter.type

/-- Where there are as many arguments as parameters, each parameter has one. -/
theorem exists_of_mem (same : arguments.length = function.parameters.length) :
    ∀ p ∈ function.parameters, ∃ x : Passing function arguments, x.parameter = p := by
  intro p mem
  obtain ⟨first, rest, parameters⟩ := List.append_of_mem mem
  have inside : first.length < arguments.length := by simp [same, parameters]
  refine ⟨⟨first, p, rest, arguments.take first.length, arguments[first.length],
    arguments.drop (first.length + 1), parameters, ?_, ?_⟩, rfl⟩
  · simp
  · simp
    omega

variable (x : Passing function arguments)

theorem slot (formed : function.Formed) :
    x.parameter.slot = ⟨function.level, bytesOf (x.first.map Parameter.symbol), .parameters⟩ := by
  have arranged := formed.arranged
  rw [x.parameters, List.map_append, arranged_append, List.map_cons, Nat.zero_add] at arranged
  exact arranged.2.1 x.parameter.slot rfl

theorem block (formed : function.Formed) :
    function.block = x.offset + x.size + bytesOf (x.rest.map Parameter.symbol) := by
  have own : x.parameter.symbol.bytes = x.size := rfl
  rw [formed.sound.block, x.parameters, List.map_append, bytesOf_append, List.map_cons, bytesOf, own,
    offset, x.slot formed, Nat.add_assoc]

theorem takes (each : List.Forall₂ Parameter.Takes function.parameters arguments) :
    List.Forall₂ Parameter.Takes x.first x.earlier ∧ x.parameter.Takes x.argument ∧
      List.Forall₂ Parameter.Takes x.rest x.later := by
  rw [x.passed, x.parameters] at each
  have before := List.forall₂_take_append _ _ _ each
  have after := List.forall₂_drop_append _ _ _ each
  rw [x.aligned, List.take_left] at before
  rw [x.aligned, List.drop_left] at after
  cases after with
  | cons own rest => exact ⟨before, own, rest⟩

/-- A run of the code of all arguments, and where it comes to the one for a parameter. -/
structure Pushes (functions : List Function) (f : Frames) (top : Word) (room : Nat)
    (m₀ m₁ m₂ m₃ : Machine) : Prop where
  before : ∃ code, argumentsCode f x.first x.earlier = .ok code ∧ m₀.Runs functions top room code m₁
  own : ∃ code, argumentCode f x.parameter x.argument = .ok code ∧ m₁.Runs functions top room code m₂
  after : ∃ code, argumentsCode f x.rest x.later = .ok code ∧ m₂.Runs functions top room code m₃
  start : m₁.esp = below top x.offset
  stop : m₂.esp = below top (x.offset + x.size)
  carries : x.parameter.Carries x.argument functions f top room m₁ m₂
  kept : ∀ n ≤ x.offset + x.size, m₃.bytes (below top n) = m₂.bytes (below top n)

section Runs

variable {functions : List Function} {f : Frames} {σ : Scopes} {bound room : Nat} {top : Word}
  {m₀ m₃ : Machine} {code : Code}

theorem exists_pushes (formed : function.Formed) (agree : ∀ s, σ.Names s → s.Agrees functions)
    (sound : ∀ e ∈ arguments, e.Sound σ bound) (calls : ∀ e ∈ arguments, e.All (Expr.Calls σ))
    (takes : List.Forall₂ Parameter.Takes function.parameters arguments)
    (lowered : argumentsCode f function.parameters arguments = .ok code)
    (runs : m₀.Runs functions top room code m₃) (small : room < 2 ^ 31) (esp : m₀.esp = top) :
    ∃ m₁ m₂, x.Pushes functions f top room m₀ m₁ m₂ m₃ := by
  obtain ⟨first, own, rest⟩ := x.takes takes
  rw [x.passed, x.parameters] at lowered
  rw [x.passed, List.forall_mem_append, List.forall_mem_cons] at sound calls
  obtain ⟨pre, others, before, remaining, rfl⟩ := exists_argumentsCode x.aligned lowered
  rw [argumentsCode_cons] at remaining
  obtain ⟨piece, current, remaining⟩ := bind_eq_ok.mp remaining
  obtain ⟨post, after, eq⟩ := bind_eq_ok.mp remaining
  cases eq
  obtain ⟨m₁, earlier, runs⟩ := Machine.runs_append.mp runs
  obtain ⟨m₂, middle, later⟩ := Machine.runs_append.mp runs
  have offset : bytesOf (x.first.map Parameter.symbol) = x.offset := by
    rw [Passing.offset, x.slot formed]
  have piles := (lowers_argumentsPiles agree sound.1 calls.1 first).result pre before
  have piles' := (lowers_argumentPiles own (Expr.lowers_piles agree sound.2.1 calls.2.1)
    (Expr.lowers_referencePiles agree sound.2.1 calls.2.1)).result piece current
  have piles'' := (lowers_argumentsPiles agree sound.2.2 calls.2.2 rest).result post after
  rw [offset] at piles
  have start : m₀.esp = below top (0 + 0) := by
    rw [esp]
    exact (BitVec.sub_zero top).symm
  obtain ⟨moved, fits⟩ := Machine.Moved.of_runs earlier small piles.depth piles.keeps start (by omega)
  rw [Nat.zero_add] at fits
  have esp' := moved.esp
  rw [Nat.zero_add] at esp'
  obtain ⟨moved', fits'⟩ := Machine.Moved.of_runs middle small piles'.depth piles'.keeps esp' fits
  obtain ⟨moved'', -⟩ := Machine.Moved.of_runs later small piles''.depth piles''.keeps moved'.esp fits'
  refine ⟨m₁, m₂, ⟨pre, before, earlier⟩, ⟨piece, current, middle⟩, ⟨post, after, later⟩, esp',
    moved'.esp, ?_, moved''.bytes⟩
  exact own.carries agree sound.2.1 calls.2.1 current middle small esp' fits

end Runs

end Passing

end PascalX86
