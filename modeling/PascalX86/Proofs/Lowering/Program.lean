import PascalX86.Lowering.Program
import PascalX86.Proofs.Checking.Program
import PascalX86.Proofs.Lowering.Statement

/-!
# Lowering of programs

What the two phases promise together: an accepted program is lowered or has an error of its own, and
the code of every node keeps the stack in order.
-/

set_option autoImplicit false

namespace PascalX86

theorem length_outerBlocks (functions : List Function) (level : Nat) :
    (outerBlocks functions level).length = level := by
  induction functions generalizing level with
  | nil =>
      cases level with
      | zero => rfl
      | succ level => simp [outerBlocks]
  | cons g later ih =>
      cases level with
      | zero => rfl
      | succ level =>
          simp only [outerBlocks]
          split <;> simp [ih]

section Functions

variable {g : Function} {bound : Nat} {A : Prop}

theorem Function.frames_cover (g : Function) (later : List Function) {σ : Scopes}
    (scopes : σ.Sound g.signature.level) : (g.frames later).Cover σ := by
  refine ⟨scopes, ?_⟩
  simp [Function.frames, length_outerBlocks]

theorem Function.lowers_bodyCode (later : List Function) (label : Nat) (checked : g.Checked bound) :
    Lowers True (g.bodyCode (g.frames later) label) fun code => Settles code 0 0 := by
  obtain ⟨σ, scopes, -, sound⟩ := checked.body
  refine Stmt.lowers_code none g.locals.size label sound (fun _ => g.frames_cover later scopes) ?_
  intro _ jumps
  simp [checked.jumps] at jumps

theorem Function.lowers_mainBody (g : Function) (label : Nat) {σ : Scopes} (scopes : σ.Sound 0)
    (sound : g.body.Sound σ bound) (jumps : g.body.jumps = false) :
    Lowers True (g.bodyCode mainFrames label) fun code => Settles code 0 0 := by
  have cover : mainFrames.Cover σ := ⟨scopes, Nat.lt_succ_self 0⟩
  refine Stmt.lowers_code none g.locals.size label sound (fun _ => cover) ?_
  intro _ free
  simp [jumps] at free

theorem Function.lowers_returnCode (g : Function) : Lowers True g.returnCode fun _ => True := by
  unfold returnCode
  split
  · exact .pure trivial
  · exact .pure trivial
  · exact .pure trivial
  · exact .pure trivial
  · exact .aggregateResult

end Functions

section Programs

def Function.Emits (g : Function) (code : Code) : Prop :=
  ∃ f label body, g.bodyCode f label = .ok body ∧ Settles body 0 0 ∧ body <:+: code

theorem Function.Emits.prepend {g : Function} {code : Code} (h : g.Emits code) (before : Code) :
    g.Emits (before ++ code) := by
  obtain ⟨f, label, body, lowered, settled, part⟩ := h
  exact ⟨f, label, body, lowered, settled, part.trans (List.suffix_append before code).isInfix⟩

theorem Function.Emits.append {g : Function} {code : Code} (h : g.Emits code) (after : Code) :
    g.Emits (code ++ after) := by
  obtain ⟨f, label, body, lowered, settled, part⟩ := h
  exact ⟨f, label, body, lowered, settled, part.trans (List.prefix_append code after).isInfix⟩

theorem Lowers.emits {g : Function} {f : Frames} {label : Nat} {A : Prop}
    (h : Lowers A (g.bodyCode f label) fun code => Settles code 0 0) :
    Lowers A (g.bodyCode f label) fun code => g.Emits code :=
  ⟨fun code lowered => ⟨f, label, code, lowered, h.result code lowered, List.infix_refl code⟩, h.error⟩

variable {bound : Nat}

theorem Function.lowers_code (g : Function) (later : List Function) (label : Nat)
    (checked : g.Checked bound) :
    Lowers True (g.code (g.frames later) label) fun code => g.Emits code := by
  refine g.lowers_returnCode.bind fun result _ => ?_
  exact (g.lowers_bodyCode later label checked).emits.bind fun body emits =>
    .pure (((emits.prepend _).append result).append _)

theorem lowers_functionsCode (label : Nat) {functions : List Function}
    (checked : ∀ g ∈ functions, g.Checked bound) :
    Lowers True (functionsCode label functions) fun code => ∀ g ∈ functions, g.Emits code := by
  induction functions generalizing label with
  | nil => exact .pure (by simp)
  | cons g later ih =>
      rw [List.forall_mem_cons] at checked
      refine (g.lowers_code later label checked.1).bind fun code emits => ?_
      refine (ih (label + g.body.labels) checked.2).bind fun rest others => .pure ?_
      rw [List.forall_mem_cons]
      exact ⟨emits.append rest, fun h mem => (others h mem).prepend code⟩

theorem Program.lowers {p : Program} (checked : p.Checked) :
    Lowers True p.lower fun listing => ∀ g ∈ p.main :: p.functions, g.Emits listing.code := by
  obtain ⟨σ, scopes, -, -, sound⟩ := checked.main
  refine (lowers_functionsCode 0 checked.functions).bind fun functions emits => ?_
  have main := (p.main.lowers_mainBody (bodyLabels p.functions) scopes sound checked.jumps).emits
  have entered : Lowers True (p.main.mainCode (bodyLabels p.functions)) p.main.Emits :=
    main.bind fun body emits => .pure ((emits.prepend _).append _)
  refine entered.bind fun code emits' => .pure ?_
  rw [List.forall_mem_cons]
  exact ⟨emits'.prepend functions, fun g mem => (emits g mem).append code⟩

/-- An accepted program has a listing unless the machine lacks strings or a function answers a
value that no register holds. No part of its trees is malformed, and no node has a number beyond
those that were made. -/
theorem Source.lowering_never_malformed {source : Source} {p : Program}
    (h : source.program = .ok p) :
    ((∃ listing, p.lower = .ok listing) ∨ (∃ span, p.lower = .error ⟨.runtimeString, span⟩) ∨
      ∃ type span, p.lower = .error ⟨.aggregateResult type, span⟩) ∧
    ∀ g ∈ p.main :: p.functions,
      g.body.All (fun e => e.info.id < p.nodes) fun s => s.info.id < p.nodes := by
  have checked := Source.checked h
  refine ⟨?_, fun g mem => ?_⟩
  · have never := (Program.lowers checked).error trivial
    match lowered : p.lower with
    | .ok listing => exact .inl ⟨listing, rfl⟩
    | .error ⟨.runtimeString, span⟩ => exact .inr (.inl ⟨span, rfl⟩)
    | .error ⟨.aggregateResult type, span⟩ => exact .inr (.inr ⟨type, span, rfl⟩)
    -- A malformed tree is the one error that checking rules out.
    | .error ⟨.malformed fault, span⟩ => exact absurd lowered (never fault span)
  · obtain ⟨σ, sound⟩ := checked.sound g mem
    exact Stmt.All.mono sound (fun _ => Expr.Checked.numbered) fun _ => Stmt.Checked.numbered

theorem Source.tour_not_malformed : ∃ p, Source.tour.program = .ok p ∧ p.functions.length = 1 ∧
    ((∃ listing, p.lower = .ok listing) ∨ (∃ span, p.lower = .error ⟨.runtimeString, span⟩) ∨
      ∃ type span, p.lower = .error ⟨.aggregateResult type, span⟩) ∧
    ∀ g ∈ p.main :: p.functions,
      g.body.All (fun e => e.info.id < p.nodes) fun s => s.info.id < p.nodes := by
  obtain ⟨p, accepted, one⟩ := Source.tour_accepted
  exact ⟨p, accepted, one, Source.lowering_never_malformed accepted⟩

/-- Expressions push their values and references their addresses, without labels or jumps. The code
of statements is where it started at each label, at each jump and at its end. The code of every body
stands in the listing. -/
theorem Source.code_keeps_stack {source : Source} {p : Program} {listing : Listing}
    (h : source.program = .ok p) (lowered : p.lower = .ok listing) :
    ∀ g ∈ p.main :: p.functions,
      g.Emits listing.code ∧
      ∀ s ∈ g.body.nodes,
        (∀ f loop? used label code, s.code f loop? used label = .ok code → Settles code 0 0) ∧
        ∀ e ∈ s.operands, ∀ x ∈ e.nodes, ∀ f,
          (∀ code, x.code f = .ok code → Moves code 0 x.type.size) ∧
          (x.isReference = true → ∀ r, x.reference f = .ok r → r.Finds) := by
  have checked := Source.checked h
  intro g mem
  obtain ⟨σ, sound⟩ := checked.sound g mem
  refine ⟨(Program.lowers checked).result listing lowered g mem, fun s inside => ⟨?_, ?_⟩⟩
  · intro f loop? used label code
    have settles := Stmt.lowers_code (f := f) (A := False) loop? used label (Stmt.All.of_mem sound inside)
      False.elim False.elim
    exact settles.result code
  · intro e operand x part f
    have tree := ((sound s inside).2 e operand).of_mem part
    exact ⟨(Expr.lowers_code tree).result, fun reference => (Expr.lowers_reference tree reference).result⟩

theorem Source.tour_lowers :
    (Source.tour.program.toOption.bind fun p => p.lower.toOption).isSome = true := by
  decide +kernel

theorem Source.tour_keeps_stack : ∃ p listing, Source.tour.program = .ok p ∧
    p.lower = .ok listing ∧
    ∀ g ∈ p.main :: p.functions,
      g.Emits listing.code ∧
      ∀ s ∈ g.body.nodes,
        (∀ f loop? used label code, s.code f loop? used label = .ok code → Settles code 0 0) ∧
        ∀ e ∈ s.operands, ∀ x ∈ e.nodes, ∀ f,
          (∀ code, x.code f = .ok code → Moves code 0 x.type.size) ∧
          (x.isReference = true → ∀ r, x.reference f = .ok r → r.Finds) := by
  obtain ⟨p, accepted, listing, lowered⟩ := exists_of_bind_toOption Source.tour_lowers
  exact ⟨p, listing, accepted, lowered, Source.code_keeps_stack accepted lowered⟩

end Programs

end PascalX86
