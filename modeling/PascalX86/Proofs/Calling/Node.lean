import PascalX86.Proofs.Calling.Expression
import PascalX86.Proofs.Lowering.Site

/-!
# Code of calls

The code of every call in a tree stands in the code of the tree, for only constants are left out.
-/

set_option autoImplicit false

namespace PascalX86

variable {f : Frames} {inner outer first second code : Code}

/-- The code of a call stands in the given code. -/
def Expr.Emitted (f : Frames) (code : Code) : Expr → Prop
  | .call info function arguments => ∃ inner,
      callCode info function (argumentsCode f function.parameters arguments) = .ok inner ∧ inner <:+: code
  | _ => True

def Stmt.Emitted (f : Frames) (code : Code) : Stmt → Prop
  | .call info function arguments => ∃ inner,
      callCode info function (argumentsCode f function.parameters arguments) = .ok inner ∧ inner <:+: code
  | _ => True

theorem Expr.Emitted.mono {e : Expr} (emitted : e.Emitted f inner) (part : inner <:+: outer) :
    e.Emitted f outer := by
  cases e with
  | call info function arguments =>
      obtain ⟨own, lowered, part'⟩ := emitted
      exact ⟨own, lowered, part'.trans part⟩
  | _ => trivial

/-- All calls of an expression have their code in the given code. -/
abbrev Expr.Emits (f : Frames) (e : Expr) (code : Code) : Prop := e.All (Expr.Emitted f code)

namespace Expr

variable {e : Expr}

theorem Emits.mono (emits : e.Emits f inner) (part : inner <:+: outer) : e.Emits f outer :=
  All.mono emits fun _ emitted => emitted.mono part

theorem Emits.left (emits : e.Emits f first) : e.Emits f (first ++ second) :=
  emits.mono (List.prefix_append first second).isInfix

theorem Emits.right (emits : e.Emits f second) : e.Emits f (first ++ second) :=
  emits.mono (List.suffix_append first second).isInfix

theorem emits_of_value? (known : e.value?.isSome = true) : e.Emits f code := by
  cases e with
  | const => exact all_const.mpr trivial
  | aggregate => exact all_aggregate.mpr trivial
  | _ => simp [value?] at known

end Expr

namespace Reference

variable {r : Reference} {e : Expr}

theorem emits_displaced (emits : e.Emits f r.code) (bytes : Int32) : e.Emits f (r.displaced bytes).code := by
  obtain ⟨code, place⟩ := r
  cases place with
  | memory x => exact emits
  | stack =>
      simp only [displaced]
      split
      · exact emits
      · exact emits.left

theorem emits_address (emits : e.Emits f r.code) : e.Emits f r.address := by
  obtain ⟨code, place⟩ := r
  cases place with
  | memory x => exact emits.left
  | stack => exact emits

theorem emits_resolve (emits : e.Emits f r.code) : e.Emits f r.resolve.1 := by
  obtain ⟨code, place⟩ := r
  cases place with
  | memory x => exact emits
  | stack => exact emits.left

theorem emits_store (emits : e.Emits f r.code) (size : Nat) : e.Emits f (r.store size) :=
  (emits_resolve emits).left

end Reference

section Trees

variable {σ : Scopes} {bound : Nat} {info : NodeInfo}

theorem emits_element {e index : Expr} {array : Ty} {base : Lowered Reference} {r : Reference}
    (found : ∀ r, base = .ok r → e.Emits f r.code)
    (pushed : ∀ code, index.code f = .ok code → index.Emits f code)
    (lowered : elementReference info array base (index.value?.bind Value.integer?) (index.code f) =
      .ok r) : e.Emits f r.code ∧ index.Emits f r.code := by
  unfold elementReference at lowered
  split at lowered
  · split at lowered
    · next n known =>
      obtain ⟨r, reference, eq⟩ := bind_eq_ok.mp lowered
      cases eq
      obtain ⟨v, constant, -⟩ := Option.bind_eq_some_iff.mp known
      exact ⟨Reference.emits_displaced (found r reference) _, Expr.emits_of_value? (by simp [constant])⟩
    · obtain ⟨r, reference, lowered⟩ := bind_eq_ok.mp lowered
      obtain ⟨code, subscript, eq⟩ := bind_eq_ok.mp lowered
      cases eq
      exact ⟨(Reference.emits_address (found r reference)).left.left, (pushed code subscript).right.left⟩
  · cases lowered

theorem emits_cast {e : Expr} {source : Ty} {operand : Lowered Code}
    (pushed : ∀ code, operand = .ok code → e.Emits f code)
    (lowered : castCode info source operand = .ok code) : e.Emits f code := by
  unfold castCode at lowered
  split at lowered
  all_goals first
    | exact pushed code lowered
    | cases lowered
    | obtain ⟨inner, found, eq⟩ := bind_eq_ok.mp lowered
      cases eq
      exact (pushed inner found).left

theorem emits_binary {left right : Expr} {op : Operator} {operands : Ty}
    (pushed : ∀ code, left.code f = .ok code → left.Emits f code)
    (pushed' : ∀ code, right.code f = .ok code → right.Emits f code)
    (lowered : binaryCode info op operands (left.code f) (right.code f) = .ok code) :
    left.Emits f code ∧ right.Emits f code := by
  unfold binaryCode at lowered
  split at lowered
  · cases lowered
  · obtain ⟨l, found, lowered⟩ := bind_eq_ok.mp lowered
    obtain ⟨r, found', lowered⟩ := bind_eq_ok.mp lowered
    split at lowered
    · cases lowered
      exact ⟨(pushed l found).left.left, (pushed' r found').right.left⟩
    · cases lowered
  · obtain ⟨l, found, lowered⟩ := bind_eq_ok.mp lowered
    obtain ⟨r, found', eq⟩ := bind_eq_ok.mp lowered
    cases eq
    exact ⟨(pushed l found).left.left, (pushed' r found').right.left⟩

theorem emits_argument {p : Parameter} {e : Expr}
    (pushed : ∀ code, e.code f = .ok code → e.Emits f code)
    (found : ∀ r, e.reference f = .ok r → e.Emits f r.code)
    (lowered : argumentCode f p e = .ok code) : e.Emits f code := by
  unfold argumentCode at lowered
  split at lowered
  · cases reference : e.reference f with
    | error fault => simp [reference] at lowered
    | ok r =>
        rw [reference] at lowered
        cases lowered
        exact Reference.emits_address (found r reference)
  · exact pushed code lowered
  · exact pushed code lowered

mutual

theorem Expr.emits_reference : ∀ {e : Expr} {r : Reference}, e.Sound σ bound →
    e.reference f = .ok r → e.Emits f r.code
  | .var .., _, _, _ => Expr.all_var.mpr trivial
  | .index info array subscript, r, sound, lowered => by
      obtain ⟨-, base, inner⟩ := Expr.all_index.mp sound
      rw [Expr.reference] at lowered
      exact Expr.all_index.mpr ⟨trivial, emits_element (fun _ => Expr.emits_reference base)
        (fun _ => Expr.emits inner) lowered⟩
  | .field info record part, r, sound, lowered => by
      obtain ⟨-, base⟩ := Expr.all_field.mp sound
      rw [Expr.reference] at lowered
      obtain ⟨r, found, eq⟩ := bind_eq_ok.mp lowered
      cases eq
      exact Expr.all_field.mpr ⟨trivial, Reference.emits_displaced (Expr.emits_reference base found) _⟩
  | .const .., _, _, lowered | .aggregate .., _, _, lowered | .negate .., _, _, lowered
  | .complement .., _, _, lowered | .binary .., _, _, lowered | .cast .., _, _, lowered
  | .call .., _, _, lowered => by
      simp [Expr.reference, malformed] at lowered

theorem Expr.emits : ∀ {e : Expr} {code : Code}, e.Sound σ bound → e.code f = .ok code →
    e.Emits f code
  | .var .., _, _, _ => Expr.all_var.mpr trivial
  | .index info array subscript, code, sound, lowered => by
      obtain ⟨-, base, inner⟩ := Expr.all_index.mp sound
      rw [Expr.code] at lowered
      obtain ⟨r, found, eq⟩ := bind_eq_ok.mp lowered
      cases eq
      have parts := emits_element (fun _ => Expr.emits_reference base) (fun _ => Expr.emits inner) found
      exact Expr.all_index.mpr ⟨trivial, (Reference.emits_resolve parts.1).left,
        (Reference.emits_resolve parts.2).left⟩
  | .field info record part, code, sound, lowered => by
      obtain ⟨-, base⟩ := Expr.all_field.mp sound
      rw [Expr.code] at lowered
      obtain ⟨r, found, eq⟩ := bind_eq_ok.mp lowered
      cases eq
      have inside := Reference.emits_displaced (Expr.emits_reference base found) (.ofNat part.offset)
      exact Expr.all_field.mpr ⟨trivial, (Reference.emits_resolve inside).left⟩
  | .const .., _, _, _ => Expr.all_const.mpr trivial
  | .aggregate .., _, _, _ => Expr.all_aggregate.mpr trivial
  | .negate info operand, code, sound, lowered => by
      obtain ⟨-, inner⟩ := Expr.all_negate.mp sound
      rw [Expr.code] at lowered
      obtain ⟨own, found, eq⟩ := bind_eq_ok.mp lowered
      cases eq
      exact Expr.all_negate.mpr ⟨trivial, (Expr.emits inner found).left⟩
  | .complement info operand, code, sound, lowered => by
      obtain ⟨-, inner⟩ := Expr.all_complement.mp sound
      rw [Expr.code] at lowered
      obtain ⟨own, found, eq⟩ := bind_eq_ok.mp lowered
      cases eq
      exact Expr.all_complement.mpr ⟨trivial, (Expr.emits inner found).left⟩
  | .binary info op left right, code, sound, lowered => by
      obtain ⟨-, inner, inner'⟩ := Expr.all_binary.mp sound
      rw [Expr.code] at lowered
      exact Expr.all_binary.mpr ⟨trivial, emits_binary (fun _ => Expr.emits inner)
        (fun _ => Expr.emits inner') lowered⟩
  | .cast info operand, code, sound, lowered => by
      obtain ⟨-, inner⟩ := Expr.all_cast.mp sound
      rw [Expr.code] at lowered
      exact Expr.all_cast.mpr ⟨trivial, emits_cast (fun _ => Expr.emits inner) lowered⟩
  | .call info function arguments, code, sound, lowered => by
      obtain ⟨checked, each⟩ := Expr.all_call.mp sound
      rw [Expr.code] at lowered
      refine Expr.all_call.mpr ⟨⟨code, lowered, List.infix_refl code⟩, ?_⟩
      obtain ⟨pushes, found, lowered⟩ := bind_eq_ok.mp lowered
      obtain ⟨result, -, eq⟩ := bind_eq_ok.mp lowered
      cases eq
      intro e mem
      exact (emits_arguments each checked.obeys.2.2 found e mem).left.left

theorem emits_arguments : ∀ {parameters : List Parameter} {arguments : List Expr} {code : Code},
    (∀ e ∈ arguments, e.Sound σ bound) → List.Forall₂ Parameter.Takes parameters arguments →
    argumentsCode f parameters arguments = .ok code → ∀ e ∈ arguments, e.Emits f code
  | _, [], _, _, .nil, _ => by simp
  | p :: parameters, e :: arguments, code, each, .cons _ rest, lowered => by
      obtain ⟨first, others⟩ := List.forall_mem_cons.mp each
      rw [argumentsCode_cons] at lowered
      obtain ⟨own, found, lowered⟩ := bind_eq_ok.mp lowered
      obtain ⟨later, remaining, eq⟩ := bind_eq_ok.mp lowered
      cases eq
      rw [List.forall_mem_cons]
      refine ⟨(emits_argument (fun _ => Expr.emits first) (fun _ => Expr.emits_reference first)
        found).left, ?_⟩
      intro x mem
      exact (emits_arguments others rest remaining x mem).right

end

theorem emits_condition {e : Expr} (sound : e.Sound σ bound) (lowered : conditionCode f e = .ok code) :
    e.Emits f code := by
  obtain ⟨inner, found, eq⟩ := bind_eq_ok.mp lowered
  cases eq
  exact (Expr.emits sound found).left

theorem emits_of_direct? {e : Expr} {cell : Memory} (known : e.direct? f = some cell) :
    e.Emits f code := by
  cases e with
  | var => exact Expr.all_var.mpr trivial
  | _ => simp [Expr.direct?] at known

theorem emits_output {arguments : List Expr} {used : Nat} {output : Output}
    (each : ∀ e ∈ arguments, e.Sound σ bound) (lowered : outputOf f used arguments = .ok output) :
    ∀ e ∈ arguments, e.Emits f output.code := by
  induction arguments generalizing used output with
  | nil => simp
  | cons e arguments ih =>
      rw [List.forall_mem_cons] at each ⊢
      unfold outputOf at lowered
      split at lowered
      · next value known =>
        split at lowered
        · obtain ⟨rest, found, eq⟩ := bind_eq_ok.mp lowered
          cases eq
          have others := ih each.2 found
          exact ⟨Expr.emits_of_value? (by simp [known]), others⟩
        · cases lowered
      · split at lowered
        · next conversion _ =>
          have joined {own : Code} {cell : Memory} (first : e.Emits f own)
              (lowered : (do
                let rest ← outputOf f (used + e.temporary f) arguments
                return (⟨own ++ rest.code, .conversion conversion :: rest.pieces,
                  cell.sized conversion.width :: rest.operands⟩ : Output)) = .ok output) :
              e.Emits f output.code ∧ ∀ x ∈ arguments, x.Emits f output.code := by
            obtain ⟨rest, remaining, eq⟩ := bind_eq_ok.mp lowered
            cases eq
            exact ⟨first.left, fun x mem => (ih each.2 remaining x mem).right⟩
          split at lowered
          · next cell direct => exact joined (emits_of_direct? direct) lowered
          · obtain ⟨inner, found, lowered⟩ := bind_eq_ok.mp lowered
            exact joined (Expr.emits each.1 found).left lowered
        · cases lowered

theorem emits_write {arguments : List Expr} {used : Nat} {newline : Bool}
    (each : ∀ e ∈ arguments, e.Sound σ bound)
    (lowered : writeCode f used arguments newline = .ok code) : ∀ e ∈ arguments, e.Emits f code := by
  obtain ⟨output, found, lowered⟩ := bind_eq_ok.mp lowered
  dsimp only at lowered
  intro e mem
  split at lowered
  · cases lowered
    exact emits_output each found e mem
  · cases lowered
    exact (emits_output each found e mem).left

theorem emits_readTarget {e : Expr} (sound : e.Sound σ bound)
    (lowered : readTargetCode f e = .ok code) : e.Emits f code := by
  obtain ⟨r, found, lowered⟩ := bind_eq_ok.mp lowered
  have address := Reference.emits_address (Expr.emits_reference sound found)
  dsimp only at lowered
  split at lowered
  · cases lowered
    exact address.left.left
  · cases lowered
    exact address.left.left
  · cases lowered
    exact address.left.left
  · cases lowered

theorem emits_read {targets : List Expr} {newline : Bool} (each : ∀ e ∈ targets, e.Sound σ bound)
    (lowered : readCode f newline targets = .ok code) : ∀ e ∈ targets, e.Emits f code := by
  induction targets generalizing code with
  | nil => simp
  | cons e targets ih =>
      rw [List.forall_mem_cons] at each ⊢
      obtain ⟨own, found, lowered⟩ := bind_eq_ok.mp lowered
      obtain ⟨rest, remaining, eq⟩ := bind_eq_ok.mp lowered
      cases eq
      exact ⟨(emits_readTarget each.1 found).left, fun x mem => (ih each.2 remaining x mem).right⟩

theorem Stmt.emits {s : Stmt} {loop? : Option Loop} {used label : Nat} (sound : s.Sound σ bound)
    (lowered : s.code f loop? used label = .ok code) :
    s.Emitted f code ∧ ∀ e ∈ s.operands, e.Emits f code := by
  obtain ⟨checked, each⟩ := sound.self
  cases s with
  | assign info target value =>
      simp only [operands, List.forall_mem_cons] at each ⊢
      obtain ⟨left, right, -⟩ := each
      rw [Stmt.code] at lowered
      obtain ⟨own, found, lowered⟩ := bind_eq_ok.mp lowered
      obtain ⟨r, reference, eq⟩ := bind_eq_ok.mp lowered
      cases eq
      refine ⟨trivial, ?_, (Expr.emits right found).left, by simp⟩
      exact (Reference.emits_store (Expr.emits_reference left reference) _).right
  | ifThen info condition body =>
      simp only [operands, List.forall_mem_singleton] at each ⊢
      rw [Stmt.code] at lowered
      obtain ⟨own, found, lowered⟩ := bind_eq_ok.mp lowered
      obtain ⟨inner, -, eq⟩ := bind_eq_ok.mp lowered
      cases eq
      exact ⟨trivial, (emits_condition each found).left.left⟩
  | ifElse info condition body otherwise =>
      simp only [operands, List.forall_mem_singleton] at each ⊢
      rw [Stmt.code] at lowered
      obtain ⟨own, found, lowered⟩ := bind_eq_ok.mp lowered
      obtain ⟨inner, -, lowered⟩ := bind_eq_ok.mp lowered
      obtain ⟨inner', -, eq⟩ := bind_eq_ok.mp lowered
      cases eq
      exact ⟨trivial, (emits_condition each found).left.left.left.left⟩
  | «while» info condition body =>
      simp only [operands, List.forall_mem_singleton] at each ⊢
      rw [Stmt.code] at lowered
      obtain ⟨inner, -, lowered⟩ := bind_eq_ok.mp lowered
      obtain ⟨own, found, eq⟩ := bind_eq_ok.mp lowered
      cases eq
      exact ⟨trivial, (emits_condition each found).right.left⟩
  | «for» info counter first last direction body =>
      simp only [operands, List.forall_mem_cons] at each ⊢
      obtain ⟨place, low, high, -⟩ := each
      rw [Stmt.code] at lowered
      obtain ⟨start, found, lowered⟩ := bind_eq_ok.mp lowered
      obtain ⟨r, reference, lowered⟩ := bind_eq_ok.mp lowered
      obtain ⟨stop, found', lowered⟩ := bind_eq_ok.mp lowered
      obtain ⟨inner, -, eq⟩ := bind_eq_ok.mp lowered
      cases eq
      have before {e : Expr} {enter body next advance again compare : Code}
          (emits : e.Emits f (start ++ r.store counter.type.size ++ stop)) :
          e.Emits f (start ++ r.store counter.type.size ++ stop ++ enter ++ body ++ next ++ advance ++
            again ++ compare) :=
        emits.left.left.left.left.left.left
      refine ⟨trivial, before ?_, before ?_, before ?_, by simp⟩
      · exact (Reference.emits_store (Expr.emits_reference place reference) _).right.left
      · exact (Expr.emits low found).left.left
      · exact (Expr.emits high found').right
  | read info targets newline => exact ⟨trivial, emits_read each lowered⟩
  | write info arguments newline => exact ⟨trivial, emits_write each lowered⟩
  | call info function arguments =>
      rw [Stmt.code] at lowered
      obtain ⟨own, found, eq⟩ := bind_eq_ok.mp lowered
      cases eq
      refine ⟨⟨own, found, (List.prefix_append own _).isInfix⟩, ?_⟩
      obtain ⟨pushes, passed, lowered⟩ := bind_eq_ok.mp found
      obtain ⟨result, -, eq⟩ := bind_eq_ok.mp lowered
      cases eq
      intro e mem
      exact (emits_arguments each checked.obeys.2 passed e mem).left.left.left
  | «continue» | «break» | block => exact ⟨trivial, by simp [operands]⟩

/-- The calls in the body of a function, those of expressions and those that are statements. -/
def Function.HasCall (g : Function) (info : NodeInfo) (function : Signature)
    (arguments : List Expr) : Prop :=
  ∃ s ∈ g.body.nodes, s = .call info function arguments ∨
    ∃ e ∈ s.operands, .call info function arguments ∈ e.nodes

theorem Function.HasCall.emitted {g : Function} {function : Signature} {arguments : List Expr}
    {label : Nat} (has : g.HasCall info function arguments) (sound : g.body.Sound σ bound)
    (lowered : g.bodyCode f label = .ok code) :
    ∃ inner, callCode info function (argumentsCode f function.parameters arguments) = .ok inner ∧
      inner <:+: code := by
  obtain ⟨s, mem, call⟩ := has
  obtain ⟨t, contains, rfl⟩ := Site.exists_place g.body none g.locals.size label s mem
  obtain ⟨inner, found, part⟩ := contains.code lowered
  obtain ⟨own, each⟩ := Stmt.emits (sound.of_mem contains.mem_nodes) found
  rcases call with same | ⟨e, operand, inside⟩
  · rw [same] at own
    obtain ⟨code, lowered, part'⟩ := own
    exact ⟨code, lowered, part'.trans part⟩
  · obtain ⟨code, lowered, part'⟩ := each e operand _ inside
    exact ⟨code, lowered, part'.trans part⟩

end Trees

end PascalX86
