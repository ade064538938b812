import PascalX86.Proofs.Checking.Body
import PascalX86.Proofs.Checking.Expression

/-!
# Folding is complete

Folding gives up without a word where a value has no conversion, no negative or no complement. The
rules of typing keep such values away from it: whatever they let through is folded if it is known.
-/

set_option autoImplicit false

namespace PascalX86

/-- Nothing is left to compute of which all operands are known. -/
def Expr.Folded : Expr → Prop
  | .negate _ operand | .complement _ operand | .cast _ operand => operand.value? = none
  | .binary _ _ left right => left.value? = none ∨ right.value? = none
  | _ => True

/-- A constant that stands where the node would, with its type. -/
def Expr.StandsFor (e node : Expr) : Prop := ∃ v, e = .const node.info v ∧ v.Fits node.type

namespace Value

variable {v : Value} {t u : Ty}

theorem isSome_cast? (fits : v.Fits t) (converts : t.Converts u) :
    (v.cast? u.category).isSome = true := by
  cases converts <;> cases v <;> simp_all [Fits, Ty.category, cast?]

theorem isSome_cast?_of_eq (fits : v.Fits t) (scalar : u.isScalar = true)
    (same : t.category = u.category) : (v.cast? u.category).isSome = true := by
  cases u <;> simp [Ty.isScalar] at scalar <;> cases t <;> simp [Ty.category] at same <;>
    cases v <;> simp_all [Fits, Ty.category, cast?]

theorem isSome_negate? (fits : v.Fits t) (type : t = .integer ∨ t = .double) :
    v.negate?.isSome = true := by
  rcases type with rfl | rfl <;> cases v <;> simp_all [Fits, negate?]

theorem isSome_complement? (fits : v.Fits t) (type : t = .integer ∨ t = .double) :
    v.complement?.isSome = true := by
  rcases type with rfl | rfl <;> cases v <;> simp_all [Fits, complement?]

end Value

namespace Checking

variable {σ : Scopes} {n n' : Nat} {e e' left right : Expr} {t : Ty} {op : Operator}

section Operands

theorem value?_ne_none : e.value? ≠ none ↔ ∃ v, e.value? = some v := Option.ne_none_iff_exists'

/-- A known value keeps the rules of its type, so that what every such value has is known too. -/
theorem bind_ne_none {f : Value → Option Value} (obeys : e.Obeys) (known : e.value? ≠ none)
    (total : ∀ v, v.Fits e.type → (f v).isSome = true) : e.value?.bind f ≠ none := by
  obtain ⟨v, value⟩ := value?_ne_none.mp known
  have answers := total v (obeys.fits value)
  rw [value, Option.bind_some]
  exact Option.ne_none_iff_isSome.mpr answers

/-- A known operand of an allowed conversion has a value of the other type. -/
theorem bind_cast?_ne_none (obeys : e.Obeys) (known : e.value? ≠ none)
    (allowed : e.type.category ≠ t.category → e.type.Converts t) (scalar : t.isScalar = true) :
    (e.value?.bind fun v => v.cast? t.category) ≠ none := by
  refine bind_ne_none obeys known fun v fits => ?_
  by_cases same : e.type.category = t.category
  · exact Value.isSome_cast?_of_eq fits scalar same
  · exact Value.isSome_cast? fits (allowed same)

/-- Conversions make no value known that was not known before. -/
theorem Converts.known (h : Converts e t n e' n') (known : e'.value? ≠ none) : e.value? ≠ none := by
  cases h with
  | keep => exact known
  | fold _ converted =>
      intro unknown
      simp [unknown] at converted
  | wrap => exact absurd rfl known

theorem Converts.stays_known (h : Converts e t n e' n') (obeys : e.Obeys)
    (allowed : t.isScalar = true → e.type.category ≠ t.category → e.type.Converts t)
    (known : e.value? ≠ none) : e'.value? ≠ none := by
  cases h with
  | keep => exact known
  | fold => nofun
  | wrap scalar _ unknown =>
      exact absurd unknown (bind_cast?_ne_none obeys known (allowed scalar) scalar)

theorem Converts.folded (h : Converts e t n e' n') (obeys : e.Obeys)
    (allowed : t.isScalar = true → e.type.category ≠ t.category → e.type.Converts t)
    (folded : e.All Expr.Folded) : e'.All Expr.Folded := by
  cases h with
  | keep => exact folded
  | fold => exact Expr.all_const.mpr trivial
  | wrap scalar _ unknown =>
      refine Expr.all_cast.mpr ⟨?_, folded⟩
      by_contra known
      exact bind_cast?_ne_none obeys known (allowed scalar) scalar unknown

theorem Coerces.folded (h : Coerces e t n e' n') (obeys : e.Obeys) (folded : e.All Expr.Folded) :
    e'.All Expr.Folded :=
  h.2.folded obeys (Ty.converts_of_accepts h.1) folded

theorem Converts.obeys (h : Converts e t n e' n') (obeys : e.Obeys)
    (allowed : t.isScalar = true → e.type.category ≠ t.category → e.type.Converts t) :
    e'.Obeys := by
  cases h with
  | keep => exact obeys
  | fold scalar known =>
      obtain ⟨v, -, converted⟩ := Option.bind_eq_some_iff.mp known
      exact ⟨scalar, Value.fits_of_cast? converted⟩
  | wrap scalar other => exact allowed scalar other

theorem exists_converts (e : Expr) (t : Ty) (n : Nat) : ∃ e' n', Converts e t n e' n' := by
  by_cases same : e.type.category = t.category ∨ t.isScalar = false
  · exact ⟨e, n, .keep same⟩
  · obtain ⟨other, scalar⟩ := not_or.mp same
    have scalar : t.isScalar = true := by simpa using scalar
    cases known : e.value?.bind fun v => v.cast? t.category with
    | some v => exact ⟨_, _, .fold scalar known⟩
    | none => exact ⟨_, _, .wrap scalar other known⟩

theorem converts_signed (e : Expr) :
    e.type.category ≠ (if e.type.isIntegerLike then Ty.integer else e.type).category →
      e.type.Converts (if e.type.isIntegerLike then .integer else e.type) := by
  intro other
  by_cases like : e.type.isIntegerLike = true
  · rw [if_pos like] at other ⊢
    exact Ty.converts_integer like other
  · rw [if_neg like] at other
    exact absurd rfl other

theorem isScalar_of_isNumeric (numeric : e.type.isNumeric = true) :
    (if e.type.isIntegerLike then Ty.integer else e.type).isScalar = true := by
  cases type : e.type <;> simp_all [Ty.isNumeric, Ty.isIntegerLike, Ty.isScalar]

/-- Signs stand in front of integers and doubles. -/
theorem Signed.operand (h : Signed e n e' n') (obeys : e.Obeys) :
    e'.Obeys ∧ (e'.type = .integer ∨ e'.type = .double) := by
  obtain ⟨numeric, converts⟩ := h
  refine ⟨converts.obeys obeys fun _ => converts_signed e, ?_⟩
  have type := converts.type (isScalar_of_isNumeric numeric)
  cases type' : e.type <;> simp_all [Ty.isNumeric, Ty.isIntegerLike]

theorem Signed.folded (h : Signed e n e' n') (obeys : e.Obeys) (folded : e.All Expr.Folded) :
    e'.All Expr.Folded :=
  h.2.folded obeys (fun _ => converts_signed e) folded

theorem Negates.folded (h : Negates e n e' n') (obeys : e.Obeys)
    (folded : e.All Expr.Folded) : e'.All Expr.Folded := by
  cases h with
  | fold => exact Expr.all_const.mpr trivial
  | make signed unknown =>
      obtain ⟨obeys', type⟩ := signed.operand obeys
      refine Expr.all_negate.mpr ⟨?_, signed.folded obeys folded⟩
      by_contra known
      exact bind_ne_none obeys' known (fun _ fits => Value.isSome_negate? fits type) unknown

theorem Complements.folded (h : Complements e n e' n') (obeys : e.Obeys)
    (folded : e.All Expr.Folded) : e'.All Expr.Folded := by
  cases h with
  | fold => exact Expr.all_const.mpr trivial
  | make signed unknown =>
      obtain ⟨obeys', type⟩ := signed.operand obeys
      refine Expr.all_complement.mpr ⟨?_, signed.folded obeys folded⟩
      by_contra known
      exact bind_ne_none obeys' known (fun _ fits => Value.isSome_complement? fits type) unknown

/-- Known operands of an operator both have a value of the type it works on. -/
theorem foldable?_ne_none {typing : OperationType}
    (typed : op.type left.type right.type = .ok typing) (first : left.Obeys) (second : right.Obeys) (known : left.value? ≠ none)
    (known' : right.value? ≠ none) : Parser.foldable? left right typing.operands ≠ none := by
  have scalar := Operator.isScalar_operands typed
  obtain ⟨allowed, allowed'⟩ := Operator.converts_operands typed
  have castl := bind_cast?_ne_none first known allowed scalar
  have castr := bind_cast?_ne_none second known' allowed' scalar
  obtain ⟨l, left'⟩ := Option.ne_none_iff_exists'.mp castl
  obtain ⟨r, right'⟩ := Option.ne_none_iff_exists'.mp castr
  obtain ⟨l₀, value, converted⟩ := Option.bind_eq_some_iff.mp left'
  obtain ⟨r₀, value', converted'⟩ := Option.bind_eq_some_iff.mp right'
  simp [Parser.foldable?, value, value', converted, converted']

theorem Operates.folded (h : Operates op left right n e n') (first : left.Obeys)
    (second : right.Obeys) (folded : left.All Expr.Folded) (folded' : right.All Expr.Folded) :
    e.All Expr.Folded := by
  cases h with
  | fold => exact Expr.all_const.mpr trivial
  | @make typing left' right' n₁ n₂ typed unknown converts converts' =>
      obtain ⟨allowed, allowed'⟩ := Operator.converts_operands typed
      refine Expr.all_binary.mpr ⟨?_, converts.folded first (fun _ => allowed) folded,
        converts'.folded second (fun _ => allowed') folded'⟩
      -- Were both converted operands known, the operands themselves would be, and folding would not
      -- have given up.
      by_contra known
      obtain ⟨known, known'⟩ := not_or.mp known
      have known := converts.known known
      have known' := converts'.known known'
      exact foldable?_ne_none typed first second known known' unknown

theorem folded_ofConstant (info : NodeInfo) (v : Value) :
    (Expr.ofConstant info v).All Expr.Folded := by
  rw [Expr.ofConstant]
  split
  · exact Expr.all_const.mpr trivial
  · exact Expr.all_aggregate.mpr trivial

end Operands

section Trees

theorem Fits.folded {parameters : List Parameter} {given arguments : List Expr}
    (h : Fits parameters given n arguments n')
    (obeys : ∀ e ∈ given, e.Obeys) (folded : ∀ e ∈ given, e.All Expr.Folded)
    (default : ∀ p ∈ parameters, ∀ v, p.default = some v → v.Fits p.type) :
    ∀ e ∈ arguments, e.All Expr.Folded := by
  induction h with
  | nil => simp
  | @cons p parameters given arguments e e' n₀ n₁ n₂ n₃ supplied passed _ ih =>
      rw [List.forall_mem_cons] at default
      have first : e.Obeys ∧ e.All Expr.Folded := by
        generalize head : given.head? = e? at supplied
        cases supplied with
        | given => exact ⟨obeys e (List.mem_of_head? head), folded e (List.mem_of_head? head)⟩
        | @default span v known =>
            refine ⟨?_, folded_ofConstant _ _⟩
            have fits := default.1 v known
            by_cases scalar : p.type.isScalar = true
            · rw [Expr.ofConstant, if_pos scalar]
              exact ⟨scalar, fits⟩
            · rw [Expr.ofConstant, if_neg scalar]
              exact ⟨by simpa using scalar, fits⟩
      have second : e'.All Expr.Folded := by
        cases passed with
        | reference => exact first.2
        | value _ coerced => exact coerced.folded first.1 first.2
      have rest := ih (fun e mem => obeys e (List.mem_of_mem_tail mem))
        (fun e mem => folded e (List.mem_of_mem_tail mem)) default.2
      rw [List.forall_mem_cons]
      exact ⟨second, rest⟩

theorem Expression.obeys (scopes : σ.Fulfilled) (h : Expression σ n e n') : e.Obeys :=
  (h.sound scopes).2.self.obeys

theorem default_fits {name : Name} {symbol : Symbol} {function : Signature} (scopes : σ.Fulfilled)
    (found : σ.lookup? name = some symbol) (role : symbol.role = .function function) :
    ∀ p ∈ function.parameters, ∀ v, p.default = some v → v.Fits p.type := by
  have signature := scopes _ (Scopes.holds_of_lookup? found)
  simp only [Symbol.Fulfilled, role] at signature
  exact fun p mem v known => (signature.default p mem v known).2

theorem Expression.folded (scopes : σ.Fulfilled) (h : Expression σ n e n') :
    e.All Expr.Folded := by
  induction h with
  | literal | constant => exact Expr.all_const.mpr trivial
  | «variable» => exact Expr.all_var.mpr trivial
  | element _ _ _ inner coerced _ base subscript =>
      exact Expr.all_index.mpr ⟨trivial, base, coerced.folded (inner.obeys scopes) subscript⟩
  | field _ _ _ _ base => exact Expr.all_field.mpr ⟨trivial, base⟩
  | signed operand signed ih => exact signed.folded (operand.obeys scopes) ih
  | negated operand negated ih => exact negated.folded (operand.obeys scopes) ih
  | complemented operand complemented ih => exact complemented.folded (operand.obeys scopes) ih
  | operation first second operated ih ih' =>
      exact operated.folded (first.obeys scopes) (second.obeys scopes) ih ih'
  | call found role _ each _ fitted ih =>
      refine Expr.all_call.mpr ⟨trivial, fitted.folded ?_ ?_ (default_fits scopes found role)⟩
      · intro e mem
        obtain ⟨i, hi, rfl⟩ := List.mem_iff_getElem.mp mem
        exact (each i hi).obeys scopes
      · intro e mem
        obtain ⟨i, hi, rfl⟩ := List.mem_iff_getElem.mp mem
        exact ih i hi

theorem Expression.coerced (scopes : σ.Fulfilled) {e₀ : Expr} {n₀ : Nat}
    (made : Expression σ n e₀ n₀) (h : Coerces e₀ t n₀ e n') : e.All Expr.Folded :=
  h.folded (made.obeys scopes) (made.folded scopes)

theorem Condition.folded (scopes : σ.Fulfilled) (h : Condition σ n e n') : e.All Expr.Folded := by
  obtain ⟨e₀, n₀, made, coerced⟩ := h
  exact made.coerced scopes coerced

theorem Statement.folded {loops : Nat} {s : Stmt} (scopes : σ.Fulfilled)
    (h : Statement σ loops n s n') : s.All Expr.Folded fun _ => True := by
  induction h with
  | assign left right coerced =>
      exact Stmt.all_assign.mpr ⟨trivial, left.1.folded scopes, right.coerced scopes coerced⟩
  | ifThen test _ inner => exact Stmt.all_ifThen.mpr ⟨⟨trivial, test.folded scopes⟩, inner⟩
  | ifElse test _ _ first second =>
      exact Stmt.all_ifElse.mpr ⟨⟨trivial, test.folded scopes⟩, first, second⟩
  | «while» test _ inner => exact Stmt.all_while.mpr ⟨⟨trivial, test.folded scopes⟩, inner⟩
  | «for» counter _ lower lower' upper upper' _ inner =>
      have first := lower.coerced scopes lower'
      have last := upper.coerced scopes upper'
      exact Stmt.all_for.mpr ⟨⟨trivial, counter.1.folded scopes, first, last⟩, inner⟩
  | «continue» => exact Stmt.all_continue.mpr trivial
  | «break» => exact Stmt.all_break.mpr trivial
  | read each =>
      have folded := each.forall_mem fun _ _ _ (h : Readable σ _ _ _) => h.1.1.folded scopes
      exact Stmt.all_read.mpr ⟨trivial, folded⟩
  | write each =>
      have folded := each.forall_mem fun _ _ _ (h : Writable σ _ _ _) => h.1.folded scopes
      exact Stmt.all_write.mpr ⟨trivial, folded⟩
  | call found role each _ fitted =>
      have obeys := each.forall_mem fun _ _ _ h => Expression.obeys scopes h
      have folded := each.forall_mem fun _ _ _ h => Expression.folded scopes h
      have arguments := fitted.folded obeys folded (default_fits scopes found role)
      exact Stmt.all_call.mpr ⟨trivial, arguments⟩
  | block _ ih =>
      refine Stmt.all_block.mpr ⟨trivial, fun s mem => ?_⟩
      obtain ⟨i, hi, rfl⟩ := List.mem_iff_getElem.mp mem
      exact ih i hi

theorem Completes.folded {g : Function} (h : Completes σ g) :
    g.body.All Expr.Folded fun _ => True := by
  obtain ⟨-, -, sound, declares, rfl, body, -, eq⟩ := h
  have scopes := (declares.sound sound).sound.scopes.fulfilled
  rw [eq, Stmt.all_block, List.forall_mem_append]
  refine ⟨trivial, fun i mem => ?_, body.forall_mem fun _ _ _ made => made.folded scopes⟩
  obtain ⟨symbol, -, n, span, value, rfl⟩ := declares.initial sound i mem
  exact Stmt.all_assign.mpr ⟨trivial, Expr.all_var.mpr trivial, folded_ofConstant _ _⟩

end Trees

/-- What stands in for the operand of another node after it has been converted. -/
def Becomes (e e' : Expr) : Prop := ∃ n n', Converts e e'.type n e' n'

theorem Converts.becomes (h : Converts e t n e' n') (scalar : t.isScalar = true) :
    Becomes e e' := by
  obtain rfl := h.type scalar
  exact ⟨n, n', h⟩

theorem Signed.becomes (h : Signed e n e' n') : Becomes e e' :=
  h.2.becomes (isScalar_of_isNumeric h.1)

theorem Signed.stays_known (h : Signed e n e' n') (obeys : e.Obeys) (known : e.value? ≠ none) :
    e'.value? ≠ none :=
  h.2.stays_known obeys (fun _ => converts_signed e) known

end Checking

namespace Parser

open Checking

/-- Either there is nothing to convert, or a constant stands where the conversion would. -/
def CastsTo (e : Expr) (target : Ty) (e' : Expr) : Prop :=
  e' = e ∧ (e.type.category = target.category ∨ target.isScalar = false) ∨
    ∃ info, info.type = target ∧ (Expr.cast info e).Obeys ∧ e'.StandsFor (.cast info e)

/-- Where operands are known, no node is built that computes. One constant is, in place of a node
that the rules of typing allow, and with the number, the place and the type of that node. -/
structure FoldsKnown : Prop where
  coercion : ∀ {e target}, e.Obeys → e.value? ≠ none → ∀ s,
    (coerce e target).Ensures s fun e' _ => CastsTo e target e'
  plus : ∀ {e}, e.Obeys → e.value? ≠ none → ∀ sign s, (plus sign e).Ensures s fun e' _ =>
    CastsTo e (if e.type.isIntegerLike then .integer else e.type) e'
  minus : ∀ {e}, e.Obeys → e.value? ≠ none → ∀ sign s, (minus sign e).Ensures s fun e' _ =>
    ∃ info operand, Becomes e operand ∧ (Expr.negate info operand).Obeys ∧
      e'.StandsFor (.negate info operand)
  complement : ∀ {e}, e.Obeys → e.value? ≠ none → ∀ sign s, (complement sign e).Ensures s fun e' _ =>
    ∃ info operand, Becomes e operand ∧ (Expr.complement info operand).Obeys ∧
      e'.StandsFor (.complement info operand)
  operation : ∀ {op left right}, left.Obeys → right.Obeys → left.value? ≠ none → right.value? ≠ none →
    ∀ sign s, (operation op sign left right).Ensures s fun e _ =>
      ∃ info l r, Becomes left l ∧ Becomes right r ∧ (Expr.binary info op l r).Obeys ∧
        e.StandsFor (.binary info op l r)

variable {s : ParserState} {e left right : Expr} {target : Ty}

theorem ensures_convert_of_known (obeys : e.Obeys) (known : e.value? ≠ none)
    (allowed : target.isScalar = true → e.type.category ≠ target.category → e.type.Converts target) :
    (convert e target).Ensures s fun e' _ => CastsTo e target e' := by
  by_cases same : e.type.category = target.category
  · rw [convert, if_pos (.inl same)]
    exact .pure (.inl ⟨rfl, .inl same⟩)
  · refine (yields_convert e target).ensures.mono ?_
    rintro e' s' ⟨c, n, -, converts⟩
    cases converts with
    | keep structured => exact .inl ⟨rfl, structured⟩
    | fold scalar converted =>
        obtain ⟨v, -, converted⟩ := Option.bind_eq_some_iff.mp converted
        have fits := Value.fits_of_cast? converted
        exact .inr ⟨⟨_, e.span, target⟩, rfl, allowed scalar same, _, rfl, fits⟩
    | wrap scalar other unknown =>
        exact absurd unknown (bind_cast?_ne_none obeys known (allowed scalar) scalar)

theorem ensures_coerce_of_known (obeys : e.Obeys) (known : e.value? ≠ none) :
    (coerce e target).Ensures s fun e' _ => CastsTo e target e' := by
  refine .located fun _ checked => ensures_convert_of_known obeys known ?_
  have accepts : target.accepts e.type = true := by
    simp only [Ty.check] at checked
    split at checked
    · assumption
    · cases checked
  exact Ty.converts_of_accepts accepts

theorem ensures_plus_of_known (sign : Span) (obeys : e.Obeys) (known : e.value? ≠ none) :
    (plus sign e).Ensures s fun e' _ =>
      CastsTo e (if e.type.isIntegerLike then .integer else e.type) e' := by
  unfold plus
  split
  · exact ensures_convert_of_known obeys known fun _ => converts_signed e
  · exact .fail

theorem ensures_minus_of_known (sign : Span) (obeys : e.Obeys) (known : e.value? ≠ none) :
    (minus sign e).Ensures s fun e' _ =>
      ∃ info operand, Becomes e operand ∧ (Expr.negate info operand).Obeys ∧
        e'.StandsFor (.negate info operand) := by
  refine (yields_minus sign e).ensures.mono ?_
  rintro e' s' ⟨c, n, -, negates⟩
  cases negates with
  | @fold span operand value m signed negated =>
      obtain ⟨obeys', type⟩ := signed.operand obeys
      obtain ⟨v, value', negated⟩ := Option.bind_eq_some_iff.mp negated
      have fits := Value.fits_of_negate? (obeys'.fits value') negated
      exact ⟨⟨m, span, operand.type⟩, operand, signed.becomes, ⟨rfl, type⟩, value, rfl, fits⟩
  | make signed unknown =>
      obtain ⟨obeys', type⟩ := signed.operand obeys
      have known := signed.stays_known obeys known
      have negated := bind_ne_none obeys' known fun _ fits => Value.isSome_negate? fits type
      exact absurd unknown negated

theorem ensures_complement_of_known (sign : Span) (obeys : e.Obeys) (known : e.value? ≠ none) :
    (complement sign e).Ensures s fun e' _ =>
      ∃ info operand, Becomes e operand ∧ (Expr.complement info operand).Obeys ∧
        e'.StandsFor (.complement info operand) := by
  refine (yields_complement sign e).ensures.mono ?_
  rintro e' s' ⟨c, n, -, complements⟩
  cases complements with
  | @fold span operand value m signed complemented =>
      obtain ⟨obeys', type⟩ := signed.operand obeys
      obtain ⟨v, value', complemented⟩ := Option.bind_eq_some_iff.mp complemented
      have fits := Value.fits_of_complement? complemented
      exact ⟨⟨m, span, .integer⟩, operand, signed.becomes, ⟨rfl, type⟩, value, rfl, fits⟩
  | make signed unknown =>
      obtain ⟨obeys', type⟩ := signed.operand obeys
      have known := signed.stays_known obeys known
      have complemented := bind_ne_none obeys' known fun _ fits =>
        Value.isSome_complement? fits type
      exact absurd unknown complemented

theorem ensures_operation_of_known {op : Operator} (sign : Span) (first : left.Obeys)
    (second : right.Obeys) (known : left.value? ≠ none) (known' : right.value? ≠ none) :
    (operation op sign left right).Ensures s fun e _ =>
      ∃ info l r, Becomes left l ∧ Becomes right r ∧ (Expr.binary info op l r).Obeys ∧
        e.StandsFor (.binary info op l r) := by
  refine (yields_operation op sign left right).ensures.mono ?_
  rintro e s' ⟨c, n, -, operates⟩
  cases operates with
  | @fold typing l r value typed folded evaluated =>
      have scalar := Operator.isScalar_operands typed
      obtain ⟨l', n₁, converts⟩ := exists_converts left typing.operands 0
      obtain ⟨r', n₂, converts'⟩ := exists_converts right typing.operands n₁
      have typel := converts.type scalar
      have typer := converts'.type scalar
      have fits := Operator.fits_eval typed (fits_of_foldable? folded) evaluated
      refine ⟨_, l', r', converts.becomes scalar, converts'.becomes scalar, ⟨?_, ?_, ?_⟩,
        value, rfl, fits⟩
      · rw [typel, typer]
      · rw [typel, scalar]
      · rw [typel, typer]
        exact Operator.type_operands typed
  | make typed unknown =>
      exact absurd unknown (foldable?_ne_none typed first second known known')

theorem foldsKnown : FoldsKnown where
  coercion obeys known _ := ensures_coerce_of_known obeys known
  plus obeys known sign _ := ensures_plus_of_known sign obeys known
  minus obeys known sign _ := ensures_minus_of_known sign obeys known
  complement obeys known sign _ := ensures_complement_of_known sign obeys known
  operation first second known known' sign _ :=
    ensures_operation_of_known sign first second known known'

end Parser

/-- What is known after parsing has been computed: no operation, negation, complement or conversion
in an accepted program has only known operands, as each such node gave way to one constant of its
type. -/
theorem Source.folding_complete {source : Source} {p : Program} (h : source.program = .ok p) :
    (∀ g ∈ p.main :: p.functions, g.body.All Expr.Folded fun _ => True) ∧ Parser.FoldsKnown := by
  refine ⟨fun g mem => ?_, Parser.foldsKnown⟩
  obtain ⟨σ, completes⟩ := Source.completes h g mem
  exact completes.folded

/-- A program that leaves little to compute. -/
def Source.frugal : Source := ⟨"frugal.pas", [
  "const a = 2 * 3 + 1;",
  "var n: integer;",
  "begin n := -a; writeln('q' + 'rs', not ('a' < 'b') + 1, 2 - n) end."], .endOfFile⟩

theorem Source.frugal_nodes :
    Source.frugal.program.toOption.map (fun p =>
      (Expr.nodesOf (p.main.body.nodes.flatMap Stmt.operands)).map fun e => e.value?.isSome) =
    some [false, true, true, true, false, true, false] := by
  decide +kernel

theorem Source.frugal_folded : ∃ p, Source.frugal.program = .ok p ∧
    ((Expr.nodesOf (p.main.body.nodes.flatMap Stmt.operands)).map fun e => e.value?.isSome) =
      [false, true, true, true, false, true, false] ∧
    (∀ g ∈ p.main :: p.functions, g.body.All Expr.Folded fun _ => True) ∧ Parser.FoldsKnown := by
  obtain ⟨p, accepted, known⟩ := exists_of_map_toOption Source.frugal_nodes
  exact ⟨p, accepted, known, Source.folding_complete accepted⟩

end PascalX86
