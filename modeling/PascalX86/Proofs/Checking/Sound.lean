import PascalX86.Proofs.Checking.Rules
import PascalX86.Proofs.Checking.Table

/-!
# Soundness of checking

Where all declarations in scope are sound, every tree that checking builds obeys the rules of typing,
its nodes are numbered in order, and its symbols and functions are among the declared ones.
-/

set_option autoImplicit false

namespace PascalX86

/-- A table whose symbols the code at a lexical level can reach. -/
structure Table.Reachable (level : Nat) (t : Table) : Prop where
  sound : t.Sound
  level : t.level ≤ level
  area : t.area ≠ .fields

namespace Scopes

def Holds (σ : Scopes) (symbol : Symbol) : Prop := ∃ t ∈ σ.tables, symbol ∈ t.symbols

def Fulfilled (σ : Scopes) : Prop := ∀ symbol, σ.Holds symbol → symbol.Fulfilled

def Sound (σ : Scopes) (level : Nat) : Prop := ∀ t ∈ σ.tables, t.Reachable level

theorem holds_of_lookup? {σ : Scopes} {name : Name} {symbol : Symbol}
    (h : σ.lookup? name = some symbol) : σ.Holds symbol := by
  obtain ⟨t, mem, found⟩ := List.exists_of_findSome?_eq_some h
  exact ⟨t, mem, List.mem_of_find?_eq_some found⟩

variable {σ : Scopes} {level : Nat} {symbol : Symbol}

theorem Sound.fulfilled (sound : σ.Sound level) : σ.Fulfilled := by
  rintro symbol ⟨t, mem, inside⟩
  exact (sound t mem).sound.fulfilled symbol inside

theorem Sound.slot (sound : σ.Sound level) (h : σ.Holds symbol) {slot : Slot}
    (found : symbol.slot? = some slot) : slot.level ≤ level ∧ slot.area ≠ .fields := by
  obtain ⟨t, mem, inside⟩ := h
  obtain ⟨same, area, -⟩ := (sound t mem).sound.within symbol inside slot found
  rw [same, area]
  exact ⟨(sound t mem).level, (sound t mem).area⟩

end Scopes

/-- Symbols and functions that an expression names itself. -/
def Expr.Grounded (σ : Scopes) : Expr → Prop
  | .var _ symbol => σ.Holds symbol
  | .call _ function _ => function.Sound
  | _ => True

/-- What later passes find at every expression. -/
structure Expr.Checked (σ : Scopes) (bound : Nat) (e : Expr) : Prop where
  obeys : e.Obeys
  proper : e.type.Proper
  numbered : e.info.id < bound
  ordered : ∀ x ∈ e.operands, x.info.id < e.info.id
  grounded : e.Grounded σ

def Stmt.Grounded : Stmt → Prop
  | .call _ function _ => function.Sound
  | _ => True

structure Stmt.Checked (bound : Nat) (s : Stmt) : Prop where
  obeys : s.Obeys
  numbered : s.info.id < bound
  grounded : s.Grounded

abbrev Expr.Sound (σ : Scopes) (bound : Nat) (e : Expr) : Prop := e.All (Expr.Checked σ bound)

abbrev Stmt.Sound (σ : Scopes) (bound : Nat) (s : Stmt) : Prop :=
  s.All (Expr.Checked σ bound) (Stmt.Checked bound)

theorem Expr.Checked.mono {σ σ' : Scopes} {bound bound' : Nat} {e : Expr} (h : e.Checked σ bound)
    (le : bound ≤ bound') (grows : ∀ symbol, σ.Holds symbol → σ'.Holds symbol) :
    e.Checked σ' bound' := by
  refine ⟨h.obeys, h.proper, Nat.lt_of_lt_of_le h.numbered le, h.ordered, ?_⟩
  have grounded := h.grounded
  cases e <;> simp_all [Grounded]

theorem Expr.Sound.le {σ : Scopes} {bound bound' : Nat} {e : Expr} (h : e.Sound σ bound)
    (le : bound ≤ bound') : e.Sound σ bound' :=
  h.mono fun _ checked => checked.mono le fun _ => id

theorem Stmt.Sound.mono {σ σ' : Scopes} {bound bound' : Nat} {s : Stmt} (h : s.Sound σ bound)
    (le : bound ≤ bound') (grows : ∀ symbol, σ.Holds symbol → σ'.Holds symbol) :
    s.Sound σ' bound' :=
  All.mono h (fun _ checked => checked.mono le grows) fun _ checked =>
    ⟨checked.obeys, Nat.lt_of_lt_of_le checked.numbered le, checked.grounded⟩

theorem Expr.Obeys.fits {e : Expr} {v : Value} (h : e.Obeys) (known : e.value? = some v) :
    v.Fits e.type := by
  cases e <;> simp only [value?, Option.some.injEq, reduceCtorEq] at known
  all_goals
    subst known
    exact h.2

theorem Ty.proper_of_isScalar {t : Ty} (h : t.isScalar = true) : t.Proper := by
  cases t <;> simp [Ty.isScalar] at h <;> trivial

theorem Fields.proper_of_mem_layout : ∀ {fields : Fields} {offset : Nat} {f : Field},
    fields.Proper → f ∈ fields.layout offset → f.type.Proper
  | .empty, _, _, _, mem => by simp at mem
  | .more _ type rest, _, f, proper, mem => by
      rw [Fields.layout_more, List.mem_cons] at mem
      rcases mem with rfl | mem
      · exact proper.1
      · exact rest.proper_of_mem_layout proper.2 mem

theorem Ty.converts_of_accepts {t u : Ty} (h : t.accepts u = true) (scalar : t.isScalar = true)
    (other : u.category ≠ t.category) : u.Converts t := by
  cases t <;> simp [isScalar] at scalar <;> cases u <;>
    simp [accepts, category, Category.isStructured, Category.accepts, same] at h other <;> constructor

theorem Operator.operands_of_operandType? {op : Operator} {left right t : Ty}
    (h : op.operandType? left right = some t) :
    t = .integer ∧ left.isIntegerLike = true ∧ right.isIntegerLike = true ∨
      t = .double ∧ left.isNumeric = true ∧ right.isNumeric = true ∨
      t = .string ∧ left.isTextual = true ∧ right.isTextual = true := by
  cases kind : op.kind <;> simp only [operandType?, kind] at h <;> grind

theorem Ty.converts_integer {t : Ty} (like : t.isIntegerLike = true)
    (other : t.category ≠ Ty.integer.category) : t.Converts .integer := by
  cases t <;> simp [isIntegerLike, category] at like other
  exact .code

theorem Ty.converts_double {t : Ty} (numeric : t.isNumeric = true)
    (other : t.category ≠ Ty.double.category) : t.Converts .double := by
  cases t <;> simp [isNumeric, category] at numeric other
  · exact .widen
  · exact .widenCode

theorem Ty.converts_string {t : Ty} (textual : t.isTextual = true)
    (other : t.category ≠ Ty.string.category) : t.Converts .string := by
  cases t <;> simp [isTextual, category] at textual other
  exact .text

theorem Operator.converts_operands {op : Operator} {left right : Ty} {typing : OperationType}
    (h : op.type left right = .ok typing) :
    (left.category ≠ typing.operands.category → left.Converts typing.operands) ∧
      (right.category ≠ typing.operands.category → right.Converts typing.operands) := by
  simp only [type] at h
  split at h
  · next t found =>
    cases h
    rcases operands_of_operandType? found with ⟨rfl, first, second⟩ | ⟨rfl, first, second⟩ |
      ⟨rfl, first, second⟩
    · exact ⟨Ty.converts_integer first, Ty.converts_integer second⟩
    · exact ⟨Ty.converts_double first, Ty.converts_double second⟩
    · exact ⟨Ty.converts_string first, Ty.converts_string second⟩
  · cases h

namespace Checking

variable {σ : Scopes} {n n' : Nat} {e e' : Expr} {t : Ty}

section Conversions

theorem Converts.type (h : Converts e t n e' n') (scalar : t.isScalar = true) : e'.type = t := by
  cases h with
  | keep same =>
      rw [scalar] at same
      exact Ty.eq_of_category_eq (by simpa using same) scalar
  | fold | wrap => rfl

theorem Coerces.same (h : Coerces e t n e' n') : t.same e'.type = true := by
  obtain ⟨accepts, converts⟩ := h
  cases converts with
  | keep same => exact Ty.same_of_accepts accepts same
  | fold | wrap => exact t.same_refl

theorem Converts.sound (h : Converts e t n e' n') (he : e.Sound σ n)
    (allowed : t.isScalar = true → e.type.category ≠ t.category → e.type.Converts t) :
    n ≤ n' ∧ e'.Sound σ n' := by
  cases h with
  | keep => exact ⟨Nat.le_refl n, he⟩
  | @fold value scalar known =>
      obtain ⟨v, -, converted⟩ := Option.bind_eq_some_iff.mp known
      refine ⟨Nat.le_succ n, Expr.all_const.mpr
        ⟨⟨scalar, ?_⟩, ?_, Nat.lt_succ_self n, List.forall_mem_nil _, trivial⟩⟩
      · exact Value.fits_of_cast? converted
      · exact Ty.proper_of_isScalar scalar
  | wrap scalar other =>
      refine ⟨Nat.le_succ n, Expr.all_cast.mpr ⟨⟨?_, ?_, Nat.lt_succ_self n, ?_, trivial⟩, ?_⟩⟩
      · exact allowed scalar other
      · exact Ty.proper_of_isScalar scalar
      · exact List.forall_mem_singleton.mpr he.self.numbered
      · exact he.le (Nat.le_succ n)

theorem Coerces.sound (h : Coerces e t n e' n') (he : e.Sound σ n) : n ≤ n' ∧ e'.Sound σ n' :=
  h.2.sound he (Ty.converts_of_accepts h.1)

theorem Signed.sound (h : Signed e n e' n') (he : e.Sound σ n) :
    n ≤ n' ∧ e'.Sound σ n' ∧ (e'.type = .integer ∨ e'.type = .double) := by
  obtain ⟨numeric, converts⟩ := h
  by_cases like : e.type.isIntegerLike = true
  · rw [if_pos like] at converts
    obtain ⟨le, sound⟩ := converts.sound he fun _ => Ty.converts_integer like
    exact ⟨le, sound, .inl (converts.type rfl)⟩
  · rw [if_neg like] at converts
    obtain ⟨le, sound⟩ := converts.sound he fun _ other => absurd rfl other
    have double : e.type = .double := by
      cases type : e.type <;> simp_all [Ty.isNumeric, Ty.isIntegerLike]
    exact ⟨le, sound, .inr (double ▸ converts.type (double ▸ rfl))⟩

theorem Negates.sound (h : Negates e n e' n') (he : e.Sound σ n) : n ≤ n' ∧ e'.Sound σ n' := by
  cases h with
  | @fold span operand value m signed known =>
      obtain ⟨le, sound, type⟩ := signed.sound he
      obtain ⟨v, constant, negated⟩ := Option.bind_eq_some_iff.mp known
      have scalar : operand.type.isScalar = true := by
        rcases type with type | type <;> rw [type] <;> rfl
      have fits := Value.fits_of_negate? (sound.self.obeys.fits constant) negated
      refine ⟨Nat.le_succ_of_le le, Expr.all_const.mpr
        ⟨⟨scalar, fits⟩, ?_, ?_, List.forall_mem_nil _, trivial⟩⟩
      · exact sound.self.proper
      · exact Nat.lt_succ_self m
  | @make span operand m signed =>
      obtain ⟨le, sound, type⟩ := signed.sound he
      refine ⟨Nat.le_succ_of_le le, Expr.all_negate.mpr ⟨⟨⟨rfl, type⟩, ?_, ?_, ?_, trivial⟩, ?_⟩⟩
      · exact sound.self.proper
      · exact Nat.lt_succ_self m
      · exact List.forall_mem_singleton.mpr sound.self.numbered
      · exact sound.le (Nat.le_succ m)

theorem Complements.sound (h : Complements e n e' n') (he : e.Sound σ n) :
    n ≤ n' ∧ e'.Sound σ n' := by
  cases h with
  | @fold span operand value m signed known =>
      obtain ⟨le, -, -⟩ := signed.sound he
      obtain ⟨v, -, complemented⟩ := Option.bind_eq_some_iff.mp known
      refine ⟨Nat.le_succ_of_le le, Expr.all_const.mpr
        ⟨⟨rfl, ?_⟩, trivial, ?_, List.forall_mem_nil _, trivial⟩⟩
      · exact Value.fits_of_complement? complemented
      · exact Nat.lt_succ_self m
  | @make span operand m signed =>
      obtain ⟨le, sound, type⟩ := signed.sound he
      refine ⟨Nat.le_succ_of_le le, Expr.all_complement.mpr ⟨⟨⟨rfl, type⟩, trivial, ?_, ?_, trivial⟩, ?_⟩⟩
      · exact Nat.lt_succ_self m
      · exact List.forall_mem_singleton.mpr sound.self.numbered
      · exact sound.le (Nat.le_succ m)

theorem fits_of_foldable? {left right : Expr} {l r : Value}
    (h : Parser.foldable? left right t = some (l, r)) : l.Fits t := by
  simp only [Parser.foldable?, bind, Option.bind_eq_some_iff, pure, Option.some.injEq,
    Prod.mk.injEq] at h
  obtain ⟨l₀, -, r₀, -, l₁, first, r₁, -, rfl, -⟩ := h
  exact Value.fits_of_cast? first

theorem Operates.sound {op : Operator} {left right : Expr} {n₁ : Nat}
    (h : Operates op left right n e' n') (hl : left.Sound σ n₁) (hr : right.Sound σ n) (le : n₁ ≤ n) :
    n ≤ n' ∧ e'.Sound σ n' := by
  cases h with
  | fold typed known evaluated =>
      have scalar := Operator.isScalar_result typed
      have fits := Operator.fits_eval typed (fits_of_foldable? known) evaluated
      refine ⟨Nat.le_succ n, Expr.all_const.mpr
        ⟨⟨scalar, fits⟩, ?_, Nat.lt_succ_self n, List.forall_mem_nil _, trivial⟩⟩
      exact Ty.proper_of_isScalar scalar
  | @make typing left' right' n₂ n₃ typed unknown first second =>
      have scalar := Operator.isScalar_operands typed
      obtain ⟨allowedl, allowedr⟩ := Operator.converts_operands typed
      obtain ⟨le₂, soundl⟩ := first.sound (hl.le le) fun _ => allowedl
      obtain ⟨le₃, soundr⟩ := second.sound (hr.le le₂) fun _ => allowedr
      have typel := first.type scalar
      have typer := second.type scalar
      refine ⟨by omega, Expr.all_binary.mpr ⟨⟨⟨?_, ?_, ?_⟩, ?_, ?_, ?_, trivial⟩, ?_, ?_⟩⟩
      · rw [typel, typer]
      · rw [typel, scalar]
      · rw [typel, typer]
        exact Operator.type_operands typed
      · exact Ty.proper_of_isScalar (Operator.isScalar_result typed)
      · exact Nat.lt_succ_self n₃
      · exact List.forall_mem_cons.mpr
          ⟨(soundl.le le₃).self.numbered, List.forall_mem_singleton.mpr soundr.self.numbered⟩
      · exact soundl.le (by omega)
      · exact soundr.le (by omega)

end Conversions

section Calls

theorem sound_ofConstant {info : NodeInfo} {v : Value} (proper : info.type.Proper)
    (fits : v.Fits info.type) (numbered : info.id < n) : (Expr.ofConstant info v).Sound σ n := by
  by_cases scalar : info.type.isScalar = true
  · rw [Expr.ofConstant, if_pos scalar]
    exact Expr.all_const.mpr ⟨⟨scalar, fits⟩, proper, numbered, List.forall_mem_nil _, trivial⟩
  · rw [Expr.ofConstant, if_neg scalar]
    exact Expr.all_aggregate.mpr
      ⟨⟨by simpa using scalar, fits⟩, proper, numbered, List.forall_mem_nil _, trivial⟩

variable {p : Parameter} {given arguments : List Expr}

theorem Supplies.sound {e? : Option Expr} (h : Supplies p n e? e n') (proper : p.type.Proper)
    (default : ∀ v, p.default = some v → v.Fits p.type) (he : ∀ e ∈ e?, e.Sound σ n) :
    n ≤ n' ∧ e.Sound σ n' := by
  cases h with
  | given e => exact ⟨Nat.le_refl n, he e rfl⟩
  | default known =>
      exact ⟨Nat.le_succ n, sound_ofConstant proper (default _ known) (Nat.lt_succ_self n)⟩

theorem Passes.sound (h : Passes p e n e' n') (he : e.Sound σ n) :
    n ≤ n' ∧ e'.Sound σ n' ∧ p.Takes e' := by
  cases h with
  | reference mode target same => exact ⟨Nat.le_refl n, he, Ty.same_comm _ _ ▸ same, fun _ => target⟩
  | value mode coerced =>
      obtain ⟨le, sound⟩ := coerced.sound he
      exact ⟨le, sound, coerced.same, fun reference => absurd reference mode⟩

theorem Fits.sound {parameters : List Parameter} (h : Fits parameters given n arguments n')
    (proper : ∀ p ∈ parameters, p.type.Proper)
    (default : ∀ p ∈ parameters, ∀ v, p.default = some v → v.Fits p.type)
    (hgiven : ∀ e ∈ given, e.Sound σ n) :
    n ≤ n' ∧ (∀ e ∈ arguments, e.Sound σ n') ∧ List.Forall₂ Parameter.Takes parameters arguments := by
  induction h with
  | nil given n => exact ⟨Nat.le_refl n, by simp, .nil⟩
  | @cons p parameters given arguments e e' n₀ n₁ n₂ n₃ supplied passed _ ih =>
      rw [List.forall_mem_cons] at proper default
      have head : ∀ e ∈ given.head?, e.Sound σ n₀ := fun e he => hgiven e (List.mem_of_head? he)
      obtain ⟨le₁, sound₁⟩ := supplied.sound proper.1 default.1 head
      obtain ⟨le₂, sound₂, takes⟩ := passed.sound sound₁
      have tail : ∀ e ∈ given.tail, e.Sound σ n₂ := fun e he =>
        (hgiven e (List.mem_of_mem_tail he)).le (Nat.le_trans le₁ le₂)
      obtain ⟨le₃, sound₃, rest⟩ := ih proper.2 default.2 tail
      refine ⟨by omega, ?_, .cons takes rest⟩
      rw [List.forall_mem_cons]
      exact ⟨sound₂.le le₃, sound₃⟩

end Calls

section Trees

/-- Checking builds sound expressions, numbered after what was there before. -/
theorem Expression.sound (scopes : σ.Fulfilled) (h : Expression σ n e n') :
    n ≤ n' ∧ e.Sound σ n' := by
  induction h with
  | @literal n span type value scalar fits =>
      refine ⟨Nat.le_succ n, Expr.all_const.mpr
        ⟨⟨scalar, fits⟩, ?_, Nat.lt_succ_self n, List.forall_mem_nil _, trivial⟩⟩
      exact Ty.proper_of_isScalar scalar
  | @constant n span name symbol value slot found role scalar =>
      have fulfilled := scopes _ (Scopes.holds_of_lookup? found)
      simp only [Symbol.Fulfilled, role] at fulfilled
      refine ⟨Nat.le_succ n, Expr.all_const.mpr
        ⟨⟨scalar, fulfilled.2.1⟩, ?_, ?_, List.forall_mem_nil _, trivial⟩⟩
      · exact fulfilled.1
      · exact Nat.lt_succ_self n
  | @«variable» n span name symbol found referable =>
      have holds := Scopes.holds_of_lookup? found
      have fulfilled := scopes _ holds
      refine ⟨Nat.le_succ n, Expr.all_var.mpr
        ⟨⟨rfl, referable⟩, ?_, Nat.lt_succ_self n, List.forall_mem_nil _, holds⟩⟩
      simp only [Symbol.IsReferable, Symbol.Fulfilled] at referable fulfilled
      split at fulfilled <;> simp_all [Expr.type, Expr.info]
  | @element n₀ n₁ n₂ n₃ span array e index low high element _ reference type _ coerced inside
      base subscript =>
      obtain ⟨le₁, sound₁⟩ := base
      obtain ⟨le₂, sound₂⟩ := subscript
      obtain ⟨le₃, sound₃⟩ := coerced.sound sound₂
      have proper := sound₁.self.proper
      rw [type] at proper
      refine ⟨by omega, Expr.all_index.mpr
        ⟨⟨⟨reference, ?_, low, high, type, inside⟩, ?_, ?_, ?_, trivial⟩, ?_, ?_⟩⟩
      · exact coerced.2.type rfl
      · exact proper.2.2.2
      · exact Nat.lt_succ_self n₃
      · have earlier := sound₁.le (Nat.le_trans le₂ le₃)
        exact List.forall_mem_cons.mpr
          ⟨earlier.self.numbered, List.forall_mem_singleton.mpr sound₃.self.numbered⟩
      · exact sound₁.le (by omega)
      · exact sound₃.le (by omega)
  | @field n₀ n₁ span record fields name f _ reference type found base =>
      obtain ⟨le, sound⟩ := base
      have member := List.mem_of_find?_eq_some found
      have proper := sound.self.proper
      rw [type] at proper
      refine ⟨by omega, Expr.all_field.mpr
        ⟨⟨⟨reference, rfl, fields, type, member⟩, ?_, ?_, ?_, trivial⟩, ?_⟩⟩
      · exact Fields.proper_of_mem_layout proper.2.2 member
      · exact Nat.lt_succ_self n₁
      · exact List.forall_mem_singleton.mpr sound.self.numbered
      · exact sound.le (Nat.le_succ n₁)
  | signed _ signed ih =>
      obtain ⟨le, sound⟩ := ih
      obtain ⟨le', sound', -⟩ := signed.sound sound
      exact ⟨Nat.le_trans le le', sound'⟩
  | negated _ negated ih =>
      obtain ⟨le, sound⟩ := ih
      obtain ⟨le', sound'⟩ := negated.sound sound
      exact ⟨Nat.le_trans le le', sound'⟩
  | complemented _ complemented ih =>
      obtain ⟨le, sound⟩ := ih
      obtain ⟨le', sound'⟩ := complemented.sound sound
      exact ⟨Nat.le_trans le le', sound'⟩
  | operation _ _ operated first second =>
      obtain ⟨le₁, sound₁⟩ := first
      obtain ⟨le₂, sound₂⟩ := second
      obtain ⟨le₃, sound₃⟩ := operated.sound sound₁ sound₂ le₂
      exact ⟨by omega, sound₃⟩
  -- The signature is sound because the table that holds it is.
  | @call m span name symbol function given arguments stage found role result _ count fitted ih =>
      have signature := scopes _ (Scopes.holds_of_lookup? found)
      simp only [Symbol.Fulfilled, role] at signature
      obtain ⟨le, sound⟩ := (Chain.of_stages ih).bounded (fun _ _ _ h => h)
        fun _ _ _ le sound => sound.le le
      obtain ⟨le', sound', takes⟩ := fitted.sound signature.proper
        (fun p mem v known => (signature.default p mem v known).2) sound
      refine ⟨by omega, Expr.all_call.mpr ⟨⟨⟨rfl, result, takes⟩, ?_, ?_, ?_, signature⟩, fun e mem => ?_⟩⟩
      · exact signature.result.resolve_left result
      · exact Nat.lt_succ_self m
      · exact fun e mem => (sound' e mem).self.numbered
      · exact (sound' e mem).le (Nat.le_succ m)

/-- Structured constants are only made for initializers and for arguments that are left out. -/
theorem Expression.ne_aggregate (h : Expression σ n e n') (info : NodeInfo) (v : Value) :
    e ≠ .aggregate info v := by
  induction h with
  | signed _ signed ih =>
      obtain ⟨-, converts⟩ := signed
      cases converts with
      | keep => exact ih
      | fold | wrap => nofun
  | negated _ negated => cases negated <;> nofun
  | complemented _ complemented => cases complemented <;> nofun
  | operation _ _ operated => cases operated <;> nofun
  | _ => nofun

theorem Condition.sound (scopes : σ.Fulfilled) (h : Condition σ n e n') :
    n ≤ n' ∧ e.Sound σ n' ∧ e.type = .integer := by
  obtain ⟨e₀, n₀, made, coerced⟩ := h
  obtain ⟨le₀, sound₀⟩ := made.sound scopes
  obtain ⟨le, sound⟩ := coerced.sound sound₀
  exact ⟨Nat.le_trans le₀ le, sound, coerced.2.type rfl⟩

theorem Statement.sound {loops : Nat} {s : Stmt} (scopes : σ.Fulfilled)
    (h : Statement σ loops n s n') : n ≤ n' ∧ s.Sound σ n' := by
  induction h with
  | @assign loops n₀ n₁ n₂ n₃ span target e value left right coerced =>
      obtain ⟨le₁, sound₁⟩ := left.1.sound scopes
      obtain ⟨le₂, sound₂⟩ := right.sound scopes
      obtain ⟨le₃, sound₃⟩ := coerced.sound sound₂
      have reference := left.2.isReference
      refine ⟨by omega, Stmt.all_assign.mpr ⟨⟨⟨reference, coerced.same⟩, ?_, trivial⟩, ?_, ?_⟩⟩
      · exact Nat.lt_succ_self n₃
      · exact sound₁.le (by omega)
      · exact sound₃.le (by omega)
  | @ifThen loops n₀ n₁ n₂ span condition body test _ inner =>
      obtain ⟨le₁, sound₁, type⟩ := test.sound scopes
      obtain ⟨le₂, sound₂⟩ := inner
      refine ⟨by omega, Stmt.all_ifThen.mpr ⟨⟨⟨type, Nat.lt_succ_self n₂, trivial⟩, ?_⟩, ?_⟩⟩
      · exact sound₁.le (by omega)
      · exact sound₂.mono (by omega) fun _ => id
  | @ifElse loops n₀ n₁ n₂ n₃ span condition body otherwise test _ _ first second =>
      obtain ⟨le₁, sound₁, type⟩ := test.sound scopes
      obtain ⟨le₂, sound₂⟩ := first
      obtain ⟨le₃, sound₃⟩ := second
      refine ⟨by omega, Stmt.all_ifElse.mpr ⟨⟨⟨type, Nat.lt_succ_self n₃, trivial⟩, ?_⟩, ?_, ?_⟩⟩
      · exact sound₁.le (by omega)
      · exact sound₂.mono (by omega) fun _ => id
      · exact sound₃.mono (by omega) fun _ => id
  | @«while» loops n₀ n₁ n₂ span condition body test _ inner =>
      obtain ⟨le₁, sound₁, type⟩ := test.sound scopes
      obtain ⟨le₂, sound₂⟩ := inner
      refine ⟨by omega, Stmt.all_while.mpr ⟨⟨⟨type, Nat.lt_succ_self n₂, trivial⟩, ?_⟩, ?_⟩⟩
      · exact sound₁.le (by omega)
      · exact sound₂.mono (by omega) fun _ => id
  | @«for» loops n₀ n₁ n₂ n₃ n₄ n₅ n₆ span info symbol e₁ e₂ first last direction body counter type
      lower lower' upper upper' _ inner =>
      obtain ⟨le₁, sound₁⟩ := counter.1.sound scopes
      obtain ⟨le₂, sound₂⟩ := lower.sound scopes
      obtain ⟨le₃, sound₃⟩ := lower'.sound sound₂
      obtain ⟨le₄, sound₄⟩ := upper.sound scopes
      obtain ⟨le₅, sound₅⟩ := upper'.sound sound₄
      obtain ⟨le₆, sound₆⟩ := inner
      -- Counters are integers or characters, so the bounds are converted to their very type.
      have scalar : info.type.isScalar = true := by
        cases like : info.type <;> simp_all [Ty.isIntegerLike, Ty.isScalar]
      have rule : Stmt.Obeys (.for ⟨n₆, span, .nil⟩ (.var info symbol) first last direction body) :=
        ⟨counter.2, type, lower'.2.type scalar, upper'.2.type scalar, info, symbol, rfl⟩
      refine ⟨by omega, Stmt.all_for.mpr ⟨⟨⟨rule, Nat.lt_succ_self n₆, trivial⟩, ?_, ?_, ?_⟩, ?_⟩⟩
      · exact sound₁.le (by omega)
      · exact sound₃.le (by omega)
      · exact sound₅.le (by omega)
      · exact sound₆.mono (by omega) fun _ => id
  | @«continue» loops n =>
      exact ⟨Nat.le_succ n, Stmt.all_continue.mpr ⟨trivial, Nat.lt_succ_self n, trivial⟩⟩
  | @«break» loops n =>
      exact ⟨Nat.le_succ n, Stmt.all_break.mpr ⟨trivial, Nat.lt_succ_self n, trivial⟩⟩
  | @read loops n n' span targets newline each =>
      have made (n : Nat) (e : Expr) (n' : Nat) (h : Readable σ n e n') : n ≤ n' ∧ e.Sound σ n' :=
        h.1.1.sound scopes
      obtain ⟨le, sound⟩ := each.bounded made fun _ _ _ le sound => sound.le le
      have rule := each.forall_mem fun _ e _ (h : Readable σ _ e _) => And.intro h.1.2 h.2
      refine ⟨by omega, Stmt.all_read.mpr ⟨⟨rule, Nat.lt_succ_self n', trivial⟩, fun e mem => ?_⟩⟩
      exact (sound e mem).le (Nat.le_succ n')
  | @write loops n n' span arguments newline each =>
      have made (n : Nat) (e : Expr) (n' : Nat) (h : Writable σ n e n') : n ≤ n' ∧ e.Sound σ n' :=
        h.1.sound scopes
      obtain ⟨le, sound⟩ := each.bounded made fun _ _ _ le sound => sound.le le
      have rule := each.forall_mem fun _ e _ (h : Writable σ _ e _) => h.2
      refine ⟨by omega, Stmt.all_write.mpr ⟨⟨rule, Nat.lt_succ_self n', trivial⟩, fun e mem => ?_⟩⟩
      exact (sound e mem).le (Nat.le_succ n')
  | @call loops n n₁ n₂ span name symbol function given arguments found role each count fitted =>
      have signature := scopes _ (Scopes.holds_of_lookup? found)
      simp only [Symbol.Fulfilled, role] at signature
      obtain ⟨le, sound⟩ := each.bounded (fun _ _ _ h => Expression.sound scopes h)
        fun _ _ _ le sound => sound.le le
      obtain ⟨le', sound', takes⟩ := fitted.sound signature.proper
        (fun p mem v known => (signature.default p mem v known).2) sound
      refine ⟨by omega, Stmt.all_call.mpr ⟨⟨⟨rfl, takes⟩, Nat.lt_succ_self n₂, signature⟩, fun e mem => ?_⟩⟩
      exact (sound' e mem).le (Nat.le_succ n₂)
  | @block loops span statements stage _ ih =>
      obtain ⟨le, sound⟩ := (Chain.of_stages ih).bounded (fun _ _ _ h => h)
        fun _ _ _ le sound => sound.mono le fun _ => id
      refine ⟨by omega, Stmt.all_block.mpr ⟨⟨trivial, Nat.lt_succ_self _, trivial⟩, fun s mem => ?_⟩⟩
      exact (sound s mem).mono (Nat.le_succ _) fun _ => id

theorem Statement.jumps {loops : Nat} {s : Stmt} (h : Statement σ loops n s n') (none : loops = 0) :
    s.jumps = false := by
  induction h with
  | ifThen _ _ inner => exact inner none
  | ifElse _ _ _ first second => simp [Stmt.jumps, first none, second none]
  | «continue» open' | «break» open' => exact absurd none open'
  | @block loops span statements stage _ ih =>
      rw [Stmt.jumps, Stmt.jumpsOf_eq_false]
      intro s mem
      obtain ⟨i, hi, rfl⟩ := List.mem_iff_getElem.mp mem
      exact ih i hi none
  | _ => rfl

end Trees

end Checking

end PascalX86
