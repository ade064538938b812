import PascalX86.Proofs.Checking.Body
import PascalX86.Proofs.Phrase.Reading

/-!
# Arguments that are left out

Parameters with a default value stand behind all others, so a call may leave out any number of them
from the end. What is left out is filled in as a constant, and every other number of arguments is
refused.
-/

set_option autoImplicit false

namespace PascalX86

namespace Parameter

/-- What may be given for a parameter: a variable of the same type where it is passed by reference,
and otherwise what the type of the parameter accepts. -/
def Admits (p : Parameter) (e : Expr) : Prop :=
  match p.mode with
  | .byReference => e.IsTarget ∧ e.type.same p.type = true
  | .byValue | .constant => p.type.accepts e.type = true

/-- The argument is what was given, converted to the type of the parameter if passed by value. -/
def Receives (p : Parameter) (e argument : Expr) : Prop :=
  ∃ n n', Checking.Passes p e n argument n'

/-- The argument is a constant of the default value. -/
def Supplies (p : Parameter) (argument : Expr) : Prop :=
  ∃ info value, p.default = some value ∧ info.type = p.type ∧ argument = .ofConstant info value

end Parameter

/-- Parameters without a default value, and after them those with one, none of them by reference. -/
structure Defaulted (parameters fixed optional : List Parameter) : Prop where
  split : parameters = fixed ++ optional
  plain : ∀ q ∈ fixed, q.default = none
  defaults : ∀ q ∈ optional, q.default.isSome = true ∧ q.mode ≠ .byReference

theorem Ty.accepts_refl (t : Ty) : t.accepts t = true := by
  cases t <;> simp [Ty.accepts, Ty.category, Category.isStructured, Category.accepts, Ty.same_refl]

/-- Arguments for all parameters: those that were given, in order, and then default values. -/
structure Filled (parameters : List Parameter) (given arguments : List Expr) : Prop where
  count : arguments.length = parameters.length
  received : List.Forall₂ (fun pair argument => Parameter.Receives pair.1 pair.2 argument)
    (parameters.zip given) (arguments.take given.length)
  supplied : List.Forall₂ Parameter.Supplies (parameters.drop given.length)
    (arguments.drop given.length)

namespace Checking

theorem Parameters.defaulted {level : Nat} {defaults : Bool} {t : Table}
    (h : Parameters level defaults t) : ∃ fixed optional, Defaulted t.parameters fixed optional ∧
      (defaults = false → optional = []) := by
  induction h with
  | empty => exact ⟨[], [], ⟨rfl, nofun, nofun⟩, fun _ => rfl⟩
  | @add defaults t t' name type mode default symbol _ _ suffix fits added ih =>
      obtain ⟨fixed, optional, ⟨split, plain, each⟩, none⟩ := ih
      obtain ⟨rfl, extends_⟩ := Declaring.addParameter_ok added
      let q : Parameter := ⟨name, type, mode, default, ⟨t.level, t.size, t.area⟩⟩
      have parameters : t'.parameters = t.parameters ++ [q] := by
        rw [Table.parameters, extends_.symbols, List.filterMap_append]
        rfl
      cases given : default with
      | none =>
          -- Nothing before had a default value either.
          have first : defaults = false := by
            cases defaults
            · rfl
            · simp [given] at suffix
          obtain rfl := none first
          rw [List.append_nil] at split
          refine ⟨fixed ++ [q], [], ⟨?_, ?_, nofun⟩, fun _ => rfl⟩
          · rw [parameters, split, List.append_nil]
          · rw [List.forall_mem_append, List.forall_mem_singleton]
            exact ⟨plain, given⟩
      | some v =>
          refine ⟨fixed, optional ++ [q], ⟨?_, plain, ?_⟩, by simp⟩
          · rw [parameters, split, List.append_assoc]
          · rw [List.forall_mem_append, List.forall_mem_singleton]
            exact ⟨each, by simp [q, given], (fits v given).1⟩

theorem Declares.headed {s s' : ParserState} {initializers : List Stmt}
    (h : Declares s initializers s')
    (before : ∀ g ∈ s.functions, ∃ u, Heading u g.signature) :
    ∀ g ∈ s'.functions, ∃ u, Heading u g.signature := by
  induction h with
  | move => exact before
  | constant _ _ adds | scalar _ _ adds | type _ adds | «variable» _ adds | stored _ _ _ adds
  | initialized _ _ adds => exact adds.functions ▸ before
  | append _ _ ih ih' => exact ih' (ih before)
  | @function s s₁ s₂ f symbol locals initializers statements span n heading adds result declares
      body ih =>
      simp only [ParserState.left, List.forall_mem_append, List.forall_mem_singleton]
      exact ⟨ih (adds.functions ▸ before), s, heading⟩

end Checking

theorem Source.headed {source : Source} {p : Program} (h : source.program = .ok p) :
    ∀ g ∈ p.functions, ∃ s, Checking.Heading s g.signature := by
  obtain ⟨c, s, initializers, statements, n, span, name, declares, -, rfl⟩ := Source.derives h
  exact declares.headed (by simp [Parser.initialState])

namespace Parser

open Checking

variable {s : ParserState} {c : Cursor} {n : Nat} {p : Parameter} {parameters : List Parameter}
  {e : Expr} {given : List Expr} {wrong : Parser Expr} {span : Span}

/-- How an argument is passed for a parameter. -/
def pass (p : Parameter) (e : Expr) : Parser Expr :=
  match p.mode with
  | .byReference => reference p e
  | .byValue | .constant => coerce e p.type

theorem convert_run (e : Expr) (target : Ty) : ∃ e' n', Converts e target n e' n' ∧
    convert e target (s.moved c n) = .ok (e', s.moved c n') := by
  by_cases same : e.type.category = target.category ∨ target.isScalar = false
  · exact ⟨e, n, .keep same, by rw [convert, if_pos same]; rfl⟩
  · have ⟨other, scalar⟩ := not_or.mp same
    rw [Bool.not_eq_false] at scalar
    have made : node e.span target (s.moved c n) =
        .ok (⟨n, e.span, target⟩, s.moved c (n + 1)) := rfl
    rw [convert, if_neg same, bind_of_ok made]
    cases known : e.value?.bind fun v => v.cast? target.category with
    | some v => exact ⟨.const ⟨n, e.span, target⟩ v, n + 1, .fold scalar known, rfl⟩
    | none => exact ⟨.cast ⟨n, e.span, target⟩ e, n + 1, .wrap scalar other known, rfl⟩

theorem coerce_run {target : Ty} (accepts : target.accepts e.type = true) :
    ∃ e' n', Coerces e target n e' n' ∧ coerce e target (s.moved c n) = .ok (e', s.moved c n') := by
  obtain ⟨e', n', converts, run⟩ := @convert_run s c n e target
  have checked : target.check e.type = .ok () := by rw [Ty.check, if_pos accepts]
  refine ⟨e', n', ⟨accepts, converts⟩, ?_⟩
  rw [coerce, checked]
  exact run

theorem reference_run (target : e.IsTarget) (same : e.type.same p.type = true) :
    reference p e (s.moved c n) = .ok (e, s.moved c n) := by
  obtain ⟨symbol, root, assignable⟩ := target
  rw [reference]
  simp only [root, Option.map_some, Option.getD_some, assignable, same, Bool.and_self, if_true]
  rfl

theorem pass_run (admits : p.Admits e) (n : Nat) : ∃ e' n', Passes p e n e' n' ∧
    pass p e (s.moved c n) = .ok (e', s.moved c n') := by
  have byValue (mode : p.mode ≠ .byReference) (accepts : p.type.accepts e.type = true) :
      ∃ e' n', Passes p e n e' n' ∧ coerce e p.type (s.moved c n) = .ok (e', s.moved c n') := by
    obtain ⟨e', n', coerces, run⟩ := @coerce_run s c n e p.type accepts
    exact ⟨e', n', .value mode coerces, run⟩
  cases mode : p.mode with
  | byReference =>
      simp only [Parameter.Admits, mode] at admits
      refine ⟨e, n, .reference mode admits.1 admits.2, ?_⟩
      simp only [pass, mode]
      exact reference_run admits.1 admits.2
  | byValue | constant =>
      simp only [Parameter.Admits, mode] at admits
      simp only [pass, mode]
      exact byValue (by simp [mode]) admits

theorem pass_default {info : NodeInfo} {v : Value} (mode : p.mode ≠ .byReference)
    (type : info.type = p.type) : pass p (.ofConstant info v) (s.moved c n) =
      .ok (.ofConstant info v, s.moved c n) := by
  have same : (Expr.ofConstant info v).type = p.type := by
    rw [Expr.ofConstant]
    split <;> exact type
  have accepts : p.type.accepts (Expr.ofConstant info v).type = true := by
    rw [same]
    exact Ty.accepts_refl p.type
  have checked : p.type.check (Expr.ofConstant info v).type = .ok () := by
    rw [Ty.check, if_pos accepts]
  have kept : convert (.ofConstant info v) p.type = pure (.ofConstant info v) := by
    rw [convert, if_pos (.inl (congrArg Ty.category same))]
  have coerced : coerce (.ofConstant info v) p.type (s.moved c n) =
      .ok (.ofConstant info v, s.moved c n) := by
    rw [coerce, checked, kept]
    rfl
  cases other : p.mode with
  | byReference => exact absurd other mode
  | byValue | constant =>
      simp only [pass, other]
      exact coerced

/-- An argument after those for the parameters before it. -/
def andThen (wrong : Parser Expr) (span : Span) (parameters : List Parameter) (given : List Expr)
    (argument : Expr) : Parser (List Expr) := do
  return argument :: (← fit wrong span parameters given)

theorem fit_given :
    fit wrong span (p :: parameters) (e :: given) =
      (pass p e >>= andThen wrong span parameters given) := by
  simp only [fit, pass]
  cases p.mode <;> rfl

theorem fit_default {v : Value} (known : p.default = some v) :
    fit wrong span (p :: parameters) [] =
      (constantNode span p.type v >>= fun e => pass p e >>= andThen wrong span parameters []) := by
  simp only [fit, pass, List.head?_nil, known]
  cases p.mode <;> rfl

theorem fit_missing {error : CompileError} {st : ParserState} (none : p.default = none)
    (fails : wrong st = .error error) : fit wrong span (p :: parameters) [] st = .error error := by
  rw [fit, List.head?_nil, none]
  exact bind_of_error fails

/-- Where every parameter that is left has a default value, the arguments are those that were given
and constants behind them. -/
theorem fit_run (admits : ∀ pair ∈ parameters.zip given, pair.1.Admits pair.2)
    (defaults : ∀ q ∈ parameters.drop given.length,
      q.default.isSome = true ∧ q.mode ≠ .byReference) (n : Nat) : ∃ front back n',
      List.Forall₂ (fun pair argument => Parameter.Receives pair.1 pair.2 argument)
        (parameters.zip given) front ∧
      List.Forall₂ Parameter.Supplies (parameters.drop given.length) back ∧
      fit wrong span parameters given (s.moved c n) = .ok (front ++ back, s.moved c n') := by
  induction parameters generalizing given n with
  | nil => exact ⟨[], [], n, by simp, by simp, rfl⟩
  | cons p parameters ih =>
      cases given with
      | nil =>
          rw [List.length_nil, List.drop_zero, List.forall_mem_cons] at defaults
          obtain ⟨⟨some, mode⟩, others⟩ := defaults
          obtain ⟨v, known⟩ := Option.isSome_iff_exists.mp some
          obtain ⟨front, back, n', received, supplied, run⟩ :=
            @ih [] (by simp) (by simpa using others) (n + 1)
          rw [List.zip_nil_right, List.forall₂_nil_left_iff] at received
          subst received
          refine ⟨[], .ofConstant ⟨n, span, p.type⟩ v :: back, n', by simp,
            .cons ⟨_, v, known, rfl, rfl⟩ supplied, ?_⟩
          have made : constantNode span p.type v (s.moved c n) =
              .ok (.ofConstant ⟨n, span, p.type⟩ v, s.moved c (n + 1)) := rfl
          rw [fit_default known, bind_of_ok made, bind_of_ok (pass_default mode rfl), andThen,
            bind_of_ok run]
          rfl
      | cons e given =>
          rw [List.zip_cons_cons, List.forall_mem_cons] at admits
          obtain ⟨e', n₁, passes, passed⟩ := @pass_run s c p e admits.1 n
          obtain ⟨front, back, n₂, received, supplied, run⟩ := ih admits.2 defaults n₁
          refine ⟨e' :: front, back, n₂, .cons ⟨n, n₁, passes⟩ received, supplied, ?_⟩
          rw [fit_given, bind_of_ok passed, andThen, bind_of_ok run]
          rfl

/-- Where a parameter that is left has no default value, the number of arguments is wrong. -/
theorem fit_error {error : CompileError} (fails : ∀ st, wrong st = .error error)
    (admits : ∀ pair ∈ parameters.zip given, pair.1.Admits pair.2)
    (modes : ∀ q ∈ parameters, q.default.isSome = true → q.mode ≠ .byReference)
    (missing : ∃ q ∈ parameters.drop given.length, q.default = none) (n : Nat) :
    fit wrong span parameters given (s.moved c n) = .error error := by
  induction parameters generalizing given n with
  | nil => simp at missing
  | cons p parameters ih =>
      rw [List.forall_mem_cons] at modes
      cases given with
      | nil =>
          cases known : p.default with
          | none => exact fit_missing known (fails _)
          | some v =>
              have mode := modes.1 (by simp [known])
              have missing : ∃ q ∈ parameters.drop ([] : List Expr).length, q.default = none := by
                simpa [known] using missing
              have made : constantNode span p.type v (s.moved c n) =
                  .ok (.ofConstant ⟨n, span, p.type⟩ v, s.moved c (n + 1)) := rfl
              rw [fit_default known, bind_of_ok made, bind_of_ok (pass_default mode rfl), andThen]
              exact bind_of_error (ih (by simp) modes.2 missing (n + 1))
      | cons e given =>
          rw [List.zip_cons_cons, List.forall_mem_cons] at admits
          obtain ⟨e', n₁, -, passed⟩ := @pass_run s c p e admits.1 n
          rw [fit_given, bind_of_ok passed, andThen]
          exact bind_of_error (ih admits.2 modes.2 missing n₁)

section Calls

variable {expression : Parser Expr} {name : Located Name} {f : Signature} {stop : Option Span}
  {fixed optional : List Parameter} {s s₁ : ParserState}

/-- The span of a call. -/
def callSpan (name : Located Name) (stop : Option Span) : Span := name.span.join (stop.getD name.span)

theorem call_of_arguments (read : arguments expression s = .ok ((given, stop), s₁)) :
    call expression name f s =
      if f.parameters.length < given.length then
        .error (.semantic ⟨.argumentCount f.parameters.length given.length, callSpan name stop⟩)
      else
        (fit (fail (.argumentCount f.parameters.length given.length) (callSpan name stop))
            (callSpan name stop) f.parameters given >>= fun arguments =>
          node (callSpan name stop) f.result >>= fun info => pure (info, arguments)) s₁ := by
  rw [call, bind_of_ok read]
  by_cases many : f.parameters.length < given.length
  · rw [if_pos many]
    dsimp only
    rw [if_pos many]
    rfl
  · rw [if_neg many]
    dsimp only
    rw [if_neg many]
    rfl

theorem call_run (read : arguments expression s = .ok ((given, stop), s₁))
    (defaulted : Defaulted f.parameters fixed optional)
    (admits : ∀ pair ∈ f.parameters.zip given, pair.1.Admits pair.2)
    (few : fixed.length ≤ given.length) (many : given.length ≤ f.parameters.length) :
    ∃ info arguments s₂, info.type = f.result ∧ Filled f.parameters given arguments ∧
      call expression name f s = .ok ((info, arguments), s₂) := by
  have defaults : ∀ q ∈ f.parameters.drop given.length,
      q.default.isSome = true ∧ q.mode ≠ .byReference := by
    rw [defaulted.split, List.drop_append, List.drop_eq_nil_of_le few, List.nil_append]
    exact fun q mem => defaulted.defaults q (List.mem_of_mem_drop mem)
  obtain ⟨front, back, n', received, supplied, run⟩ := @fit_run s₁ s₁.cursor f.parameters given
    (fail (.argumentCount f.parameters.length given.length) (callSpan name stop))
    (callSpan name stop) admits defaults s₁.nodes
  have length : front.length = given.length := by
    rw [← received.length_eq, List.length_zip, Nat.min_eq_right many]
  refine ⟨⟨n', callSpan name stop, f.result⟩, front ++ back, s₁.moved s₁.cursor (n' + 1), rfl,
    ⟨?_, ?_, ?_⟩, ?_⟩
  · rw [List.length_append, length, ← supplied.length_eq, List.length_drop]
    omega
  · rw [← length, List.take_left]
    exact received
  · rw [← length, List.drop_left, length]
    exact supplied
  · rw [call_of_arguments read, if_neg (Nat.not_lt.mpr many)]
    exact bind_of_ok run

theorem call_error (read : arguments expression s = .ok ((given, stop), s₁))
    (defaulted : Defaulted f.parameters fixed optional)
    (admits : ∀ pair ∈ f.parameters.zip given, pair.1.Admits pair.2)
    (wrong : ¬ (fixed.length ≤ given.length ∧ given.length ≤ f.parameters.length)) :
    call expression name f s = .error
      (.semantic ⟨.argumentCount f.parameters.length given.length, callSpan name stop⟩) := by
  rw [call_of_arguments read]
  by_cases many : f.parameters.length < given.length
  · rw [if_pos many]
  · rw [if_neg many]
    have few : given.length < fixed.length := by omega
    have modes : ∀ q ∈ f.parameters, q.default.isSome = true → q.mode ≠ .byReference := by
      rw [defaulted.split, List.forall_mem_append]
      refine ⟨fun q mem known => ?_, fun q mem _ => (defaulted.defaults q mem).2⟩
      simp [defaulted.plain q mem] at known
    have missing : ∃ q ∈ f.parameters.drop given.length, q.default = none := by
      refine ⟨fixed[given.length], ?_, defaulted.plain _ (List.getElem_mem few)⟩
      rw [defaulted.split, List.drop_append_of_le_length (Nat.le_of_lt few),
        List.drop_eq_getElem_cons few]
      exact List.mem_cons_self
    exact bind_of_error (@fit_error s₁ s₁.cursor f.parameters given _ (callSpan name stop) _
      (fun _ => rfl) admits modes missing s₁.nodes)

end Calls

end Parser

open PascalX86.Parser in
/-- The parameters of a function that have a default value are the last ones, and none of them is
passed by reference. A call with fitting arguments is accepted for as many of them as there are
parameters, or fewer by as many as have a default value, and default values take the places of those
that are missing. -/
theorem Source.calls_filled {source : Source} {p : Program} (h : source.program = .ok p) :
    ∀ g ∈ p.functions, ∃ fixed optional, Defaulted g.signature.parameters fixed optional ∧
      ∀ {expression : Parser Expr} {name : Located Name} {s s₁ : ParserState} {given : List Expr}
        {stop : Option Span}, arguments expression s = .ok ((given, stop), s₁) →
        (∀ pair ∈ g.signature.parameters.zip given, pair.1.Admits pair.2) →
        if fixed.length ≤ given.length ∧ given.length ≤ g.signature.parameters.length then
          ∃ info arguments s₂, info.type = g.signature.result ∧
            Filled g.signature.parameters given arguments ∧
            call expression name g.signature s = .ok ((info, arguments), s₂)
        else
          call expression name g.signature s = .error (.semantic
            ⟨.argumentCount g.signature.parameters.length given.length, callSpan name stop⟩) := by
  intro g mem
  obtain ⟨u, heading⟩ := Source.headed h g mem
  obtain ⟨defaults, t, made, parameters, -⟩ := heading.parameters
  obtain ⟨fixed, optional, defaulted, -⟩ := made.defaulted
  rw [← parameters] at defaulted
  refine ⟨fixed, optional, defaulted, fun {expression name s s₁ given stop} read admits => ?_⟩
  by_cases count : fixed.length ≤ given.length ∧ given.length ≤ g.signature.parameters.length
  · rw [if_pos count]
    exact call_run read defaulted admits count.1 count.2
  · rw [if_neg count]
    exact call_error read defaulted admits count

/-- One parameter without a default value, and two that a call may leave out. -/
def Source.optional : Source := ⟨"optional.pas", [
  "procedure show(n: integer; const scale: double = 0.5; mark: char = '#'); begin end;",
  "begin show(7) end."], .endOfFile⟩

def Signature.shape (f : Signature) : List (Mode × Category × Bool) :=
  f.parameters.map fun q => (q.mode, q.type.category, q.default.isSome)

theorem Source.optional_shape :
    Source.optional.program.toOption.map (fun p => p.functions.map fun g => g.signature.shape) =
      some [[(.byValue, .integer, false), (.constant, .double, true), (.byValue, .char, true)]] := by
  decide +kernel

/-- In front of the arguments of `show(7)`. -/
def Parser.shown : ParserState :=
  initialState ((Cursor.atEnd .first).pushAll
    [⟨.mark .openParen, .first⟩, ⟨.integer 7, .first⟩, ⟨.mark .closeParen, .first⟩])

open PascalX86.Parser in
theorem Source.optional_filled : ∃ p g, Source.optional.program = .ok p ∧ p.functions = [g] ∧
    ∃ info arguments s, info.type = g.signature.result ∧ arguments.length = 3 ∧
      call expression ⟨.ofSpelling "show", .first⟩ g.signature shown =
        .ok ((info, arguments), s) := by
  obtain ⟨p, accepted, shapes⟩ := exists_of_map_toOption Source.optional_shape
  obtain ⟨g, functions, shape⟩ := List.map_eq_singleton_iff.mp shapes
  obtain ⟨fixed, optional, defaulted, calls⟩ :=
    Source.calls_filled accepted g (functions ▸ List.mem_cons_self)
  obtain ⟨q₁, rest, split, first, others⟩ := List.map_eq_cons_iff.mp shape
  obtain ⟨q₂, rest, rfl, second, others⟩ := List.map_eq_cons_iff.mp others
  obtain ⟨q₃, rfl, third⟩ := List.map_eq_singleton_iff.mp others
  simp only [Prod.mk.injEq] at first second third
  -- A second parameter without a default value is not there.
  have few : fixed.length ≤ 1 := by
    match fixed, defaulted with
    | [], _ => exact Nat.zero_le 1
    | [_], _ => exact Nat.le_refl 1
    | a :: b :: _, ⟨same, plain, _⟩ =>
        rw [split] at same
        obtain ⟨-, rfl, -⟩ : q₁ = a ∧ q₂ = b ∧ _ := by simpa using same
        have none := plain q₂ (List.mem_cons_of_mem _ List.mem_cons_self)
        simp [none] at second
  obtain ⟨s₁, read⟩ : ∃ s₁, arguments expression shown =
      .ok (([.const ⟨0, .first, .integer⟩ (.integer 7)], some .first), s₁) := ⟨_, rfl⟩
  have admits : ∀ pair ∈ g.signature.parameters.zip [Expr.const ⟨0, .first, .integer⟩ (.integer 7)],
      pair.1.Admits pair.2 := by
    rw [split, List.zip_cons_cons, List.zip_nil_right, List.forall_mem_singleton]
    obtain ⟨mode, category, -⟩ := first
    have type : q₁.type = .integer := by
      cases same : q₁.type <;> simp [same, Ty.category] at category ⊢
    simp only [Parameter.Admits, mode, type]
    rfl
  have answer := @calls _ ⟨.ofSpelling "show", .first⟩ _ _ _ _ read admits
  have three : g.signature.parameters.length = 3 := by rw [split]; rfl
  rw [if_pos ⟨few, by rw [three]; decide⟩] at answer
  obtain ⟨info, arguments, s, type, filled, run⟩ := answer
  exact ⟨p, g, accepted, functions, info, arguments, s, type, filled.count.trans three, run⟩

end PascalX86
