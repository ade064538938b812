import PascalX86.Parser.Declaration

/-!
# Errors of parsers

A parser ends with errors of the text, never with one of the lowering.
-/

set_option autoImplicit false

namespace PascalX86

namespace Parser

variable {α β : Type}

/-- Whatever error the parser ends with, it is one of the text. -/
class Early (p : Parser α) : Prop where
  kind : ∀ s e, p s = .error e → e.kind ≠ .lowering

section Rules

variable {p q : Parser α} {f : α → Parser β}

theorem Early.bind (hp : Early p) (hf : ∀ a, Early (f a)) : Early (p >>= f) where
  kind s e run := by
    simp only [Bind.bind, StateT.bind, Except.bind] at run
    split at run
    · next found =>
      cases run
      exact hp.kind s _ found
    · exact (hf _).kind _ e run

instance [hp : Early p] [hf : ∀ a, Early (f a)] : Early (p >>= f) := hp.bind hf

instance (a : α) : Early (pure a : Parser α) := ⟨fun _ _ run => by cases run⟩

instance (g : α → β) [Early p] : Early (g <$> p) :=
  inferInstanceAs (Early (p >>= fun a => pure (g a)))

instance (c : Prop) [Decidable c] [Early p] [Early q] : Early (if c then p else q) := by
  split <;> infer_instance

instance : Early (get : Parser ParserState) := ⟨fun _ _ run => by cases run⟩

instance (s : ParserState) : Early (set s : Parser PUnit) := ⟨fun _ _ run => by cases run⟩

instance (g : ParserState → ParserState) : Early (modify g : Parser PUnit) :=
  ⟨fun _ _ run => by cases run⟩

theorem early_throw {e : CompileError} (early : e.kind ≠ .lowering) : Early (throw e : Parser α) :=
  ⟨fun _ _ run => by cases run; exact early⟩

instance (e : SemanticError) (span : Span) : Early (fail e span : Parser α) := early_throw nofun

instance (span : Span) (answer : Except SemanticError α) : Early (locate span answer) := by
  cases answer with
  | ok a => exact inferInstanceAs (Early (pure a))
  | error e => exact inferInstanceAs (Early (fail e span))

end Rules

section Tokens

variable {p : Parser α}

instance : Early current := by unfold current; infer_instance

instance : Early token := by unfold token; infer_instance

instance : Early here := by unfold here; infer_instance

instance : Early remaining := by unfold remaining; infer_instance

instance (expected : List Expectation) : Early (unexpected expected : Parser α) :=
  .bind inferInstance fun _ => early_throw nofun

instance : Early bump := by
  refine .bind inferInstance fun s => ?_
  split
  · infer_instance
  · exact early_throw nofun

instance (m : Mark) : Early (atMark m) := by unfold atMark; infer_instance

instance (k : Keyword) : Early (atKeyword k) := by unfold atKeyword; infer_instance

instance : Early atName := by unfold atName; infer_instance

instance (m : Mark) : Early (eat m) := by unfold eat; infer_instance

instance (k : Keyword) : Early (eatKeyword k) := by unfold eatKeyword; infer_instance

instance (m : Mark) : Early (expect m) := by unfold expect; infer_instance

instance (k : Keyword) : Early (keyword k) := by unfold keyword; infer_instance

instance : Early identifier := by
  refine .bind inferInstance fun t => ?_
  split <;> infer_instance

instance (step : α → Parser (Option α)) [∀ a, Early (step a)] (a : α) : Early (iterate step a) := by
  refine .bind inferInstance fun n => ?_
  induction n generalizing a with
  | zero => exact inferInstanceAs (Early (pure a))
  | succ n ih =>
      refine .bind inferInstance fun next => ?_
      split
      · infer_instance
      · exact ih _

instance (p : Parser (Option α)) [Early p] : Early (many p) := by
  refine .bind inferInstance fun n => ?_
  induction n with
  | zero => exact inferInstanceAs (Early (pure []))
  | succ n ih =>
      refine .bind inferInstance fun a => ?_
      split <;> infer_instance

instance (m : Mark) [Early p] : Early (separatedBy m p) := by unfold separatedBy; infer_instance

instance [Early p] : Early (whileNames p) := by unfold whileNames; infer_instance

instance : Early identifiers := by unfold identifiers; infer_instance

instance (span : Span) (type : Ty) : Early (node span type) := by unfold node; infer_instance

instance (name : Located Name) : Early (lookup name) := by unfold lookup; infer_instance

instance (name : Located Name) (d : Declaring α) : Early (declare name d) := by
  unfold declare
  infer_instance

instance (t : Table) : Early (pushScope t) := by unfold pushScope; infer_instance

instance : Early popScope := by
  refine .bind inferInstance fun s => ?_
  split <;> infer_instance

instance (span : Span) (type : Ty) (value : Value) : Early (constantNode span type value) := by
  unfold constantNode
  infer_instance

end Tokens

section Expressions

variable {p : Parser Expr}

instance (e : Expr) (target : Ty) : Early (convert e target) := by
  unfold convert
  split
  · infer_instance
  · refine .bind inferInstance fun info => ?_
    split <;> infer_instance

instance (e : Expr) (target : Ty) : Early (coerce e target) := by unfold coerce; infer_instance

instance (op : Operator) (sign : Span) (left right : Expr) : Early (operation op sign left right) := by
  refine .bind inferInstance fun typing => ?_
  dsimp only
  split <;> infer_instance

instance (sign : Span) (e : Expr) : Early (plus sign e) := by unfold plus; infer_instance

instance (sign : Span) (e : Expr) : Early (minus sign e) := by
  refine .bind inferInstance fun operand => ?_
  dsimp only
  split <;> infer_instance

instance (sign : Span) (e : Expr) : Early (complement sign e) := by
  refine .bind inferInstance fun operand => ?_
  dsimp only
  split <;> infer_instance

instance (level : Precedence) : Early (operatorAt level) := by unfold operatorAt; infer_instance

instance (level : Precedence) [Early p] : Early (chain level p) := by
  have step (left : Expr) : Early (do
      match ← operatorAt level with
      | none => return none
      | some op =>
          let sign ← bump
          let right ← p
          return some (← operation op sign.span left right) : Parser (Option Expr)) := by
    refine .bind inferInstance fun op => ?_
    split <;> infer_instance
  unfold chain
  infer_instance

instance [Early p] : Early (levels p) := by unfold levels; infer_instance

instance (array : Expr) [Early p] : Early (subscript p array) := by
  unfold subscript
  split
  · refine .bind inferInstance fun written => .bind inferInstance fun index => ?_
    dsimp only
    split
    · infer_instance
    · infer_instance
  · infer_instance

instance (array : Expr) [Early p] : Early (subscripts p array) := by unfold subscripts; infer_instance

instance (record : Expr) : Early (selectField record) := by
  unfold selectField
  split
  · refine .bind inferInstance fun _ => .bind inferInstance fun name => ?_
    split <;> infer_instance
  · infer_instance

instance (e : Expr) [Early p] : Early (selectors p e) := by
  have step (e : Expr) : Early (do
      match ← token with
      | .mark .openSquare => return some (← subscripts p e)
      | .mark .period => return some (← selectField e)
      | _ => return none : Parser (Option Expr)) := by
    refine .bind inferInstance fun t => ?_
    split <;> infer_instance
  unfold selectors
  infer_instance

instance (span : Span) (symbol : Symbol) : Early (variableNode span symbol) := by
  unfold variableNode
  infer_instance

instance [Early p] : Early (assignable p) := by unfold assignable; infer_instance

instance (parameter : Parameter) (e : Expr) : Early (reference parameter e) := by
  unfold reference
  infer_instance

instance (span : Span) (parameters : List Parameter) (given : List Expr) [Early p] :
    Early (fit p span parameters given) := by
  induction parameters generalizing given with
  | nil => exact inferInstanceAs (Early (pure []))
  | cons parameter parameters ih =>
      -- However the argument is found, it is fitted in one of the ways of a mode.
      unfold fit
      dsimp only
      split
      all_goals
        refine .bind inferInstance fun argument => ?_
        split <;> infer_instance

instance [Early p] : Early (arguments p) := by unfold arguments; infer_instance

instance (name : Located Name) (function : Signature) [Early p] : Early (call p name function) := by
  refine .bind inferInstance fun given => ?_
  dsimp only
  infer_instance

instance [Early p] : Early (designator p) := by
  refine .bind inferInstance fun name => .bind inferInstance fun symbol => ?_
  split
  · infer_instance
  · split <;> infer_instance
  · infer_instance
  · infer_instance
  · infer_instance

instance (type : Ty) (value : Value) : Early (literal type value) := by unfold literal; infer_instance

instance [Early p] : Early (factorOver p) := by
  refine .bind inferInstance fun t => ?_
  split <;> infer_instance

instance (n : Nat) : Early (factor n) := by
  induction n with
  | zero => exact inferInstanceAs (Early (unexpected [.expression]))
  | succ n ih => exact inferInstanceAs (Early (factorOver (factor n)))

instance : Early expression := by unfold expression; infer_instance

instance : Early constantInteger := by
  refine .bind inferInstance fun e => ?_
  split <;> infer_instance

instance : Early condition := by unfold condition; infer_instance

end Expressions

section Statements

variable {p : Parser (Option Stmt)}

instance [Early p] : Early (compoundOver p) := by unfold compoundOver; infer_instance

instance [Early p] : Early (bodyOver p) := by
  refine .bind inferInstance fun span => .bind inferInstance fun s => ?_
  split <;> infer_instance

instance [Early p] : Early (loopBodyOver p) := by unfold loopBodyOver; infer_instance

instance [Early p] : Early (ifOver p) := by unfold ifOver; infer_instance

instance [Early p] : Early (whileOver p) := by unfold whileOver; infer_instance

instance : Early counter := by
  refine .bind inferInstance fun target => ?_
  dsimp only
  split <;> infer_instance

instance : Early direction := by
  refine .bind inferInstance fun t => ?_
  split <;> infer_instance

instance [Early p] : Early (forOver p) :=
  .bind inferInstance fun _ => .bind inferInstance fun _ => .bind inferInstance fun _ => inferInstance

instance (k : Keyword) : Early (jump k) := by unfold jump; infer_instance

instance : Early readTarget := by
  refine .bind inferInstance fun target => ?_
  dsimp only
  split <;> infer_instance

instance (newline : Bool) : Early (readStatement newline) := by unfold readStatement; infer_instance

instance : Early writeArgument := by unfold writeArgument; infer_instance

instance (newline : Bool) : Early (writeStatement newline) :=
  .bind inferInstance fun _ => .bind inferInstance fun _ => by dsimp only; infer_instance

instance (target : Expr) : Early (assignment target) := by unfold assignment; infer_instance

instance : Early namedStatement := by
  refine .bind inferInstance fun name => .bind inferInstance fun symbol => .bind inferInstance fun _ => ?_
  split <;> infer_instance

instance [Early p] : Early (statementOver p) := by
  refine .bind inferInstance fun t => ?_
  split <;> infer_instance

instance (n : Nat) : Early (statement n) := by
  induction n with
  | zero => exact inferInstanceAs (Early (unexpected [.statement]))
  | succ n ih => exact inferInstanceAs (Early (statementOver (statement n)))

instance : Early compound := by unfold compound; infer_instance

end Statements

section Types

variable {p : Parser Ty}

instance : Early bounds := by unfold bounds; infer_instance

instance (element : Ty) (dimensions : List (Located Bounds)) : Early (arrayOver element dimensions) := by
  induction dimensions generalizing element with
  | nil => exact inferInstanceAs (Early (pure element))
  | cons b outer ih =>
      unfold arrayOver
      infer_instance

instance [Early p] : Early (arrayType p) := by unfold arrayType; infer_instance

instance (type : Ty) (names : List (Located Name)) : Early (declareFields type names) := by
  induction names with
  | nil => exact inferInstanceAs (Early (pure ()))
  | cons name names ih =>
      unfold declareFields
      infer_instance

instance [Early p] : Early (fieldGroup p) := by unfold fieldGroup; infer_instance

instance [Early p] : Early (recordType p) := by unfold recordType; infer_instance

instance : Early namedType := by
  refine .bind inferInstance fun name => .bind inferInstance fun symbol => ?_
  split <;> infer_instance

instance [Early p] : Early (typeOver p) := by
  refine .bind inferInstance fun t => ?_
  split <;> infer_instance

instance (n : Nat) : Early (typeUpTo n) := by
  induction n with
  | zero => exact inferInstanceAs (Early (unexpected [.type]))
  | succ n ih => exact inferInstanceAs (Early (typeOver (typeUpTo n)))

instance : Early type := by unfold type; infer_instance

instance (fields : Fields) (due : Name) : Early (fieldName fields due) := by
  refine .bind inferInstance fun name => ?_
  split <;> infer_instance

mutual

theorem early_typedConstant : (t : Ty) → Early (typedConstant t)
  | .array low high element => by
      have := early_typedConstant element
      unfold typedConstant
      infer_instance
  | .record fields => by
      have := early_fieldConstants fields fields
      unfold typedConstant
      infer_instance
  | .nil | .integer | .double | .char | .string | .function _ => by
      unfold typedConstant
      refine .bind inferInstance fun e => .bind inferInstance fun _ => ?_
      split <;> infer_instance

theorem early_fieldConstants : (all fields : Fields) → Early (fieldConstants all fields)
  | _, .empty => inferInstanceAs (Early (pure []))
  | all, .more name type rest => by
      have := early_typedConstant type
      have := early_fieldConstants all rest
      unfold fieldConstants
      refine .bind inferInstance fun _ => .bind inferInstance fun _ => .bind inferInstance fun value => ?_
      split <;> infer_instance

end

instance (t : Ty) : Early (typedConstant t) := early_typedConstant t

end Types

section Declarations

variable {p : Parser Stmt}

instance : Early typeDeclaration := by unfold typeDeclaration; infer_instance

instance (symbol : Symbol) (span : Span) (value : Value) : Early (initializer symbol span value) := by
  unfold initializer
  infer_instance

instance (name : Located Name) : Early (typedConstantDeclaration name) := by
  unfold typedConstantDeclaration
  infer_instance

instance (name : Located Name) : Early (plainConstantDeclaration name) := by
  refine .bind inferInstance fun _ => .bind inferInstance fun e => ?_
  split <;> infer_instance

instance : Early constantDeclaration := by unfold constantDeclaration; infer_instance

instance (type : Ty) (count : Nat) : Early (initialValue type count) := by unfold initialValue; infer_instance

instance (type : Ty) (initial : Option (Span × Value)) (names : List (Located Name)) :
    Early (declareVariables type initial names) := by
  induction names with
  | nil => exact inferInstanceAs (Early (pure []))
  | cons name names ih =>
      refine .bind inferInstance fun symbol => ?_
      split <;> infer_instance

instance : Early variableDeclaration := by unfold variableDeclaration; infer_instance

instance : Early mode := by unfold mode; infer_instance

instance (mode : Mode) (type : Ty) : Early (defaultValue mode type) := by
  unfold defaultValue
  infer_instance

instance (type : Ty) (mode : Mode) (default : Option Value) (t : Table) (names : List (Located Name)) :
    Early (addParameters type mode default t names) := by
  induction names generalizing t with
  | nil => exact inferInstanceAs (Early (pure t))
  | cons name names ih => exact .bind inferInstance fun _ => ih _

instance (list : ParameterList) : Early (parameterGroup list) := by unfold parameterGroup; infer_instance

instance (t : Table) : Early (parameterGroups t) := by unfold parameterGroups; infer_instance

instance (level : Nat) : Early (parameters level) := by unfold parameters; infer_instance

instance : Early signature :=
  .bind inferInstance fun _ => .bind inferInstance fun _ => .bind inferInstance fun _ => by
    dsimp only
    infer_instance

instance (signature : Signature) : Early (localsOf signature) := by
  unfold localsOf
  split <;> infer_instance

instance [Early p] : Early (functionOver p) :=
  .bind inferInstance fun _ => .bind inferInstance fun _ => .bind inferInstance fun _ =>
    .bind inferInstance fun _ => .bind inferInstance fun _ => .bind inferInstance fun _ => by
      dsimp only
      infer_instance

instance [Early p] : Early (sectionOver p) := by
  refine .bind inferInstance fun t => ?_
  split <;> infer_instance

instance [Early p] : Early (blockOver p) := by unfold blockOver; infer_instance

instance (n : Nat) : Early (block n) := by
  induction n with
  | zero => exact inferInstanceAs (Early (unexpected _))
  | succ n ih => exact inferInstanceAs (Early (blockOver (block n)))

instance : Early programName := by unfold programName; infer_instance

instance : Early program := by unfold program; infer_instance

end Declarations

end Parser

/-- The errors of a source that does not become a program are those of its text. -/
theorem Source.kind_of_refused {source : Source} {e : CompileError} (refused : source.program = .error e) :
    e.kind ≠ .lowering := by
  unfold Source.program Program.ofItems at refused
  split at refused
  · cases refused
    nofun
  · next cursor _ =>
    cases run : Parser.program.run (Parser.initialState cursor) with
    | error e' =>
        rw [run] at refused
        cases refused
        exact Parser.Early.kind (p := Parser.program) _ _ run
    | ok _ =>
        rw [run] at refused
        cases refused

end PascalX86
