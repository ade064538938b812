import PascalX86.Parser.Declaration
import PascalX86.Proofs.Parsing.Outcome
import PascalX86.Proofs.Typing.Tree

/-!
# Rules of checking

What checking makes of a program, apart from the tokens it is read from: which trees it builds where
which names are declared, and what declarations do to scopes and functions. Every relation runs from
the number of the next node before it to the number after it.
-/

set_option autoImplicit false

namespace PascalX86

def Expr.ofConstant (info : NodeInfo) (value : Value) : Expr :=
  if info.type.isScalar then .const info value else .aggregate info value

namespace Checking

inductive Converts (e : Expr) (target : Ty) (n : Nat) : Expr → Nat → Prop where
  | keep (same : e.type.category = target.category ∨ target.isScalar = false) :
      Converts e target n e n
  | fold {value : Value} (scalar : target.isScalar = true)
      (known : (e.value?.bind fun v => v.cast? target.category) = some value) :
      Converts e target n (.const ⟨n, e.span, target⟩ value) (n + 1)
  | wrap (scalar : target.isScalar = true) (other : e.type.category ≠ target.category)
      (unknown : (e.value?.bind fun v => v.cast? target.category) = none) :
      Converts e target n (.cast ⟨n, e.span, target⟩ e) (n + 1)

def Coerces (e : Expr) (target : Ty) (n : Nat) (e' : Expr) (n' : Nat) : Prop :=
  target.accepts e.type = true ∧ Converts e target n e' n'

inductive Operates (op : Operator) (left right : Expr) (n : Nat) : Expr → Nat → Prop where
  | fold {typing : OperationType} {l r value : Value}
      (typed : op.type left.type right.type = .ok typing)
      (known : Parser.foldable? left right typing.operands = some (l, r))
      (evaluated : op.eval typing.operands l r = .ok value) :
      Operates op left right n
        (.const ⟨n, left.span.join right.span, typing.result⟩ value) (n + 1)
  | make {typing : OperationType} {left' right' : Expr} {n₁ n₂ : Nat}
      (typed : op.type left.type right.type = .ok typing)
      (unknown : Parser.foldable? left right typing.operands = none)
      (first : Converts left typing.operands n left' n₁)
      (second : Converts right typing.operands n₁ right' n₂) :
      Operates op left right n
        (.binary ⟨n₂, left.span.join right.span, typing.result⟩ op left' right') (n₂ + 1)

/-- The operand of a sign, of which characters are converted to their codes. -/
def Signed (e : Expr) (n : Nat) (e' : Expr) (n' : Nat) : Prop :=
  e.type.isNumeric = true ∧ Converts e (if e.type.isIntegerLike then .integer else e.type) n e' n'

inductive Negates (e : Expr) (n : Nat) : Expr → Nat → Prop where
  | fold {span : Span} {operand : Expr} {value : Value} {n' : Nat} (signed : Signed e n operand n')
      (known : operand.value?.bind Value.negate? = some value) :
      Negates e n (.const ⟨n', span, operand.type⟩ value) (n' + 1)
  | make {span : Span} {operand : Expr} {n' : Nat} (signed : Signed e n operand n')
      (unknown : operand.value?.bind Value.negate? = none) :
      Negates e n (.negate ⟨n', span, operand.type⟩ operand) (n' + 1)

inductive Complements (e : Expr) (n : Nat) : Expr → Nat → Prop where
  | fold {span : Span} {operand : Expr} {value : Value} {n' : Nat} (signed : Signed e n operand n')
      (known : operand.value?.bind Value.complement? = some value) :
      Complements e n (.const ⟨n', span, .integer⟩ value) (n' + 1)
  | make {span : Span} {operand : Expr} {n' : Nat} (signed : Signed e n operand n')
      (unknown : operand.value?.bind Value.complement? = none) :
      Complements e n (.complement ⟨n', span, .integer⟩ operand) (n' + 1)

inductive Supplies (p : Parameter) (n : Nat) : Option Expr → Expr → Nat → Prop where
  | given (e : Expr) : Supplies p n (some e) e n
  | default {span : Span} {value : Value} (known : p.default = some value) :
      Supplies p n none (.ofConstant ⟨n, span, p.type⟩ value) (n + 1)

inductive Passes (p : Parameter) (e : Expr) (n : Nat) : Expr → Nat → Prop where
  | reference (mode : p.mode = .byReference) (target : e.IsTarget)
      (same : e.type.same p.type = true) : Passes p e n e n
  | value {e' : Expr} {n' : Nat} (mode : p.mode ≠ .byReference) (coerced : Coerces e p.type n e' n') :
      Passes p e n e' n'

inductive Fits : List Parameter → List Expr → Nat → List Expr → Nat → Prop where
  | nil (given : List Expr) (n : Nat) : Fits [] given n [] n
  | cons {p : Parameter} {parameters : List Parameter} {given arguments : List Expr} {e e' : Expr}
      {n₀ n₁ n₂ n₃ : Nat} (supplied : Supplies p n₀ given.head? e n₁) (passed : Passes p e n₁ e' n₂)
      (rest : Fits parameters given.tail n₂ arguments n₃) :
      Fits (p :: parameters) given n₀ (e' :: arguments) n₃

/-- The expressions that checking builds where the names of `σ` are declared. -/
inductive Expression (σ : Scopes) : Nat → Expr → Nat → Prop where
  | literal {n : Nat} {span : Span} {type : Ty} {value : Value} (scalar : type.isScalar = true)
      (fits : value.Fits type) : Expression σ n (.const ⟨n, span, type⟩ value) (n + 1)
  | constant {n : Nat} {span : Span} {name : Name} {symbol : Symbol} {value : Value}
      {slot : Option Slot} (found : σ.lookup? name = some symbol)
      (role : symbol.role = .constant value slot) (scalar : symbol.type.isScalar = true) :
      Expression σ n (.const ⟨n, span, symbol.type⟩ value) (n + 1)
  | variable {n : Nat} {span : Span} {name : Name} {symbol : Symbol}
      (found : σ.lookup? name = some symbol) (referable : symbol.IsReferable) :
      Expression σ n (.var ⟨n, span, symbol.type⟩ symbol) (n + 1)
  | element {n₀ n₁ n₂ n₃ : Nat} {span : Span} {array e index : Expr} {low high : Int32}
      {element : Ty} (base : Expression σ n₀ array n₁) (reference : array.isReference = true)
      (type : array.type = .array low high element) (subscript : Expression σ n₁ e n₂)
      (coerced : Coerces e .integer n₂ index n₃)
      (inside : ∀ n, index.value?.bind Value.integer? = some n → low ≤ n ∧ n ≤ high) :
      Expression σ n₀ (.index ⟨n₃, span, element⟩ array index) (n₃ + 1)
  | field {n₀ n₁ : Nat} {span : Span} {record : Expr} {fields : Fields} {name : Name} {f : Field}
      (base : Expression σ n₀ record n₁) (reference : record.isReference = true)
      (type : record.type = .record fields) (found : fields.get? name = some f) :
      Expression σ n₀ (.field ⟨n₁, span, f.type⟩ record f) (n₁ + 1)
  | signed {n₀ n₁ n₂ : Nat} {e e' : Expr} (operand : Expression σ n₀ e n₁)
      (signed : Signed e n₁ e' n₂) : Expression σ n₀ e' n₂
  | negated {n₀ n₁ n₂ : Nat} {e e' : Expr} (operand : Expression σ n₀ e n₁)
      (negated : Negates e n₁ e' n₂) : Expression σ n₀ e' n₂
  | complemented {n₀ n₁ n₂ : Nat} {e e' : Expr} (operand : Expression σ n₀ e n₁)
      (complemented : Complements e n₁ e' n₂) : Expression σ n₀ e' n₂
  | operation {n₀ n₁ n₂ n₃ : Nat} {op : Operator} {left right e : Expr}
      (first : Expression σ n₀ left n₁) (second : Expression σ n₁ right n₂)
      (operated : Operates op left right n₂ e n₃) : Expression σ n₀ e n₃
  -- The arguments that are given stand between consecutive stages.
  | call {n' : Nat} {span : Span} {name : Name} {symbol : Symbol} {function : Signature}
      {given arguments : List Expr} {stage : Nat → Nat} (found : σ.lookup? name = some symbol)
      (role : symbol.role = .function function) (result : function.result ≠ .nil)
      (each : ∀ i (hi : i < given.length), Expression σ (stage i) given[i] (stage (i + 1)))
      (count : given.length ≤ function.parameters.length)
      (fitted : Fits function.parameters given (stage given.length) arguments n') :
      Expression σ (stage 0) (.call ⟨n', span, function.result⟩ function arguments) (n' + 1)

def Target (σ : Scopes) (n : Nat) (e : Expr) (n' : Nat) : Prop := Expression σ n e n' ∧ e.IsTarget

def Readable (σ : Scopes) (n : Nat) (e : Expr) (n' : Nat) : Prop :=
  Target σ n e n' ∧ (e.type = .integer ∨ e.type = .double ∨ e.type = .char)

def Writable (σ : Scopes) (n : Nat) (e : Expr) (n' : Nat) : Prop :=
  Expression σ n e n' ∧ e.type.isScalar = true

def Condition (σ : Scopes) (n : Nat) (e : Expr) (n' : Nat) : Prop :=
  ∃ e₀ n₀, Expression σ n e₀ n₀ ∧ Coerces e₀ .integer n₀ e n'

/-- The statements that checking builds where the names of `σ` are declared and `loops` loops are
open. -/
inductive Statement (σ : Scopes) : Nat → Nat → Stmt → Nat → Prop where
  | assign {loops n₀ n₁ n₂ n₃ : Nat} {span : Span} {target e value : Expr}
      (left : Target σ n₀ target n₁) (right : Expression σ n₁ e n₂)
      (coerced : Coerces e target.type n₂ value n₃) :
      Statement σ loops n₀ (.assign ⟨n₃, span, .nil⟩ target value) (n₃ + 1)
  | ifThen {loops n₀ n₁ n₂ : Nat} {span : Span} {condition : Expr} {body : Stmt}
      (test : Condition σ n₀ condition n₁) (inner : Statement σ loops n₁ body n₂) :
      Statement σ loops n₀ (.ifThen ⟨n₂, span, .nil⟩ condition body) (n₂ + 1)
  | ifElse {loops n₀ n₁ n₂ n₃ : Nat} {span : Span} {condition : Expr} {body otherwise : Stmt}
      (test : Condition σ n₀ condition n₁) (first : Statement σ loops n₁ body n₂)
      (second : Statement σ loops n₂ otherwise n₃) :
      Statement σ loops n₀ (.ifElse ⟨n₃, span, .nil⟩ condition body otherwise) (n₃ + 1)
  | while {loops n₀ n₁ n₂ : Nat} {span : Span} {condition : Expr} {body : Stmt}
      (test : Condition σ n₀ condition n₁) (inner : Statement σ (loops + 1) n₁ body n₂) :
      Statement σ loops n₀ (.while ⟨n₂, span, .nil⟩ condition body) (n₂ + 1)
  | for {loops n₀ n₁ n₂ n₃ n₄ n₅ n₆ : Nat} {span : Span} {info : NodeInfo} {symbol : Symbol}
      {e₁ e₂ first last : Expr} {direction : Direction} {body : Stmt}
      (counter : Target σ n₀ (.var info symbol) n₁) (type : info.type.isIntegerLike = true)
      (lower : Expression σ n₁ e₁ n₂) (lower' : Coerces e₁ info.type n₂ first n₃)
      (upper : Expression σ n₃ e₂ n₄) (upper' : Coerces e₂ info.type n₄ last n₅)
      (inner : Statement σ (loops + 1) n₅ body n₆) :
      Statement σ loops n₀ (.for ⟨n₆, span, .nil⟩ (.var info symbol) first last direction body)
        (n₆ + 1)
  | continue {loops n : Nat} {span : Span} (open' : loops ≠ 0) :
      Statement σ loops n (.continue ⟨n, span, .nil⟩) (n + 1)
  | break {loops n : Nat} {span : Span} (open' : loops ≠ 0) :
      Statement σ loops n (.break ⟨n, span, .nil⟩) (n + 1)
  | read {loops n n' : Nat} {span : Span} {targets : List Expr} {newline : Bool}
      (each : Chain (Readable σ) n targets n') :
      Statement σ loops n (.read ⟨n', span, .nil⟩ targets newline) (n' + 1)
  | write {loops n n' : Nat} {span : Span} {arguments : List Expr} {newline : Bool}
      (each : Chain (Writable σ) n arguments n') :
      Statement σ loops n (.write ⟨n', span, .nil⟩ arguments newline) (n' + 1)
  | call {loops n n₁ n₂ : Nat} {span : Span} {name : Name} {symbol : Symbol} {function : Signature}
      {given arguments : List Expr} (found : σ.lookup? name = some symbol)
      (role : symbol.role = .function function) (each : Chain (Expression σ) n given n₁)
      (count : given.length ≤ function.parameters.length)
      (fitted : Fits function.parameters given n₁ arguments n₂) :
      Statement σ loops n (.call ⟨n₂, span, function.result⟩ function arguments) (n₂ + 1)
  | block {loops : Nat} {span : Span} {statements : List Stmt} {stage : Nat → Nat}
      (each : ∀ i (hi : i < statements.length),
        Statement σ loops (stage i) statements[i] (stage (i + 1))) :
      Statement σ loops (stage 0) (.block ⟨stage statements.length, span, .nil⟩ statements)
        (stage statements.length + 1)

def Adds {α : Type} (s : ParserState) (d : Declaring α) (answer : α) (s' : ParserState) : Prop :=
  s.scopes.declare d = (.ok answer, s'.scopes) ∧ s' = { s with scopes := s'.scopes }

/-- Tables of parameters, and whether one of them has a default value. -/
inductive Parameters (level : Nat) : Bool → Table → Prop where
  | empty : Parameters level false (.empty .parameters level)
  | add {defaults : Bool} {t t' : Table} {name : Located Name} {type : Ty} {mode : Mode}
      {default : Option Value} {symbol : Symbol} (before : Parameters level defaults t)
      (proper : type.Proper) (suffix : defaults = true → default.isSome = true)
      (fits : ∀ v, default = some v → mode ≠ .byReference ∧ v.Fits type)
      (added : (Declaring.addParameter name type mode default).runOn t = (.ok symbol, t')) :
      Parameters level (defaults || default.isSome) t'

structure Heading (s : ParserState) (f : Signature) : Prop where
  id : f.id = s.nextFunction
  level : f.level = s.level + 1
  parameters : ∃ defaults t, Parameters f.level defaults t ∧ f.parameters = t.parameters ∧
    f.block = t.size
  result : f.result = .nil ∨ f.result.Proper

/-- The locals of a function before its block, with the one that holds the result. -/
inductive ResultLocal (f : Signature) : Table → Prop where
  | procedure (result : f.result = .nil) : ResultLocal f (.empty .locals f.level)
  | function {t : Table} {symbol : Symbol} (result : f.result ≠ .nil)
      (added : (Declaring.addVariable ⟨.ofSpelling "result", f.name.span⟩ f.result).runOn
        (.empty .locals f.level) = (.ok symbol, t)) : ResultLocal f t

end Checking

namespace ParserState

def entered (s : ParserState) (f : Signature) (locals : Table) : ParserState :=
  { s with scopes := (s.scopes.push f.table).push locals, loops := 0, level := f.level }

def left (s inner : ParserState) (f : Signature) (body : Stmt) (n : Nat) : ParserState :=
  { s with
    nodes := n
    nextFunction := inner.nextFunction
    functions := inner.functions ++ [⟨f, inner.scopes.current, body⟩] }

end ParserState

namespace Checking

def initializer (n : Nat) (span : Span) (symbol : Symbol) (value : Value) : Stmt :=
  .assign ⟨n + 2, span, .nil⟩ (.var ⟨n, span, symbol.type⟩ symbol)
    (.ofConstant ⟨n + 1, span, symbol.type⟩ value)

/-- What declarations do, with the initializers they leave. Reading on, also over expressions that
are dropped, is a declaration of nothing. -/
inductive Declares : ParserState → List Stmt → ParserState → Prop where
  | move {s : ParserState} {n : Nat} (c : Cursor) (later : s.nodes ≤ n) : Declares s [] (s.moved c n)
  | append {s t u : ParserState} {first second : List Stmt} (before : Declares s first t)
      (after : Declares t second u) : Declares s (first ++ second) u
  | type {s s' : ParserState} {name : Located Name} {type : Ty} {symbol : Symbol}
      (proper : type.Proper) (adds : Adds s (.addType name type) symbol s') : Declares s [] s'
  | constant {s s' : ParserState} {name : Located Name} {e : Expr} {value : Value} {n n' : Nat}
      {symbol : Symbol} (made : Expression s.scopes n e n') (known : e.value? = some value)
      (adds : Adds s (.addConstant name e.type value false) symbol s') : Declares s [] s'
  | scalar {s s' : ParserState} {name : Located Name} {type : Ty} {value : Value} {symbol : Symbol}
      (scalar : type.isScalar = true) (fits : value.Fits type)
      (adds : Adds s (.addConstant name type value false) symbol s') : Declares s [] s'
  | stored {s s' : ParserState} {name : Located Name} {type : Ty} {value : Value} {symbol : Symbol}
      {span : Span} (proper : type.Proper) (structured : type.isScalar = false)
      (fits : value.Fits type) (adds : Adds s (.addConstant name type value true) symbol s') :
      Declares s [initializer s'.nodes span symbol value] (s'.moved s'.cursor (s'.nodes + 3))
  | variable {s s' : ParserState} {name : Located Name} {type : Ty} {symbol : Symbol}
      (proper : type.Proper) (adds : Adds s (.addVariable name type) symbol s') : Declares s [] s'
  | initialized {s s' : ParserState} {name : Located Name} {type : Ty} {value : Value}
      {symbol : Symbol} {span : Span} (proper : type.Proper) (fits : value.Fits type)
      (adds : Adds s (.addVariable name type) symbol s') :
      Declares s [initializer s'.nodes span symbol value] (s'.moved s'.cursor (s'.nodes + 3))
  | function {s s₁ s₂ : ParserState} {f : Signature} {symbol : Symbol} {locals : Table}
      {initializers statements : List Stmt} {span : Span} {n : Nat} (heading : Heading s f)
      (adds : Adds { s with nextFunction := s.nextFunction + 1 } (.addFunction f) symbol s₁)
      (result : ResultLocal f locals) (declarations : Declares (s₁.entered f locals) initializers s₂)
      (body : Chain (Statement s₂.scopes 0) s₂.nodes statements n) :
      Declares s []
        (s₁.left s₂ f (.block ⟨n, span, .nil⟩ (initializers ++ statements)) (n + 1))

structure Program (p : PascalX86.Program) : Prop where
  derivation : ∃ c s initializers statements n span name,
    Declares (Parser.initialState c) initializers s ∧
      Chain (Statement s.scopes 0) s.nodes statements n ∧
      p = ⟨s.functions, ⟨⟨0, name, [], 0, .nil, 0⟩, s.scopes.outermost,
        .block ⟨n, span, .nil⟩ (initializers ++ statements)⟩, n + 1⟩

end Checking

/-- An assignment in front of a block, which gives a local the value that it was declared with. -/
def Stmt.Initial (locals : Table) (s : Stmt) : Prop :=
  ∃ symbol ∈ locals.symbols, ∃ n span value, s = Checking.initializer n span symbol value

end PascalX86
