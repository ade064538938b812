import PascalX86.Operator.Evaluation
import PascalX86.Proofs.Typing.Tree

/-!
# Meaning of integer programs

The big-step meaning of trees over integer variables: assignments, conditions, loops and the jumps
out of them.
-/

set_option autoImplicit false

namespace PascalX86

/-- The values of variables, by what the spellings of their names have in common. -/
abbrev Store := List Char → Int32

def Symbol.key (s : Symbol) : List Char := s.name.value.key

def Store.set (σ : Store) (symbol : Symbol) (v : Int32) : Store := fun key =>
  if key = symbol.key then v else σ key

namespace Operator

def divides : Operator → Bool
  | .divide | .div | .mod => true
  | _ => false

/-- The value of an operation at run time. There is none for a division by zero, and none for that
of the least integer by -1. -/
def result? (op : Operator) (l r : Int32) : Option Int32 :=
  if op.divides ∧ l = Int32.minValue ∧ r = -1 then none
  else (op.eval .integer (.integer l) (.integer r)).toOption.bind Value.integer?

theorem result?_eq (op : Operator) (l r : Int32) :
    op.result? l r =
      if op.divides ∧ l = Int32.minValue ∧ r = -1 then none else op.onIntegers? l r := by
  rw [result?]
  by_cases overflow : op.divides ∧ l = Int32.minValue ∧ r = -1
  · rw [if_pos overflow, if_pos overflow]
  · rw [if_neg overflow, if_neg overflow]
    cases answer : op.onIntegers? l r with
    | none => simp [eval, Ty.isIntegerLike, Value.integer?, answer, Except.toOption]
    | some n => simp [eval, Ty.isIntegerLike, Value.integer?, answer, Except.toOption]

end Operator

/-- The value of an integer expression; operands are evaluated from left to right. -/
def Expr.eval? (σ : Store) : Expr → Option Int32
  | .var _ symbol => some (σ symbol.key)
  | .const _ value => value.integer?
  | .negate _ operand => (operand.eval? σ).map fun n => -n
  | .complement _ operand => (operand.eval? σ).map fun n => ~~~n
  | .binary _ op left right =>
      (left.eval? σ).bind fun l => (right.eval? σ).bind fun r => op.result? l r
  | _ => none

inductive Exit where
  | normal | continued | broken
  deriving DecidableEq, Repr

/-- Terminating runs of statements. -/
inductive Stmt.Runs : Store → Stmt → Exit → Store → Prop where
  | assign {σ : Store} {info node : NodeInfo} {symbol : Symbol} {value : Expr} {v : Int32} :
      value.eval? σ = some v →
        Stmt.Runs σ (.assign info (.var node symbol) value) .normal (σ.set symbol v)
  | ifThen {σ σ' : Store} {info : NodeInfo} {condition : Expr} {n : Int32} {body : Stmt}
      {exit : Exit} :
      condition.eval? σ = some n → n ≠ 0 → Stmt.Runs σ body exit σ' →
        Stmt.Runs σ (.ifThen info condition body) exit σ'
  | skip {σ : Store} {info : NodeInfo} {condition : Expr} {body : Stmt} :
      condition.eval? σ = some 0 → Stmt.Runs σ (.ifThen info condition body) .normal σ
  | ifElse {σ σ' : Store} {info : NodeInfo} {condition : Expr} {n : Int32} {body otherwise : Stmt}
      {exit : Exit} :
      condition.eval? σ = some n → n ≠ 0 → Stmt.Runs σ body exit σ' →
        Stmt.Runs σ (.ifElse info condition body otherwise) exit σ'
  | otherwise {σ σ' : Store} {info : NodeInfo} {condition : Expr} {body otherwise : Stmt}
      {exit : Exit} :
      condition.eval? σ = some 0 → Stmt.Runs σ otherwise exit σ' →
        Stmt.Runs σ (.ifElse info condition body otherwise) exit σ'
  | done {σ : Store} {info : NodeInfo} {condition : Expr} {body : Stmt} :
      condition.eval? σ = some 0 → Stmt.Runs σ (.while info condition body) .normal σ
  | left {σ σ' : Store} {info : NodeInfo} {condition : Expr} {n : Int32} {body : Stmt} :
      condition.eval? σ = some n → n ≠ 0 → Stmt.Runs σ body .broken σ' →
        Stmt.Runs σ (.while info condition body) .normal σ'
  | again {σ σ₁ σ' : Store} {info : NodeInfo} {condition : Expr} {n : Int32} {body : Stmt}
      {exit : Exit} :
      condition.eval? σ = some n → n ≠ 0 → Stmt.Runs σ body exit σ₁ → exit ≠ .broken →
        Stmt.Runs σ₁ (.while info condition body) .normal σ' →
          Stmt.Runs σ (.while info condition body) .normal σ'
  | continue {σ : Store} {info : NodeInfo} : Stmt.Runs σ (.continue info) .continued σ
  | break {σ : Store} {info : NodeInfo} : Stmt.Runs σ (.break info) .broken σ
  | nil {σ : Store} {info : NodeInfo} : Stmt.Runs σ (.block info []) .normal σ
  | cons {σ σ₁ σ' : Store} {info : NodeInfo} {s : Stmt} {statements : List Stmt} {exit : Exit} :
      Stmt.Runs σ s .normal σ₁ → Stmt.Runs σ₁ (.block info statements) exit σ' →
        Stmt.Runs σ (.block info (s :: statements)) exit σ'
  | jump {σ σ' : Store} {info : NodeInfo} {s : Stmt} {statements : List Stmt} {exit : Exit} :
      Stmt.Runs σ s exit σ' → exit ≠ .normal →
        Stmt.Runs σ (.block info (s :: statements)) exit σ'

/-- The run of a statement, nested and repeated no deeper than the fuel lasts. -/
def Stmt.run? (σ : Store) : Nat → Stmt → Option (Exit × Store)
  | 0, _ => none
  | _ + 1, .assign _ (.var _ symbol) value =>
      (value.eval? σ).map fun v => (.normal, σ.set symbol v)
  | fuel + 1, .ifThen _ condition body =>
      (condition.eval? σ).bind fun n => if n = 0 then some (.normal, σ) else body.run? σ fuel
  | fuel + 1, .ifElse _ condition body otherwise =>
      (condition.eval? σ).bind fun n =>
        if n = 0 then otherwise.run? σ fuel else body.run? σ fuel
  | fuel + 1, .while info condition body =>
      (condition.eval? σ).bind fun n =>
        if n = 0 then some (.normal, σ)
        else
          (body.run? σ fuel).bind fun (exit, σ₁) =>
            if exit = .broken then some (.normal, σ₁)
            else Stmt.run? σ₁ fuel (.while info condition body)
  | _ + 1, .continue _ => some (.continued, σ)
  | _ + 1, .break _ => some (.broken, σ)
  | _ + 1, .block _ [] => some (.normal, σ)
  | fuel + 1, .block info (s :: statements) =>
      (s.run? σ fuel).bind fun (exit, σ₁) =>
        if exit = .normal then Stmt.run? σ₁ fuel (.block info statements) else some (exit, σ₁)
  | _ + 1, _ => none

namespace Stmt

theorem Runs.normal {σ σ' : Store} {info : NodeInfo} {condition : Expr} {body : Stmt} {exit : Exit}
    (h : (Stmt.while info condition body).Runs σ exit σ') : exit = .normal := by
  cases h <;> rfl

theorem runs_of_run? {fuel : Nat} {σ σ' : Store} {s : Stmt} {exit : Exit}
    (h : s.run? σ fuel = some (exit, σ')) : s.Runs σ exit σ' := by
  induction fuel generalizing σ s exit σ' with
  | zero => cases h
  | succ fuel ih =>
      cases s with
      | assign info target value =>
          cases target with
          | var node symbol =>
              simp only [run?, Option.map_eq_some_iff] at h
              obtain ⟨v, evaluated, rfl, rfl⟩ := h
              exact .assign evaluated
          | _ => cases h
      | ifThen info condition body =>
          simp only [run?, Option.bind_eq_some_iff] at h
          obtain ⟨n, evaluated, h⟩ := h
          by_cases zero : n = 0
          · rw [if_pos zero] at h
            cases h
            subst zero
            exact .skip evaluated
          · rw [if_neg zero] at h
            exact .ifThen evaluated zero (ih h)
      | ifElse info condition body otherwise =>
          simp only [run?, Option.bind_eq_some_iff] at h
          obtain ⟨n, evaluated, h⟩ := h
          by_cases zero : n = 0
          · rw [if_pos zero] at h
            subst zero
            exact .otherwise evaluated (ih h)
          · rw [if_neg zero] at h
            exact .ifElse evaluated zero (ih h)
      | «while» info condition body =>
          simp only [run?, Option.bind_eq_some_iff] at h
          obtain ⟨n, evaluated, h⟩ := h
          by_cases zero : n = 0
          · rw [if_pos zero] at h
            cases h
            subst zero
            exact .done evaluated
          · rw [if_neg zero, Option.bind_eq_some_iff] at h
            obtain ⟨⟨ended, σ₁⟩, inner, h⟩ := h
            by_cases broken : ended = .broken
            · simp only [if_pos broken] at h
              cases h
              subst broken
              exact .left evaluated zero (ih inner)
            -- Only a jump out of the loop ends it before its condition fails.
            · simp only [if_neg broken] at h
              obtain rfl : exit = .normal := (ih h).normal
              exact .again evaluated zero (ih inner) broken (ih h)
      | «continue» info =>
          cases h
          exact .continue
      | «break» info =>
          cases h
          exact .break
      | block info statements =>
          cases statements with
          | nil =>
              cases h
              exact .nil
          | cons s statements =>
              simp only [run?, Option.bind_eq_some_iff] at h
              obtain ⟨⟨ended, σ₁⟩, first, h⟩ := h
              by_cases normal : ended = .normal
              · simp only [if_pos normal] at h
                subst normal
                exact .cons (ih first) (ih h)
              · simp only [if_neg normal] at h
                cases h
                exact .jump (ih first) normal
      | «for» | read | write | call => cases h

end Stmt

section Fragment

def Ty.isInteger : Ty → Bool
  | .integer => true
  | _ => false

theorem Ty.isInteger_iff {t : Ty} : t.isInteger = true ↔ t = .integer := by
  cases t <;> simp [isInteger]

/-- Expressions over integers that call no function and convert nothing. -/
def Expr.isPlain (e : Expr) : Bool :=
  match e with
  | .var .. | .const .. | .negate .. | .complement .. | .binary .. => e.type.isInteger
  | _ => false

def Stmt.isPlain : Stmt → Bool
  | .assign .. | .ifThen .. | .ifElse .. | .while .. | .continue _ | .break _ | .block .. => true
  | _ => false

def Symbol.isPlain (s : Symbol) : Bool :=
  match s.role with
  | .variable _ => s.type.isInteger
  | _ => true

/-- Programs without functions that compute with integer variables alone. -/
def Program.isPlain (p : Program) : Bool :=
  p.functions.isEmpty && p.main.locals.symbols.all Symbol.isPlain &&
    p.main.body.nodes.all fun s => s.isPlain && s.operands.all fun e => e.nodes.all Expr.isPlain

end Fragment

end PascalX86
