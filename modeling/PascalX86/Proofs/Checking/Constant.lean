import PascalX86.Proofs.Checking.Body

/-!
# Constants keep their values

Which references a program writes to, and that all of them go down to something that may be assigned
to. The one exception are stored constants, which are given their values before the first statement.
-/

set_option autoImplicit false

namespace PascalX86

section References

def byReference : List Parameter → List Expr → List Expr
  | p :: parameters, e :: arguments =>
      if p.mode = .byReference then e :: byReference parameters arguments
      else byReference parameters arguments
  | _, _ => []

def Expr.written : Expr → List Expr
  | .call _ function arguments => byReference function.parameters arguments
  | _ => []

/-- The references that a statement writes to itself. -/
def Stmt.targets : Stmt → List Expr
  | .assign _ target _ => [target]
  | .for _ counter _ _ _ _ => [counter]
  | .read _ targets _ => targets
  | .call _ function arguments => byReference function.parameters arguments
  | _ => []

/-- The references that a statement or one of its expressions writes to. -/
def Stmt.written (s : Stmt) : List Expr :=
  s.targets ++ (Expr.nodesOf s.operands).flatMap Expr.written

theorem isTarget_of_mem_byReference {parameters : List Parameter} {arguments : List Expr}
    (takes : List.Forall₂ Parameter.Takes parameters arguments) :
    ∀ e ∈ byReference parameters arguments, e.IsTarget := by
  induction takes with
  | nil => simp [byReference]
  | cons takes _ ih =>
      rw [byReference]
      split
      · next mode =>
        rw [List.forall_mem_cons]
        exact ⟨takes.target mode, ih⟩
      · exact ih

theorem Expr.Obeys.written {e : Expr} (h : e.Obeys) : ∀ x ∈ e.written, x.IsTarget := by
  cases e with
  | call info function arguments => exact isTarget_of_mem_byReference h.2.2
  | _ => simp [Expr.written]

end References

section Constants

def Symbol.isStored (symbol : Symbol) : Bool :=
  match symbol.role with
  | .constant _ (some _) => true
  | _ => false

/-- The stored constant that a statement gives its value. -/
def Stmt.initialized? : Stmt → Option Symbol
  | .assign _ (.var _ symbol) (.aggregate ..) => if symbol.isStored then some symbol else none
  | _ => none

inductive Stmt.Initializes (symbol : Symbol) : Stmt → Prop where
  | assign {info target source : NodeInfo} {value : Value} {slot : Slot}
      (role : symbol.role = .constant value (some slot)) :
      Initializes symbol (.assign info (.var target symbol) (.aggregate source value))

theorem Stmt.Initializes.initialized? {symbol : Symbol} {s : Stmt} (h : s.Initializes symbol) :
    s.initialized? = some symbol := by
  cases h with
  | assign role => simp [Stmt.initialized?, Symbol.isStored, role]

end Constants

namespace Checking

variable {σ : Scopes} {n n' loops : Nat}

def AssignsTarget : Stmt → Prop
  | .assign _ target _ => target.IsTarget
  | _ => True

/-- Assignments other than initializers are only made to what may be assigned to. -/
theorem Statement.assigns {s : Stmt} (h : Statement σ loops n s n') :
    s.All (fun _ => True) AssignsTarget := by
  have any (e : Expr) : e.All fun _ => True := fun _ _ => trivial
  induction h with
  | assign left => exact Stmt.all_assign.mpr ⟨left.2, any _, any _⟩
  | ifThen _ _ inner | «while» _ _ inner => simpa [any, AssignsTarget] using inner
  | ifElse _ _ _ first second => simpa [any, AssignsTarget] using ⟨first, second⟩
  | «for» _ _ _ _ _ _ _ inner => simpa [any, AssignsTarget] using inner
  | block _ ih =>
      refine Stmt.all_block.mpr ⟨trivial, fun s mem => ?_⟩
      obtain ⟨i, hi, rfl⟩ := List.mem_iff_getElem.mp mem
      exact ih i hi
  | _ => simp [any, AssignsTarget]

theorem isTarget_of_mem_written {s : Stmt} (obeys : s.Obeys) (operands : ∀ e ∈ s.operands, e.All Expr.Obeys)
    (assigns : AssignsTarget s) : ∀ e ∈ s.written, e.IsTarget := by
  rw [Stmt.written, List.forall_mem_append]
  refine ⟨?_, fun e mem => ?_⟩
  · cases s with
    | assign info target value => simpa [Stmt.targets, AssignsTarget] using assigns
    | «for» info counter first last direction body => simpa [Stmt.targets] using obeys.1
    | read info targets newline => exact fun e mem => (obeys e mem).1
    | call info function arguments => exact isTarget_of_mem_byReference obeys.2
    | _ => simp [Stmt.targets]
  · obtain ⟨x, inside, mem⟩ := List.mem_flatMap.mp mem
    obtain ⟨operand, given, part⟩ := Expr.mem_nodesOf.mp inside
    exact Expr.Obeys.written (operands operand given x part) e mem

theorem Statement.written {s : Stmt} (h : Statement σ loops n s n') (scopes : σ.Fulfilled) :
    ∀ x ∈ s.nodes, ∀ e ∈ x.written, e.IsTarget := by
  have sound := (h.sound scopes).2
  intro x mem
  obtain ⟨checked, operands⟩ := sound x mem
  exact isTarget_of_mem_written checked.obeys (fun e operand => (operands e operand).mono fun _ => Expr.Checked.obeys)
    (h.assigns x mem).1

/-- What an initializer does: it gives a stored constant its value, or assigns to a variable. -/
def Initializer (s : Stmt) : Prop :=
  (∃ symbol, s.Initializes symbol) ∨
    s.initialized? = none ∧ ∀ x ∈ s.nodes, ∀ e ∈ x.written, e.IsTarget

/-- Declarations leave one initializer for each stored constant that they add, in order. -/
structure Initializing (s : ParserState) (initializers : List Stmt) (s' : ParserState) : Prop where
  each : ∀ i ∈ initializers, Initializer i
  constants : ∃ more, s'.scopes.current.symbols = s.scopes.current.symbols ++ more ∧
    initializers.filterMap Stmt.initialized? = more.filter Symbol.isStored

theorem Initializing.append {s t u : ParserState} {first second : List Stmt}
    (before : Initializing s first t) (after : Initializing t second u) :
    Initializing s (first ++ second) u := by
  obtain ⟨more, symbols, constants⟩ := before.constants
  obtain ⟨more', symbols', constants'⟩ := after.constants
  refine ⟨?_, more ++ more', ?_, ?_⟩
  · rw [List.forall_mem_append]
    exact ⟨before.each, after.each⟩
  · rw [symbols', symbols, List.append_assoc]
  · rw [List.filterMap_append, List.filter_append, constants, constants']

theorem Initializing.plain {s s' : ParserState} {symbol : Symbol}
    (table : s.scopes.current.Extends symbol s'.scopes.current) (plain : symbol.isStored = false) :
    Initializing s [] s' :=
  ⟨by simp, [symbol], table.symbols, by simp [plain]⟩

end Checking

end PascalX86
