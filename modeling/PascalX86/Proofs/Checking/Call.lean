import PascalX86.Proofs.Checking.Nesting

/-!
# References and calls name what is declared

By induction on the derivation of a tree: the symbol of every reference in it, and one for the
function of every call, is what is found in scope under its own name.
-/

set_option autoImplicit false

namespace PascalX86

def Scopes.Names (σ : Scopes) (f : Signature) : Prop :=
  ∃ symbol, σ.Holds symbol ∧ symbol.role = .function f

def Expr.Calls (σ : Scopes) : Expr → Prop
  | .call _ function _ => σ.Names function
  | _ => True

def Stmt.Calls (σ : Scopes) : Stmt → Prop
  | .call _ function _ => σ.Names function
  | _ => True

namespace Scopes

variable {σ : Scopes} {a b : Name} {symbol : Symbol}

/-- Under its name the symbol is found, not another one. -/
def Finds (σ : Scopes) (symbol : Symbol) : Prop := σ.lookup? symbol.name.value = some symbol

theorem get?_congr (same : a.same b = true) (t : Table) : t.get? a = t.get? b := by
  have key : a.key = b.key := by simpa [Name.same] using same
  simp [Table.get?, Name.same, key]

theorem lookup?_congr (same : a.same b = true) : σ.lookup? a = σ.lookup? b := by
  simp only [lookup?, get?_congr same]

theorem finds_of_lookup? (found : σ.lookup? a = some symbol) : σ.Finds symbol := by
  obtain ⟨t, -, inside⟩ := List.exists_of_findSome?_eq_some found
  have same := List.find?_some (p := fun symbol : Symbol => symbol.name.value.same a) inside
  exact (lookup?_congr same).trans found

theorem Finds.holds (h : σ.Finds symbol) : σ.Holds symbol := holds_of_lookup? h

/-- No two symbols of a table have one name. -/
theorem get?_of_mem {t : Table} (sound : t.Sound) (mem : symbol ∈ t.symbols) :
    t.get? symbol.name.value = some symbol := by
  obtain ⟨front, back, split⟩ := List.append_of_mem mem
  have distinct := sound.distinct
  rw [split, List.pairwise_append] at distinct
  rw [Table.get?, split, List.find?_append]
  have none : front.find? (fun s => s.name.value.same symbol.name.value) = none := by
    rw [List.find?_eq_none]
    intro other before
    simp [distinct.2.2 other before symbol List.mem_cons_self]
  simp [none]

theorem finds_of_mem {level : Nat} (sound : σ.Sound level) (mem : symbol ∈ σ.current.symbols) :
    σ.Finds symbol := by
  have found := get?_of_mem (sound _ List.mem_cons_self).sound mem
  simp [Finds, lookup?, tables, found]

end Scopes

def Expr.Found (σ : Scopes) : Expr → Prop
  | .var _ symbol => σ.Finds symbol
  | .call _ function _ => ∃ symbol, σ.Finds symbol ∧ symbol.role = .function function
  | _ => True

def Stmt.Found (σ : Scopes) : Stmt → Prop
  | .call _ function _ => ∃ symbol, σ.Finds symbol ∧ symbol.role = .function function
  | _ => True

theorem Expr.Found.calls {σ : Scopes} {e : Expr} (h : e.Found σ) : e.Calls σ := by
  cases e with
  | call info function arguments =>
      obtain ⟨symbol, found, role⟩ := h
      exact ⟨symbol, found.holds, role⟩
  | _ => trivial

theorem Stmt.Found.calls {σ : Scopes} {s : Stmt} (h : s.Found σ) : s.Calls σ := by
  cases s with
  | call info function arguments =>
      obtain ⟨symbol, found, role⟩ := h
      exact ⟨symbol, found.holds, role⟩
  | _ => trivial

namespace Checking

variable {σ : Scopes} {n n' : Nat} {e e' : Expr} {t : Ty}

section Conversions

theorem Converts.found (h : Converts e t n e' n') (found : e.All (Expr.Found σ)) :
    e'.All (Expr.Found σ) := by
  cases h with
  | keep => exact found
  | fold => exact Expr.all_const.mpr trivial
  | wrap => exact Expr.all_cast.mpr ⟨trivial, found⟩

theorem Negates.found (h : Negates e n e' n') (found : e.All (Expr.Found σ)) :
    e'.All (Expr.Found σ) := by
  cases h with
  | fold => exact Expr.all_const.mpr trivial
  | make signed => exact Expr.all_negate.mpr ⟨trivial, signed.2.found found⟩

theorem Complements.found (h : Complements e n e' n') (found : e.All (Expr.Found σ)) :
    e'.All (Expr.Found σ) := by
  cases h with
  | fold => exact Expr.all_const.mpr trivial
  | make signed => exact Expr.all_complement.mpr ⟨trivial, signed.2.found found⟩

theorem Operates.found {op : Operator} {left right : Expr} (h : Operates op left right n e' n')
    (first : left.All (Expr.Found σ)) (second : right.All (Expr.Found σ)) :
    e'.All (Expr.Found σ) := by
  cases h with
  | fold => exact Expr.all_const.mpr trivial
  | make _ _ converts converts' =>
      exact Expr.all_binary.mpr ⟨trivial, converts.found first, converts'.found second⟩

theorem found_ofConstant (info : NodeInfo) (v : Value) :
    (Expr.ofConstant info v).All (Expr.Found σ) := by
  rw [Expr.ofConstant]
  split
  · exact Expr.all_const.mpr trivial
  · exact Expr.all_aggregate.mpr trivial

theorem Fits.found {parameters : List Parameter} {given arguments : List Expr}
    (h : Fits parameters given n arguments n') (found : ∀ e ∈ given, e.All (Expr.Found σ)) :
    ∀ e ∈ arguments, e.All (Expr.Found σ) := by
  induction h with
  | nil => simp
  | @cons p parameters given arguments e e' n₀ n₁ n₂ n₃ supplied passed _ ih =>
      have first : e.All (Expr.Found σ) := by
        generalize head : given.head? = e? at supplied
        cases supplied with
        | given => exact found e (List.mem_of_head? head)
        | default => exact found_ofConstant _ _
      have second : e'.All (Expr.Found σ) := by
        cases passed with
        | reference => exact first
        | value _ coerced => exact coerced.2.found first
      rw [List.forall_mem_cons]
      exact ⟨second, ih fun e mem => found e (List.mem_of_mem_tail mem)⟩

end Conversions

section Trees

theorem Expression.found (h : Expression σ n e n') : e.All (Expr.Found σ) := by
  induction h with
  | literal | constant => exact Expr.all_const.mpr trivial
  | «variable» found => exact Expr.all_var.mpr (Scopes.finds_of_lookup? found)
  | element _ _ _ _ coerced _ base subscript =>
      exact Expr.all_index.mpr ⟨trivial, base, coerced.2.found subscript⟩
  | field _ _ _ _ base => exact Expr.all_field.mpr ⟨trivial, base⟩
  | signed _ signed ih => exact signed.2.found ih
  | negated _ negated ih => exact negated.found ih
  | complemented _ complemented ih => exact complemented.found ih
  | operation _ _ operated first second => exact operated.found first second
  | call found role _ _ _ fitted ih =>
      refine Expr.all_call.mpr ⟨⟨_, Scopes.finds_of_lookup? found, role⟩, fitted.found fun e mem => ?_⟩
      obtain ⟨i, hi, rfl⟩ := List.mem_iff_getElem.mp mem
      exact ih i hi

theorem Coerces.found {e₀ : Expr} {n₀ : Nat} (made : Expression σ n e₀ n₀)
    (coerced : Coerces e₀ t n₀ e n') : e.All (Expr.Found σ) :=
  coerced.2.found made.found

theorem Condition.found (h : Condition σ n e n') : e.All (Expr.Found σ) := by
  obtain ⟨e₀, n₀, made, coerced⟩ := h
  exact coerced.found made

theorem Statement.found {loops : Nat} {s : Stmt} (h : Statement σ loops n s n') :
    s.All (Expr.Found σ) (Stmt.Found σ) := by
  induction h with
  | assign left right coerced =>
      exact Stmt.all_assign.mpr ⟨trivial, left.1.found, coerced.found right⟩
  | ifThen test _ inner => exact Stmt.all_ifThen.mpr ⟨⟨trivial, test.found⟩, inner⟩
  | ifElse test _ _ first second =>
      exact Stmt.all_ifElse.mpr ⟨⟨trivial, test.found⟩, first, second⟩
  | «while» test _ inner => exact Stmt.all_while.mpr ⟨⟨trivial, test.found⟩, inner⟩
  | «for» counter _ lower lower' upper upper' _ inner =>
      exact Stmt.all_for.mpr
        ⟨⟨trivial, counter.1.found, lower'.found lower, upper'.found upper⟩, inner⟩
  | «continue» => exact Stmt.all_continue.mpr trivial
  | «break» => exact Stmt.all_break.mpr trivial
  | read each =>
      exact Stmt.all_read.mpr ⟨trivial, each.forall_mem fun _ _ _ (h : Readable σ _ _ _) => h.1.1.found⟩
  | write each =>
      exact Stmt.all_write.mpr ⟨trivial, each.forall_mem fun _ _ _ (h : Writable σ _ _ _) => h.1.found⟩
  | call found role each _ fitted =>
      have given := each.forall_mem fun _ _ _ h => Expression.found h
      exact Stmt.all_call.mpr ⟨⟨_, Scopes.finds_of_lookup? found, role⟩, fitted.found given⟩
  | block _ ih =>
      refine Stmt.all_block.mpr ⟨trivial, fun s mem => ?_⟩
      obtain ⟨i, hi, rfl⟩ := List.mem_iff_getElem.mp mem
      exact ih i hi

theorem Completes.found {g : Function} (h : Completes σ g) :
    g.body.All (Expr.Found σ) (Stmt.Found σ) := by
  obtain ⟨-, -, sound, declares, rfl, body, -, eq⟩ := h
  rw [eq, Stmt.all_block, List.forall_mem_append]
  refine ⟨trivial, fun i mem => ?_, body.forall_mem fun _ _ _ made => made.found⟩
  obtain ⟨symbol, inside, n, span, value, rfl⟩ := declares.initial sound i mem
  have scopes := (declares.sound sound).sound.scopes
  refine Stmt.all_assign.mpr ⟨trivial, Expr.all_var.mpr ?_, found_ofConstant _ _⟩
  exact Scopes.finds_of_mem scopes inside

theorem Completes.calls {g : Function} (h : Completes σ g) :
    g.body.All (Expr.Calls σ) (Stmt.Calls σ) :=
  h.found.mono (fun _ => Expr.Found.calls) fun _ => Stmt.Found.calls

end Trees

end Checking

end PascalX86
