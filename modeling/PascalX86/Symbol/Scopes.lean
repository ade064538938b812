import PascalX86.Symbol.Table

/-!
# Scopes

The tables that are active at a point of a program, innermost first. Names are looked up from the
inside out.
-/

set_option autoImplicit false

namespace PascalX86

structure Scopes where
  current : Table
  -- The tables around the current one, nearest first.
  outer : List Table

namespace Scopes

def start (outermost : Table) : Scopes := ⟨outermost, []⟩

def tables (s : Scopes) : List Table := s.current :: s.outer

def push (s : Scopes) (t : Table) : Scopes := ⟨t, s.current :: s.outer⟩

-- Leaves the current table, unless it is the outermost one.
def pop? (s : Scopes) : Option (Table × Scopes) :=
  match s.outer with
  | [] => none
  | t :: outer => some (s.current, ⟨t, outer⟩)

def outermost (s : Scopes) : Table := s.outer.getLast?.getD s.current

def lookup? (s : Scopes) (name : Name) : Option Symbol :=
  s.tables.findSome? fun t => t.get? name

def lookup (s : Scopes) (name : Name) : Except SemanticError Symbol :=
  match s.lookup? name with
  | some symbol => .ok symbol
  | none => .error (.notFound name)

def declare {α : Type} (s : Scopes) (d : Declaring α) : Except SemanticError α × Scopes :=
  let (answer, current) := d.runOn s.current
  (answer, { s with current := current })

theorem outermost_eq_current {s : Scopes} (outer : s.outer = []) : s.outermost = s.current := by
  rw [outermost, outer]
  rfl

@[simp] theorem pop?_push (s : Scopes) (t : Table) : (s.push t).pop? = some (t, s) := rfl

end Scopes

end PascalX86
