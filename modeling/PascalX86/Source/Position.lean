/-!
# Positions

Rows and columns of a source text, both counted from 1, and the half-open spans between them.
-/

set_option autoImplicit false

namespace PascalX86

structure Position where
  line : Nat
  column : Nat
  deriving DecidableEq, Repr

namespace Position

def first : Position := ⟨1, 1⟩

def advance (p : Position) : Position := { p with column := p.column + 1 }

def back (p : Position) : Position := { p with column := max p.column 2 - 1 }

def newline (p : Position) : Position := ⟨p.line + 1, 1⟩

-- The next column of the form 4k + 1.
def tab (p : Position) : Position := { p with column := 1 + ((p.column - 1) / 4 + 1) * 4 }

def after (p : Position) (c : Char) : Position :=
  if c = '\n' then p.newline else if c = '\t' then p.tab else p.advance

def text (p : Position) : String := s!"{p.line}:{p.column}"

@[simp] theorem advance_line (p : Position) : p.advance.line = p.line := rfl

@[simp] theorem advance_column (p : Position) : p.advance.column = p.column + 1 := rfl

@[simp] theorem after_newline (p : Position) : p.after '\n' = p.newline := rfl

@[simp] theorem after_tab (p : Position) : p.after '\t' = p.tab := rfl

end Position

/-- The positions from `start` up to `stop`, which is not part of the span. -/
structure Span where
  start : Position
  stop : Position
  deriving DecidableEq, Repr

namespace Span

def single (p : Position) : Span := ⟨p, p.advance⟩

def first : Span := single .first

def join (a b : Span) : Span := ⟨a.start, b.stop⟩

def range (s : Span) : String := s!"{s.start.text}-{s.stop.text}"

/-- How a message names the span in the source called `name`: its last character is named only if it
stands on the same line as the first one and differs from it. -/
def describe (name : String) (s : Span) : String :=
  if s.stop.line ≠ s.start.line ∨ s.stop = s.start.advance then
    s!"{name}:{s.start.text}"
  else
    s!"{name}:[{s.start.text}-{s.stop.back.text}]"

@[simp] theorem join_start (a b : Span) : (a.join b).start = a.start := rfl

@[simp] theorem join_stop (a b : Span) : (a.join b).stop = b.stop := rfl

end Span

structure Located (α : Type) where
  value : α
  span : Span
  deriving Repr

end PascalX86
