import PascalX86.Token.Scan

/-!
# Cursors

Parsing looks at one token at a time. A cursor holds that token and the items still to come.
-/

set_option autoImplicit false

namespace PascalX86

structure Cursor where
  current : Located Token
  coming : List Scanned
  -- How many more times the cursor can move.
  remaining : Nat
  remaining_eq : remaining = coming.length

namespace Cursor

def ofItems : List Scanned → Except (Located LexicalError) Cursor
  | [] => .ok ⟨⟨.endOfFile, .first⟩, [], 0, rfl⟩
  | .ok t :: coming => .ok ⟨t, coming, coming.length, rfl⟩
  | .error e :: _ => .error e

/-- Moves to the next token and answers whether that is one before the end of file. An error is
answered once and leaves the current token as it is. -/
def advance (c : Cursor) : Except (Located LexicalError) Bool × Cursor :=
  if c.current.value.isEndOfFile then (.ok false, c)
  else
    match h : c.coming with
    | [] => (.ok true, c)
    | .ok t :: coming =>
        (.ok !t.value.isEndOfFile, ⟨t, coming, c.remaining - 1, by simp [c.remaining_eq, h]⟩)
    | .error e :: coming =>
        (.error e, ⟨c.current, coming, c.remaining - 1, by simp [c.remaining_eq, h]⟩)

theorem advance_of_isEndOfFile {c : Cursor} (h : c.current.value.isEndOfFile = true) :
    c.advance = (.ok false, c) := by
  simp [advance, h]

end Cursor

end PascalX86
