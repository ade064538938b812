/-!
# Blank characters

The 25 characters of the White_Space property, which separate words and mean nothing else.
-/

set_option autoImplicit false

namespace PascalX86.Text

structure CodeRange where
  low : Nat
  high : Nat

def CodeRange.holds (r : CodeRange) (c : Char) : Bool := r.low ≤ c.toNat && c.toNat ≤ r.high

def blanks : List CodeRange :=
  [⟨0x09, 0x0D⟩, ⟨0x20, 0x20⟩, ⟨0x85, 0x85⟩, ⟨0xA0, 0xA0⟩, ⟨0x1680, 0x1680⟩, ⟨0x2000, 0x200A⟩,
   ⟨0x2028, 0x2029⟩, ⟨0x202F, 0x202F⟩, ⟨0x205F, 0x205F⟩, ⟨0x3000, 0x3000⟩]

def isBlank (c : Char) : Bool := blanks.any (·.holds c)

@[simp] theorem isBlank_newline : isBlank '\n' = true := rfl

@[simp] theorem isBlank_space : isBlank ' ' = true := rfl

end PascalX86.Text
