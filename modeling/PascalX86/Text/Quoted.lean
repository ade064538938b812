import PascalX86.Text.Shown

/-!
# Quoted characters

How a message quotes a character between apostrophes.
-/

set_option autoImplicit false

namespace PascalX86.Text

def letter? (c : Char) : Option Char :=
  match c with
  | '\x00' => some '0'
  | '\t' => some 't'
  | '\n' => some 'n'
  | '\r' => some 'r'
  | '\'' => some '\''
  | '\\' => some '\\'
  | _ => none

-- Characters without a letter of their own are shown, or written as their code point.
def quoted (c : Char) : String :=
  let inner :=
    match letter? c with
    | some l => String.ofList ['\\', l]
    | none =>
        if isShown c then String.ofList [c]
        else "\\u\x7b" ++ String.ofList (Nat.toDigits 16 c.toNat) ++ "\x7d"
  "'" ++ inner ++ "'"

end PascalX86.Text
