import PascalX86.Assembly.Basic
import PascalX86.Ty.Basic

/-!
# Formats

The format strings of output statements, as pieces and as they are written in a listing.
-/

set_option autoImplicit false

namespace PascalX86

inductive Conversion where
  | decimal | character | float
  deriving DecidableEq, Repr

namespace Conversion

def text : Conversion → String
  | .decimal => "%d"
  | .character => "%c"
  | .float => "%f"

def width : Conversion → Width
  | .decimal | .character => .dword
  | .float => .qword

def ofType? : Ty → Option Conversion
  | .integer => some .decimal
  | .char => some .character
  | .double => some .float
  | _ => none

end Conversion

namespace Format

inductive Piece where
  | text (s : String)
  | conversion (c : Conversion)

-- A character of text in a format; quotes have an escape of their own.
def escape : Char → String
  | '%' => "%%"
  | '\\' => "\\\\"
  | '"' => "\\q"
  | '\n' => "\\n"
  | '\t' => "\\t"
  | c => String.ofList [c]

def Piece.encode : Piece → String
  | .text s => String.join (s.toList.map escape)
  | .conversion c => c.text

def encode : List Piece → String
  | [] => ""
  | piece :: pieces => piece.encode ++ encode pieces

@[simp] theorem encode_append (first second : List Piece) :
    encode (first ++ second) = encode first ++ encode second := by
  induction first with
  | nil => simp [encode]
  | cons piece pieces ih => simp [encode, ih, String.append_assoc]

end Format

def Value.output? : Value → Option String
  | .integer n => some (toString n.toInt)
  | .double x => some (Decimal.fixedText 6 x)
  | .char code => some (codeText code)
  | .string s => some s
  | .array _ | .record _ => none

end PascalX86
