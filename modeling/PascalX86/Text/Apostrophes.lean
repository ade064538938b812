/-!
# Texts between apostrophes

The source form of character and string literals.
-/

set_option autoImplicit false

namespace PascalX86.Text

def doubled : List Char → List Char
  | [] => []
  | c :: rest => if c = '\'' then '\'' :: '\'' :: doubled rest else c :: doubled rest

def quotedText (text : String) : String :=
  String.ofList ('\'' :: doubled text.toList ++ ['\''])

def quotedCode (code : UInt8) : String :=
  String.ofList ['\'', Char.ofNat code.toNat, '\'']

end PascalX86.Text
