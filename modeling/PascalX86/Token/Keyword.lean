import PascalX86.Name

/-!
# Keywords
-/

set_option autoImplicit false

namespace PascalX86

inductive Keyword where
  | and | array | «begin» | «break» | char | const | «continue» | div | «do» | double | downto
  | «else» | «end» | «for» | function | «if» | integer | mod | not | of | or | procedure | program
  | read | readln | record | shl | shr | string | «then» | «to» | type | var | «while» | write
  | writeln | xor
  deriving DecidableEq, Repr

namespace Keyword

def text : Keyword → String
  | .and => "and"
  | .array => "array"
  | .«begin» => "begin"
  | .«break» => "break"
  | .char => "char"
  | .const => "const"
  | .«continue» => "continue"
  | .div => "div"
  | .«do» => "do"
  | .double => "double"
  | .downto => "downto"
  | .«else» => "else"
  | .«end» => "end"
  | .«for» => "for"
  | .function => "function"
  | .«if» => "if"
  | .integer => "integer"
  | .mod => "mod"
  | .not => "not"
  | .of => "of"
  | .or => "or"
  | .procedure => "procedure"
  | .program => "program"
  | .read => "read"
  | .readln => "readln"
  | .record => "record"
  | .shl => "shl"
  | .shr => "shr"
  | .string => "string"
  | .«then» => "then"
  | .«to» => "to"
  | .type => "type"
  | .var => "var"
  | .«while» => "while"
  | .write => "write"
  | .writeln => "writeln"
  | .xor => "xor"

def all : List Keyword :=
  [.and, .array, .«begin», .«break», .char, .const, .«continue», .div, .«do», .double, .downto,
   .«else», .«end», .«for», .function, .«if», .integer, .mod, .not, .of, .or, .procedure, .program,
   .read, .readln, .record, .shl, .shr, .string, .«then», .«to», .type, .var, .«while», .write,
   .writeln, .xor]

-- The keyword a word spells, in any case of its letters.
def ofWord? (word : String) : Option Keyword :=
  all.find? fun k => (Name.ofSpelling word).same (.ofSpelling k.text)

@[simp] theorem ofWord?_text (k : Keyword) : ofWord? k.text = some k := by
  cases k <;> decide

end Keyword

end PascalX86
