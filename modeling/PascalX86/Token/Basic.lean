import PascalX86.Decimal.Notation
import PascalX86.Source.Position
import PascalX86.Text.Apostrophes
import PascalX86.Token.Keyword

/-!
# Tokens

The words of the language. Literals are kept as values, everything else as what it is.
-/

set_option autoImplicit false

namespace PascalX86

inductive Mark where
  | plus | minus | times | slash | equal | notEqual | less | lessOrEqual | greater | greaterOrEqual
  | assign | colon | semicolon | comma | period | doubleDot | openParen | closeParen | openSquare
  | closeSquare
  deriving DecidableEq, Repr

namespace Mark

def text : Mark → String
  | .plus => "+"
  | .minus => "-"
  | .times => "*"
  | .slash => "/"
  | .equal => "="
  | .notEqual => "<>"
  | .less => "<"
  | .lessOrEqual => "<="
  | .greater => ">"
  | .greaterOrEqual => ">="
  | .assign => ":="
  | .colon => ":"
  | .semicolon => ";"
  | .comma => ","
  | .period => "."
  | .doubleDot => ".."
  | .openParen => "("
  | .closeParen => ")"
  | .openSquare => "["
  | .closeSquare => "]"

def isSeparator : Mark → Bool
  | .semicolon | .comma | .period | .doubleDot | .openParen | .closeParen | .openSquare
  | .closeSquare => true
  | _ => false

end Mark

inductive Token where
  | name (n : Name)
  | keyword (k : Keyword)
  | integer (n : Int32)
  | double (x : Float)
  | char (code : UInt8)
  | string (text : String)
  | mark (m : Mark)
  | endOfFile
  deriving Repr

namespace Token

def kind : Token → String
  | .name _ => "identifier"
  | .keyword _ => "keyword"
  | .integer _ => "integer"
  | .double _ => "double"
  | .char _ => "char"
  | .string _ => "string"
  | .mark m => if m.isSeparator then "separator" else "operator"
  | .endOfFile => "end of file"

def lexeme : Token → String
  | .name n => n.spelling
  | .keyword k => k.text
  | .integer n => toString n.toInt
  | .double x => Decimal.shortestText x
  | .char code => Text.quotedCode code
  | .string text => Text.quotedText text
  | .mark m => m.text
  | .endOfFile => ""

def describe (t : Token) : String :=
  match t with
  | .name n => s!"identifier `{n.spelling}`"
  | .keyword k => s!"keyword `{k.text}`"
  | .integer _ | .double _ | .char _ | .string _ => s!"literal `{t.lexeme}`"
  | .mark m => s!"`{m.text}`"
  | .endOfFile => "end of file"

def isMark (t : Token) (m : Mark) : Bool :=
  match t with
  | .mark found => found == m
  | _ => false

def isKeyword (t : Token) (k : Keyword) : Bool :=
  match t with
  | .keyword found => found == k
  | _ => false

def isName : Token → Bool
  | .name _ => true
  | _ => false

def isEndOfFile : Token → Bool
  | .endOfFile => true
  | _ => false

-- What the last column of a token table shows: literals by content, characters by code.
def content : Token → String
  | .char code => toString code.toNat
  | .string text => text
  | t => t.lexeme

end Token

def tokenTable (tokens : List (Located Token)) : String :=
  let row (t : Located Token) :=
    let start := t.span.start
    s!"{start.line} | {start.column} | {t.value.kind} | {t.value.lexeme} | {t.value.content}\n"
  String.join ("row | col | kind | text | value\n" :: tokens.map row)

end PascalX86
