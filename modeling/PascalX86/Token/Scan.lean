import PascalX86.Source.Text
import PascalX86.Text.Quoted
import PascalX86.Token.Basic

/-!
# Scanning

A token is recognised from its first character and the text after it; what the recognisers say is
how many characters they read and what those mean. Scanning strings their answers together.
-/

set_option autoImplicit false

namespace PascalX86

inductive LexicalError where
  | unreadable
  | badChar (c : Char)
  | unterminatedString
  | unclosedComment
  | malformedNumber (text : String)
  | integerOverflow
  | badCharCode (code : Nat)
  | expectedDigits (after : Char)
  deriving DecidableEq, Repr

def LexicalError.message : LexicalError → String
  | .unreadable => "I/O error"
  | .badChar c => s!"Bad character {Text.quoted c} in input stream"
  | .unterminatedString => "Missing terminating ' character"
  | .unclosedComment => "Unclosed comment"
  | .malformedNumber text => s!"Malformed number `{text}`"
  | .integerOverflow => "Number is too big, valid range is [0, 2147483647]"
  | .badCharCode code => s!"Illegal char constant #{code}"
  | .expectedDigits after => s!"Digits expected after `{after}`"

namespace Scan

def isLetter (c : Char) : Bool := c.isAlpha || c == '_'

def isWordChar (c : Char) : Bool := c.isAlphanum || c == '_'

def isHexDigit (c : Char) : Bool :=
  c.isDigit || ('a' ≤ c && c ≤ 'f') || ('A' ≤ c && c ≤ 'F')

def digitValue (c : Char) : Nat :=
  if c.isDigit then c.toNat - '0'.toNat
  else if 'a' ≤ c then c.toNat - 'a'.toNat + 10
  else c.toNat - 'A'.toNat + 10

def valueIn (base : Nat) (digits : List Char) : Nat :=
  digits.foldl (fun value c => base * value + digitValue c) 0

inductive Meaning where
  | skipped
  | token (t : Token)
  -- An integer with two points right after it, which are a token of their own.
  | rangeFrom (t : Token)
  | failed (e : LexicalError)

/-- The number of characters read after the first one, and their meaning. -/
structure Reading where
  length : Nat
  meaning : Meaning

def integer (base : Nat) (digits : List Char) : Except LexicalError Token :=
  let value := valueIn base digits
  if value < 2147483648 then .ok (.integer (Int32.ofNat value)) else .error .integerOverflow

def meaningOf (result : Except LexicalError Token) : Meaning :=
  match result with
  | .ok t => .token t
  | .error e => .failed e

-- A double with the given digits around its point, a text to name it by, and an exponent.
def double (whole fraction : List Char) (exponent : Int) (text : List Char) : Meaning :=
  match Decimal.nearest? (valueIn 10 (whole ++ fraction)) (exponent - fraction.length) with
  | some x => .token (.double x)
  | none => .failed (.malformedNumber (String.ofList text))

def word (c : Char) (rest : List Char) : Reading :=
  let tail := rest.takeWhile isWordChar
  let spelling := String.ofList (c :: tail)
  match Keyword.ofWord? spelling with
  | some k => ⟨tail.length, .token (.keyword k)⟩
  | none => ⟨tail.length, .token (.name (.ofSpelling spelling))⟩

-- The exponent of a number, of which `text` has been read, with the mark itself still ahead.
def exponent (whole fraction text rest : List Char) : Reading :=
  let sign := ((rest.drop 1).take 1).filter fun c => c == '+' || c == '-'
  let digits := (rest.drop (1 + sign.length)).takeWhile Char.isDigit
  let text := text ++ 'e' :: sign ++ digits
  let length := text.length - 1
  if digits.isEmpty then ⟨length, .failed (.malformedNumber (String.ofList text))⟩
  else
    let size : Int := valueIn 10 digits
    ⟨length, double whole fraction (if sign == ['-'] then -size else size) text⟩

def isExponentMark (c : Char) : Bool := c == 'e' || c == 'E'

def number (c : Char) (rest : List Char) : Reading :=
  let whole := c :: rest.takeWhile Char.isDigit
  match rest.dropWhile Char.isDigit with
  | '.' :: '.' :: _ =>
      match integer 10 whole with
      | .ok t => ⟨whole.length + 1, .rangeFrom t⟩
      | .error e => ⟨whole.length, .failed e⟩
  | '.' :: after =>
      let fraction := after.takeWhile Char.isDigit
      let text := whole ++ '.' :: fraction
      if fraction.isEmpty then
        ⟨whole.length, .failed (.malformedNumber (String.ofList text))⟩
      else
        let ahead := after.dropWhile Char.isDigit
        match ahead with
        | mark :: _ =>
            if isExponentMark mark then exponent whole fraction text ahead
            else ⟨text.length - 1, double whole fraction 0 text⟩
        | [] => ⟨text.length - 1, double whole fraction 0 text⟩
  | mark :: after =>
      if isExponentMark mark then exponent whole [] whole (mark :: after)
      else ⟨whole.length - 1, meaningOf (integer 10 whole)⟩
  | [] => ⟨whole.length - 1, meaningOf (integer 10 whole)⟩

def hex (rest : List Char) : Reading :=
  let digits := rest.takeWhile isHexDigit
  if digits.isEmpty then ⟨0, .failed (.expectedDigits '$')⟩
  else ⟨digits.length, meaningOf (integer 16 digits)⟩

-- Codes that do not fit 32 bits are named by the largest number that does.
def charCode (rest : List Char) : Reading :=
  let digits := rest.takeWhile Char.isDigit
  if digits.isEmpty then ⟨0, .failed (.expectedDigits '#')⟩
  else
    let code := min (valueIn 10 digits) 4294967295
    if code < 256 then ⟨digits.length, .token (.char (UInt8.ofNat code))⟩
    else ⟨digits.length, .failed (.badCharCode code)⟩

-- A single character of a code below 256 is a character, anything else a string.
def literal (content : List Char) : Token :=
  match content with
  | [c] => if c.toNat < 256 then .char (UInt8.ofNat c.toNat) else .string (String.ofList content)
  | _ => .string (String.ofList content)

def quotation : List Char → Option (List Char × Nat)
  | [] => none
  | '\'' :: '\'' :: rest => (quotation rest).map fun (text, n) => ('\'' :: text, n + 2)
  | '\'' :: _ => some ([], 1)
  | '\n' :: _ => none
  | c :: rest => (quotation rest).map fun (text, n) => (c :: text, n + 1)

def quoted (rest : List Char) : Reading :=
  match quotation rest with
  | some (content, n) => ⟨n, .token (literal content)⟩
  | none => ⟨(rest.takeWhile (· != '\n')).length, .failed .unterminatedString⟩

def braceComment : List Char → Option Nat
  | [] => none
  | '\x7d' :: _ => some 1
  | _ :: rest => (braceComment rest).map (· + 1)

def starComment : List Char → Option Nat
  | [] => none
  | '*' :: ')' :: _ => some 2
  | _ :: rest => (starComment rest).map (· + 1)

def comment (rest : List Char) (opening : Nat) (length : Option Nat) : Reading :=
  match length with
  | some n => ⟨opening + n, .skipped⟩
  | none => ⟨rest.length, .failed .unclosedComment⟩

def lineComment (rest : List Char) : Reading :=
  ⟨min ((rest.takeWhile (· != '\n')).length + 1) rest.length, .skipped⟩

def sign (length : Nat) (m : Mark) : Reading := ⟨length, .token (.mark m)⟩

def recognise (c : Char) (rest : List Char) : Reading :=
  match c with
  | '+' => sign 0 .plus
  | '-' => sign 0 .minus
  | '*' => sign 0 .times
  | '=' => sign 0 .equal
  | ';' => sign 0 .semicolon
  | ',' => sign 0 .comma
  | '[' => sign 0 .openSquare
  | ']' => sign 0 .closeSquare
  | ')' => sign 0 .closeParen
  | '(' =>
      match rest with
      | '*' :: inner => comment rest 1 (starComment inner)
      | _ => sign 0 .openParen
  | ':' =>
      match rest with
      | '=' :: _ => sign 1 .assign
      | _ => sign 0 .colon
  | '<' =>
      match rest with
      | '=' :: _ => sign 1 .lessOrEqual
      | '>' :: _ => sign 1 .notEqual
      | _ => sign 0 .less
  | '>' =>
      match rest with
      | '=' :: _ => sign 1 .greaterOrEqual
      | _ => sign 0 .greater
  | '.' =>
      match rest with
      | '.' :: _ => sign 1 .doubleDot
      | _ => sign 0 .period
  | '/' =>
      match rest with
      | '/' :: _ => lineComment rest
      | _ => sign 0 .slash
  | '\x7b' => comment rest 0 (braceComment rest)
  | '$' => hex rest
  | '#' => charCode rest
  | '\'' => quoted rest
  | _ =>
      if isLetter c then word c rest
      else if c.isDigit then number c rest
      else ⟨0, .failed (.badChar c)⟩

/-- The text ahead with its position, the span that errors of reading are reported at, and the span
of the last character read. -/
structure Point where
  ahead : List Char
  here : Position
  start : Span
  last : Span

def Point.initial (text : List Char) : Point := ⟨text, .first, .first, .first⟩

def walk (here : Position) (text : List Char) : Position := text.foldl .after here

def Point.move (p : Point) (c : Char) (read rest : List Char) : Point :=
  { ahead := rest
    here := walk p.here (c :: read)
    start := .single p.here
    last := .single (walk p.here (c :: read).dropLast) }

end Scan

abbrev Scanned := Except (Located LexicalError) (Located Token)

namespace Scan

/-- Whether a meaning is certain only once the character after what was read has been seen. -/
def needsMore : Meaning → Bool
  | .failed (.badChar _) | .skipped | .rangeFrom _ => false
  | _ => true

/-- The items from a point on: tokens, then the end of file or the first error. -/
def items (ending : Ending) (p : Point) : List Scanned :=
  match _ahead : p.ahead with
  | [] =>
      match ending with
      | .endOfFile => [.ok ⟨.endOfFile, p.last⟩]
      | .unreadable => [.error ⟨.unreadable, p.start⟩]
  | c :: rest =>
      if Text.isBlank c then
        items ending (p.move c [] rest)
      else
        let reading := recognise c rest
        let ahead := rest.drop reading.length
        let next := p.move c (rest.take reading.length) ahead
        if ending = .unreadable ∧ ahead = [] ∧ needsMore reading.meaning then
          [.error ⟨.unreadable, next.start⟩]
        else
          match reading.meaning with
          | .skipped => items ending next
          | .token t => .ok ⟨t, next.start.join next.last⟩ :: items ending next
          | .rangeFrom t =>
              let dots := Span.mk (walk p.here (c :: rest.take (reading.length - 2))) next.last.stop
              .ok ⟨t, next.start⟩ :: .ok ⟨.mark .doubleDot, dots⟩ :: items ending next
          | .failed e => [.error ⟨e, next.start⟩]
termination_by p.ahead.length
decreasing_by
  · simp [_ahead, Point.move]
  all_goals
    simp only [_ahead, Point.move, List.length_drop, List.length_cons]
    omega

end Scan

def Source.scan (source : Source) : List Scanned :=
  Scan.items source.ending (.initial source.characters)

def Source.tokens (source : Source) : Except (Located LexicalError) (List (Located Token)) :=
  source.scan.mapM id

end PascalX86
