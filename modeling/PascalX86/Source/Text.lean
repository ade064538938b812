import PascalX86.Source.Position

/-!
# Source texts

A source is a list of lines. Terminators are dropped when a text is cut, and scanning sees every
line closed by one newline, whatever closed it in the file.
-/

set_option autoImplicit false

namespace PascalX86

inductive Ending where
  | endOfFile
  | unreadable
  deriving DecidableEq, Repr

structure Source where
  name : String
  lines : List String
  ending : Ending
  deriving Repr

namespace Source

-- The pieces between newlines; a last piece without a newline counts if it is not empty.
def pieces : List Char → List (List Char)
  | [] => []
  | '\n' :: rest => [] :: pieces rest
  | c :: rest =>
      match pieces rest with
      | [] => [[c]]
      | line :: lines => (c :: line) :: lines

def trimReturns (line : List Char) : List Char :=
  (line.reverse.dropWhile (· == '\r')).reverse

def linesOf (text : List Char) : List String :=
  (pieces text).map fun line => String.ofList (trimReturns line)

def ofText (name text : String) : Source :=
  ⟨name, linesOf text.toList, .endOfFile⟩

-- Runs of bytes, each closed by its newline byte; the last one may lack it.
def byteLines : List UInt8 → List (List UInt8)
  | [] => []
  | b :: rest =>
      if b = 10 then [b] :: byteLines rest
      else
        match byteLines rest with
        | [] => [[b]]
        | line :: lines => (b :: line) :: lines

def decode? (bytes : List UInt8) : Option String :=
  String.fromUTF8? ⟨bytes.toArray⟩

def readable (bytes : List UInt8) : String :=
  let decoded := (byteLines bytes).map decode?
  String.join ((decoded.takeWhile Option.isSome).filterMap id)

/-- A file is read line by line and ends at the first line that is not valid UTF-8. -/
def ofBytes (name : String) (bytes : ByteArray) : Source :=
  match String.fromUTF8? bytes with
  | some text => ofText name text
  | none => { ofText name (readable bytes.toList) with ending := .unreadable }

def unreadable (name : String) : Source := ⟨name, [], .unreadable⟩

def line? (source : Source) (number : Nat) : Option String :=
  if number = 0 then none else source.lines[number - 1]?

-- What is scanned: each line followed by a newline.
def characters (source : Source) : List Char :=
  source.lines.flatMap fun line => line.toList ++ ['\n']

def place (here : Position) : List Char → List (Char × Position)
  | [] => []
  | c :: rest => (c, here) :: place (here.after c) rest

def placed (source : Source) : List (Char × Position) :=
  place .first source.characters

@[simp] theorem line?_zero (source : Source) : source.line? 0 = none := rfl

@[simp] theorem pieces_nil : pieces [] = [] := rfl

@[simp] theorem pieces_newline (rest : List Char) : pieces ('\n' :: rest) = [] :: pieces rest := rfl

end Source

end PascalX86
