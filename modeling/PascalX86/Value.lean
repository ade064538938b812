import PascalX86.Decimal.Notation
import PascalX86.Text.Apostrophes

/-!
# Values

Constants, scalar or structured, and the broad categories that types and values fall into.
-/

set_option autoImplicit false

namespace PascalX86

inductive Category where
  | integer | double | char | string | array | record | function | nil
  deriving DecidableEq, Repr

def Category.text : Category → String
  | .integer => "Integer"
  | .double => "Double"
  | .char => "Char"
  | .string => "String"
  | .array => "Array"
  | .record => "Record"
  | .function => "Function"
  | .nil => "Nil"

inductive Value where
  | integer (n : Int32)
  | double (x : Float)
  | char (code : UInt8)
  | string (text : String)
  | array (elements : List Value)
  | record (fields : List Value)

namespace Value

def ofCode (code : UInt8) : Int32 := Int32.ofNat code.toNat

def codeText (code : UInt8) : String := String.ofList [Char.ofNat code.toNat]

def integer? : Value → Option Int32
  | .integer n => some n
  | .char code => some (ofCode code)
  | _ => none

-- Converts between scalar categories. A character code is the low byte of an integer.
def cast? (v : Value) (target : Category) : Option Value :=
  match v, target with
  | .integer n, .integer => some (.integer n)
  | .integer n, .double => some (.double (Float.ofInt n.toInt))
  | .integer n, .char => some (.char n.toUInt32.toUInt8)
  | .double x, .double => some (.double x)
  | .char code, .char => some (.char code)
  | .char code, .integer => some (.integer (ofCode code))
  | .char code, .double => some (.double (Float.ofNat code.toNat))
  | .char code, .string => some (.string (codeText code))
  | .string text, .string => some (.string text)
  | _, _ => none

-- True is written with all bits set.
def truth (b : Bool) : Int32 := if b then -1 else 0

def negate? : Value → Option Value
  | .integer n => some (.integer (-n))
  | .double x => some (.double (-x))
  | _ => none

-- Integers are complemented bit by bit, which exchanges true and false; of doubles only zero is
-- false.
def complement? : Value → Option Value
  | .integer n => some (.integer (~~~n))
  | .double x => some (.integer (truth (x == 0)))
  | _ => none

mutual

def text : Value → String
  | .integer n => toString n.toInt
  | .double x => Decimal.shortestText x
  | .char code => Text.quotedCode code
  | .string s => Text.quotedText s
  | .array elements => "(" ++ textAll ", " elements ++ ")"
  | .record fields => "(" ++ textAll "; " fields ++ ")"

def textAll (separator : String) : List Value → String
  | [] => ""
  | [v] => text v
  | v :: rest => text v ++ separator ++ textAll separator rest

end

end Value

end PascalX86
