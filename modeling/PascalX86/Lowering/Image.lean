import PascalX86.Assembly.Basic
import PascalX86.Ty.Basic

/-!
# Memory images

Constants as the dwords that they occupy, lowest address first.
-/

set_option autoImplicit false

namespace PascalX86

namespace Image

def dword (a b c d : UInt8) : Int32 :=
  Int32.ofNat (a.toNat + 256 * (b.toNat + 256 * (c.toNat + 256 * d.toNat)))

def dwords : List UInt8 → List Int32
  | a :: b :: c :: d :: rest => dword a b c d :: dwords rest
  | _ => []

-- Strings are cut to leave room for a terminator and filled up with zeros.
def stringBytes (text : String) : List UInt8 :=
  let kept := text.toUTF8.toList.take (stringSize - 1)
  kept ++ List.replicate (stringSize - kept.length) 0

@[simp] theorem length_stringBytes (text : String) :
    (stringBytes text).length = stringSize := by
  simp only [stringBytes, List.length_append, List.length_replicate, List.length_take]
  have : 0 < stringSize := by decide
  omega

end Image

mutual

def Value.image : Value → List Int32
  | .integer n => [n]
  | .char code => [ofCode code]
  | .double x => [x.toBits.toUInt32.toInt32, (x.toBits >>> 32).toUInt32.toInt32]
  | .string text => Image.dwords (Image.stringBytes text)
  | .array elements => imageAll elements
  | .record fields => imageAll fields

def Value.imageAll : List Value → List Int32
  | [] => []
  | v :: rest => v.image ++ imageAll rest

end

@[simp] theorem Value.imageAll_append (vs ws : List Value) :
    imageAll (vs ++ ws) = imageAll vs ++ imageAll ws := by
  induction vs with
  | nil => rfl
  | cons v vs ih => simp [imageAll, ih]

def Value.push (v : Value) : Code :=
  v.image.reverse.map fun dword => .instruction .push [.immediate dword]

end PascalX86
