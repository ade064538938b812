import PascalX86.Lowering.Format
import PascalX86.Proofs.Machine.Process

/-!
# What formats print

A format as it is written in a listing, read from left to right. Reading gives the pieces that the
format was made of back, whatever stands next to each other, so what is printed for the pieces of a
format is printed piece by piece.
-/

set_option autoImplicit false

namespace PascalX86.Format

/-- What is read of a format: a character that is printed, or a conversion of a value. -/
inductive Sign where
  | character (c : Char)
  | conversion (c : Conversion)
  deriving DecidableEq

def read : List Char → List Sign
  | '%' :: '%' :: format => .character '%' :: read format
  | '%' :: 'd' :: format => .conversion .decimal :: read format
  | '%' :: 'c' :: format => .conversion .character :: read format
  | '%' :: 'f' :: format => .conversion .float :: read format
  | '\\' :: '\\' :: format => .character '\\' :: read format
  | '\\' :: 'q' :: format => .character '"' :: read format
  | '\\' :: 'n' :: format => .character '\n' :: read format
  | '\\' :: 't' :: format => .character '\t' :: read format
  | c :: format => .character c :: read format
  | [] => []

/-- What is printed for a format, where each conversion takes one value. -/
def print (shows : Conversion → List Word → List Char) : List Sign → List (List Word) → List Char
  | .character c :: signs, values => c :: print shows signs values
  | .conversion c :: signs, v :: values => shows c v ++ print shows signs values
  | .conversion _ :: signs, [] => print shows signs []
  | [], _ => []

def Sign.conversion? : Sign → Option Conversion
  | .character _ => none
  | .conversion c => some c

/-- The conversions of a format, which take one value each. -/
def conversions (signs : List Sign) : List Conversion := signs.filterMap Sign.conversion?

def Piece.signs : Piece → List Sign
  | .text s => s.toList.map .character
  | .conversion c => [.conversion c]

variable {rest : List Char}

theorem read_escape (c : Char) : read ((escape c).toList ++ rest) = .character c :: read rest := by
  unfold escape
  split
  · rfl
  · rfl
  · rfl
  · rfl
  · rfl
  · next percent backslash _ _ _ =>
    rw [String.toList_ofList, List.singleton_append]
    conv => lhs; unfold read
    split <;> simp_all

theorem read_text (text : List Char) :
    read ((String.join (text.map escape)).toList ++ rest) = text.map .character ++ read rest := by
  induction text with
  | nil => rfl
  | cons c text ih =>
      rw [List.map_cons, String.join_cons, String.toList_append, List.append_assoc, read_escape, ih]
      rfl

theorem Piece.read_encode (piece : Piece) : read (piece.encode.toList ++ rest) = piece.signs ++ read rest := by
  cases piece with
  | text s => exact read_text s.toList
  | conversion c => cases c <;> rfl

/-- A format is read as its pieces, and what stands behind it does not matter. -/
theorem read_encode_append (pieces : List Piece) (rest : List Char) :
    read ((encode pieces).toList ++ rest) = pieces.flatMap Piece.signs ++ read rest := by
  induction pieces with
  | nil => rfl
  | cons piece pieces ih =>
      rw [encode, String.toList_append, List.append_assoc, Piece.read_encode, ih, List.flatMap_cons,
        List.append_assoc]

theorem read_encode (pieces : List Piece) : read (encode pieces).toList = pieces.flatMap Piece.signs := by
  have whole := read_encode_append pieces []
  rwa [List.append_nil, read, List.append_nil] at whole

section Printing

variable {shows : Conversion → List Word → List Char} {values more : List (List Word)}
  {signs others : List Sign}

theorem print_append (length : values.length = (conversions signs).length) :
    print shows (signs ++ others) (values ++ more) =
      print shows signs values ++ print shows others more := by
  induction signs generalizing values with
  | nil =>
      rw [List.length_eq_zero_iff.mp length]
      rfl
  | cons sign signs ih =>
      cases sign with
      | character c => exact congrArg (List.cons c) (ih length)
      | conversion c =>
          cases values with
          | nil => cases length
          | cons v values =>
              rw [List.cons_append, List.cons_append, print, print, List.append_assoc,
                ih (Nat.succ.inj length)]

/-- One format for several items prints what their formats print one after the other. -/
theorem print_flatMap {α : Type} {items : List α} {parts : α → List Sign}
    {taken : α → List (List Word)}
    (lengths : ∀ a ∈ items, (taken a).length = (conversions (parts a)).length) :
    print shows (items.flatMap parts ++ others) (items.flatMap taken ++ more) =
      items.flatMap (fun a => print shows (parts a) (taken a)) ++ print shows others more := by
  induction items with
  | nil => rfl
  | cons a items ih =>
      obtain ⟨first, further⟩ := List.forall_mem_cons.mp lengths
      rw [List.flatMap_cons, List.flatMap_cons, List.flatMap_cons, List.append_assoc, List.append_assoc,
        print_append first, ih further, List.append_assoc]

end Printing

end PascalX86.Format
