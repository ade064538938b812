import PascalX86.Proofs.Lowering.Depth
import PascalX86.Proofs.Typing.Value

/-!
# Depth of the pieces of code

Constants, operators and references by what they take from the stack and leave on it.
-/

set_option autoImplicit false

namespace PascalX86

open Register

section Images

theorem Image.length_dwords : ∀ bytes : List UInt8, (Image.dwords bytes).length = bytes.length / 4
  | [] | [_] | [_, _] | [_, _, _] => by simp [dwords]
  | _ :: _ :: _ :: _ :: rest => by
      simp only [dwords, List.length_cons, length_dwords rest]
      omega

theorem Value.length_imageAll {values : List Value} {size : Nat}
    (each : ∀ v ∈ values, v.image.length * dwordSize = size) :
    (Value.imageAll values).length * dwordSize = values.length * size := by
  induction values with
  | nil => simp [imageAll]
  | cons v values ih =>
      rw [List.forall_mem_cons] at each
      rw [imageAll, List.length_append, Nat.add_mul, each.1, ih each.2, List.length_cons,
        Nat.succ_mul, Nat.add_comm]

mutual

theorem Value.Fits.length_image : ∀ {v : Value} {t : Ty}, v.Fits t → t.Proper →
    v.image.length * dwordSize = t.size
  | .integer _, .integer, _, _ | .char _, .char, _, _ | .double _, .double, _, _ => rfl
  | .string text, .string, _, _ => by
      rw [Value.image, Image.length_dwords, Image.length_stringBytes]
      rfl
  | .array elements, .array low high element, fits, proper => by
      have each : ∀ v ∈ elements, v.image.length * dwordSize = element.size :=
        fun v mem => (fits.2 v mem).length_image proper.2.2.2
      rw [proper.size_array, Value.image, Value.length_imageAll each, fits.1]
  | .record values, .record fields, fits, proper => Value.length_image_fields fits proper.2.2

theorem Value.length_image_fields : ∀ {values : List Value} {fields : Fields},
    Value.FitAll values fields → fields.Proper →
    (Value.imageAll values).length * dwordSize = fields.size
  | [], .empty, _, _ => rfl
  | v :: values, .more _ type rest, fits, proper => by
      rw [Value.imageAll, List.length_append, Nat.add_mul, fits.1.length_image proper.1,
        Value.length_image_fields fits.2 proper.2, Fields.size_more]

end

end Images

section Operators

theorem moves_integerCode (op : Operator) : Moves op.integerCode 8 4 := by
  cases op <;> exact ⟨by decide, by decide⟩

theorem moves_doubleCode {op : Operator} {code : Code} (h : op.doubleCode? = some code) :
    (op.kind = .arithmetic → Moves code 16 8) ∧ (op.kind = .comparison → Moves code 16 4) := by
  cases op <;> simp [Operator.doubleCode?, Operator.doubleCore?, Operator.doubleCore?.arithmetic,
    Operator.doubleCore?.comparison] at h <;> subst h <;> simp [Operator.kind] <;>
    exact ⟨by decide, by decide⟩

theorem moves_negateCode {t : Ty} (h : t = .integer ∨ t = .double) :
    Moves (negateCode t) t.size t.size := by
  rcases h with rfl | rfl <;> exact ⟨by decide, by decide⟩

theorem moves_complementCode {t : Ty} (h : t = .integer ∨ t = .double) :
    Moves (complementCode t) t.size 4 := by
  rcases h with rfl | rfl <;> exact ⟨by decide, by decide⟩

theorem moves_widenCode : Moves widenCode 4 8 := ⟨by decide, by decide⟩

end Operators

namespace Reference

variable {r : Reference} {size : Nat}

def held (r : Reference) : Nat :=
  match r.place with
  | .memory _ => 0
  | .stack => addressSize

def Finds (r : Reference) : Prop := Moves r.code 0 r.held

theorem Finds.displaced (h : r.Finds) (bytes : Int32) : (r.displaced bytes).Finds := by
  obtain ⟨code, place⟩ := r
  cases place with
  | memory m => exact h
  | stack =>
      simp only [Reference.displaced]
      split
      · exact h
      · exact h.append (.single rfl rfl)

theorem Finds.address (h : r.Finds) : Moves r.address 0 addressSize := by
  obtain ⟨code, place⟩ := r
  cases place with
  | memory m => exact h.append ⟨rfl, by simp [Command.isMark, Opcode.isJump]⟩
  | stack => exact h

theorem Finds.resolve (h : r.Finds) : Moves r.resolve.1 0 0 := by
  obtain ⟨code, place⟩ := r
  cases place with
  | memory m => exact h
  | stack => exact h.append (.single rfl rfl)

theorem Finds.load (h : r.Finds) (dvd : dwordSize ∣ size) : Moves (r.load size) 0 size :=
  h.resolve.append (moves_pushMemory _ dvd)

theorem Finds.store (h : r.Finds) (dvd : dwordSize ∣ size) : Moves (r.store size) size 0 := by
  have found := h.resolve.more size
  rw [Nat.zero_add] at found
  exact found.append (moves_popMemory _ dvd)

end Reference

end PascalX86
