import PascalX86.Proofs.Checking.Declaration
import PascalX86.Proofs.Checking.Program
import PascalX86.Proofs.Lowering.Piece

/-!
# Images of structured constants

The image of a value takes as many dwords as its type, and each part of the value has its own image
where the sizes of elements and the offsets of fields say.
-/

set_option autoImplicit false

namespace PascalX86

section Bytes

namespace Image

/-- A byte of a dword, the lowest one first. -/
def byte (d : Int32) (k : Nat) : UInt8 := .ofBitVec (d.toBitVec.extractLsb' (8 * k) 8)

def bytes (dwords : List Int32) : List UInt8 :=
  dwords.flatMap fun d => [byte d 0, byte d 1, byte d 2, byte d 3]

theorem byte_dword (a b c d : UInt8) : byte (dword a b c d) 0 = a ∧ byte (dword a b c d) 1 = b ∧
    byte (dword a b c d) 2 = c ∧ byte (dword a b c d) 3 = d := by
  have ha := a.toNat_lt
  have hb := b.toNat_lt
  have hc := c.toNat_lt
  have hd := d.toNat_lt
  have value : (dword a b c d).toBitVec.toNat =
      a.toNat + 256 * (b.toNat + 256 * (c.toNat + 256 * d.toNat)) := by
    unfold dword
    rw [Int32.toBitVec_ofNat', BitVec.toNat_ofNat, Nat.mod_eq_of_lt (by omega)]
  have each (k : Nat) : (byte (dword a b c d) k).toNat =
      (a.toNat + 256 * (b.toNat + 256 * (c.toNat + 256 * d.toNat))) >>> (8 * k) % 256 := by
    rw [← value]
    rfl
  refine ⟨?_, ?_, ?_, ?_⟩ <;> rw [← UInt8.toNat_inj, each, Nat.shiftRight_eq_div_pow] <;> omega

theorem bytes_dwords : ∀ {list : List UInt8}, 4 ∣ list.length → bytes (dwords list) = list
  | [], _ => rfl
  | [_], h | [_, _], h | [_, _, _], h => by simp at h
  | a :: b :: c :: d :: rest, h => by
      have more : 4 ∣ rest.length := by
        simp only [List.length_cons] at h
        omega
      obtain ⟨ha, hb, hc, hd⟩ := byte_dword a b c d
      have later := bytes_dwords more
      unfold bytes at later ⊢
      rw [dwords, List.flatMap_cons, ha, hb, hc, hd, later]
      rfl

end Image

end Bytes

/-- A part of a value at so many bytes from its start. -/
inductive Value.Part (v : Value) (t : Ty) : Nat → Value → Ty → Prop where
  | whole : Part v t 0 v t
  | element {d i : Nat} {elements : List Value} {low high : Int32} {element : Ty} {w : Value}
      (part : Part v t d (.array elements) (.array low high element)) (found : elements[i]? = some w) :
      Part v t (d + i * element.size) w element
  | field {d i : Nat} {values : List Value} {fields : Fields} {f : Field} {w : Value}
      (part : Part v t d (.record values) (.record fields)) (found : values[i]? = some w)
      (laid : (fields.layout 0)[i]? = some f) : Part v t (d + f.offset) w f.type

namespace Value

variable {v w : Value} {t u : Ty} {values : List Value} {i d : Nat}

/-- The image of a value stands in an image, so many bytes from its start. -/
def Stands (w : Value) (image : List Int32) (d : Nat) : Prop :=
  ∃ before after, image = before ++ w.image ++ after ∧ before.length * dwordSize = d

theorem stands_element {size : Nat} (each : ∀ v ∈ values, v.image.length * dwordSize = size)
    (found : values[i]? = some w) : w.Stands (imageAll values) (i * size) := by
  induction values generalizing i with
  | nil => cases found
  | cons v values ih =>
      obtain ⟨first, others⟩ := List.forall_mem_cons.mp each
      cases i with
      | zero =>
          cases found
          exact ⟨[], imageAll values, rfl, by rw [Nat.zero_mul]; rfl⟩
      | succ i =>
          obtain ⟨before, after, eq, length⟩ := ih others found
          refine ⟨v.image ++ before, after, ?_, ?_⟩
          · rw [imageAll, eq, List.append_assoc, List.append_assoc, List.append_assoc]
          · rw [List.length_append, Nat.add_mul, first, length, Nat.succ_mul, Nat.add_comm]

theorem stands_field {fields : Fields} {f : Field} {offset : Nat} (fits : FitAll values fields)
    (proper : fields.Proper) (found : values[i]? = some w) (laid : (fields.layout offset)[i]? = some f) :
    w.Fits f.type ∧ f.type.Proper ∧ ∃ d, f.offset = offset + d ∧ w.Stands (imageAll values) d := by
  induction values generalizing fields offset i with
  | nil => cases found
  | cons v values ih =>
      cases fields with
      | empty => cases fits
      | more name type rest =>
          obtain ⟨own, others⟩ := fits
          cases i with
          | zero =>
              cases found
              cases laid
              exact ⟨own, proper.1, 0, rfl, [], imageAll values, rfl, rfl⟩
          | succ i =>
              obtain ⟨within, sound, d, place, before, after, eq, length⟩ :=
                ih others proper.2 found laid
              refine ⟨within, sound, type.size + d, by rw [place, Nat.add_assoc], v.image ++ before, after,
                ?_, ?_⟩
              · rw [imageAll, eq, List.append_assoc, List.append_assoc, List.append_assoc]
              · rw [List.length_append, Nat.add_mul, own.length_image proper.1, length]

theorem Stands.inner {image : List Int32} {d' : Nat} (outer : v.Stands image d)
    (inner : w.Stands v.image d') : w.Stands image (d + d') := by
  obtain ⟨before, after, eq, length⟩ := outer
  obtain ⟨before', after', eq', length'⟩ := inner
  refine ⟨before ++ before', after' ++ after, ?_, ?_⟩
  · rw [eq, eq']
    simp only [List.append_assoc]
  · rw [List.length_append, Nat.add_mul, length, length']

/-- Every part is a value of its type and has its image where it lies. -/
theorem Part.stands (part : v.Part t d w u) (fits : v.Fits t) (proper : t.Proper) :
    w.Fits u ∧ u.Proper ∧ w.Stands v.image d := by
  induction part with
  | whole => exact ⟨fits, proper, [], [], (List.append_nil _).symm, rfl⟩
  | element _ found ih =>
      obtain ⟨within, sound, outer⟩ := ih
      have each := fun v mem => (within.2 v mem).length_image sound.2.2.2
      refine ⟨within.2 _ (List.mem_of_getElem? found), sound.2.2.2, outer.inner ?_⟩
      rw [image]
      exact stands_element each found
  | field _ found laid ih =>
      obtain ⟨within, sound, outer⟩ := ih
      obtain ⟨own, type, d, place, inner⟩ := stands_field within sound.2.2 found laid
      refine ⟨own, type, outer.inner ?_⟩
      rw [place, Nat.zero_add, image]
      exact inner

end Value

namespace Parser

variable {s s' s₁ s₂ s₃ u u' : ParserState}

/-- States of the parser before declarations and in between, where it may have read on. -/
inductive Reached : ParserState → Prop where
  | start (c : Cursor) : Reached (initialState c)
  | read {s : ParserState} {n : Nat} (reached : Reached s) (c : Cursor) (later : s.nodes ≤ n) :
      Reached (s.moved c n)
  | type {s s' : ParserState} (reached : Reached s) (run : typeDeclaration s = .ok ((), s')) : Reached s'
  | constant {s s' : ParserState} {initializers : List Stmt} (reached : Reached s)
      (run : constantDeclaration s = .ok (initializers, s')) : Reached s'
  | variable {s s' : ParserState} {initializers : List Stmt} (reached : Reached s)
      (run : variableDeclaration s = .ok (initializers, s')) : Reached s'
  | function {s s' : ParserState} {depth : Nat} (reached : Reached s)
      (run : functionOver (block depth) s = .ok ((), s')) : Reached s'
  | entered {s s₁ s₂ s₃ : ParserState} {f : Signature} {symbol : Symbol} {locals : Table}
      (reached : Reached s) (heading : signature s = .ok (f, s₁))
      (declared : declare f.name (Declaring.addFunction f) s₁ = .ok (symbol, s₂))
      (result : localsOf f s₂ = .ok (locals, s₃)) : Reached (s₃.entered f locals)

theorem Reached.sound (reached : Reached s) : s.Sound := by
  induction reached with
  | start c => exact sound_initialState c
  | read _ c later ih => exact ((Checking.Declares.move c later).sound ih).sound
  | type _ run ih => exact ((ensures_typeDeclaration ih _ _ run).sound ih).sound
  | constant _ run ih => exact ((ensures_constantDeclaration ih _ _ run).sound ih).sound
  | «variable» _ run ih => exact ((ensures_variableDeclaration ih _ _ run).sound ih).sound
  | function _ run ih => exact ((ensures_functionOver (blocks_block _) ih _ _ run).sound ih).sound
  | entered _ heading declared result ih =>
      obtain ⟨u, before, made, rfl⟩ := ensures_signature ih _ _ heading
      obtain ⟨locals, rfl⟩ := ensures_localsOf _ _ _ result
      exact ((ensures_declare _ _ _ _ declared).entered (before.sound ih).sound made locals).2

theorem Reached.proper {t : Ty} (reached : Reached s) (built : Parser.type s = .ok (t, s')) : t.Proper := by
  obtain ⟨-, -, -, proper, -⟩ :=
    types_type s s.nodes reached.sound.scopes.fulfilled s.cursor t s' built
  exact proper

theorem Reached.fits {t : Ty} {v : Value} (reached : Reached u)
    (accepted : typedConstant t u = .ok (v, u')) : v.Fits t := by
  obtain ⟨-, -, -, fits, -⟩ :=
    yields_typedConstant reached.sound.scopes.fulfilled u.nodes t u.cursor v u' accepted
  exact fits

/-- Constants of a type that was read lie in memory as the type says, with all of their parts. -/
theorem images_laid_out {t : Ty} {v : Value} (reached : Reached s) (built : Parser.type s = .ok (t, s'))
    (reached' : Reached u) (accepted : typedConstant t u = .ok (v, u')) :
    v.image.length = t.size / 4 ∧
      ∀ d w part, v.Part t d w part → w.Fits part ∧ w.image.length = part.size / 4 ∧
        (v.image.drop (d / 4)).take (part.size / 4) = w.image ∧
        ∀ text, w = .string text →
          let kept := text.toUTF8.toList.take 255
          Image.bytes w.image = kept ++ List.replicate (256 - kept.length) 0 := by
  have proper := reached.proper built
  have fits := reached'.fits accepted
  have length {w : Value} {part : Ty} (fits : w.Fits part) (proper : part.Proper) :
      w.image.length = part.size / 4 := by
    rw [← fits.length_image proper]
    exact (Nat.mul_div_cancel _ (by decide)).symm
  refine ⟨length fits proper, fun d w part inside => ?_⟩
  obtain ⟨within, sound, before, after, eq, place⟩ := inside.stands fits proper
  have start : d / 4 = before.length := by
    rw [← place]
    exact Nat.mul_div_cancel _ (by decide)
  refine ⟨within, length within sound, ?_, ?_⟩
  · rw [eq, start, ← length within sound, List.append_assoc, List.drop_left, List.take_left]
  · rintro text rfl
    rw [Value.image, Image.bytes_dwords (by rw [Image.length_stringBytes]; decide)]
    rfl

end Parser

/-- A type and a constant of it. -/
def Source.pairs : Source := ⟨"input.pas", [
  "array[0..1] of record c: char; s: string end",
  "((c: 'a'; s: 'xyz'), (c: 'b'; s: 'uvw'))"], .endOfFile⟩

def Value.elements : Value → List Value
  | .array elements => elements
  | _ => []

theorem Source.pairs_read : (Cursor.ofItems Source.pairs.scan).toOption.map (fun c =>
    (Parser.type (Parser.initialState c)).toOption.map fun (t, s) =>
      (Parser.typedConstant t s).toOption.map fun (v, _) => (t.size, v.elements.length)) =
    some (some (some (520, 2))) := by
  decide +kernel

theorem Source.pairs_laid_out : ∃ c t v w, Cursor.ofItems Source.pairs.scan = .ok c ∧
    (∃ s s', Parser.type (Parser.initialState c) = .ok (t, s) ∧
      Parser.typedConstant t s = .ok (v, s')) ∧
    v.image.length = 130 ∧ v.elements[1]? = some w ∧ (v.image.drop 65).take 65 = w.image := by
  obtain ⟨c, begins, known⟩ := exists_of_map_toOption Source.pairs_read
  obtain ⟨⟨t, s⟩, built, known⟩ := exists_of_map_toOption known
  obtain ⟨⟨v, s'⟩, accepted, known⟩ := exists_of_map_toOption known
  obtain ⟨size, two⟩ := Prod.mk.inj known
  have reached := Parser.Reached.start c
  obtain ⟨c', n, rfl, -, later⟩ := Parser.types_type (Parser.initialState c) 0
    reached.sound.scopes.fulfilled c t s built
  obtain ⟨length, parts⟩ :=
    Parser.images_laid_out reached built (reached.read c' later) accepted
  cases v with
  | array elements =>
      obtain ⟨fits, -⟩ := parts 0 _ t .whole
      cases t with
      | array low high element =>
          have proper := reached.proper built
          have width : element.size = 260 := by
            rw [proper.size_array, ← fits.1, show elements.length = 2 from two] at size
            omega
          obtain ⟨w, second⟩ : ∃ w, elements[1]? = some w :=
            ⟨_, List.getElem?_eq_getElem (show 1 < elements.length by rw [show elements.length = 2 from two]; decide)⟩
          obtain ⟨-, -, slice, -⟩ := parts _ w element (.element .whole second)
          rw [width] at slice
          rw [size] at length
          exact ⟨c, _, _, w, begins, ⟨_, s', built, accepted⟩, length, second, slice⟩
      | _ => cases fits
  | _ => cases two

end PascalX86
