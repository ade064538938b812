import PascalX86.Lowering.Program
import PascalX86.Parser.Declaration
import PascalX86.Proofs.Calling.Content
import PascalX86.Proofs.Checking.Program

/-!
# Folding of conversions

Between integers and characters. A constant is converted while it is parsed, and an integer becomes a
character by its low byte. Anything else is converted by no code at all, so that an integer which is
the code of no character stays what it is.
-/

set_option autoImplicit false

namespace PascalX86

open Register

section Codes

/-- The code of the character that an integer constant is converted to. -/
def lowByte (v : Int32) : Int32 := Value.ofCode v.toUInt32.toUInt8

theorem toInt_ofCode (code : UInt8) : (Value.ofCode code).toInt = code.toNat := by
  have small := code.toNat_lt
  rw [Value.ofCode, Int32.toInt_ofNat_of_lt (by omega)]

theorem toInt_lowByte (v : Int32) : (lowByte v).toInt = v.toInt % 256 := by
  have word : v.toInt = v.toBitVec.toInt := rfl
  have byte : v.toUInt32.toUInt8.toNat = v.toBitVec.toNat % 256 := rfl
  have value := BitVec.toInt_eq_toNat_cond v.toBitVec
  rw [lowByte, toInt_ofCode, byte, word]
  split at value <;> omega

/-- Only the codes of characters are their own low byte. -/
theorem lowByte_eq_iff (v : Int32) : lowByte v = v ↔ 0 ≤ v.toInt ∧ v.toInt ≤ 255 := by
  rw [← Int32.toInt_inj, toInt_lowByte]
  omega

end Codes

/-- The code of the expression can end with the word on top of the stack. -/
def Expr.Leaves (e : Expr) (f : Frames) (functions : List Function) (top : Word) (room : Nat)
    (m : Machine) (v : Int32) : Prop :=
  ∃ code m', e.code f = .ok code ∧ m.Runs functions top room code m' ∧
    m'.bytes.dword m'.esp = v.toBitVec

variable {f : Frames} {functions : List Function} {top : Word} {room : Nat} {m : Machine}
  {e : Expr} {info : NodeInfo} {s : ParserState} {v w : Int32} {target : Ty}

section Code

/-- A push leaves its operand, if there is room for it. -/
theorem Expr.leaves_of_push (lowered : e.code f = .ok [.instruction .push [.immediate v]])
    (fits : (m.push v.toBitVec).depth top ≤ room) :
    e.Leaves f functions top room m w ↔ w = v := by
  constructor
  · rintro ⟨code, m', found, runs, value⟩
    obtain rfl := Except.ok.inj (lowered.symm.trans found)
    have executed := (Machine.runs_single.mp runs).1.executed rfl (by decide)
    cases executed
    rw [← Int32.toBitVec_inj, ← value]
    exact Bytes.dword_set_self
  · rintro rfl
    exact ⟨_, m.push w.toBitVec, lowered, Machine.runs_single.mpr ⟨.exact rfl, fits⟩,
      Bytes.dword_set_self⟩

theorem Expr.leaves_congr {e' : Expr} (same : e'.code f = e.code f) :
    e'.Leaves f functions top room m w ↔ e.Leaves f functions top room m w := by
  rw [Leaves, Leaves, same]

end Code

namespace Parser

/-- Either type of the pair is converted to the other one. -/
def IntegerLike (source target : Ty) : Prop :=
  source = .integer ∧ target = .char ∨ source = .char ∧ target = .integer

/-- What is no constant is converted by a node of its own, the code of which is that of the operand. -/
theorem coerce_computed (pair : IntegerLike e.type target) (computed : e.value? = none) :
    (coerce e target).run s =
        .ok (.cast ⟨s.nodes, e.span, target⟩ e, { s with nodes := s.nodes + 1 }) ∧
      (Expr.cast ⟨s.nodes, e.span, target⟩ e).code f = e.code f := by
  rcases pair with ⟨source, rfl⟩ | ⟨source, rfl⟩ <;> constructor
  · simp only [coerce, convert, source, computed]
    rfl
  · simp only [Expr.code, castCode, source]
  · simp only [coerce, convert, source, computed]
    rfl
  · simp only [Expr.code, castCode, source]

/-- Constants are converted at once, and the code of what they become is one push. -/
theorem coerce_integer (id : Nat) (span : Span) (v : Int32) :
    (coerce (.const ⟨id, span, .integer⟩ (.integer v)) .char).run s =
        .ok (.const ⟨s.nodes, span, .char⟩ (.char v.toUInt32.toUInt8),
          { s with nodes := s.nodes + 1 }) ∧
      (Expr.const ⟨s.nodes, span, .char⟩ (.char v.toUInt32.toUInt8)).code f =
        .ok [.instruction .push [.immediate (lowByte v)]] :=
  ⟨rfl, rfl⟩

theorem coerce_char (id : Nat) (span : Span) (code : UInt8) :
    (coerce (.const ⟨id, span, .char⟩ (.char code)) .integer).run s =
        .ok (.const ⟨s.nodes, span, .integer⟩ (.integer (Value.ofCode code)),
          { s with nodes := s.nodes + 1 }) ∧
      (Expr.const ⟨s.nodes, span, .integer⟩ (.integer (Value.ofCode code))).code f =
        .ok [.instruction .push [.immediate (Value.ofCode code)]] :=
  ⟨rfl, rfl⟩

/-- Converting an integer to a character leaves its low byte, which is a code, where the conversion is
folded, and the integer itself where it is not: the same dword if and only if the integer is a code.
Converting a character of some code to an integer leaves that code, folded or not. -/
theorem conversion_leaves (f : Frames) (functions : List Function) (top : Word) (room : Nat)
    (s : ParserState) (id : Nat) (span : Span) (e : Expr) (computed : e.value? = none) :
    (e.type = .integer → ∀ v : Int32, ∃ folded converted s₁ s₂,
      (coerce (.const ⟨id, span, .integer⟩ (.integer v)) .char).run s = .ok (folded, s₁) ∧
      (coerce e .char).run s = .ok (converted, s₂) ∧
      (∀ m : Machine, ∀ w, converted.Leaves f functions top room m w ↔
        e.Leaves f functions top room m w) ∧
      (∀ m : Machine, (m.push (lowByte v).toBitVec).depth top ≤ room →
        ∀ w, folded.Leaves f functions top room m w ↔ w = lowByte v) ∧
      (lowByte v).toInt = v.toInt % 256 ∧ (lowByte v = v ↔ 0 ≤ v.toInt ∧ v.toInt ≤ 255)) ∧
    (e.type = .char → ∀ code : UInt8, ∃ folded converted s₁ s₂,
      (coerce (.const ⟨id, span, .char⟩ (.char code)) .integer).run s = .ok (folded, s₁) ∧
      (coerce e .integer).run s = .ok (converted, s₂) ∧
      (∀ m : Machine, ∀ w, converted.Leaves f functions top room m w ↔
        e.Leaves f functions top room m w) ∧
      (∀ m : Machine, (m.push (Value.ofCode code).toBitVec).depth top ≤ room →
        ∀ w, folded.Leaves f functions top room m w ↔ w = Value.ofCode code) ∧
      0 ≤ (Value.ofCode code).toInt ∧ (Value.ofCode code).toInt ≤ 255) := by
  constructor
  · intro integer v
    obtain ⟨folds, pushes⟩ := @coerce_integer f s id span v
    obtain ⟨converts, same⟩ := @coerce_computed f e s .char (.inl ⟨integer, rfl⟩) computed
    exact ⟨_, _, _, _, folds, converts, fun m w => Expr.leaves_congr same,
      fun m fits w => Expr.leaves_of_push pushes fits, toInt_lowByte v, lowByte_eq_iff v⟩
  · intro char code
    obtain ⟨folds, pushes⟩ := @coerce_char f s id span code
    obtain ⟨converts, same⟩ := @coerce_computed f e s .integer (.inr ⟨char, rfl⟩) computed
    have small := code.toNat_lt
    have value := toInt_ofCode code
    exact ⟨_, _, _, _, folds, converts, fun m w => Expr.leaves_congr same,
      fun m fits w => Expr.leaves_of_push pushes fits, by omega, by omega⟩

/-- An integer variable, and a machine in whose frame it has the value 300. -/
def wideVariable : Expr :=
  .var ⟨0, .first, .integer⟩ ⟨⟨.ofSpelling "i", .first⟩, .integer, .variable ⟨0, 0, .locals⟩⟩

def wideMachine : Machine :=
  ⟨0, 0, 0, 0, 0, 4096, 4092, none, fun a => if a = 4092 then 44 else if a = 4093 then 1 else 0, 8192⟩

theorem wideVariable_leaves :
    wideVariable.Leaves Function.mainFrames [] 4096 64 wideMachine 300 := by
  refine ⟨[.instruction .push [Memory.dword ebp (-4)]], wideMachine.push 300, rfl, ?_, ?_⟩
  · exact Machine.runs_single.mpr ⟨.exact rfl, by decide⟩
  · exact Bytes.dword_set_self

/-- Both conversions of 300 to a character, that of the constant and that of the variable. -/
theorem wide_leaves : wideVariable.value? = none ∧ wideVariable.type = .integer ∧
    ∃ folded converted s₁ s₂,
      (coerce (.const ⟨0, .first, .integer⟩ (.integer 300)) .char).run
        (initialState ⟨⟨.endOfFile, .first⟩, [], 0, rfl⟩) = .ok (folded, s₁) ∧
      (coerce wideVariable .char).run
        (initialState ⟨⟨.endOfFile, .first⟩, [], 0, rfl⟩) = .ok (converted, s₂) ∧
      converted.Leaves Function.mainFrames [] 4096 64 wideMachine 300 ∧
      folded.Leaves Function.mainFrames [] 4096 64 wideMachine 44 := by
  refine ⟨rfl, rfl, ?_⟩
  obtain ⟨integers, -⟩ := conversion_leaves Function.mainFrames [] 4096 64
    (initialState ⟨⟨.endOfFile, .first⟩, [], 0, rfl⟩) 0 .first wideVariable rfl
  obtain ⟨folded, converted, s₁, s₂, folds, converts, computed, constant, -⟩ := integers rfl 300
  exact ⟨folded, converted, s₁, s₂, folds, converts,
    (computed wideMachine 300).mpr wideVariable_leaves,
    (constant wideMachine (by decide) 44).mpr (by decide)⟩

end Parser

section Programs

def Source.wide : Source := ⟨"input.pas", [
  "var a, b: char; i: integer; begin i := 300; a := 300; b := i; end."], .endOfFile⟩

/-- The dwords of the first two variables after a run of the listing up to its last instruction. -/
def Listing.firstTwo? (l : Listing) : Option (Word × Word) :=
  (Machine.run? ⟨0, 0, 0, 0, 0, 8192, 4096, none, fun _ => 0, 12288⟩ l.code.dropLast).map fun m =>
    (m.bytes.dword 4088, m.bytes.dword 4084)

-- Both variables are characters to which 300 was converted, first as a constant.
theorem Source.wide_not_truncated : ((Source.wide.program.toOption.bind fun p =>
    p.lower.toOption).bind Listing.firstTwo?) = some (44, 300) := by
  decide +kernel

end Programs

end PascalX86
