import PascalX86.Proofs.Decimal.Double
import PascalX86.Proofs.Folding.Integer
import PascalX86.Proofs.Typing.Value

/-!
# Agreement of typing and evaluation

Constants of types that an operator admits are brought to its operand type, and they evaluate to a
value of its result type. A division by zero and a comparison with a non-number are the exceptions.
-/

set_option autoImplicit false

namespace PascalX86

namespace Value

def isZero : Value → Bool
  | .integer n => n == 0
  | .double x => x == 0
  | .char code => code == 0
  | _ => false

def isNaN : Value → Bool
  | .double x => x.isNaN
  | _ => false

variable {v : Value} {t : Ty}

theorem ofCode_eq_zero_iff {code : UInt8} : ofCode code = 0 ↔ code = 0 := by
  have small : (ofCode code).toInt = code.toNat := by
    have := code.toNat_lt
    exact Int32.toInt_ofNat_of_lt (by omega)
  rw [← Int32.toInt_inj, small, ← UInt8.toNat_inj]
  exact Int.natCast_eq_zero

theorem cast?_integer (fits : v.Fits t) (like : t.isIntegerLike = true) : ∃ n,
    v.cast? .integer = some (.integer n) ∧ (n = 0 ↔ v.isZero = true) ∧ v.isNaN = false := by
  cases v <;> cases t <;> simp [Fits, Ty.isIntegerLike] at fits like
  case integer.integer n => exact ⟨n, rfl, by simp [isZero], rfl⟩
  case char.char code =>
    refine ⟨ofCode code, rfl, ?_, rfl⟩
    rw [isZero, beq_iff_eq, ofCode_eq_zero_iff]

theorem cast?_double (fits : v.Fits t) (numeric : t.isNumeric = true) : ∃ x,
    v.cast? .double = some (.double x) ∧ ((x == 0) = v.isZero) ∧ v.isNaN = x.isNaN := by
  cases v <;> cases t <;> simp [Fits, Ty.isNumeric] at fits numeric
  case double.double x => exact ⟨x, rfl, rfl, rfl⟩
  case integer.integer n =>
    have bound : n.toInt.natAbs < 2 ^ 53 := by
      have := n.toInt_lt
      have := n.le_toInt
      omega
    refine ⟨_, rfl, ?_, (Decimal.isNaN_ofInt bound).symm⟩
    rw [Bool.eq_iff_iff, Decimal.ofInt_beq_zero bound]
    rw [isZero, beq_iff_eq, ← Int32.toInt_inj]
    rfl
  case char.char code =>
    have bound : (code.toNat : Int).natAbs < 2 ^ 53 := by
      have := code.toNat_lt
      omega
    refine ⟨_, rfl, ?_, (Decimal.isNaN_ofInt bound).symm⟩
    rw [Bool.eq_iff_iff]
    refine (Decimal.ofInt_beq_zero bound).trans ?_
    rw [isZero, beq_iff_eq, ← UInt8.toNat_inj]
    exact Int.natCast_eq_zero

theorem cast?_string (fits : v.Fits t) (textual : t.isTextual = true) : ∃ s,
    v.cast? .string = some (.string s) ∧ v.isNaN = false := by
  cases v <;> cases t <;> simp [Fits, Ty.isTextual] at fits textual
  case char.char code => exact ⟨codeText code, rfl, rfl⟩
  case string.string s => exact ⟨s, rfl, rfl⟩

end Value

namespace Operator

variable {op : Operator} {left right : Ty} {typing : OperationType}

theorem orderOfDoubles?_eq (l r : Float) : orderOfDoubles? l r = l.toModel.compare r.toModel := by
  have swapped : r.toModel.compare l.toModel = (l.toModel.compare r.toModel).map Ordering.swap :=
    Decimal.compare_swap _ _
  simp only [orderOfDoubles?, Decimal.lt_iff, Decimal.beq_iff, swapped]
  rcases l.toModel.compare r.toModel with _ | (_ | _ | _) <;> rfl

theorem orderOfDoubles?_eq_none_iff {l r : Float} :
    orderOfDoubles? l r = none ↔ l.isNaN = true ∨ r.isNaN = true := by
  rw [orderOfDoubles?_eq, Decimal.compare_eq_none_iff]

/-- The operand type is one that both types are brought to. -/
theorem operands_cases (h : op.type left right = .ok typing) :
    typing.operands = .integer ∧ left.isIntegerLike = true ∧ right.isIntegerLike = true ∨
      typing.operands = .double ∧ left.isNumeric = true ∧ right.isNumeric = true ∨
      typing.operands = .string ∧ left.isTextual = true ∧ right.isTextual = true := by
  simp only [type] at h
  split at h
  · next found =>
    cases h
    cases kind : op.kind <;> simp only [operandType?, kind] at found <;> grind
  · simp at h

theorem eval_integers_answers (op : Operator) (l r : Int32) :
    if op.divides = true ∧ r = 0 then
      op.eval .integer (.integer l) (.integer r) = .error .divisionByZero
    else ∃ v, op.eval .integer (.integer l) (.integer r) = .ok v := by
  split
  · next zero => exact eval_eq_divisionByZero_iff.mpr zero
  · next nonzero =>
    rw [← @onIntegers?_eq_none_iff op l r] at nonzero
    obtain ⟨n, found⟩ := Option.ne_none_iff_exists'.mp nonzero
    exact ⟨.integer n, by rw [eval_integers, found]⟩

theorem exists_compared? (comparison : op.kind = .comparison) (order : Ordering) :
    ∃ v, op.compared? order = some v := by
  obtain ⟨b, holds⟩ := Option.isSome_iff_exists.mp ((op.holds?_isSome_iff order).mpr comparison)
  exact ⟨_, congrArg (Option.map _) holds⟩

theorem divides_of_comparison (comparison : op.kind = .comparison) : op.divides = false := by
  cases op <;> first | rfl | cases comparison

theorem onDoubles_comparison (comparison : op.kind = .comparison) {l r : Float} {e : SemanticError} :
    op.onDoubles l r e = ((orderOfDoubles? l r).bind op.compared?).elim (.error e) .ok := by
  cases op <;> cases comparison <;> simp only [onDoubles] <;> split <;> simp [*]

theorem onStrings_comparison (comparison : op.kind = .comparison) {l r : String} {e : SemanticError} :
    op.onStrings l r e = (op.compared? (compare l r)).elim (.error e) .ok := by
  cases op <;> cases comparison <;> simp only [onStrings] <;> split <;> simp [*]

theorem onDoubles_answers {l r : Float} {e : SemanticError} (kind : op.kind ≠ .integerOnly) :
    if op.divides = true ∧ (r == 0) = true then op.onDoubles l r e = .error .divisionByZero
    else if op.kind = .comparison ∧ (l.isNaN = true ∨ r.isNaN = true) then
      op.onDoubles l r e = .error e
    else ∃ v, op.onDoubles l r e = .ok v := by
  by_cases comparison : op.kind = .comparison
  · rw [if_neg (by simp [divides_of_comparison comparison]), onDoubles_comparison comparison]
    split
    · next nan => rw [orderOfDoubles?_eq_none_iff.mpr nan.2]; rfl
    · next number =>
      rw [← orderOfDoubles?_eq_none_iff] at number
      obtain ⟨order, found⟩ := Option.ne_none_iff_exists'.mp fun none => number ⟨comparison, none⟩
      obtain ⟨v, answer⟩ := exists_compared? comparison order
      exact ⟨v, by rw [found, Option.bind_some, answer, Option.elim_some]⟩
  · cases op <;> simp [Operator.kind] at kind comparison
    case divide =>
      by_cases zero : (r == 0) = true
      · rw [if_pos ⟨rfl, zero⟩]
        exact if_pos zero
      · rw [if_neg fun h => zero h.2, if_neg (by simp [Operator.kind])]
        exact ⟨_, if_neg zero⟩
    all_goals exact ⟨_, rfl⟩

theorem onStrings_answers {l r : String} {e : SemanticError} (h : op = .add ∨ op.kind = .comparison) :
    ∃ v, op.onStrings l r e = .ok v := by
  obtain rfl | comparison := h
  · exact ⟨_, rfl⟩
  · obtain ⟨v, answer⟩ := exists_compared? comparison (compare l r)
    exact ⟨v, by rw [onStrings_comparison comparison, answer, Option.elim_some]⟩

theorem eval_answers (typed : op.type left right = .ok typing) {l r : Value}
    (fitsLeft : l.Fits left) (fitsRight : r.Fits right) : ∃ a b,
      l.cast? typing.operands.category = some a ∧ r.cast? typing.operands.category = some b ∧
        if op.divides = true ∧ r.isZero = true then
          op.eval typing.operands a b = .error .divisionByZero
        else if op.kind = .comparison ∧ (l.isNaN = true ∨ r.isNaN = true) then
          op.eval typing.operands a b = .error (.unsupportedOperands op .double .double)
        else ∃ v, op.eval typing.operands a b = .ok v := by
  obtain ⟨operands, likeLeft, likeRight⟩ | ⟨operands, numericLeft, numericRight⟩ |
    ⟨operands, textualLeft, textualRight⟩ := operands_cases typed
  · obtain ⟨n, castLeft, -, numberLeft⟩ := Value.cast?_integer fitsLeft likeLeft
    obtain ⟨m, castRight, zero, numberRight⟩ := Value.cast?_integer fitsRight likeRight
    have answers := eval_integers_answers op n m
    rw [operands]
    refine ⟨_, _, castLeft, castRight, ?_⟩
    simpa [zero, numberLeft, numberRight] using answers
  · obtain ⟨x, castLeft, -, numberLeft⟩ := Value.cast?_double fitsLeft numericLeft
    obtain ⟨y, castRight, zero, numberRight⟩ := Value.cast?_double fitsRight numericRight
    have kind : op.kind ≠ .integerOnly := by
      obtain rfl | ⟨-, kind⟩ | ⟨-, kind⟩ | ⟨rfl, -⟩ | ⟨rfl, -⟩ := type_cases typed <;>
        simp_all
    rw [operands, ← zero, numberLeft, numberRight]
    exact ⟨_, _, castLeft, castRight, onDoubles_answers kind⟩
  · obtain ⟨s, castLeft, numberLeft⟩ := Value.cast?_string fitsLeft textualLeft
    obtain ⟨t, castRight, numberRight⟩ := Value.cast?_string fitsRight textualRight
    have kind : op = .add ∨ op.kind = .comparison := by
      obtain rfl | ⟨rfl, -⟩ | ⟨rfl, -⟩ | ⟨-, add⟩ | ⟨-, comparison⟩ := type_cases typed <;>
        simp_all
    have divides : op.divides = false := by
      obtain rfl | comparison := kind
      · rfl
      · exact divides_of_comparison comparison
    rw [operands]
    refine ⟨_, _, castLeft, castRight, ?_⟩
    rw [if_neg (by simp [divides]), if_neg (by simp [numberLeft, numberRight])]
    exact onStrings_answers kind

/-- Constants of admitted types are brought to the operand type, and there they evaluate to a value
of the result type. Only a division by zero and a comparison with a non-number do not. -/
theorem admitted_evaluates (typed : op.type left right = .ok typing) {l r : Value}
    (fitsLeft : l.Fits left) (fitsRight : r.Fits right) : ∃ a b,
      l.cast? typing.operands.category = some a ∧ r.cast? typing.operands.category = some b ∧
        if op.divides = true ∧ r.isZero = true then
          op.eval typing.operands a b = .error .divisionByZero
        else if op.kind = .comparison ∧ (l.isNaN = true ∨ r.isNaN = true) then
          op.eval typing.operands a b = .error (.unsupportedOperands op .double .double)
        else ∃ v, op.eval typing.operands a b = .ok v ∧ v.Fits typing.result := by
  obtain ⟨a, b, castLeft, castRight, answers⟩ := eval_answers typed fitsLeft fitsRight
  refine ⟨a, b, castLeft, castRight, ?_⟩
  split at answers
  · next zero => rwa [if_pos zero]
  · next nonzero =>
    rw [if_neg nonzero]
    split at answers
    · next nan => rwa [if_pos nan]
    · next number =>
      rw [if_neg number]
      obtain ⟨v, evaluated⟩ := answers
      exact ⟨v, evaluated, fits_eval typed (Value.fits_of_cast? castLeft) evaluated⟩

/-- A character is compared with a double by its code. -/
theorem character_compared : type .less .char .double = .ok ⟨.double, .integer⟩ ∧
    (Value.char 65).Fits .char ∧ (Value.double 1.5).Fits .double ∧ ∃ a b v,
      (Value.char 65).cast? .double = some a ∧ (Value.double 1.5).cast? .double = some b ∧
        eval .less .double a b = .ok v ∧ v.Fits .integer := by
  have typed : type .less .char .double = .ok ⟨.double, .integer⟩ := rfl
  have plain : (Value.char 65).isNaN = false ∧ (Value.double 1.5).isNaN = false := ⟨rfl, rfl⟩
  obtain ⟨a, b, castLeft, castRight, answers⟩ :=
    admitted_evaluates typed (l := .char 65) (r := .double 1.5) trivial trivial
  rw [if_neg (by decide), plain.1, plain.2, if_neg (by decide)] at answers
  obtain ⟨v, evaluated, fits⟩ := answers
  exact ⟨typed, trivial, trivial, a, b, v, castLeft, castRight, evaluated, fits⟩

/-- Two doubles may be compared, but no comparison with a non-number evaluates. -/
theorem nonNumber_refused : ¬ ∀ (op : Operator) (left right : Ty) (typing : OperationType)
    (l r : Value), op.type left right = .ok typing → l.Fits left → r.Fits right → ∃ a b,
      l.cast? typing.operands.category = some a ∧ r.cast? typing.operands.category = some b ∧
        ((∃ v, op.eval typing.operands a b = .ok v ∧ v.Fits typing.result) ∨
          op.eval typing.operands a b = .error .divisionByZero ∧ op.divides = true ∧
            r.isZero = true) := by
  intro evaluates
  let nan : Value := .double (Float.ofBits 0x7ff8000000000000)
  let one : Value := .double (Float.ofBits 0x3ff0000000000000)
  obtain ⟨a, b, left, right, answers⟩ :=
    evaluates .greater .double .double ⟨.double, .integer⟩ nan one rfl trivial trivial
  cases left
  cases right
  have refused :
      eval .greater .double nan one = .error (.unsupportedOperands .greater .double .double) :=
    rfl
  rw [refused] at answers
  obtain ⟨v, evaluated, -⟩ | ⟨zero, -⟩ := answers
  · cases evaluated
  · cases zero

end Operator

end PascalX86
