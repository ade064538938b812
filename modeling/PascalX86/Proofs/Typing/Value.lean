import PascalX86.Operator.Evaluation
import PascalX86.Ty.Rules

/-!
# Values of a type

Which values have the shape of a type, and that conversions and operations on constants answer such
values.
-/

set_option autoImplicit false

namespace PascalX86

mutual

/-- Scalars by category, arrays with one value per element, records with one value per field. -/
def Value.Fits : Value → Ty → Prop
  | .integer _, .integer | .double _, .double | .char _, .char | .string _, .string => True
  | .array elements, .array low high element =>
      elements.length = extent low high ∧ ∀ v ∈ elements, v.Fits element
  | .record values, .record fields => Value.FitAll values fields
  | _, _ => False

def Value.FitAll : List Value → Fields → Prop
  | [], .empty => True
  | v :: values, .more _ type rest => v.Fits type ∧ Value.FitAll values rest
  | _, _ => False

end

namespace Value

theorem fits_of_cast? {v w : Value} {t : Ty} (h : v.cast? t.category = some w) : w.Fits t := by
  cases t <;> cases v <;> simp [Ty.category, cast?] at h <;> subst h <;> simp [Fits]

theorem fits_of_negate? {v w : Value} {t : Ty} (fits : v.Fits t) (h : v.negate? = some w) :
    w.Fits t := by
  cases v <;> simp [negate?] at h <;> subst h <;> cases t <;> simp_all [Fits]

theorem fits_of_complement? {v w : Value} (h : v.complement? = some w) : w.Fits .integer := by
  cases v <;> simp [complement?] at h <;> subst h <;> simp [Fits]

theorem integer?_of_fits {v : Value} (fits : v.Fits .integer) :
    ∃ n, v = .integer n ∧ v.integer? = some n := by
  cases v <;> simp_all [Fits, integer?]

end Value

namespace Operator

variable {op : Operator} {left right : Ty} {typing : OperationType}

theorem operandType?_cases {t : Ty} (h : op.operandType? left right = some t) :
    t = .integer ∨ t = .double ∧ op.kind ≠ .integerOnly ∨
      t = .string ∧ (op = .add ∨ op.kind = .comparison) := by
  cases kind : op.kind <;> simp only [operandType?, kind] at h <;> grind

theorem type_cases (h : op.type left right = .ok typing) :
    typing = ⟨.integer, .integer⟩ ∨
      typing = ⟨.double, .double⟩ ∧ op.kind = .arithmetic ∨
      typing = ⟨.double, .integer⟩ ∧ op.kind = .comparison ∨
      typing = ⟨.string, .string⟩ ∧ op = .add ∨
      typing = ⟨.string, .integer⟩ ∧ op.kind = .comparison := by
  simp only [type] at h
  split at h
  · next t found =>
    cases h
    obtain rfl | ⟨rfl, some⟩ | ⟨rfl, rfl | comparison⟩ := operandType?_cases found
    -- The operand type and the kind of the operator fix the result.
    · cases kind : op.kind <;> simp [resultType, kind]
    · cases kind : op.kind <;> simp_all [resultType]
    · simp [resultType, kind]
    · simp [resultType, comparison]
  · simp at h

theorem type_operands (h : op.type left right = .ok typing) :
    op.type typing.operands typing.operands = .ok typing := by
  obtain rfl | ⟨rfl, kind⟩ | ⟨rfl, kind⟩ | ⟨rfl, rfl⟩ | ⟨rfl, kind⟩ := type_cases h
  · cases kind : op.kind <;>
      simp [type, operandType?, Ty.isIntegerLike, resultType, kind]
  · simp [type, operandType?, Ty.isIntegerLike, Ty.isNumeric, resultType, kind]
  · simp [type, operandType?, Ty.isIntegerLike, Ty.isNumeric, resultType, kind]
  · rfl
  · simp [type, operandType?, Ty.isIntegerLike, Ty.isNumeric, Ty.isTextual, resultType, kind]

theorem isScalar_operands (h : op.type left right = .ok typing) :
    typing.operands.isScalar = true := by
  obtain rfl | ⟨rfl, -⟩ | ⟨rfl, -⟩ | ⟨rfl, -⟩ | ⟨rfl, -⟩ := type_cases h <;> rfl

theorem isScalar_result (h : op.type left right = .ok typing) :
    typing.result.isScalar = true := by
  obtain rfl | ⟨rfl, -⟩ | ⟨rfl, -⟩ | ⟨rfl, -⟩ | ⟨rfl, -⟩ := type_cases h <;> rfl

theorem fits_compared? {v : Value} {order : Ordering} (h : op.compared? order = some v) :
    v.Fits .integer := by
  obtain ⟨b, -, rfl⟩ := Option.map_eq_some_iff.mp h
  trivial

theorem kind_of_compared? {v : Value} {order : Ordering} (h : op.compared? order = some v) :
    op.kind = .comparison := by
  obtain ⟨b, holds, -⟩ := Option.map_eq_some_iff.mp h
  exact (op.holds?_isSome_iff order).mp (by simp [holds])

theorem fits_onDoubles {l r : Float} {e : SemanticError} {v : Value} {result : Ty}
    (h : op.onDoubles l r e = .ok v) (arithmetic : op.kind = .arithmetic → result = .double)
    (comparison : op.kind = .comparison → result = .integer) : v.Fits result := by
  by_cases kind : op.kind = .arithmetic
  · rw [arithmetic kind]
    cases op <;> simp [Operator.kind] at kind <;> simp only [onDoubles] at h
    case divide =>
      split at h
      · simp at h
      · cases h
        trivial
    all_goals
      cases h
      trivial
  · have order : (orderOfDoubles? l r).bind op.compared? = some v := by
      cases op <;> simp [Operator.kind] at kind <;> simp only [onDoubles] at h <;> grind
    obtain ⟨order, -, compared⟩ := Option.bind_eq_some_iff.mp order
    rw [comparison (kind_of_compared? compared)]
    exact fits_compared? compared

theorem fits_onStrings {l r : String} {e : SemanticError} {v : Value} {result : Ty}
    (h : op.onStrings l r e = .ok v) (add : op = .add → result = .string)
    (comparison : op.kind = .comparison → result = .integer) : v.Fits result := by
  by_cases same : op = .add
  · rw [add same]
    subst same
    cases h
    trivial
  · have compared : op.compared? (compare l r) = some v := by
      cases op <;> simp at same <;> simp only [onStrings] at h <;> grind
    rw [comparison (kind_of_compared? compared)]
    exact fits_compared? compared

theorem fits_eval {l r v : Value} (h : op.type left right = .ok typing)
    (fits : l.Fits typing.operands) (evaluated : op.eval typing.operands l r = .ok v) :
    v.Fits typing.result := by
  simp only [eval] at evaluated
  split at evaluated
  · next like _ _ =>
    split at evaluated
    · cases evaluated
      obtain rfl | ⟨rfl, -⟩ | ⟨rfl, -⟩ | ⟨rfl, -⟩ | ⟨rfl, -⟩ := type_cases h <;>
        simp [Ty.isIntegerLike] at like
      trivial
    · simp at evaluated
  · split at evaluated
    · obtain rfl | ⟨rfl, kind⟩ | ⟨rfl, kind⟩ | ⟨rfl, -⟩ | ⟨rfl, -⟩ := type_cases h <;>
        simp [Value.Fits] at fits
      · exact fits_onDoubles evaluated (fun _ => rfl) (by simp [kind])
      · exact fits_onDoubles evaluated (by simp [kind]) (fun _ => rfl)
    · obtain rfl | ⟨rfl, -⟩ | ⟨rfl, -⟩ | ⟨rfl, rfl⟩ | ⟨rfl, kind⟩ := type_cases h <;>
        simp [Value.Fits] at fits
      · exact fits_onStrings evaluated (fun _ => rfl) (by simp [Operator.kind])
      · exact fits_onStrings evaluated (by rintro rfl; simp [Operator.kind] at kind)
          (fun _ => rfl)
    · simp at evaluated

end Operator

end PascalX86
