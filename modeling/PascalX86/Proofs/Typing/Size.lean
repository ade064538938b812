import PascalX86.Ty.Rules

/-!
# Types that can be declared

What declarations make sure of: bounds in order, storage within the limit, fields told apart by their
names. Sizes are multiples of a dword for every type, and types that are the same have one size.
-/

set_option autoImplicit false

namespace PascalX86

def Fields.names : Fields → List Name
  | .empty => []
  | .more name _ rest => name :: rest.names

mutual

/-- Types of variables. Procedures have no type and functions are none. -/
def Ty.Proper : Ty → Prop
  | .integer | .double | .char | .string => True
  | .nil | .function _ => False
  | .array low high element =>
      low ≤ high ∧ high.toInt - low.toInt + 1 ≤ maxSize ∧
        extent low high * element.size ≤ maxSize ∧ element.Proper
  | .record fields =>
      fields.size ≤ maxSize ∧ fields.names.Pairwise (fun a b => a.same b = false) ∧ fields.Proper

def Fields.Proper : Fields → Prop
  | .empty => True
  | .more _ type rest => type.Proper ∧ rest.Proper

end

namespace Ty

@[simp] theorem size_array (low high : Int32) (element : Ty) :
    (array low high element).size = extent low high * element.size % wordRange := rfl

end Ty

@[simp] theorem Fields.size_more (name : Name) (type : Ty) (rest : Fields) :
    (Fields.more name type rest).size = type.size + rest.size := rfl

mutual

theorem Ty.dvd_size : ∀ t : Ty, 4 ∣ t.size
  | .integer | .char | .double | .string | .nil => by decide
  | .function _ => Nat.dvd_zero 4
  | .array low high element => by
      -- Sizes wrap around at a multiple of four.
      have range : 4 ∣ wordRange := by decide
      rw [Ty.size_array]
      exact (Nat.dvd_mod_iff range).mpr (Nat.dvd_mul_left_of_dvd element.dvd_size _)
  | .record fields => fields.dvd_size

theorem Fields.dvd_size : ∀ fields : Fields, 4 ∣ fields.size
  | .empty => by decide
  | .more _ type rest => Nat.dvd_add type.dvd_size rest.dvd_size

end

theorem Ty.Proper.size_le {t : Ty} (h : t.Proper) : t.size ≤ maxSize := by
  cases t with
  | array low high element => exact Nat.le_trans (Nat.mod_le _ _) h.2.2.1
  | record fields => exact h.1
  | function f => exact Nat.zero_le _
  | _ => decide

theorem Ty.Proper.size_array {low high : Int32} {element : Ty}
    (h : (Ty.array low high element).Proper) :
    (Ty.array low high element).size = extent low high * element.size :=
  Nat.mod_eq_of_lt (Nat.lt_of_le_of_lt h.2.2.1 (by decide))

mutual

theorem Ty.same_refl : ∀ t : Ty, t.same t = true
  | .integer | .double | .char | .string | .nil => rfl
  | .function f => by simp [Ty.same]
  | .array low high element => by simp [Ty.same, element.same_refl]
  | .record fields => by simp [Ty.same, fields.same_refl]

theorem Fields.same_refl : ∀ fields : Fields, fields.same fields = true
  | .empty => rfl
  | .more name type rest => by simp [Fields.same, type.same_refl, rest.same_refl]

end

mutual

theorem Ty.same_comm (t u : Ty) : t.same u = u.same t := by
  cases t <;> cases u
  case array.array low high element low' high' element' =>
    simp only [Ty.same, element.same_comm element', BEq.comm (a := low), BEq.comm (a := high)]
  case record.record fields fields' =>
    simp only [Ty.same, fields.same_comm fields']
  case function.function f g =>
    simp only [Ty.same, Bool.beq_comm]
  all_goals rfl

theorem Fields.same_comm : ∀ fields fields' : Fields, fields.same fields' = fields'.same fields
  | .empty, .empty | .empty, .more .. | .more .., .empty => rfl
  | .more name type rest, .more name' type' rest' => by
      simp only [Fields.same, name.same_comm name', type.same_comm type', rest.same_comm rest']

end

theorem Ty.size_of_isIntegerLike {t : Ty} (like : t.isIntegerLike = true) : t.size = 4 := by
  cases t with
  | integer | char => rfl
  | _ => cases like

mutual

theorem Ty.size_eq_of_same : ∀ {t u : Ty}, t.same u = true → t.size = u.size
  | .array low high element, .array low' high' element', h => by
      simp only [Ty.same, Bool.and_eq_true, beq_iff_eq] at h
      obtain ⟨⟨rfl, rfl⟩, h⟩ := h
      rw [Ty.size_array, Ty.size_array, Ty.size_eq_of_same h]
  | .record fields, .record fields', h => Fields.size_eq_of_same (by simpa [Ty.same] using h)
  | .integer, .integer, _ | .double, .double, _ | .char, .char, _ | .string, .string, _
  | .nil, .nil, _ | .function _, .function _, _ => rfl

theorem Fields.size_eq_of_same : ∀ {fields fields' : Fields},
    fields.same fields' = true → fields.size = fields'.size
  | .empty, .empty, _ => rfl
  | .more _ type rest, .more _ type' rest', h => by
      simp only [Fields.same, Bool.and_eq_true] at h
      rw [Fields.size_more, Fields.size_more, Ty.size_eq_of_same h.1.2, Fields.size_eq_of_same h.2]

end

namespace Ty

theorem eq_of_category_eq {t u : Ty} (h : t.category = u.category) (scalar : u.isScalar = true) :
    t = u := by
  cases u <;> simp [isScalar] at scalar <;> cases t <;> simp_all [category]

theorem same_of_accepts {t u : Ty} (h : t.accepts u = true)
    (keep : u.category = t.category ∨ t.isScalar = false) : t.same u = true := by
  simp only [accepts] at h
  split at h
  · exact h
  · next plain =>
    cases t <;> cases u <;> simp_all [category, Category.isStructured, Category.accepts, isScalar, same]

end Ty

end PascalX86
