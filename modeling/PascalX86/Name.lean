/-!
# Names

Names keep the spelling they were written with and are told apart without regard to the case of the
ASCII letters.
-/

set_option autoImplicit false

namespace PascalX86

/-- What the spellings of one name have in common. -/
def lowered (spelling : String) : List Char := spelling.toList.map Char.toLower

structure Name where
  spelling : String
  -- Comparisons read nothing else, so it is kept beside the spelling.
  key : List Char := lowered spelling
  key_eq : key = lowered spelling := by rfl
  deriving Repr

namespace Name

def ofSpelling (spelling : String) : Name := { spelling }

@[simp] theorem spelling_ofSpelling (spelling : String) :
    (ofSpelling spelling).spelling = spelling := rfl

@[ext] theorem ext {a b : Name} (h : a.spelling = b.spelling) : a = b := by
  cases a
  cases b
  simp_all

def same (a b : Name) : Bool := a.key == b.key

theorem same_iff (a b : Name) : a.same b = true ↔ lowered a.spelling = lowered b.spelling := by
  simp [same, a.key_eq, b.key_eq]

@[simp] theorem same_refl (a : Name) : a.same a = true := by
  simp [same]

theorem same_comm (a b : Name) : a.same b = b.same a := by
  simp [same, Bool.beq_comm]

end Name

end PascalX86
