import PascalX86.Proofs.Checking.Table

/-!
# Single declarations

A declaration adds its symbol at the end of a table, or it is refused: for want of storage, which
leaves the table as it was, or for a name that the table has already. A name is looked at last, so that
storage stays given away to a symbol that is not added.
-/

set_option autoImplicit false

namespace PascalX86

inductive Declaration where
  | variable (name : Located Name) (type : Ty)
  | parameter (name : Located Name) (type : Ty) (mode : Mode) (default : Option Value)
  | constant (name : Located Name) (type : Ty) (value : Value) (stored : Bool)
  | typeName (name : Located Name) (type : Ty)
  | function (signature : Signature)

namespace Declaration

def name : Declaration → Located Name
  | .variable name _ | .parameter name _ _ _ | .constant name _ _ _ | .typeName name _ => name
  | .function f => f.name

/-- The bytes that a declaration asks for. -/
def bytes : Declaration → Nat
  | .variable _ type => type.size
  | .parameter _ type mode _ => mode.size type
  | .constant _ type _ stored => if stored then type.size else 0
  | .typeName _ _ | .function _ => 0

/-- What is added where storage begins at a slot. -/
def symbol (d : Declaration) (slot : Slot) : Symbol :=
  match d with
  | .variable name type => ⟨name, type, .variable slot⟩
  | .parameter name type mode default => ⟨name, type, .parameter mode default slot⟩
  | .constant name type value stored =>
      ⟨name, type, .constant value (if stored then some slot else none)⟩
  | .typeName name type => ⟨name, type, .typeName⟩
  | .function f => ⟨f.name, .function f.ref, .function f⟩

def declaring : Declaration → Declaring Symbol
  | .variable name type => Declaring.addVariable name type
  | .parameter name type mode default => Declaring.addParameter name type mode default
  | .constant name type value stored => Declaring.addConstant name type value stored
  | .typeName name type => Declaring.addType name type
  | .function f => Declaring.addFunction f

variable (d : Declaration) (slot : Slot)

@[simp] theorem name_symbol : (d.symbol slot).name = d.name := by
  cases d <;> rfl

theorem slot_symbol {slot slot' : Slot} (found : (d.symbol slot).slot? = some slot') :
    slot' = slot := by
  cases d with
  | constant name type value stored =>
      cases stored with
      | true => exact (Option.some.inj found).symm
      | false => cases found
  | «variable» | parameter => exact (Option.some.inj found).symm
  | typeName | function => cases found

@[simp] theorem bytes_symbol : (d.symbol slot).bytes = d.bytes := by
  cases d with
  | constant name type value stored => cases stored <;> rfl
  | _ => rfl

end Declaration

namespace Table

/-- The slot of what is declared next. -/
def free (t : Table) : Slot := ⟨t.level, t.size, t.area⟩

def grow (t : Table) (bytes : Nat) : Table := { t with size := t.size + bytes }

def declare (t : Table) (d : Declaration) : Except SemanticError Symbol × Table := d.declaring.runOn t

/-- What a declaration can come to. -/
inductive Outcome (t : Table) (d : Declaration) : Except SemanticError Symbol × Table → Prop where
  | added {t' : Table} (grown : t.Extends (d.symbol t.free) t') : Outcome t d (.ok (d.symbol t.free), t')
  | duplicate (known : t.get? d.name.value ≠ none) (room : t.size + d.bytes ≤ maxSize) :
      Outcome t d (.error (.duplicate d.name.value), t.grow d.bytes)
  | tooLarge (full : maxSize < t.size + d.bytes) : Outcome t d (.error .typeTooLarge, t)

variable {t : Table} {d : Declaration}

/-- A symbol whose storage, if it needs any, has been reserved. -/
theorem outcome_add (room : t.size + d.bytes ≤ maxSize) :
    t.Outcome d ((Declaring.add (d.symbol t.free)).runOn (t.grow d.bytes)) := by
  rw [Declaring.runOn_add, Declaration.name_symbol]
  have same : (t.grow d.bytes).get? d.name.value = t.get? d.name.value := rfl
  rw [same]
  split
  · next fresh =>
    refine .added ⟨?_, rfl, ?_, fun _ => room, rfl, rfl, fun slot => d.slot_symbol⟩
    · rw [Declaration.name_symbol, fresh]
    · rw [Declaration.bytes_symbol]
      rfl
  · next known => exact .duplicate (by simp [known]) room

theorem outcome_allocate {bytes : Nat} (asked : d.bytes = bytes) :
    t.Outcome d ((Declaring.allocate bytes >>= fun slot => Declaring.add (d.symbol slot)).runOn t) := by
  rw [Declaring.runOn_bind, Declaring.runOn_allocate]
  by_cases room : t.size + bytes ≤ maxSize
  · simp only [if_pos room]
    subst asked
    exact outcome_add room
  · simp only [if_neg room]
    exact .tooLarge (by omega)

/-- A declaration that asks for no storage. -/
theorem outcome_plain (room : t.size ≤ maxSize) (none : d.bytes = 0) :
    t.Outcome d ((Declaring.add (d.symbol t.free)).runOn t) := by
  have added := t.outcome_add (d := d) (by omega)
  rw [none] at added
  exact added

theorem outcome_declare (room : t.size ≤ maxSize) (d : Declaration) : t.Outcome d (t.declare d) := by
  cases d with
  | «variable» name type => exact outcome_allocate (d := .variable name type) rfl
  | parameter name type mode default =>
      exact outcome_allocate (d := .parameter name type mode default) rfl
  | constant name type value stored =>
      cases stored with
      | true =>
          have allocated := t.outcome_allocate (d := .constant name type value true) rfl
          simp only [declare, Declaration.declaring, Declaring.addConstant, if_true, bind_map_left]
          exact allocated
      | false => exact outcome_plain (d := .constant name type value false) room rfl
  | typeName name type => exact outcome_plain (d := .typeName name type) room rfl
  | function f => exact outcome_plain (d := .function f) room rfl

/-- Storage that belongs to no symbol does no harm to the others. -/
theorem Laid.grow (laid : t.Laid) {bytes : Nat} (room : t.size + bytes ≤ maxSize) :
    (t.grow bytes).Laid where
  within := by
    intro symbol mem slot found
    obtain ⟨level, area, inside⟩ := laid.within symbol mem slot found
    exact ⟨level, area, Nat.le_trans inside (Nat.le_add_right t.size bytes)⟩
  distinct := laid.distinct
  ordered := laid.ordered
  room := room

theorem Outcome.laid {answered : Except SemanticError Symbol × Table} (outcome : t.Outcome d answered)
    (laid : t.Laid) : answered.2.Laid := by
  cases outcome with
  | added grown => exact grown.laid laid
  | duplicate known room => exact laid.grow room
  | tooLarge => exact laid

end Table

end PascalX86
