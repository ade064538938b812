import PascalX86.Proofs.Addressing.Step

/-!
# Addresses of designators

A designator is a variable, followed by fields and elements. Where the code of a designator finds an
object is where its variable is, and as many bytes further on as its fields and indices say, whether
an index is a constant or the value that its own code has left on the stack.
-/

set_option autoImplicit false

namespace PascalX86

open Register

/-- A field, or an element of an array with these bounds and the value of its index. -/
inductive Selector where
  | field (part : Field)
  | element (low high : Int32) (type : Ty) (index : Int32)

namespace Selector

/-- How many bytes lie before what is selected. -/
def offset : Selector → Int
  | .field part => part.offset
  | .element low _ type n => (n.toInt - low.toInt) * type.size

/-- The same with 32 bits. -/
def bytes : Selector → Int32
  | .field part => .ofNat part.offset
  | .element low _ type n => (n - low) * .ofNat type.size

def Inside : Selector → Prop
  | .field _ => True
  | .element low high _ n => low ≤ n ∧ n ≤ high

def total : List Selector → Int
  | [] => 0
  | x :: path => x.offset + total path

theorem bytes_eq (x : Selector) : x.bytes = .ofInt x.offset := by
  cases x with
  | field part => exact Int32.ofInt_eq_ofNat.symm
  | element low high type n =>
      rw [bytes, offset, Int32.ofInt_mul, Int32.ofInt_sub, Int32.ofInt_toInt, Int32.ofInt_toInt,
        Int32.ofInt_eq_ofNat]

theorem total_append (path : List Selector) (x : Selector) : total (path ++ [x]) = total path + x.offset := by
  induction path with
  | nil => exact Int.add_comm x.offset 0
  | cons y path ih =>
      rw [List.cons_append, total, ih, total]
      omega

/-- Going on by another selector, with 32 bits. -/
theorem add_bytes (a : Word) (path : List Selector) (x : Selector) :
    a + .ofInt 32 (total path) + x.bytes.toBitVec = a + .ofInt 32 (total (path ++ [x])) := by
  rw [bytes_eq, Int32.toBitVec_ofInt, total_append, BitVec.ofInt_add, BitVec.add_assoc]

/-- Selectors of records and of arrays, with the type of what they select. -/
inductive Leads : Selector → Ty → Ty → Prop where
  | field {fields : Fields} {part : Field} (mem : part ∈ fields.layout 0) :
      Leads (.field part) (.record fields) part.type
  | element {low high : Int32} (type : Ty) (n : Int32) :
      Leads (.element low high type n) (.array low high type) type

variable {x : Selector} {root whole part : Ty} {path : List Selector}

/-- What is selected lies inside, and its place is computed without overflow. -/
theorem Leads.inside (leads : x.Leads whole part) (proper : whole.Proper) (inside : x.Inside) :
    0 ≤ x.offset ∧ x.offset + part.size ≤ whole.size ∧ x.bytes.toInt = x.offset := by
  have small := proper.size_le
  unfold maxSize at small
  cases leads with
  | @field fields part mem =>
      have within := Fields.inside_of_mem_layout mem
      have size : (Ty.record fields).size = fields.size := rfl
      refine ⟨Int.natCast_nonneg _, ?_, ?_⟩
      · show (part.offset : Int) + part.type.size ≤ _
        omega
      · apply Int32.toInt_ofNat_of_lt
        omega
  | element n =>
      obtain ⟨start, stop⟩ := element_within proper inside.1 inside.2
      exact ⟨start, stop, element_exact proper inside.1 inside.2⟩

/-- A path to a part of an object, each step of which is computed without overflow. -/
structure Fits (path : List Selector) (root part : Ty) : Prop where
  start : 0 ≤ total path
  stop : total path + part.size ≤ root.size
  exact : ∀ x ∈ path, 0 ≤ x.offset ∧ x.bytes.toInt = x.offset

theorem Fits.nil (root : Ty) : Fits [] root root := ⟨Int.le_refl _, by simp [total], by simp⟩

theorem Fits.append (fits : Fits path root whole) (leads : x.Leads whole part) (proper : whole.Proper)
    (inside : x.Inside) : Fits (path ++ [x]) root part := by
  obtain ⟨start, stop, same⟩ := leads.inside proper inside
  have before := fits.start
  have after := fits.stop
  refine ⟨?_, ?_, ?_⟩
  · rw [total_append]
    omega
  · rw [total_append]
    omega
  · rw [List.forall_mem_append, List.forall_mem_singleton]
    exact ⟨fits.exact, start, same⟩

end Selector

section Paths

variable (functions : List Function) (top : Word) (room : Nat) (f : Frames) (m : Machine)

/-- The runs of the code of a designator, with the values of its indices. A constant has its own
value, any other index has what its code leaves on the stack. -/
inductive Expr.Follows : Expr → List Selector → Machine → Prop where
  | var {info : NodeInfo} {symbol : Symbol} {r : Reference} {m' : Machine}
      (lowered : f.reference info.span symbol = .ok r) (runs : m.Runs functions top room r.code m') :
      Follows (.var info symbol) [] m'
  | field {info : NodeInfo} {record : Expr} {part : Field} {path : List Selector} {r : Reference}
      {s m' : Machine} (base : Follows record path s) (lowered : record.reference f = .ok r)
      (runs : s.Runs functions top room (r.place.displacing (.ofNat part.offset)) m') :
      Follows (.field info record part) (path ++ [.field part]) m'
  | constant {info : NodeInfo} {array index : Expr} {low high n : Int32} {element : Ty}
      {path : List Selector} {r : Reference} {s m' : Machine} (base : Follows array path s)
      (lowered : array.reference f = .ok r) (type : array.type = .array low high element)
      (known : index.value?.bind Value.integer? = some n)
      (runs : s.Runs functions top room (r.place.displacing ((n - low) * .ofNat element.size)) m') :
      Follows (.index info array index) (path ++ [.element low high element n]) m'
  | computed {info : NodeInfo} {array index : Expr} {low high : Int32} {element : Ty} {code : Code}
      {path : List Selector} {r : Reference} {s t m' : Machine} (base : Follows array path s)
      (lowered : array.reference f = .ok r) (type : array.type = .array low high element)
      (unknown : index.value?.bind Value.integer? = none) (found : index.code f = .ok code)
      (runs : s.Runs functions top room (r.place.pushing ++ code) t)
      (adds : t.Runs functions top room (addIndex low (.ofNat element.size)) m') :
      Follows (.index info array index)
        (path ++ [.element low high element (.ofBitVec (t.bytes.dword t.esp))]) m'

end Paths

variable {functions : List Function} {top : Word} {room : Nat} {f : Frames} {m m' : Machine}
  {symbol : Symbol} {slot : Slot} {path : List Selector}

section Runs

theorem Expr.reference_field {info : NodeInfo} {record : Expr} {part : Field} {r : Reference}
    (lowered : (Expr.field info record part).reference f = .ok r) :
    ∃ inner, record.reference f = .ok inner ∧ r = inner.displaced (.ofNat part.offset) := by
  rw [Expr.reference] at lowered
  obtain ⟨inner, found, eq⟩ := bind_eq_ok.mp lowered
  cases eq
  exact ⟨inner, found, rfl⟩

section Elements

variable {info : NodeInfo} {array index : Expr} {low high n : Int32} {element : Ty} {code : Code}
  {inner r : Reference}

theorem Expr.reference_constant (found : array.reference f = .ok inner)
    (type : array.type = .array low high element) (known : index.value?.bind Value.integer? = some n) :
    (Expr.index info array index).reference f = .ok (inner.displaced ((n - low) * .ofNat element.size)) := by
  rw [Expr.reference, type, found, known]
  exact elementReference_constant

theorem Expr.reference_computed (found : array.reference f = .ok inner)
    (type : array.type = .array low high element) (unknown : index.value?.bind Value.integer? = none)
    (pushed : index.code f = .ok code) :
    (Expr.index info array index).reference f =
      .ok ⟨inner.code ++ (inner.place.pushing ++ code) ++ addIndex low (.ofNat element.size), .stack⟩ := by
  rw [Expr.reference, type, found, unknown, pushed]
  exact elementReference_computed

/-- Elements are found in arrays, with an index that is a constant or has code. -/
theorem Expr.reference_index (lowered : (Expr.index info array index).reference f = .ok r) :
    ∃ low high element inner, array.type = .array low high element ∧ array.reference f = .ok inner ∧
      ((∃ n, index.value?.bind Value.integer? = some n) ∨
        index.value?.bind Value.integer? = none ∧ ∃ code, index.code f = .ok code) := by
  rw [Expr.reference] at lowered
  cases type : array.type with
  | array low high element =>
      rw [type] at lowered
      cases known : index.value?.bind Value.integer? with
      | some n =>
          rw [known] at lowered
          obtain ⟨inner, found, -⟩ := bind_eq_ok.mp lowered
          exact ⟨low, high, element, inner, rfl, found, .inl ⟨n, rfl⟩⟩
      | none =>
          rw [known] at lowered
          obtain ⟨inner, found, rest⟩ := bind_eq_ok.mp lowered
          obtain ⟨code, pushed, -⟩ := bind_eq_ok.mp rest
          exact ⟨low, high, element, inner, rfl, found, .inr ⟨rfl, code, pushed⟩⟩
  | _ =>
      rw [type] at lowered
      cases lowered

end Elements

/-- Every run of the code of a designator follows it along some path, and the other way round. -/
theorem Expr.runs_iff_follows : ∀ {e : Expr} {r : Reference} {m' : Machine}, e.reference f = .ok r →
    (m.Runs functions top room r.code m' ↔ ∃ path, e.Follows functions top room f m path m')
  | .var info symbol, r, m', lowered => by
      rw [Expr.reference] at lowered
      constructor
      · exact fun runs => ⟨[], .var lowered runs⟩
      · rintro ⟨_, follows⟩
        cases follows with
        | var lowered' runs =>
            cases lowered.symm.trans lowered'
            exact runs
  | .field info record part, r, m', lowered => by
      obtain ⟨inner, found, rfl⟩ := Expr.reference_field lowered
      rw [inner.displaced_eq, Machine.runs_append]
      constructor
      · rintro ⟨s, before, after⟩
        obtain ⟨path, follows⟩ := (Expr.runs_iff_follows found).mp before
        exact ⟨_, .field follows found after⟩
      · rintro ⟨_, follows⟩
        cases follows with
        | field base lowered' after =>
            cases found.symm.trans lowered'
            exact ⟨_, (Expr.runs_iff_follows found).mpr ⟨_, base⟩, after⟩
  | .index info array subscript, r, m', lowered => by
      obtain ⟨low, high, element, inner, type, found, shape⟩ := Expr.reference_index lowered
      rcases shape with ⟨n, known⟩ | ⟨unknown, code, pushed⟩
      · cases (Expr.reference_constant found type known).symm.trans lowered
        rw [inner.displaced_eq, Machine.runs_append]
        constructor
        · rintro ⟨s, before, after⟩
          obtain ⟨path, follows⟩ := (Expr.runs_iff_follows found).mp before
          exact ⟨_, .constant follows found type known after⟩
        · rintro ⟨_, follows⟩
          cases follows with
          | constant base lowered' type' known' after =>
              cases found.symm.trans lowered'
              cases type.symm.trans type'
              cases known.symm.trans known'
              exact ⟨_, (Expr.runs_iff_follows found).mpr ⟨_, base⟩, after⟩
          | computed _ _ _ unknown => cases known.symm.trans unknown
      · cases (Expr.reference_computed found type unknown pushed).symm.trans lowered
        rw [Machine.runs_append]
        constructor
        · rintro ⟨t, before, adds⟩
          obtain ⟨s, before, after⟩ := Machine.runs_append.mp before
          obtain ⟨path, follows⟩ := (Expr.runs_iff_follows found).mp before
          exact ⟨_, .computed follows found type unknown pushed after adds⟩
        · rintro ⟨_, follows⟩
          cases follows with
          | constant _ _ _ known => cases unknown.symm.trans known
          | computed base lowered' type' _ pushed' after adds =>
              cases found.symm.trans lowered'
              cases type.symm.trans type'
              cases pushed.symm.trans pushed'
              have before := (Expr.runs_iff_follows found).mpr ⟨_, base⟩
              exact ⟨_, Machine.runs_append.mpr ⟨_, before, after⟩, adds⟩
  | .const .., _, _, lowered | .aggregate .., _, _, lowered | .negate .., _, _, lowered
  | .complement .., _, _, lowered | .binary .., _, _, lowered | .cast .., _, _, lowered
  | .call .., _, _, lowered => by
      simp [Expr.reference, malformed] at lowered

end Runs

section Variables

/-- Where the object of a variable is for the code of a function: in the frame of the function that
owns it, or wherever a parameter by reference says. -/
def Machine.home (m : Machine) (f : Frames) (owner : Function) (symbol : Symbol) (slot : Slot) : Word :=
  let frame := if slot.level = f.level then m.ebp else m.entry slot.level
  let cell := frame + .ofInt 32 (owner.region symbol slot).start
  if symbol.kind = .varParameter then m.bytes.dword cell else cell

/-- The displacement of the object itself, which is found through a register by reference. -/
def Function.start (owner : Function) (symbol : Symbol) (slot : Slot) : Int :=
  if symbol.kind = .varParameter then 0 else (owner.region symbol slot).start

/-- Code that finds a variable where the function that owns it keeps it. -/
structure Frames.Agrees (f : Frames) (owner : Function) (symbol : Symbol) (slot : Slot) : Prop where
  found : symbol.slot? = some slot
  displacement : ∀ span d, f.displacement span symbol slot = .ok d →
    d.toInt = (owner.region symbol slot).start
  stop : owner.start symbol slot + symbol.type.size < 2 ^ 31

variable {owner : Function} {span : Span} {r : Reference}

theorem Machine.runs_pointer (runs : m.Runs functions top room (f.pointer slot.level).1 m') :
    m'.register? (f.pointer slot.level).2 =
      some (if slot.level = f.level then m.ebp else m.entry slot.level) ∧
    m'.bytes = m.bytes ∧ m'.esp = m.esp := by
  unfold Frames.pointer at *
  split at runs
  · next level =>
    cases runs
    rw [if_pos level, if_pos level]
    exact ⟨rfl, rfl, rfl⟩
  · next level =>
    have ran := runs.run? (by simp [Command.isOwn, Opcode.isDouble])
    cases ran
    rw [if_neg level, if_neg level]
    exact ⟨rfl, rfl, rfl⟩

/-- The code of a variable finds its object. -/
theorem Frames.Agrees.locates (agrees : f.Agrees owner symbol slot)
    (lowered : f.reference span symbol = .ok r) (runs : m.Runs functions top room r.code m') :
    m'.Locates top (m.depth top) (m.home f owner symbol slot) r.place := by
  simp only [Frames.reference, agrees.found] at lowered
  obtain ⟨d, displaced, lowered⟩ := bind_eq_ok.mp lowered
  have start : d.toBitVec = .ofInt 32 (owner.region symbol slot).start := by
    rw [← BitVec.ofInt_int32ToInt, agrees.displacement span d displaced]
  have esp := esp_eq m top
  split at lowered
  · next kind =>
    have kind : symbol.kind = .varParameter := kind
    cases lowered
    obtain ⟨s, points, loads⟩ := Machine.runs_append.mp runs
    obtain ⟨frame, bytes, same⟩ := Machine.runs_pointer points
    have ran := loads.run? (by simp [Command.isOwn, Opcode.isDouble])
    have value : s.value? (Memory.dword (f.pointer slot.level).2 d) =
        some (m.home f owner symbol slot) := by
      simp only [Machine.value?, Machine.address?, Memory.dword, frame, Option.map_some, start, bytes,
        Machine.home, if_pos kind, if_true]
    simp only [Machine.run?, Machine.instruction?, Machine.binary?, value, bind, Option.bind] at ran
    cases ran
    exact ⟨same.trans esp, congrArg some (BitVec.add_zero _)⟩
  · next kind =>
    have kind : symbol.kind ≠ .varParameter := kind
    cases lowered
    obtain ⟨frame, bytes, same⟩ := Machine.runs_pointer runs
    refine ⟨same.trans esp, ?_⟩
    simp only [Machine.address?, Memory.dword, frame, Option.map_some, start, Machine.home, if_neg kind]

theorem Frames.Agrees.displacement_eq (agrees : f.Agrees owner symbol slot)
    (lowered : f.reference span symbol = .ok r) {x : Memory} (place : r.place = .memory x) :
    x.displacement.toInt = owner.start symbol slot := by
  simp only [Frames.reference, agrees.found] at lowered
  obtain ⟨d, displaced, lowered⟩ := bind_eq_ok.mp lowered
  unfold Function.start
  split at lowered
  · next kind =>
    cases lowered
    cases place
    rw [if_pos kind]
    rfl
  · next kind =>
    have kind : symbol.kind ≠ .varParameter := kind
    cases lowered
    cases place
    rw [if_neg kind]
    exact agrees.displacement span d displaced

end Variables

section Paths

/-- Designators of a variable as checking leaves them. -/
inductive Symbol.Designated (functions : List Function) (f : Frames) (symbol : Symbol) : Expr → Prop where
  | var {info : NodeInfo} (type : info.type = symbol.type) :
      Designated functions f symbol (.var info symbol)
  | field {info : NodeInfo} {record : Expr} {part : Field} {fields : Fields}
      (base : Designated functions f symbol record) (type : record.type = .record fields)
      (proper : record.type.Proper) (mem : part ∈ fields.layout 0) (same : info.type = part.type) :
      Designated functions f symbol (.field info record part)
  | index {info : NodeInfo} {array index : Expr} {low high : Int32}
      (base : Designated functions f symbol array) (type : array.type = .array low high info.type)
      (proper : array.type.Proper)
      (piles : index.value?.bind Value.integer? = none →
        ∀ code, index.code f = .ok code → Piles functions code 0 4) :
      Designated functions f symbol (.index info array index)

variable {owner : Function} {e : Expr} {r : Reference}

/-- An element of an array that fits, with an index in bounds. -/
theorem Symbol.Designated.fits_element {info : NodeInfo} {array index : Expr} {low high n : Int32}
    {element : Ty} (designated : symbol.Designated functions f (.index info array index))
    (type : array.type = .array low high element)
    (before : symbol.Designated functions f array → Selector.Fits path symbol.type array.type)
    (inside : (Selector.element low high element n).Inside) :
    Selector.Fits (path ++ [.element low high element n]) symbol.type info.type := by
  cases designated with
  | index base type' proper piles =>
      have fits := before base
      cases type.symm.trans type'
      rw [type] at fits proper
      exact fits.append (.element _ _) proper inside

theorem Expr.Follows.fits (follows : e.Follows functions top room f m path m')
    (designated : symbol.Designated functions f e) (inside : ∀ x ∈ path, x.Inside) :
    Selector.Fits path symbol.type e.type := by
  induction follows with
  | var =>
      cases designated with
      | var type =>
          rw [← type]
          exact .nil _
  | field base lowered runs ih =>
      rw [List.forall_mem_append, List.forall_mem_singleton] at inside
      cases designated with
      | field base type proper mem same =>
          have fits := ih base inside.1
          rw [type] at fits proper
          rw [Expr.type, Expr.info, same]
          exact fits.append (.field mem) proper inside.2
  | constant base lowered type known runs ih =>
      rw [List.forall_mem_append, List.forall_mem_singleton] at inside
      exact designated.fits_element type (fun base => ih base inside.1) inside.2
  | computed base lowered type unknown found runs adds ih =>
      rw [List.forall_mem_append, List.forall_mem_singleton] at inside
      exact designated.fits_element type (fun base => ih base inside.1) inside.2

/-- A place is moved by what a selector says. -/
theorem Machine.Locates.selected {s : Machine} {depth : Nat} {a : Word} {place : Place} (x : Selector)
    (locates : s.Locates top depth (a + .ofInt 32 (Selector.total path)) place)
    (runs : s.Runs functions top room (place.displacing x.bytes) m') :
    m'.Locates top depth (a + .ofInt 32 (Selector.total (path ++ [x]))) (place.displaced x.bytes) := by
  rw [← Selector.add_bytes]
  exact locates.displaced runs

/-- After the code of the array and of the index, adding the index finds the element. -/
theorem Machine.Locates.computed {s t : Machine} {depth : Nat} {a : Word} {place : Place} {code : Code}
    {low high : Int32} {element : Ty} (locates : s.Locates top depth (a + .ofInt 32 (Selector.total path)) place)
    (runs : s.Runs functions top room (place.pushing ++ code) t) (piles : Piles functions code 0 4)
    (adds : t.Runs functions top room (addIndex low (.ofNat element.size)) m')
    (small : room < 2 ^ 31) (shallow : depth ≤ room) (le : s.depth top ≤ room) :
    m'.Locates top depth (a + .ofInt 32 (Selector.total
      (path ++ [.element low high element (.ofBitVec (t.bytes.dword t.esp))]))) .stack := by
  obtain ⟨s', pushes, runs⟩ := Machine.runs_append.mp runs
  have stacked := locates.pushed pushes
  have deep := pushes.depth_le le
  rw [Machine.depth_of_esp stacked.1 (by unfold addressSize; omega)] at deep
  obtain ⟨esp, kept⟩ := stacked.indexed runs piles small deep
  rw [← Selector.add_bytes]
  exact Machine.locates_element esp kept adds

/-- The code of a designator finds what is as far from its variable as its selectors say. -/
theorem Expr.Follows.locates (follows : e.Follows functions top room f m path m')
    (designated : symbol.Designated functions f e) (agrees : f.Agrees owner symbol slot)
    (small : room < 2 ^ 31) (le : m.depth top ≤ room) (lowered : e.reference f = .ok r) :
    m'.Locates top (m.depth top) (m.home f owner symbol slot + .ofInt 32 (Selector.total path))
      r.place := by
  induction follows generalizing r with
  | var found runs =>
      rw [Expr.reference] at lowered
      cases found.symm.trans lowered
      cases designated
      have none : m.home f owner symbol slot + .ofInt 32 (Selector.total []) =
          m.home f owner symbol slot := BitVec.add_zero _
      rw [none]
      exact agrees.locates found runs
  | @field info record part path inner s m' base found runs ih =>
      obtain ⟨_, found', rfl⟩ := Expr.reference_field lowered
      cases found.symm.trans found'
      cases designated with
      | field designated =>
          rw [inner.displaced_eq]
          exact (ih designated found).selected (.field part) runs
  | @constant info array index low high n element path inner s m' base found type known runs ih =>
      cases (Expr.reference_constant found type known).symm.trans lowered
      cases designated with
      | index designated =>
          rw [inner.displaced_eq]
          exact (ih designated found).selected (.element low high element n) runs
  | computed base found type unknown pushed runs adds ih =>
      cases (Expr.reference_computed found type unknown pushed).symm.trans lowered
      cases designated with
      | index designated _ _ piles =>
          -- The run up to here has kept to its room, so the address has been pushed without overflow.
          have before := (Expr.runs_iff_follows found).mpr ⟨_, base⟩
          exact (ih designated found).computed runs (piles unknown _ pushed) adds small le
            (before.depth_le le)

/-- Displacements are added without overflow while the object is in range. -/
theorem Selector.Fits.displacement_eq {x : Selector} {root part : Ty} {start : Int} {place : Place}
    {y : Memory} (fits : Fits (path ++ [x]) root part) (range : start + root.size < 2 ^ 31)
    (before : ∀ z, place = .memory z → z.displacement.toInt = start + Selector.total path)
    (moved : place.displaced x.bytes = .memory y) :
    y.displacement.toInt = start + Selector.total (path ++ [x]) := by
  cases place with
  | stack => cases moved
  | memory z =>
      cases moved
      obtain ⟨ahead, same⟩ := fits.exact x (by simp)
      have stop := fits.stop
      have base := before z rfl
      have low := z.displacement.le_toInt
      rw [Selector.total_append] at stop ⊢
      show (z.displacement + x.bytes).toInt = _
      rw [toInt_add_of_fits] <;> omega

/-- What is folded into a displacement does not overflow. -/
theorem Expr.Follows.displacement_eq (follows : e.Follows functions top room f m path m')
    (designated : symbol.Designated functions f e) (agrees : f.Agrees owner symbol slot)
    (inside : ∀ x ∈ path, x.Inside) (lowered : e.reference f = .ok r) {x : Memory}
    (place : r.place = .memory x) :
    x.displacement.toInt = owner.start symbol slot + Selector.total path := by
  have fits := follows.fits designated inside
  induction follows generalizing r x with
  | var found runs =>
      rw [Expr.reference] at lowered
      cases designated
      rw [agrees.displacement_eq lowered place]
      exact (Int.add_zero _).symm
  | @field info record part path inner s m' base found runs ih =>
      obtain ⟨_, found', rfl⟩ := Expr.reference_field lowered
      cases found.symm.trans found'
      rw [List.forall_mem_append] at inside
      cases designated with
      | field designated =>
          rw [inner.displaced_eq] at place
          refine fits.displacement_eq agrees.stop (fun z before => ?_) place
          exact ih designated inside.1 found before (base.fits designated inside.1)
  | @constant info array index low high n element path inner s m' base found type known runs ih =>
      cases (Expr.reference_constant found type known).symm.trans lowered
      rw [List.forall_mem_append] at inside
      cases designated with
      | index designated =>
          rw [inner.displaced_eq] at place
          refine fits.displacement_eq agrees.stop (fun z before => ?_) place
          exact ih designated inside.1 found before (base.fits designated inside.1)
  | computed base found type unknown pushed runs adds ih =>
      cases (Expr.reference_computed found type unknown pushed).symm.trans lowered
      cases place

end Paths

section Constants

/-- A designator with constants in place of some of its indices, with the values on a path. -/
inductive Expr.Fixes : Expr → List Selector → Expr → Prop where
  | var (info : NodeInfo) (symbol : Symbol) : Fixes (.var info symbol) [] (.var info symbol)
  | field {e e' : Expr} {path : List Selector} (info : NodeInfo) (part : Field) (base : Fixes e path e') :
      Fixes (.field info e part) (path ++ [.field part]) (.field info e' part)
  | index {e e' : Expr} {path : List Selector} (info : NodeInfo) (index : Expr) (x : Selector)
      (base : Fixes e path e') : Fixes (.index info e index) (path ++ [x]) (.index info e' index)
  | constant {e e' : Expr} {path : List Selector} (info : NodeInfo) (index : Expr) (low high : Int32)
      (element : Ty) (n : Int32) (base : Fixes e path e') :
      Fixes (.index info e index) (path ++ [.element low high element n])
        (.index info e' (.const index.info (.integer n)))

variable {e e' : Expr} {r : Reference}

namespace Expr.Fixes

theorem type (fixes : e.Fixes path e') : e'.type = e.type := by
  cases fixes <;> rfl

theorem designated (fixes : e.Fixes path e') (designated : symbol.Designated functions f e) :
    symbol.Designated functions f e' := by
  induction fixes with
  | var => exact designated
  | field info part base ih =>
      cases designated with
      | field inner type proper mem same =>
          rw [← base.type] at type proper
          exact .field (ih inner) type proper mem same
  | index info index x base ih =>
      cases designated with
      | index inner type proper piles =>
          rw [← base.type] at type proper
          exact .index (ih inner) type proper piles
  | constant info index low high element n base ih =>
      cases designated with
      | index inner type proper piles =>
          rw [← base.type] at type proper
          exact .index (ih inner) type proper nofun

theorem lowered (fixes : e.Fixes path e') (lowered : e.reference f = .ok r) :
    ∃ r', e'.reference f = .ok r' := by
  induction fixes generalizing r with
  | var => exact ⟨r, lowered⟩
  | field info part base ih =>
      obtain ⟨inner, found, -⟩ := Expr.reference_field lowered
      obtain ⟨inner', found'⟩ := ih found
      rw [Expr.reference, found']
      exact ⟨inner'.displaced (.ofNat part.offset), rfl⟩
  | index info index x base ih =>
      obtain ⟨low, high, element, inner, type, found, shape⟩ := Expr.reference_index lowered
      obtain ⟨inner', found'⟩ := ih found
      rw [← base.type] at type
      rcases shape with ⟨n, known⟩ | ⟨unknown, code, pushed⟩
      · exact ⟨_, Expr.reference_constant found' type known⟩
      · exact ⟨_, Expr.reference_computed found' type unknown pushed⟩
  | constant info index low high element n base ih =>
      obtain ⟨_, _, _, inner, type, found, -⟩ := Expr.reference_index lowered
      obtain ⟨inner', found'⟩ := ih found
      rw [← base.type] at type
      exact ⟨_, Expr.reference_constant found' type rfl⟩

end Expr.Fixes

theorem Frames.place_reference {span : Span} (lowered : f.reference span symbol = .ok r) :
    ∃ x, r.place = .memory x := by
  unfold Frames.reference at lowered
  split at lowered
  · cases lowered
  · obtain ⟨d, -, lowered⟩ := bind_eq_ok.mp lowered
    split at lowered <;> cases lowered <;> exact ⟨_, rfl⟩

/-- Moving an operand takes no code. -/
theorem Machine.runs_displacing {place : Place} {y : Memory} (memory : place = .memory y) (bytes : Int32)
    (m : Machine) : m.Runs functions top room (place.displacing bytes) m := by
  rw [memory]
  exact .nil m

/-- A constant index after a path that is folded already. -/
theorem Expr.Follows.folded_index {info info' : NodeInfo} {low high : Int32} {element : Ty} {y : Memory}
    {s : Machine} (type : e.type = .array low high element) (lowered : e.reference f = .ok r)
    (place : r.place = .memory y) (follows : e.Follows functions top room f m path s) (n : Int32) :
    ∃ r' x, (Expr.index info e (.const info' (.integer n))).reference f = .ok r' ∧
      r'.place = .memory x ∧ (Expr.index info e (.const info' (.integer n))).Follows functions top room f m
        (path ++ [.element low high element n]) s := by
  refine ⟨r.displaced ((n - low) * .ofNat element.size), y.offset ((n - low) * .ofNat element.size),
    Expr.reference_constant lowered type rfl, ?_,
    .constant follows lowered type rfl (Machine.runs_displacing place _ s)⟩
  rw [r.displaced_eq, place]
  rfl

/-- Constants in place of all indices: the whole path is folded into one operand, and the code is
that of the variable. -/
theorem Expr.Follows.folded (follows : e.Follows functions top room f m path m') :
    ∃ e' r x s, e.Fixes path e' ∧ e'.reference f = .ok r ∧ r.place = .memory x ∧
      e'.Follows functions top room f m path s := by
  induction follows with
  | var lowered runs =>
      obtain ⟨x, place⟩ := Frames.place_reference lowered
      exact ⟨_, _, x, _, .var _ _, lowered, place, .var lowered runs⟩
  | @field info record part _ _ _ _ base lowered runs ih =>
      obtain ⟨e', r, x, s, fixes, lowered', place, follows⟩ := ih
      refine ⟨_, r.displaced (.ofNat part.offset), x.offset (.ofNat part.offset), s,
        .field info part fixes, ?_, ?_, .field follows lowered' (Machine.runs_displacing place _ s)⟩
      · rw [Expr.reference, lowered']
        rfl
      · rw [r.displaced_eq, place]
        rfl
  | constant base lowered type known runs ih =>
      obtain ⟨e', r, x, s, fixes, lowered', place, follows⟩ := ih
      rw [← fixes.type] at type
      obtain ⟨r', x', own, place', follows'⟩ := follows.folded_index type lowered' place _
      exact ⟨_, r', x', s, .constant _ _ _ _ _ _ fixes, own, place', follows'⟩
  | computed base lowered type unknown found runs adds ih =>
      obtain ⟨e', r, x, s, fixes, lowered', place, follows⟩ := ih
      rw [← fixes.type] at type
      obtain ⟨r', x', own, place', follows'⟩ := follows.folded_index type lowered' place _
      exact ⟨_, r', x', s, .constant _ _ _ _ _ _ fixes, own, place', follows'⟩

end Constants

end PascalX86
