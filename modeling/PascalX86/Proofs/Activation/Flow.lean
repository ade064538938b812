import PascalX86.Proofs.Activation.Index
import PascalX86.Proofs.Calling.Piece
import PascalX86.Proofs.Checking.Call
import PascalX86.Proofs.Frame.Reference

/-!
# What code knows of addresses

Code writes through addresses that it has computed before. What it may rely on at each command: which
of the pushed dwords are addresses of data, whether `eax` is one, and whose frame `esi` points to. An
address that a dynamic index was added to is good as long as the index is in range.
-/

set_option autoImplicit false

namespace PascalX86

open Register

/-- A pushed dword: any value, or the address of so many bytes of data. -/
inductive Item where
  | plain
  | ref (size : Nat)
  deriving DecidableEq, Repr

def Item.plains (bytes : Nat) : List Item := List.replicate (bytes / dwordSize) .plain

/-- What is known between two commands: the operands, the topmost first, what `eax` holds and the
level of the frame that `esi` points to. -/
structure Flow where
  stack : List Item
  address : Item
  level : Option Nat

def Flow.blank : Flow := ⟨[], .plain, none⟩

def Parameter.items (p : Parameter) : List Item :=
  match p.mode with
  | .byReference => [.ref p.type.size]
  | .byValue | .constant => Item.plains p.type.size

/-- The arguments of a call on the stack. The last one is on top. -/
def itemsOf : List Parameter → List Item
  | [] => []
  | p :: parameters => itemsOf parameters ++ p.items

/-- Instructions that do no more than to compute their first operand. -/
def Opcode.computes (op : Opcode) : Bool :=
  !op.isJump && op ∉ [.push, .pop, .lea, .call, .ret, .printf, .invoke, .exit]

/-- Commands that change registers alone, none of which the stack or another frame is found by. -/
def Command.computes : Command → Bool
  | .instruction .cdq [] => true
  | .instruction op (.register r :: _) => op.computes && r ∉ [esp, ebp, esi]
  | _ => false

/-- Instructions that replace an operand in memory. -/
def Opcode.replaces (op : Opcode) : Bool := op ∈ [.mov, .add, .sub, .neg, .not, .xor]

/-- How many bytes a command reads from outside to the address in `eax`. -/
def Command.scanned (c : Command) : Nat :=
  if c = scan "%d" [eax] then 4
  else if c = scan "%lf" [eax] then 8
  else if c = scan "%c" [eax] then 1
  else 0

section Commands

variable (f : Frames) (σ : Scopes) (kept : Region)

/-- Bytes from an operand on belong to a variable of the function or of one around it, or to data at
an address that is known. -/
inductive Flow.Opens (φ : Flow) (m : Memory) (n : Nat) : Prop where
  | object {symbol : Symbol} {slot : Slot} {r : Region} (holds : σ.Holds symbol)
      (found : symbol.slot? = some slot) (kind : symbol.kind ≠ .varParameter)
      (places : f.Places symbol r) (top : r.start + r.size < 2 ^ 31)
      (base : m.base = .register ebp ∧ slot.level = f.level ∨
        m.base = .register esi ∧ φ.level = some slot.level)
      (within : (m.reaching n).Within r)
  | computed {size : Nat} (base : m.base = .register eax) (known : φ.address = .ref size)
      (small : size ≤ maxSize) (within : (m.reaching n).Within ⟨0, size⟩)

/-- Besides data, a function writes to its temporaries. -/
def Flow.Writes (φ : Flow) (m : Memory) (n : Nat) : Prop :=
  φ.Opens f σ m n ∨ m.base = .register ebp ∧ (m.reaching n).Within kept

/-- One command, with the bounds of the dynamic index that it relies on. -/
inductive Command.Flows (φ : Flow) : Command → List Range → Flow → Prop where
  | mark {c : Command} (mark : c.isMark = true) (empty : φ.stack = []) : Flows φ c [] .blank
  | push (x : Operand) : Flows φ (.instruction .push [x]) [] { φ with stack := .plain :: φ.stack }
  | pushAddress : Flows φ (.instruction .push [eax]) [] { φ with stack := φ.address :: φ.stack }
  | popEax {item : Item} {rest : List Item} (stack : φ.stack = item :: rest) :
      Flows φ (.instruction .pop [eax]) [] { φ with stack := rest, address := item }
  | popEbx {item : Item} {rest : List Item} (stack : φ.stack = item :: rest) :
      Flows φ (.instruction .pop [ebx]) [] { φ with stack := rest }
  | popMemory {item : Item} {rest : List Item} {m : Memory} (stack : φ.stack = item :: rest)
      (writes : φ.Writes f σ kept m 4) :
      Flows φ (.instruction .pop [m]) [] { φ with stack := rest }
  | replace {op : Opcode} {m : Memory} {operands : List Operand} (replaces : op.replaces = true)
      (writes : φ.Writes f σ kept m 4) : Flows φ (.instruction op (.memory m :: operands)) [] φ
  | operand {op : Opcode} {offset : Int32} {operands : List Operand} {i : Nat}
      (replaces : op.replaces = true) (other : op ≠ .add) (place : offset.toInt = i * dwordSize)
      (plain : φ.stack[i]? = some .plain) :
      Flows φ (.instruction op (.memory (stackTop offset) :: operands)) [] φ
  | double {r : Register} {rest : List Item} (stack : φ.stack = .plain :: .plain :: rest) :
      Flows φ (.instruction .movsd [(stackTop 0).sized .qword, r]) [] φ
  | displace {size part : Nat} {bytes : Int32} {rest : List Item} (stack : φ.stack = .ref size :: rest)
      (low : 0 ≤ bytes.toInt) (high : bytes.toInt + part ≤ size) :
      Flows φ (.instruction .add [stackTop 0, .immediate bytes]) []
        { φ with stack := .ref part :: rest }
  | index {low high : Int32} {element : Ty} {rest : List Item}
      (stack : φ.stack = .ref (Ty.array low high element).size :: rest)
      (proper : (Ty.array low high element).Proper) :
      Flows φ .indexing [⟨low, high, element.size⟩] { φ with stack := .ref element.size :: rest }
  | compute {c : Command} (computes : c.computes = true) : Flows φ c [] { φ with address := .plain }
  | cell {symbol : Symbol} {slot : Slot} {r : Region} {m : Memory} (holds : σ.Holds symbol)
      (found : symbol.slot? = some slot) (kind : symbol.kind = .varParameter)
      (places : f.Places symbol r) (start : m.displacement.toInt = r.start)
      (base : m.base = .register ebp ∧ slot.level = f.level ∨
        m.base = .register esi ∧ φ.level = some slot.level) :
      Flows φ (.instruction .mov [eax, m]) [] { φ with address := .ref symbol.type.size }
  | address {m : Memory} {size : Nat} (opens : φ.Opens f σ m size) :
      Flows φ (.instruction .lea [eax, m]) [] { φ with address := .ref size }
  | pointer {level : Nat} (le : level ≤ f.level) :
      Flows φ (.instruction .mov [esi, displayEntry level]) [] { φ with level := some level }
  | reserve {n : Int32} {k : Nat} (size : n.toInt = k * dwordSize) :
      Flows φ (.instruction .sub [esp, .immediate n]) []
        { φ with stack := .replicate k .plain ++ φ.stack }
  | release {n : Int32} {items rest : List Item} (stack : φ.stack = items ++ rest)
      (size : n.toInt = items.length * dwordSize) :
      Flows φ (.instruction .add [esp, .immediate n]) [] { φ with stack := rest }
  | call {function : Signature} {rest : List Item} (named : σ.Names function)
      (stack : φ.stack = itemsOf function.parameters ++ rest) :
      Flows φ (.instruction .call [.raw function.label]) []
        ⟨Item.plains function.block ++ rest, .plain, none⟩
  | output (operands : List Operand) :
      Flows φ (.instruction .printf operands) [] ⟨φ.stack, .plain, none⟩
  | input {operands : List Operand} {size : Nat}
      (known : (Command.instruction .invoke operands).scanned = 0 ∨ φ.address = .ref size)
      (reads : (Command.instruction .invoke operands).scanned ≤ size) :
      Flows φ (.instruction .invoke operands) [] ⟨φ.stack, .plain, none⟩

inductive Code.Flows : Flow → Code → List Range → Flow → Prop where
  | nil (φ : Flow) : Flows φ [] [] φ
  | cons {φ φ' φ'' : Flow} {c : Command} {code : Code} {ranges ranges' : List Range}
      (first : c.Flows f σ kept φ ranges φ') (rest : Flows φ' code ranges' φ'') :
      Flows φ (c :: code) (ranges ++ ranges') φ''
  -- An address of data is one of the data at its beginning.
  | narrow {φ φ' : Flow} {code : Code} {ranges : List Range} {size part : Nat} {rest : List Item}
      (stack : φ.stack = .ref size :: rest) (le : part ≤ size)
      (narrowed : Flows { φ with stack := .ref part :: rest } code ranges φ') : Flows φ code ranges φ'

/-- Whatever is known before and whatever lies below, the code takes some operands and leaves
others. -/
def Code.Takes (code : Code) (ranges : List Range) (before after : List Item) : Prop :=
  ∀ (φ : Flow) (rest : List Item), φ.stack = before ++ rest →
    ∃ φ', φ'.stack = after ++ rest ∧ Code.Flows f σ kept φ code ranges φ'

/-- Code of a statement, at the marks of which there are no operands. -/
def Code.Passes (code : Code) (ranges : List Range) : Prop :=
  ∀ φ : Flow, φ.stack = [] → ∃ φ', φ'.stack = [] ∧ Code.Flows f σ kept φ code ranges φ'

end Commands

variable {f : Frames} {σ : Scopes} {kept : Region} {φ φ' φ'' : Flow} {first second code : Code}
  {ranges ranges' : List Range} {a b c : List Item} {m m' : Memory} {n k size : Nat}

namespace Flow

theorem Opens.of_within (opens : φ.Opens f σ m n) (base : m'.base = m.base)
    (inside : (m'.reaching k).Within (m.reaching n)) : φ.Opens f σ m' k := by
  cases opens with
  | object holds found kind places top frame within =>
      exact .object holds found kind places top (base ▸ frame) (inside.trans within)
  | computed own known small within => exact .computed (base.trans own) known small (inside.trans within)

theorem Opens.high (opens : φ.Opens f σ m n) : m.displacement.toInt + n < 2 ^ 31 := by
  cases opens with
  | object _ _ _ _ top _ within =>
      rw [Memory.reaching_within] at within
      omega
  | computed _ _ small within =>
      rw [Memory.reaching_within] at within
      unfold maxSize at small
      dsimp only at within
      omega

/-- A part of the data, so many bytes further on. -/
theorem Opens.offset (opens : φ.Opens f σ m n) {bytes : Int32} (low : 0 ≤ bytes.toInt)
    (high : bytes.toInt + k ≤ n) : φ.Opens f σ (m.offset bytes) k := by
  apply opens.of_within (m.offset_base bytes)
  have least := m.displacement.le_toInt
  have room := opens.high
  have start : (m.displacement + bytes).toInt = m.displacement.toInt + bytes.toInt := by
    apply toInt_add_of_fits <;> omega
  rw [Memory.reaching_within, Memory.offset, start]
  show m.displacement.toInt ≤ _ ∧ _ ≤ m.displacement.toInt + (n : Int)
  omega

theorem Opens.congr (opens : φ.Opens f σ m n) (address : φ'.address = φ.address)
    (level : φ'.level = φ.level) : φ'.Opens f σ m n := by
  cases opens with
  | object holds found kind places top frame within =>
      exact .object holds found kind places top (level ▸ frame) within
  | computed own known small within => exact .computed own (address.trans known) small within

theorem Writes.congr (writes : φ.Writes f σ kept m n) (address : φ'.address = φ.address)
    (level : φ'.level = φ.level) : φ'.Writes f σ kept m n :=
  writes.imp_left fun opens => opens.congr address level

theorem Writes.dword (writes : φ.Writes f σ kept m n) (top : kept.start + kept.size < 2 ^ 31)
    (small : n ≤ maxSize) (mem : m' ∈ m.dwords n) : φ.Writes f σ kept m' 4 := by
  have width : m'.width = .dword := by
    obtain ⟨i, -, rfl⟩ := List.mem_map.mp mem
    rfl
  have part (high : m.displacement.toInt + n < 2 ^ 31) : (m'.reaching 4).Within (m.reaching n) := by
    have inside := within_of_mem_dwords mem small high
    rwa [Memory.region, width] at inside
  rcases writes with opens | ⟨base, within⟩
  · exact .inl (opens.of_within (base_of_mem_dwords mem) (part opens.high))
  · have inside := Memory.reaching_within.mp within
    exact .inr ⟨(base_of_mem_dwords mem).trans base, (part (by omega)).trans within⟩

end Flow

namespace Code

theorem Flows.append (before : Code.Flows f σ kept φ first ranges φ')
    (after : Code.Flows f σ kept φ' second ranges' φ'') :
    Code.Flows f σ kept φ (first ++ second) (ranges ++ ranges') φ'' := by
  induction before with
  | nil => exact after
  | cons step _ ih =>
      rw [List.append_assoc]
      exact .cons step (ih after)
  | narrow stack le _ ih => exact .narrow stack le (ih after)

theorem Flows.single {x : Command} (flows : x.Flows f σ kept φ ranges φ') :
    Code.Flows f σ kept φ [x] ranges φ' := by
  rw [← List.append_nil ranges]
  exact .cons flows (.nil φ')

theorem Takes.nil (a : List Item) : Code.Takes f σ kept [] [] a a :=
  fun φ _ stack => ⟨φ, stack, .nil φ⟩

theorem Takes.append (before : Code.Takes f σ kept first ranges a b)
    (after : Code.Takes f σ kept second ranges' b c) :
    Code.Takes f σ kept (first ++ second) (ranges ++ ranges') a c := by
  intro φ rest stack
  obtain ⟨φ', stack', flows⟩ := before φ rest stack
  obtain ⟨φ'', stack'', flows'⟩ := after φ' rest stack'
  exact ⟨φ'', stack'', flows.append flows'⟩

/-- Commands that need no bounds follow any code. -/
theorem Takes.silent (before : Code.Takes f σ kept first ranges a b)
    (after : Code.Takes f σ kept second [] b c) :
    Code.Takes f σ kept (first ++ second) ranges a c := by
  have both := before.append after
  rwa [List.append_nil] at both

theorem Takes.more (takes : Code.Takes f σ kept code ranges a b) (more : List Item) :
    Code.Takes f σ kept code ranges (a ++ more) (b ++ more) := by
  intro φ rest stack
  rw [List.append_assoc] at stack ⊢
  exact takes φ (more ++ rest) stack

/-- The operands of the second code come on top of those of the first. -/
theorem Takes.both (before : Code.Takes f σ kept first ranges [] a)
    (after : Code.Takes f σ kept second ranges' [] b) :
    Code.Takes f σ kept (first ++ second) (ranges ++ ranges') [] (b ++ a) :=
  before.append (after.more a)

theorem Takes.single {x : Command} (flows : ∀ (φ : Flow) (rest : List Item), φ.stack = a ++ rest →
    ∃ φ', φ'.stack = b ++ rest ∧ x.Flows f σ kept φ ranges φ') :
    Code.Takes f σ kept [x] ranges a b := by
  intro φ rest stack
  obtain ⟨φ', stack', step⟩ := flows φ rest stack
  exact ⟨φ', stack', .single step⟩

theorem Takes.passes (takes : Code.Takes f σ kept code ranges [] []) :
    Code.Passes f σ kept code ranges := by
  intro φ empty
  obtain ⟨φ', stack, flows⟩ := takes φ [] empty
  exact ⟨φ', stack, flows⟩

theorem Passes.append (before : Code.Passes f σ kept first ranges)
    (after : Code.Passes f σ kept second ranges') :
    Code.Passes f σ kept (first ++ second) (ranges ++ ranges') := by
  intro φ empty
  obtain ⟨φ', empty', flows⟩ := before φ empty
  obtain ⟨φ'', empty'', flows'⟩ := after φ' empty'
  exact ⟨φ'', empty'', flows.append flows'⟩

theorem Passes.silent (before : Code.Passes f σ kept first ranges)
    (after : Code.Passes f σ kept second []) : Code.Passes f σ kept (first ++ second) ranges := by
  have both := before.append after
  rwa [List.append_nil] at both

theorem Passes.after (after : Code.Passes f σ kept second ranges)
    (before : Code.Passes f σ kept first []) : Code.Passes f σ kept (first ++ second) ranges :=
  before.append after

theorem passes_marks (marks : ∀ x ∈ code, x.isMark = true) : Code.Passes f σ kept code [] := by
  intro φ empty
  induction code generalizing φ with
  | nil => exact ⟨φ, empty, .nil φ⟩
  | cons x code ih =>
      rw [List.forall_mem_cons] at marks
      obtain ⟨φ', empty', flows⟩ := ih marks.2 .blank rfl
      exact ⟨φ', empty', .cons (.mark marks.1 empty) flows⟩

end Code

section Pieces

theorem takes_push (x : Operand) : Code.Takes f σ kept [.instruction .push [x]] [] [] [.plain] :=
  .single fun _ _ stack => ⟨_, by rw [stack]; rfl, .push x⟩

theorem takes_pushes (operands : List Operand) :
    Code.Takes f σ kept (operands.map fun x => .instruction .push [x]) [] []
      (.replicate operands.length .plain) := by
  induction operands with
  | nil => exact .nil []
  | cons x operands ih =>
      have both := (takes_push x).both ih
      rwa [← List.replicate_succ'] at both

theorem takes_computes (each : ∀ x ∈ code, x.computes = true) (a : List Item) :
    Code.Takes f σ kept code [] a a := by
  induction code with
  | nil => exact .nil a
  | cons x code ih =>
      rw [List.forall_mem_cons] at each
      have first : Code.Takes f σ kept [x] [] a a :=
        .single fun φ _ stack => ⟨{ φ with address := .plain }, stack, .compute each.1⟩
      exact first.append (ih each.2)

theorem takes_popEax (item : Item) : Code.Takes f σ kept [.instruction .pop [eax]] [] [item] [] :=
  .single fun _ _ stack => ⟨_, rfl, .popEax stack⟩

theorem takes_popEbx (item : Item) : Code.Takes f σ kept [.instruction .pop [ebx]] [] [item] [] :=
  .single fun _ _ stack => ⟨_, rfl, .popEbx stack⟩

theorem takes_release {items : List Item} (size : n = items.length * dwordSize) (small : n ≤ maxSize) :
    Code.Takes f σ kept [.instruction .add [esp, .ofNat n]] [] items [] :=
  .single fun _ _ stack => ⟨_, rfl, .release stack (by rw [toInt_ofNat small, size]; rfl)⟩

theorem takes_discard {items : List Item} (size : n = items.length * dwordSize) (small : n ≤ maxSize) :
    Code.Takes f σ kept (discard n) [] items [] := by
  unfold discard
  split
  · next zero =>
    have none : items = [] := by
      unfold dwordSize at size
      exact List.length_eq_zero_iff.mp (by omega)
    subst none
    exact .nil []
  · exact takes_release size small

theorem takes_reserve (k : Nat) (small : k * dwordSize ≤ maxSize) :
    Code.Takes f σ kept [.instruction .sub [esp, .ofNat (k * dwordSize)]] [] [] (.replicate k .plain) :=
  .single fun _ _ stack => ⟨_, by rw [stack]; rfl, .reserve (by rw [toInt_ofNat small]; simp)⟩

theorem takes_popDouble (r : Register) (other : r = xmm0 ∨ r = xmm1) :
    Code.Takes f σ kept (popDouble r) [] [.plain, .plain] [] := by
  have loads : Code.Takes f σ kept [.instruction .movsd [r, (stackTop 0).sized .qword]] []
      [.plain, .plain] [.plain, .plain] := by
    apply takes_computes
    rcases other with rfl | rfl <;> decide
  exact loads.append (takes_release rfl (by decide))

theorem takes_storeDouble (r : Register) :
    Code.Takes f σ kept (storeDouble r) [] [.plain, .plain] [.plain, .plain] :=
  .single fun φ _ stack => ⟨φ, stack, .double stack⟩

theorem takes_pushDouble (r : Register) :
    Code.Takes f σ kept (pushDouble r) [] [] [.plain, .plain] :=
  (takes_reserve 2 (by decide)).append (takes_storeDouble r)

theorem takes_pushMemory (m : Memory) (size : Nat) :
    Code.Takes f σ kept (pushMemory m size) [] [] (Item.plains size) := by
  have pushes := @takes_pushes f σ kept ((m.dwords size).reverse.map Operand.memory)
  rw [List.map_map, List.length_map, List.length_reverse, Memory.length_dwords] at pushes
  exact pushes

/-- Popping to one cell after the other, all of which may be written. -/
theorem flows_pops {cells : List Memory} {rest : List Item} (writes : ∀ x ∈ cells, φ.Writes f σ kept x 4)
    (stack : φ.stack = .replicate cells.length .plain ++ rest) :
    Code.Flows f σ kept φ (cells.map fun (x : Memory) => .instruction .pop [x]) []
      { φ with stack := rest } := by
  induction cells generalizing φ with
  | nil =>
      have same : { φ with stack := rest } = φ := by
        rw [← show φ.stack = rest from stack]
      rw [same]
      exact .nil φ
  | cons x cells ih =>
      rw [List.forall_mem_cons] at writes
      have later : ∀ y ∈ cells,
          ({ φ with stack := .replicate cells.length .plain ++ rest } : Flow).Writes f σ kept y 4 :=
        fun y mem => (writes.2 y mem).congr rfl rfl
      exact .cons (.popMemory stack writes.1) (ih later rfl)

theorem flows_popMemory {rest : List Item} (writes : φ.Writes f σ kept m size)
    (top : kept.start + kept.size < 2 ^ 31) (small : size ≤ maxSize)
    (stack : φ.stack = Item.plains size ++ rest) :
    Code.Flows f σ kept φ (popMemory m size) [] { φ with stack := rest } := by
  refine flows_pops (fun x mem => writes.dword top small mem) ?_
  rw [Memory.length_dwords]
  exact stack

theorem takes_integerCode (op : Operator) :
    Code.Takes f σ kept op.integerCode [] [.plain, .plain] [.plain] := by
  have operands : Code.Takes f σ kept [.instruction .pop [ebx], .instruction .pop [eax]] []
      [.plain, .plain] [] :=
    ((takes_popEbx .plain).more [.plain]).append (takes_popEax .plain)
  have core : Code.Takes f σ kept op.integerCore [] [] [] := by
    apply takes_computes
    cases op <;> decide
  exact (operands.append core).append (takes_push eax)

theorem takes_pushTruth : Code.Takes f σ kept pushTruth [] [] [.plain] := by
  have computes : Code.Takes f σ kept [.instruction .movzx [eax, al], .instruction .neg [eax]] [] [] [] :=
    takes_computes (by decide) []
  exact computes.append (takes_push eax)

theorem takes_doubleCode {op : Operator} (h : op.doubleCode? = some code) :
    (op.kind = .arithmetic → Code.Takes f σ kept code [] [.plain, .plain, .plain, .plain]
      [.plain, .plain]) ∧
      (op.kind = .comparison → Code.Takes f σ kept code [] [.plain, .plain, .plain, .plain]
        [.plain]) := by
  have operands : Code.Takes f σ kept (popDouble xmm1 ++ popDouble xmm0) []
      [.plain, .plain, .plain, .plain] [] :=
    ((takes_popDouble xmm1 (.inr rfl)).more [.plain, .plain]).append (takes_popDouble xmm0 (.inl rfl))
  have arithmetic {o : Opcode} (computes : (Command.instruction o [xmm0, xmm1]).computes = true) :
      Code.Takes f σ kept (popDouble xmm1 ++ popDouble xmm0 ++
        (.instruction o [xmm0, xmm1] :: pushDouble xmm0)) [] [.plain, .plain, .plain, .plain]
        [.plain, .plain] := by
    have core : Code.Takes f σ kept [.instruction o [xmm0, xmm1]] [] [] [] :=
      takes_computes (by simpa using computes) []
    exact operands.append (core.append (takes_pushDouble xmm0))
  have comparison {flag : Opcode} (computes : (Command.instruction flag [al]).computes = true) :
      Code.Takes f σ kept (popDouble xmm1 ++ popDouble xmm0 ++
        (.instruction .comisd [xmm0, xmm1] :: .instruction flag [al] :: pushTruth)) []
        [.plain, .plain, .plain, .plain] [.plain] := by
    have core : Code.Takes f σ kept [.instruction .comisd [xmm0, xmm1], .instruction flag [al]] [] [] [] :=
      takes_computes (by simpa using ⟨rfl, computes⟩) []
    exact operands.append (core.append takes_pushTruth)
  cases op <;> simp only [Operator.doubleCode?, Operator.doubleCore?, Operator.doubleCore?.arithmetic,
    Operator.doubleCore?.comparison, Option.map_some, Option.map_none, Option.some.injEq,
    reduceCtorEq] at h
  all_goals
    subst h
    simp only [Operator.kind, reduceCtorEq, forall_const, IsEmpty.forall_iff, true_and, and_true]
    first
      | exact arithmetic rfl
      | exact comparison rfl

theorem takes_negateCode {t : Ty} (h : t = .integer ∨ t = .double) :
    Code.Takes f σ kept (negateCode t) [] (Item.plains t.size) (Item.plains t.size) := by
  rcases h with rfl | rfl
  · refine .single fun φ rest stack => ⟨φ, stack, .operand (i := 0) rfl (by decide) rfl ?_⟩
    rw [stack]
    rfl
  · refine .single fun φ rest stack => ⟨φ, stack, .operand (i := 1) rfl (by decide) rfl ?_⟩
    rw [stack]
    rfl

theorem takes_complementCode {t : Ty} (h : t = .integer ∨ t = .double) :
    Code.Takes f σ kept (complementCode t) [] (Item.plains t.size) [.plain] := by
  rcases h with rfl | rfl
  · refine .single fun φ rest stack => ⟨φ, stack, .operand (i := 0) rfl (by decide) rfl ?_⟩
    rw [stack]
    rfl
  · have core : Code.Takes f σ kept [.instruction .xorpd [xmm1, xmm1], .instruction .comisd [xmm0, xmm1],
        .instruction .sete [al]] [] [] [] := takes_computes (by decide) []
    exact ((takes_popDouble xmm0 (.inl rfl)).append core).append takes_pushTruth

theorem takes_widenCode : Code.Takes f σ kept widenCode [] [.plain] [.plain, .plain] := by
  have loads : Code.Takes f σ kept [.instruction .cvtsi2sd [xmm0, stackTop 0]] [] [.plain] [.plain] :=
    takes_computes (by decide) _
  have reserves : Code.Takes f σ kept [.instruction .sub [esp, .ofNat dwordSize]] [] [.plain]
      [.plain, .plain] :=
    (takes_reserve 1 (by decide)).more [.plain]
  exact (loads.append reserves).append (takes_storeDouble xmm0)

end Pieces

namespace Reference

/-- Code after which so many bytes of data lie where an operand stands or where the topmost dword
points to. -/
structure Refers (f : Frames) (σ : Scopes) (kept : Region) (r : Reference) (ranges : List Range)
    (size : Nat) : Prop where
  memory : ∀ m, r.place = .memory m → ∀ φ : Flow, ∃ φ', φ'.stack = φ.stack ∧
    Code.Flows f σ kept φ r.code ranges φ' ∧ φ'.Opens f σ m size
  stack : r.place = .stack → Code.Takes f σ kept r.code ranges [] [.ref size]

variable {r : Reference} {part : Nat}

theorem Refers.of_memory (found : ∀ φ : Flow, ∃ φ', φ'.stack = φ.stack ∧
    Code.Flows f σ kept φ code ranges φ' ∧ φ'.Opens f σ m size) :
    Refers f σ kept ⟨code, .memory m⟩ ranges size := by
  constructor
  · intro x place
    cases place
    exact found
  · intro place
    cases place

theorem Refers.of_stack (found : Code.Takes f σ kept code ranges [] [.ref size]) :
    Refers f σ kept ⟨code, .stack⟩ ranges size := by
  constructor
  · intro x place
    cases place
  · intro _
    exact found

theorem Refers.displaced (refers : r.Refers f σ kept ranges size) {bytes : Int32}
    (low : 0 ≤ bytes.toInt) (high : bytes.toInt + part ≤ size) :
    (r.displaced bytes).Refers f σ kept ranges part := by
  obtain ⟨code, place⟩ := r
  cases place with
  | memory m =>
      refine .of_memory fun φ => ?_
      obtain ⟨φ', stack, flows, opens⟩ := refers.memory m rfl φ
      exact ⟨φ', stack, flows, opens.offset low high⟩
  | stack =>
      have found := refers.stack rfl
      simp only [Reference.displaced]
      split
      · refine .of_stack ?_
        have narrows : Code.Takes f σ kept [] [] [.ref size] [.ref part] := fun φ rest stack =>
          ⟨{ φ with stack := .ref part :: rest }, rfl, .narrow stack (by omega) (.nil _)⟩
        have both := found.append narrows
        rwa [List.append_nil, List.append_nil] at both
      · have moves : Code.Takes f σ kept [.instruction .add [stackTop 0, .immediate bytes]] []
            [.ref size] [.ref part] :=
          .single fun _ _ stack => ⟨_, rfl, .displace stack low high⟩
        exact .of_stack (found.silent moves)

theorem Refers.address (refers : r.Refers f σ kept ranges size) :
    Code.Takes f σ kept r.address ranges [] [.ref size] := by
  obtain ⟨code, place⟩ := r
  cases place with
  | memory m =>
      intro φ rest stack
      obtain ⟨φ', stack', flows, opens⟩ := refers.memory m rfl φ
      have pushed : Code.Flows f σ kept φ' [.instruction .lea [eax, m], .instruction .push [eax]] []
          ⟨.ref size :: φ'.stack, .ref size, φ'.level⟩ :=
        .cons (.address opens) (.single .pushAddress)
      refine ⟨_, ?_, List.append_nil ranges ▸ flows.append pushed⟩
      rw [stack', stack]
      rfl
  | stack => exact refers.stack rfl

theorem Refers.resolve (refers : r.Refers f σ kept ranges size) (small : size ≤ maxSize) (φ : Flow) :
    ∃ φ', φ'.stack = φ.stack ∧ Code.Flows f σ kept φ r.resolve.1 ranges φ' ∧
      φ'.Opens f σ r.resolve.2 size := by
  obtain ⟨code, place⟩ := r
  cases place with
  | memory m => exact refers.memory m rfl φ
  | stack =>
      obtain ⟨φ', stack, flows⟩ := refers.stack rfl φ φ.stack rfl
      refine ⟨{ φ' with stack := φ.stack, address := .ref size }, rfl, ?_, ?_⟩
      · exact List.append_nil ranges ▸ flows.append (.single (.popEax stack))
      · exact .computed rfl rfl small ⟨Int.le_refl _, Int.le_refl _⟩

theorem Refers.load (refers : r.Refers f σ kept ranges size) (small : size ≤ maxSize) :
    Code.Takes f σ kept (r.load size) ranges [] (Item.plains size) := by
  intro φ rest stack
  obtain ⟨φ', stack', flows, -⟩ := refers.resolve small φ
  obtain ⟨φ'', stack'', pushed⟩ := takes_pushMemory r.resolve.2 size φ' rest (stack'.trans stack)
  exact ⟨φ'', stack'', List.append_nil ranges ▸ flows.append pushed⟩

theorem Refers.store (refers : r.Refers f σ kept ranges size) (top : kept.start + kept.size < 2 ^ 31)
    (small : size ≤ maxSize) : Code.Takes f σ kept (r.store size) ranges (Item.plains size) [] := by
  intro φ rest stack
  obtain ⟨φ', stack', flows, opens⟩ := refers.resolve small φ
  have popped := flows_popMemory (.inl opens) top small (stack'.trans stack)
  exact ⟨_, rfl, List.append_nil ranges ▸ flows.append popped⟩

end Reference

end PascalX86
