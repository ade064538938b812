import Mathlib.Data.Option.Basic
import PascalX86.Proofs.Frame.Access
import PascalX86.Proofs.Simulation.Frame
import PascalX86.Tree.Basic

/-!
# Operands on the stack

What machines may do with the code of expressions, calls and instructions on doubles included. Code
that writes to nothing but the operands it pushed itself leaves those that were pushed before.
-/

set_option autoImplicit false

namespace PascalX86

open Register

/-- Instructions on doubles. What they compute is left open. -/
def Opcode.isDouble : Opcode → Bool
  | .movsd | .addsd | .subsd | .mulsd | .divsd | .comisd | .xorpd | .cvtsi2sd => true
  | _ => false

namespace Machine

/-- How many bytes of stack a machine has in use, from an address on. -/
def depth (m : Machine) (top : Word) : Nat := (top - m.esp).toNat

theorem depth_of_esp {m : Machine} {top : Word} {n : Nat} (esp : m.esp = below top n)
    (small : n < 2 ^ 32) : m.depth top = n := by
  unfold depth
  rw [esp]
  unfold below
  bv_omega

/-- What a machine may do with a command, given the functions of a program. Calls come back with the
stack as it was, apart from the callee's own arguments. -/
inductive Does (functions : List Function) (top : Word) (m : Machine) : Command → Machine → Prop where
  | exact {op : Opcode} {operands : List Operand} {m' : Machine}
      (executed : m.instruction? op operands = some m') : Does functions top m (.instruction op operands) m'
  | double {op : Opcode} {r : Register} {operands : List Operand} {flags : Option Flags}
      (double : op.isDouble = true) (other : r ≠ .esp) :
      Does functions top m (.instruction op (.register r :: operands)) (m.setFlags flags)
  | store {x : Memory} {r : Register} {a : Word} {bytes : Bytes} (address : m.address? x = some a)
      (outside : ∀ c, x.width.bytes ≤ (c - a).toNat → bytes c = m.bytes c) :
      Does functions top m (.instruction .movsd [.memory x, .register r]) { m with bytes := bytes }
  | call {h : Function} {m' : Machine} (listed : h ∈ functions) (esp : m'.esp = m.esp)
      (kept : ∀ n, n + h.signature.block ≤ m.depth top →
        m'.bytes (below top n) = m.bytes (below top n)) :
      Does functions top m (.instruction .call [.raw h.signature.label]) m'

/-- Runs of code on a stack with so much room. A machine whose stack is full is stuck. -/
inductive Runs (functions : List Function) (top : Word) (room : Nat) :
    Machine → Code → Machine → Prop where
  | nil (m : Machine) : Runs functions top room m [] m
  | cons {m m' m'' : Machine} {c : Command} {code : Code} (does : m.Does functions top c m')
      (fits : m'.depth top ≤ room) (rest : Runs functions top room m' code m'') :
      Runs functions top room m (c :: code) m''

section Runs

variable {functions : List Function} {top : Word} {room : Nat} {m m' m'' : Machine} {first second : Code}

theorem runs_append : m.Runs functions top room (first ++ second) m'' ↔
    ∃ m', m.Runs functions top room first m' ∧ m'.Runs functions top room second m'' := by
  constructor
  · intro h
    induction first generalizing m with
    | nil => exact ⟨m, .nil m, h⟩
    | cons c first ih =>
        cases h with
        | cons does fits rest =>
            obtain ⟨m', before, after⟩ := ih rest
            exact ⟨m', .cons does fits before, after⟩
  · rintro ⟨m', before, after⟩
    induction before with
    | nil => exact after
    | cons does fits _ ih => exact .cons does fits (ih after)

theorem runs_single {c : Command} :
    m.Runs functions top room [c] m' ↔ m.Does functions top c m' ∧ m'.depth top ≤ room := by
  constructor
  · rintro (_ | ⟨does, fits, rest⟩)
    cases rest
    exact ⟨does, fits⟩
  · rintro ⟨does, fits⟩
    exact .cons does fits (.nil m')

end Runs

end Machine

section Writes

/-- Cells among the topmost bytes of the stack. -/
def Memory.onTop (depth : Nat) (x : Memory) : Bool :=
  x.base = .register esp ∧ 0 ≤ x.displacement.toInt ∧ x.displacement.toInt + x.width.bytes ≤ depth

/-- Whether a command writes to no memory but pushed operands, of which there are so many bytes. -/
def Command.keeps (functions : List Function) (depth : Nat) : Command → Bool
  | .instruction .push _ => true
  | .instruction .pop (.memory _ :: _) => false
  | .instruction .call [.raw name] =>
      functions.all fun h => h.signature.label ≠ name ∨ h.signature.block ≤ depth
  | .instruction _ (.memory x :: _) => x.onTop depth
  | _ => true

def Code.keeps (functions : List Function) (depth : Nat) : Code → Bool
  | [] => true
  | c :: code => c.keeps functions depth && (c.depth? depth).all fun d => Code.keeps functions d code

end Writes

namespace Machine

variable {functions : List Function} {top : Word} {base d e : Nat} {m m' : Machine} {op : Opcode}
  {operands : List Operand}

/-- The bytes that were in use before are what they were, and so is the stack pointer. -/
structure Steady (top : Word) (base : Nat) (m m' : Machine) : Prop where
  esp : m'.esp = m.esp
  bytes : ∀ n ≤ base, m'.bytes (below top n) = m.bytes (below top n)

theorem Steady.congr {s : Machine} (steady : Steady top base m s) (esp : m'.esp = s.esp)
    (bytes : m'.bytes = s.bytes) : Steady top base m m' :=
  ⟨esp.trans steady.esp, fun n le => bytes ▸ steady.bytes n le⟩

theorem Steady.of_eq (esp : m'.esp = m.esp) (bytes : m'.bytes = m.bytes) : Steady top base m m' :=
  ⟨esp, fun _ _ => by rw [bytes]⟩

theorem toNat_of_toInt {n : Int32} (low : 0 ≤ n.toInt) : n.toInt = n.toBitVec.toNat := by
  have value : n.toInt = n.toBitVec.toInt := rfl
  have bound := n.toBitVec.isLt
  rw [value, BitVec.toInt_eq_toNat_cond] at low ⊢
  split at low <;> omega

/-- What is written among the topmost operands is apart from everything before them. -/
theorem Steady.of_write {x : Memory} {a : Word} {bytes : Bytes} (onTop : x.onTop d = true)
    (esp : m.esp = below top (base + d)) (room : base + d < 2 ^ 31) (address : m.address? x = some a)
    (outside : ∀ c, x.width.bytes ≤ (c - a).toNat → bytes c = m.bytes c) :
    Steady top base m { m with bytes := bytes } := by
  obtain ⟨width, start, displacement⟩ := x
  simp only [Memory.onTop, decide_eq_true_eq] at onTop
  obtain ⟨rfl, low, high⟩ := onTop
  simp only [address?, register?, Option.map_some, Option.some.injEq] at address
  refine ⟨rfl, fun n le => outside _ ?_⟩
  rw [toNat_of_toInt low] at high
  rw [← address, esp]
  unfold below
  dsimp only at high ⊢
  bv_omega

theorem Steady.of_assign {v : Word} {x : Operand} (executed : m.assign? v x = some m')
    (other : x ≠ .register .esp) (onTop : ∀ y, x = .memory y → y.onTop d = true)
    (esp : m.esp = below top (base + d)) (room : base + d < 2 ^ 31) : Steady top base m m' := by
  cases x with
  | register r => cases r <;> cases executed <;> first | exact .of_eq rfl rfl | exact absurd rfl other
  | memory x =>
      by_cases width : x.width = .dword
      · simp only [assign?, if_pos width, Option.map_eq_some_iff] at executed
        obtain ⟨a, address, rfl⟩ := executed
        refine .of_write (onTop x rfl) esp room address fun c outside => ?_
        rw [width] at outside
        exact if_neg (Nat.not_lt.mpr outside)
      · simp [assign?, width] at executed
  | immediate n => cases executed
  | raw text => cases executed

/-- An instruction with one operand writes to it, apart from pushes, divisions and those that set a
byte. -/
theorem Steady.of_unary {x : Operand} (executed : m.unary? op x = some m') (plain : op ≠ .push ∧ op ≠ .pop)
    (other : x ≠ .register .esp) (onTop : ∀ y, x = .memory y → y.onTop d = true)
    (esp : m.esp = below top (base + d)) (room : base + d < 2 ^ 31) : Steady top base m m' := by
  unfold unary? at executed
  split at executed
  · exact absurd rfl plain.1
  · exact absurd rfl plain.2
  · simp only [bind, Option.bind_eq_some_iff] at executed
    obtain ⟨v, -, s, assigned, rest⟩ := executed
    cases rest
    exact (of_assign assigned other onTop esp room).congr rfl rfl
  · simp only [bind, Option.bind_eq_some_iff] at executed
    obtain ⟨v, -, assigned⟩ := executed
    exact of_assign assigned other onTop esp room
  · simp only [bind, Option.bind_eq_some_iff, divide?] at executed
    obtain ⟨v, -, divided⟩ := executed
    split at divided
    · cases divided
    · cases divided
      exact .of_eq rfl rfl
  · simp only [bind, Option.bind_eq_some_iff] at executed
    obtain ⟨-, -, flags, -, condition, -, rest⟩ := executed
    cases rest
    exact .of_eq rfl rfl

theorem Steady.of_binary {x y : Operand} (executed : m.binary? op x y = some m')
    (other : x ≠ .register .esp) (onTop : ∀ z, x = .memory z → z.onTop d = true)
    (esp : m.esp = below top (base + d)) (room : base + d < 2 ^ 31) : Steady top base m m' := by
  unfold binary? at executed
  split at executed
  · simp only [bind, Option.bind_eq_some_iff] at executed
    obtain ⟨v, -, assigned⟩ := executed
    exact of_assign assigned other onTop esp room
  · simp only [bind, Option.bind_eq_some_iff] at executed
    obtain ⟨-, -, assigned⟩ := executed
    exact of_assign assigned other onTop esp room
  · split at executed
    · simp only [bind, Option.bind_eq_some_iff] at executed
      obtain ⟨v, -, assigned⟩ := executed
      exact of_assign assigned other onTop esp room
    · cases executed
  · simp only [bind, Option.bind_eq_some_iff] at executed
    obtain ⟨-, -, a, -, v, -, s, assigned, rest⟩ := executed
    cases rest
    exact (of_assign assigned other onTop esp room).congr rfl rfl
  · simp only [bind, Option.bind_eq_some_iff] at executed
    obtain ⟨-, -, a, -, v, -, s, assigned, rest⟩ := executed
    cases rest
    exact (of_assign assigned other onTop esp room).congr rfl rfl
  · simp only [bind, Option.bind_eq_some_iff] at executed
    obtain ⟨a, -, b, -, flags, -, rest⟩ := executed
    cases rest
    exact .of_eq rfl rfl
  · simp only [bind, Option.bind_eq_some_iff] at executed
    obtain ⟨a, -, b, -, flags, -, rest⟩ := executed
    cases rest
    exact .of_eq rfl rfl
  · simp only [bind, Option.bind_eq_some_iff] at executed
    obtain ⟨a, -, b, -, pair, -, s, assigned, rest⟩ := executed
    cases rest
    exact (of_assign assigned other onTop esp room).congr rfl rfl

/-- Where the stack pointer moves, and what is kept of the bytes before. -/
structure Moved (top : Word) (base e : Nat) (m m' : Machine) : Prop where
  esp : m'.esp = below top (base + e)
  bytes : ∀ n ≤ base, m'.bytes (below top n) = m.bytes (below top n)

theorem Steady.moved (steady : Steady top base m m') (esp : m.esp = below top (base + d)) :
    Moved top base d m m' :=
  ⟨steady.esp.trans esp, steady.bytes⟩

theorem Moved.of_push {v : Word} (esp : m.esp = below top (base + d)) (room : base + d + 4 < 2 ^ 32) :
    Moved top base (d + 4) m (m.push v) := by
  have lower : m.esp - 4 = below top (base + (d + 4)) := by
    rw [esp]
    exact below_sub top (base + d) 4
  refine ⟨lower, fun n le => ?_⟩
  simp only [push, store, lower]
  rw [Bytes.set, if_neg]
  unfold below
  bv_omega

theorem Moved.of_pop {x : Operand} (executed : m.pop.2.assign? m.pop.1 x = some m')
    (other : x ≠ .register .esp) (plain : ∀ y, x ≠ .memory y) (esp : m.esp = below top (base + d))
    (inside : 4 ≤ d) : Moved top base (d - 4) m m' := by
  have upper : m.esp + 4 = below top (base + (d - 4)) := by
    rw [esp, ← below_add top (base + (d - 4)) 4]
    congr 2
    omega
  cases x with
  | register r =>
      cases r <;> cases executed <;> first
        | exact ⟨upper, fun _ _ => rfl⟩
        | exact absurd rfl other
  | memory y => exact absurd rfl (plain y)
  | immediate n => cases executed
  | raw text => cases executed

theorem depth?_of_ne_esp {x : Operand} {rest : List Operand} (plain : op ≠ .push ∧ op ≠ .pop)
    (other : x ≠ .register .esp) (depth : Command.depth? d (.instruction op (x :: rest)) = some e) :
    e = d := by
  unfold Command.depth? at depth
  split at depth <;> simp_all

/-- The stack pointer itself is only moved by constants. -/
theorem depth?_of_esp {rest : List Operand} (plain : op ≠ .push ∧ op ≠ .pop)
    (depth : Command.depth? d (.instruction op (.register .esp :: rest)) = some e) :
    ∃ n : Int32, rest = [.immediate n] ∧ 0 ≤ n.toInt ∧ (op = .sub ∧ e = d + n.toInt.toNat ∨
      op = .add ∧ n.toInt.toNat ≤ d ∧ e = d - n.toInt.toNat) := by
  unfold Command.depth? at depth
  split at depth
  all_goals simp_all
  all_goals grind

theorem onTop_of_keeps {y : Memory} {rest : List Operand} (plain : op ≠ .push)
    (keeps : Command.keeps functions d (.instruction op (.memory y :: rest)) = true) :
    y.onTop d = true := by
  unfold Command.keeps at keeps
  split at keeps <;> simp_all

theorem Moved.of_unary {x : Operand} (executed : m.unary? op x = some m')
    (depth : Command.depth? d (.instruction op [x]) = some e)
    (keeps : Command.keeps functions d (.instruction op [x]) = true)
    (esp : m.esp = below top (base + d)) (room : base + d < 2 ^ 31) : Moved top base e m m' := by
  by_cases push : op = .push
  · subst push
    obtain rfl : d + 4 = e := Option.some.inj depth
    simp only [unary?, bind, Option.bind_eq_some_iff] at executed
    obtain ⟨v, -, eq⟩ := executed
    cases eq
    exact .of_push esp (by omega)
  by_cases pop : op = .pop
  · subst pop
    have other : x ≠ .register .esp := by
      rintro rfl
      cases depth
    have plain : ∀ y, x ≠ .memory y := by
      rintro y rfl
      cases keeps
    have popped : 4 ≤ d ∧ d - 4 = e := by
      unfold Command.depth? dwordSize at depth
      split at depth
      all_goals simp_all
    rw [← popped.2]
    exact .of_pop executed other plain esp popped.1
  have other : x ≠ .register .esp := by
    rintro rfl
    obtain ⟨n, eq, -⟩ := depth?_of_esp ⟨push, pop⟩ depth
    cases eq
  obtain rfl := depth?_of_ne_esp ⟨push, pop⟩ other depth
  apply Steady.moved _ esp
  exact .of_unary executed ⟨push, pop⟩ other (fun y eq => onTop_of_keeps push (eq ▸ keeps)) esp room

theorem Moved.of_binary {x y : Operand} (executed : m.binary? op x y = some m')
    (depth : Command.depth? d (.instruction op [x, y]) = some e)
    (keeps : Command.keeps functions d (.instruction op [x, y]) = true)
    (esp : m.esp = below top (base + d)) (room : base + d < 2 ^ 31) : Moved top base e m m' := by
  have plain : op ≠ .push ∧ op ≠ .pop := by
    constructor
    · rintro rfl
      simp [binary?, arithmetic?] at executed
    · rintro rfl
      simp [binary?, arithmetic?] at executed
  by_cases own : x = .register .esp
  · subst own
    obtain ⟨n, eq, low, moved⟩ := depth?_of_esp plain depth
    cases eq
    have bytes : n.toBitVec = .ofNat 32 n.toInt.toNat := by
      rw [toNat_of_toInt low, Int.toNat_natCast, BitVec.ofNat_toNat, BitVec.setWidth_eq]
    rcases moved with ⟨rfl, rfl⟩ | ⟨rfl, inside, rfl⟩
    · cases executed
      refine ⟨?_, fun _ _ => rfl⟩
      show m.esp - n.toBitVec = _
      rw [esp, bytes, below_sub, Nat.add_assoc]
    · cases executed
      refine ⟨?_, fun _ _ => rfl⟩
      show m.esp + n.toBitVec = _
      have above : base + d = base + (d - n.toInt.toNat) + n.toInt.toNat := by omega
      rw [esp, bytes, above, below_add]
  · obtain rfl := depth?_of_ne_esp plain own depth
    apply Steady.moved _ esp
    exact .of_binary executed own (fun z eq => onTop_of_keeps plain.1 (eq ▸ keeps)) esp room

theorem Moved.of_instruction (executed : m.instruction? op operands = some m')
    (depth : Command.depth? d (.instruction op operands) = some e)
    (keeps : Command.keeps functions d (.instruction op operands) = true)
    (esp : m.esp = below top (base + d)) (room : base + d < 2 ^ 31) : Moved top base e m m' := by
  match operands, executed with
  | [], executed =>
      by_cases cdq : op = .cdq
      · subst cdq
        cases executed
        obtain rfl : d = e := Option.some.inj depth
        exact Steady.moved (.of_eq rfl rfl) esp
      · simp [instruction?, cdq] at executed
  | [x], executed => exact .of_unary executed depth keeps esp room
  | [x, y], executed => exact .of_binary executed depth keeps esp room
  | _ :: _ :: _ :: _, executed => cases executed

theorem Moved.of_does {c : Command} (does : m.Does functions top c m') (depth : c.depth? d = some e)
    (keeps : c.keeps functions d = true) (esp : m.esp = below top (base + d))
    (room : base + d < 2 ^ 31) : Moved top base e m m' := by
  cases does with
  | exact executed => exact .of_instruction executed depth keeps esp room
  | @double op r operands flags double other =>
      have plain : op ≠ .push ∧ op ≠ .pop := by
        constructor
        · rintro rfl
          cases double
        · rintro rfl
          cases double
      have own : Operand.register r ≠ .register .esp := fun same => other (Operand.register.inj same)
      obtain rfl := depth?_of_ne_esp plain own depth
      exact Steady.moved (.of_eq rfl rfl) esp
  | store address outside =>
      obtain rfl : d = e := Option.some.inj depth
      have onTop := onTop_of_keeps (by decide) keeps
      exact Steady.moved (.of_write onTop esp room address outside) esp
  | @call h _ listed same kept =>
      obtain rfl : d = e := Option.some.inj depth
      have block : h.signature.block ≤ d := by
        have each := List.all_eq_true.mp keeps h listed
        simpa using each
      refine ⟨same.trans esp, fun n le => kept n ?_⟩
      rw [depth_of_esp esp (by omega)]
      omega

/-- No command takes half of the address space at once. -/
theorem depth?_lt {c : Command} (depth : c.depth? d = some e) : e < d + 2 ^ 31 := by
  have small (n : Int32) : n.toInt.toNat < 2 ^ 31 := by
    have := n.toInt_lt
    omega
  unfold Command.depth? dwordSize at depth
  split at depth
  all_goals grind

/-- A run of code moves the stack pointer as its depth says and leaves what was there before. -/
theorem Moved.of_runs {room : Nat} {code : Code} (runs : m.Runs functions top room code m')
    (small : room < 2 ^ 31) (depth : depthAfter? d code = some e)
    (keeps : Code.keeps functions d code = true) (esp : m.esp = below top (base + d))
    (inside : base + d ≤ room) : Moved top base e m m' ∧ base + e ≤ room := by
  induction runs generalizing d with
  | nil m =>
      obtain rfl : d = e := Option.some.inj depth
      exact ⟨Steady.moved (.of_eq rfl rfl) esp, inside⟩
  | cons does fits _ ih =>
      obtain ⟨d', first, rest⟩ := Option.bind_eq_some_iff.mp depth
      rw [Code.keeps, Bool.and_eq_true, first] at keeps
      have moved := Moved.of_does does first keeps.1 esp (by omega)
      have bound := depth?_lt first
      rw [depth_of_esp moved.esp (by omega)] at fits
      obtain ⟨later, last⟩ := ih rest keeps.2 moved.esp fits
      exact ⟨⟨later.esp, fun n le => (later.bytes n le).trans (moved.bytes n le)⟩, last⟩

end Machine

end PascalX86
