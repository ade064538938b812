import Mathlib.Algebra.Group.Int.Defs
import Mathlib.Algebra.Group.Nat.Defs
import Mathlib.Logic.Relation
import PascalX86.Assembly.Basic

/-!
# The machine

What the integer instructions do to registers, flags and memory. Macros, calls and floating point
have no meaning here: a machine that comes to one of them is stuck.
-/

set_option autoImplicit false

namespace PascalX86

abbrev Word := BitVec 32

structure Flags where
  zero : Bool
  sign : Bool
  carry : Bool
  overflow : Bool
  deriving DecidableEq, Repr

inductive Flags.Condition where
  | equal | notEqual | less | lessOrEqual | greater | greaterOrEqual
  | below | belowOrEqual | above | aboveOrEqual
  deriving DecidableEq, Repr

namespace Opcode

def stored? : Opcode → Option Flags.Condition
  | .sete => some .equal
  | .setne => some .notEqual
  | .setl => some .less
  | .setle => some .lessOrEqual
  | .setg => some .greater
  | .setge => some .greaterOrEqual
  | .setb => some .below
  | .setbe => some .belowOrEqual
  | .seta => some .above
  | .setae => some .aboveOrEqual
  | _ => none

def awaited? : Opcode → Option Flags.Condition
  | .jz => some .equal
  | .jnz => some .notEqual
  | .jle => some .lessOrEqual
  | .jge => some .greaterOrEqual
  | _ => none

end Opcode

namespace Flags

def ofAdd (a b : Word) : Flags :=
  ⟨a + b = 0, (a + b).msb, a.uaddOverflow b, a.saddOverflow b⟩

def ofSub (a b : Word) : Flags :=
  ⟨a - b = 0, (a - b).msb, a.usubOverflow b, a.ssubOverflow b⟩

def ofLogic (a : Word) : Flags := ⟨a = 0, a.msb, false, false⟩

def meets (f : Flags) : Condition → Bool
  | .equal => f.zero
  | .notEqual => !f.zero
  | .less => f.sign != f.overflow
  | .lessOrEqual => f.zero || f.sign != f.overflow
  | .greater => !(f.zero || f.sign != f.overflow)
  | .greaterOrEqual => f.sign == f.overflow
  | .below => f.carry
  | .belowOrEqual => f.carry || f.zero
  | .above => !(f.carry || f.zero)
  | .aboveOrEqual => !f.carry

end Flags

abbrev Bytes := Word → BitVec 8

namespace Bytes

/-- The dword at an address, whose low byte comes first. -/
def dword (b : Bytes) (a : Word) : Word := b (a + 3) ++ b (a + 2) ++ b (a + 1) ++ b a

def set (b : Bytes) (a v : Word) : Bytes := fun x =>
  if (x - a).toNat < 4 then v.extractLsb' (8 * (x - a).toNat) 8 else b x

end Bytes

structure Machine where
  eax : Word
  ebx : Word
  ecx : Word
  edx : Word
  esi : Word
  ebp : Word
  esp : Word
  -- Unknown after instructions that leave some of them undefined.
  flags : Option Flags
  bytes : Bytes
  -- Where the table of frame pointers lies.
  display : Word

namespace Machine

def register? (m : Machine) : Register → Option Word
  | .eax => some m.eax
  | .ebx => some m.ebx
  | .ecx => some m.ecx
  | .edx => some m.edx
  | .esi => some m.esi
  | .ebp => some m.ebp
  | .esp => some m.esp
  | .al | .cl | .xmm0 | .xmm1 => none

def setRegister? (m : Machine) (v : Word) : Register → Option Machine
  | .eax => some { m with eax := v }
  | .ebx => some { m with ebx := v }
  | .ecx => some { m with ecx := v }
  | .edx => some { m with edx := v }
  | .esi => some { m with esi := v }
  | .ebp => some { m with ebp := v }
  | .esp => some { m with esp := v }
  | .al | .cl | .xmm0 | .xmm1 => none

def address? (m : Machine) (x : Memory) : Option Word :=
  match x.base with
  | .register r => (m.register? r).map (· + x.displacement.toBitVec)
  | .display => some (m.display + x.displacement.toBitVec)

def value? (m : Machine) : Operand → Option Word
  | .register r => m.register? r
  | .memory x => if x.width = .dword then (m.address? x).map m.bytes.dword else none
  | .immediate n => some n.toBitVec
  | .raw _ => none

def store (m : Machine) (a v : Word) : Machine := { m with bytes := m.bytes.set a v }

def assign? (m : Machine) (v : Word) : Operand → Option Machine
  | .register r => m.setRegister? v r
  | .memory x => if x.width = .dword then (m.address? x).map (m.store · v) else none
  | .immediate _ | .raw _ => none

def setFlags (m : Machine) (flags : Option Flags) : Machine := { m with flags := flags }

def push (m : Machine) (v : Word) : Machine := { m.store (m.esp - 4) v with esp := m.esp - 4 }

def pop (m : Machine) : Word × Machine := (m.bytes.dword m.esp, { m with esp := m.esp + 4 })

/-- Sets the low byte of `eax` to the truth of a condition. -/
def setTruth (m : Machine) (b : Bool) : Machine :=
  { m with eax := m.eax.extractLsb' 8 24 ++ (BitVec.ofBool b).zeroExtend 8 }

/-- Divides `edx` and `eax` together, unless the quotient takes more than a register. -/
def divide? (m : Machine) (v : Word) : Option Machine :=
  let dividend := (m.edx ++ m.eax).toInt
  let quotient := dividend.tdiv v.toInt
  if v = 0 ∨ quotient < -2 ^ 31 ∨ 2 ^ 31 ≤ quotient then none
  else
    some { m with
      eax := .ofInt 32 quotient
      edx := .ofInt 32 (dividend.tmod v.toInt)
      flags := none }

/-- Instructions that replace their first operand by a function of both, and what becomes of the
flags. -/
def arithmetic? (op : Opcode) (a b : Word) : Option (Word × Option Flags) :=
  match op with
  | .add => some (a + b, some (.ofAdd a b))
  | .sub => some (a - b, some (.ofSub a b))
  | .imul => some (a * b, none)
  | .and => some (a &&& b, some (.ofLogic (a &&& b)))
  | .or => some (a ||| b, some (.ofLogic (a ||| b)))
  | .xor => some (a ^^^ b, some (.ofLogic (a ^^^ b)))
  | _ => none

def comparison? (op : Opcode) (a b : Word) : Option Flags :=
  match op with
  | .cmp => some (.ofSub a b)
  | .test => some (.ofLogic (a &&& b))
  | _ => none

/-- Shifts read the low five bits of their count. -/
def shift? (op : Opcode) (a count : Word) : Option Word :=
  match op with
  | .shl => some (a <<< (count.toNat % 32))
  | .shr => some (a >>> (count.toNat % 32))
  | _ => none

def unary? (m : Machine) (op : Opcode) (x : Operand) : Option Machine :=
  match op with
  | .push => return m.push (← m.value? x)
  | .pop => m.pop.2.assign? m.pop.1 x
  | .neg => do
      let v ← m.value? x
      return (← m.assign? (-v) x).setFlags (some (.ofSub 0 v))
  | .not => do m.assign? (~~~(← m.value? x)) x
  | .idiv => do m.divide? (← m.value? x)
  | _ => do
      guard (x = .register .al)
      return m.setTruth ((← m.flags).meets (← op.stored?))

def binary? (m : Machine) (op : Opcode) (x y : Operand) : Option Machine :=
  match op with
  | .mov => do m.assign? (← m.value? y) x
  | .movzx => do
      guard (y = .register .al)
      m.assign? ((m.eax.setWidth 8).setWidth 32) x
  | .lea =>
      match y with
      | .memory a => do m.assign? (← m.address? a) x
      | _ => none
  | .shl | .shr => do
      guard (y = .register .cl)
      return (← m.assign? (← shift? op (← m.value? x) m.ecx) x).setFlags none
  | .cmp | .test => return m.setFlags (some (← comparison? op (← m.value? x) (← m.value? y)))
  | _ => do
      let (v, flags) ← arithmetic? op (← m.value? x) (← m.value? y)
      return (← m.assign? v x).setFlags flags

def instruction? (m : Machine) (op : Opcode) : List Operand → Option Machine
  | [] => if op = .cdq then some { m with edx := if m.eax.msb then .allOnes 32 else 0 } else none
  | [x] => m.unary? op x
  | [x, y] => m.binary? op x y
  | _ => none

def run? (m : Machine) : Code → Option Machine
  | [] => some m
  | .label _ :: code => m.run? code
  | .instruction op operands :: code => (m.instruction? op operands).bind (run? · code)

section Run

variable (m : Machine) (x : Operand)

theorem run?_push : m.run? [.instruction .push [x]] = (m.value? x).map m.push := by
  change ((m.value? x).bind fun v => some (m.push v)).bind some = _
  cases m.value? x <;> rfl

theorem run?_pop : m.run? [.instruction .pop [x]] = m.pop.2.assign? m.pop.1 x := by
  change (m.pop.2.assign? m.pop.1 x).bind some = _
  exact Option.bind_fun_some _

theorem run?_neg : m.run? [.instruction .neg [x]] = (m.value? x).bind fun v =>
    (m.assign? (-v) x).map fun m' => m'.setFlags (some (.ofSub 0 v)) := by
  change ((m.value? x).bind fun v => (m.assign? (-v) x).bind fun m' =>
    some (m'.setFlags (some (.ofSub 0 v)))).bind some = _
  simp only [Option.bind_fun_some, Option.map_eq_bind]
  rfl

theorem run?_not : m.run? [.instruction .not [x]] =
    (m.value? x).bind fun v => m.assign? (~~~v) x := by
  change ((m.value? x).bind fun v => m.assign? (~~~v) x).bind some = _
  exact Option.bind_fun_some _

end Run

theorem run?_append (m : Machine) (first second : Code) :
    m.run? (first ++ second) = (m.run? first).bind (run? · second) := by
  induction first generalizing m with
  | nil => rfl
  | cons command first ih =>
      cases command with
      | label name => simp [run?, ih]
      | instruction op operands =>
          cases executed : m.instruction? op operands <;> simp [run?, executed, ih]

theorem run?_append_of_eq {m m' : Machine} {first : Code} (h : m.run? first = some m')
    (second : Code) : m.run? (first ++ second) = m'.run? second := by
  rw [run?_append, h, Option.bind_some]

end Machine

structure Config where
  position : Nat
  machine : Machine

namespace Code

def target? (code : Code) (name : String) : Option Nat := code.findIdx? (· = .label name)

def taken? (op : Opcode) (flags : Option Flags) : Option Bool :=
  if op = .jmp then some true else return (← flags).meets (← op.awaited?)

def step? (code : Code) (c : Config) : Option Config :=
  match code[c.position]? with
  | none => none
  | some (.label _) => some ⟨c.position + 1, c.machine⟩
  | some (.instruction op [.raw name]) => do
      if ← taken? op c.machine.flags then
        return ⟨← code.target? name, c.machine⟩
      else
        return ⟨c.position + 1, c.machine⟩
  | some (.instruction op operands) =>
      return ⟨c.position + 1, ← c.machine.instruction? op operands⟩

def Reaches (code : Code) : Config → Config → Prop :=
  Relation.ReflTransGen fun c c' => code.step? c = some c'

end Code

end PascalX86
