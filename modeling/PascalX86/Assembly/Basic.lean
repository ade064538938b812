/-!
# Assembly

Instructions of 32-bit x86, their operands and labels.
-/

set_option autoImplicit false

namespace PascalX86

inductive Register where
  | eax | ebx | ecx | edx | esi | ebp | esp | al | cl | xmm0 | xmm1
  deriving DecidableEq, Repr

inductive Width where
  | byte | dword | qword
  deriving DecidableEq, Repr

inductive Base where
  | register (r : Register)
  -- The table of frame pointers, one per lexical level.
  | display
  deriving DecidableEq, Repr

structure Memory where
  width : Width
  base : Base
  displacement : Int32
  deriving DecidableEq, Repr

namespace Memory

def dword (r : Register) (displacement : Int32) : Memory := ⟨.dword, .register r, displacement⟩

def offset (m : Memory) (bytes : Int32) : Memory :=
  { m with displacement := m.displacement + bytes }

def sized (m : Memory) (width : Width) : Memory := { m with width := width }

@[simp] theorem offset_base (m : Memory) (bytes : Int32) : (m.offset bytes).base = m.base := rfl

@[simp] theorem sized_base (m : Memory) (width : Width) : (m.sized width).base = m.base := rfl

@[simp] theorem sized_displacement (m : Memory) (width : Width) :
    (m.sized width).displacement = m.displacement := rfl

end Memory

inductive Operand where
  | register (r : Register)
  | memory (m : Memory)
  | immediate (n : Int32)
  -- Text as it stands, such as a jump target or a format string.
  | raw (text : String)
  deriving DecidableEq, Repr

instance : Coe Register Operand := ⟨.register⟩

instance : Coe Memory Operand := ⟨.memory⟩

def Operand.ofNat (n : Nat) : Operand := .immediate (Int32.ofNat n)

inductive Opcode where
  | mov | movzx | lea | push | pop | add | sub | imul | cdq | idiv | neg | not | and | or | xor
  | shl | shr | cmp | test | sete | setne | setl | setle | setg | setge | seta | setae | setb
  | setbe | jmp | jz | jnz | jle | jge | call | ret | movsd | addsd | subsd | mulsd | divsd
  | comisd | xorpd | cvtsi2sd | printf | invoke | exit
  deriving DecidableEq, Repr

inductive Command where
  | label (name : String)
  | instruction (op : Opcode) (operands : List Operand)
  deriving DecidableEq, Repr

abbrev Code := List Command

/-- A complete program; `levels` counts the lexical levels, that of the main program included. -/
structure Listing where
  levels : Nat
  code : Code

def dwordSize : Nat := 4

def startLabel : String := "start"

def Listing.instructions (l : Listing) : List (Opcode × List Operand) :=
  l.code.filterMap fun
    | .instruction op operands => some (op, operands)
    | .label _ => none

end PascalX86
