import PascalX86.Assembly.Basic

/-!
# Assembly text

Listings as the assembler reads them.
-/

set_option autoImplicit false

namespace PascalX86

def Register.text : Register → String
  | .eax => "eax"
  | .ebx => "ebx"
  | .ecx => "ecx"
  | .edx => "edx"
  | .esi => "esi"
  | .ebp => "ebp"
  | .esp => "esp"
  | .al => "al"
  | .cl => "cl"
  | .xmm0 => "xmm0"
  | .xmm1 => "xmm1"

def Register.all : List Register :=
  [.eax, .ebx, .ecx, .edx, .esi, .ebp, .esp, .al, .cl, .xmm0, .xmm1]

def Width.text : Width → String
  | .byte => "byte"
  | .dword => "dword"
  | .qword => "qword"

def Width.all : List Width := [.byte, .dword, .qword]

def Base.text : Base → String
  | .register r => r.text
  | .display => "display"

namespace Opcode

def text : Opcode → String
  | .mov => "mov"
  | .movzx => "movzx"
  | .lea => "lea"
  | .push => "push"
  | .pop => "pop"
  | .add => "add"
  | .sub => "sub"
  | .imul => "imul"
  | .cdq => "cdq"
  | .idiv => "idiv"
  | .neg => "neg"
  | .not => "not"
  | .and => "and"
  | .or => "or"
  | .xor => "xor"
  | .shl => "shl"
  | .shr => "shr"
  | .cmp => "cmp"
  | .test => "test"
  | .sete => "sete"
  | .setne => "setne"
  | .setl => "setl"
  | .setle => "setle"
  | .setg => "setg"
  | .setge => "setge"
  | .seta => "seta"
  | .setae => "setae"
  | .setb => "setb"
  | .setbe => "setbe"
  | .jmp => "jmp"
  | .jz => "jz"
  | .jnz => "jnz"
  | .jle => "jle"
  | .jge => "jge"
  | .call => "call"
  | .ret => "ret"
  | .movsd => "movsd"
  | .addsd => "addsd"
  | .subsd => "subsd"
  | .mulsd => "mulsd"
  | .divsd => "divsd"
  | .comisd => "comisd"
  | .xorpd => "xorpd"
  | .cvtsi2sd => "cvtsi2sd"
  | .printf => "printf"
  | .invoke => "invoke"
  | .exit => "exit"

def all : List Opcode :=
  [.mov, .movzx, .lea, .push, .pop, .add, .sub, .imul, .cdq, .idiv, .neg, .not, .and, .or, .xor,
   .shl, .shr, .cmp, .test, .sete, .setne, .setl, .setle, .setg, .setge, .seta, .setae, .setb,
   .setbe, .jmp, .jz, .jnz, .jle, .jge, .call, .ret, .movsd, .addsd, .subsd, .mulsd, .divsd,
   .comisd, .xorpd, .cvtsi2sd, .printf, .invoke, .exit]

end Opcode

-- A displacement of zero is left out.
def Memory.text (m : Memory) : String :=
  let displacement := m.displacement.toInt
  let shift :=
    if displacement = 0 then ""
    else if displacement < 0 then s!" - {displacement.natAbs}"
    else s!" + {displacement.natAbs}"
  s!"{m.width.text} ptr [{m.base.text}{shift}]"

def Operand.text : Operand → String
  | .register r => r.text
  | .memory m => m.text
  | .immediate n => toString n.toInt
  | .raw text => text

def Operand.textAll (operands : List Operand) : String :=
  ", ".intercalate (operands.map Operand.text)

-- Mnemonics are set in a column of seven; `printf` is a macro with its operands in parentheses.
def Command.text : Command → String
  | .label name => s!"{name}:"
  | .instruction .printf operands => s!"\tprintf({Operand.textAll operands})"
  | .instruction op [] => s!"\t{op.text}"
  | .instruction op operands =>
      let column := op.text ++ "".pushn ' ' (7 - op.text.length)
      s!"\t{column} {Operand.textAll operands}"

def Listing.text (l : Listing) : String :=
  let heading :=
    ["include c:\\masm32\\include\\masm32rt.inc", ".xmm", ".data?",
     s!"{Base.display.text} dd {max l.levels 1} dup(?)", ".code"]
  let lines := heading ++ l.code.map Command.text ++ [s!"end {startLabel}"]
  String.join (lines.map fun line => line ++ "\n")

end PascalX86
