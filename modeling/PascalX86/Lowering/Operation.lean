import PascalX86.Lowering.Frame
import PascalX86.Operator.Basic

/-!
# Code of operators

Operands are on the stack, the right one on top, and the result takes their place. Truth values are
-1 and 0.
-/

set_option autoImplicit false

namespace PascalX86

open Register

def pushTruth : Code :=
  [.instruction .movzx [eax, al], .instruction .neg [eax], .instruction .push [eax]]

def doubleSize : Nat := 2 * dwordSize

def popDouble (r : Register) : Code :=
  [.instruction .movsd [r, (stackTop 0).sized .qword], .instruction .add [esp, .ofNat doubleSize]]

def storeDouble (r : Register) : Code := [.instruction .movsd [(stackTop 0).sized .qword, r]]

def pushDouble (r : Register) : Code :=
  .instruction .sub [esp, .ofNat doubleSize] :: storeDouble r

namespace Operator

-- The instructions that replace the left operand in `eax`, given the right one in `ebx`.
def integerCore : Operator → Code
  | .add => [.instruction .add [eax, ebx]]
  | .sub => [.instruction .sub [eax, ebx]]
  | .mul => [.instruction .imul [eax, ebx]]
  | .and => [.instruction .and [eax, ebx]]
  | .or => [.instruction .or [eax, ebx]]
  | .xor => [.instruction .xor [eax, ebx]]
  | .divide | .div => [.instruction .cdq [], .instruction .idiv [ebx]]
  | .mod => [.instruction .cdq [], .instruction .idiv [ebx], .instruction .mov [eax, edx]]
  | .shl => [.instruction .mov [ecx, ebx], .instruction .shl [eax, cl]]
  | .shr => [.instruction .mov [ecx, ebx], .instruction .shr [eax, cl]]
  | .equal => comparison .sete
  | .notEqual => comparison .setne
  | .less => comparison .setl
  | .lessOrEqual => comparison .setle
  | .greater => comparison .setg
  | .greaterOrEqual => comparison .setge
where
  comparison (flag : Opcode) : Code :=
    [.instruction .cmp [eax, ebx], .instruction flag [al], .instruction .movzx [eax, al],
     .instruction .neg [eax]]

def integerCode (op : Operator) : Code :=
  [.instruction .pop [ebx], .instruction .pop [eax]] ++ op.integerCore ++ [.instruction .push [eax]]

def doubleCore? : Operator → Option Code
  | .add => arithmetic .addsd
  | .sub => arithmetic .subsd
  | .mul => arithmetic .mulsd
  | .divide => arithmetic .divsd
  | .equal => comparison .sete
  | .notEqual => comparison .setne
  | .less => comparison .setb
  | .lessOrEqual => comparison .setbe
  | .greater => comparison .seta
  | .greaterOrEqual => comparison .setae
  | _ => none
where
  arithmetic (o : Opcode) : Option Code := some (.instruction o [xmm0, xmm1] :: pushDouble xmm0)
  comparison (flag : Opcode) : Option Code :=
    some (.instruction .comisd [xmm0, xmm1] :: .instruction flag [al] :: pushTruth)

def doubleCode? (op : Operator) : Option Code :=
  op.doubleCore?.map fun core => popDouble xmm1 ++ popDouble xmm0 ++ core

end Operator

def signBit : Int32 := Int32.minValue

-- Negates the value on top of the stack; that of a double by its sign bit.
def negateCode : Ty → Code
  | .double => [.instruction .xor [stackTop 4, .immediate signBit]]
  | _ => [.instruction .neg [stackTop 0]]

-- Complements the value on top of the stack; a double is compared with zero.
def complementCode : Ty → Code
  | .double =>
      popDouble xmm0 ++
        [.instruction .xorpd [xmm1, xmm1], .instruction .comisd [xmm0, xmm1],
         .instruction .sete [al]] ++
        pushTruth
  | _ => [.instruction .not [stackTop 0]]

def widenCode : Code :=
  [.instruction .cvtsi2sd [xmm0, stackTop 0], .instruction .sub [esp, .ofNat dwordSize]] ++
    storeDouble xmm0

end PascalX86
