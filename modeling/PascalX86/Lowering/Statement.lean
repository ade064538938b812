import PascalX86.Lowering.Expression
import PascalX86.Lowering.Format

/-!
# Code of statements

A statement leaves the stack as it found it. Labels are numbered in the order of the statements that
they belong to, and temporaries lie below the locals for as long as the statement runs.
-/

set_option autoImplicit false

namespace PascalX86

open Register

structure Loop where
  next : String
  stop : String

def numbered (word : String) (n : Nat) : String := s!"{word}_{n}"

def jump (op : Opcode) (target : String) : Command := .instruction op [.raw target]

def conditionCode (f : Frames) (e : Expr) : Lowered Code :=
  return (← e.code f) ++ [.instruction .pop [eax], .instruction .test [eax, eax]]

/-- The operand of a variable in the function's own frame, which is found without any code. -/
def Expr.direct? (f : Frames) : Expr → Option Memory
  | .var info symbol => do
      let slot ← symbol.slot?
      guard (slot.level = f.level ∧ (symbol.kind = .var ∨ symbol.kind = .const))
      match (← (f.reference info.span symbol).toOption).place with
      | .memory m => some m
      | .stack => none
  | _ => none

def Expr.temporary (f : Frames) (e : Expr) : Nat :=
  if e.value?.isSome || (e.direct? f).isSome then 0 else e.type.size

structure Output where
  code : Code
  pieces : List Format.Piece
  operands : List Memory

/-- Constants become text; other arguments are evaluated from left to right into temporaries below
the `used` bytes of the frame, variables of the frame excepted. -/
def outputOf (f : Frames) (used : Nat) : List Expr → Lowered Output
  | [] => return ⟨[], [], []⟩
  | e :: arguments => do
      match e.value? with
      | some value =>
          let some text := value.output? | malformed e.span .structuredText
          let rest ← outputOf f used arguments
          return { rest with pieces := .text text :: rest.pieces }
      | none =>
          let some conversion := Conversion.ofType? e.type | runtimeString e.span
          let (code, cell) ←
            match e.direct? f with
            | some cell => pure ([], cell)
            | none =>
                let cell := frameSlot (used + e.type.size)
                pure ((← e.code f) ++ popMemory cell e.type.size, cell)
          let rest ← outputOf f (used + e.temporary f) arguments
          return ⟨code ++ rest.code, .conversion conversion :: rest.pieces,
            cell.sized conversion.width :: rest.operands⟩

def newlinePieces (newline : Bool) : List Format.Piece := if newline then [.text "\n"] else []

-- One call shows all arguments; there is none if the format is empty.
def writeCode (f : Frames) (used : Nat) (arguments : List Expr) (newline : Bool) :
    Lowered Code := do
  let output ← outputOf f used arguments
  let format := Format.encode (output.pieces ++ newlinePieces newline)
  if format.isEmpty then
    return output.code
  else
    let call := .instruction .printf (.raw s!"\"{format}\"" :: output.operands.map Operand.memory)
    return output.code ++ [call]

def scan (format : String) (targets : List Operand) : Command :=
  .instruction .invoke (.raw "crt_scanf" :: .raw s!"cfm$(\"{format}\")" :: targets)

-- Reads into the target; of a character only the low byte is read.
def readTargetCode (f : Frames) (e : Expr) : Lowered Code := do
  let address := (← e.reference f).address ++ [.instruction .pop [eax]]
  match e.type with
  | .integer => return address ++ [scan "%d" [eax]]
  | .double => return address ++ [scan "%lf" [eax]]
  | .char =>
      return address ++ [.instruction .mov [Memory.dword eax 0, .immediate 0], scan "%c" [eax]]
  | type => malformed e.span (.unreadable type)

def skipLine : Command := scan "%*[^\\n]%*c" []

def readCode (f : Frames) (newline : Bool) : List Expr → Lowered Code
  | [] => return if newline then [skipLine] else []
  | e :: targets => return (← readTargetCode f e) ++ (← readCode f newline targets)

mutual

def Stmt.labels : Stmt → Nat
  | .ifThen _ _ body => 2 + body.labels
  | .ifElse _ _ body otherwise => 2 + body.labels + otherwise.labels
  | .while _ _ body => 3 + body.labels
  | .for _ _ _ _ _ body => 4 + body.labels
  | .block _ statements => labelsOf statements
  | .assign .. | .continue _ | .break _ | .read .. | .write .. | .call .. => 0

def labelsOf : List Stmt → Nat
  | [] => 0
  | s :: statements => s.labels + labelsOf statements

end

def outputTemporaries (f : Frames) : List Expr → Nat
  | [] => 0
  | e :: arguments => e.temporary f + outputTemporaries f arguments

mutual

def Stmt.temporaries (f : Frames) : Stmt → Nat
  | .ifThen _ _ body | .while _ _ body => body.temporaries f
  | .ifElse _ _ body otherwise => max (body.temporaries f) (otherwise.temporaries f)
  | .for _ _ _ _ _ body => dwordSize + body.temporaries f
  | .block _ statements => temporariesOf f statements
  | .write _ arguments _ => outputTemporaries f arguments
  | .assign .. | .continue _ | .break _ | .read .. | .call .. => 0

def temporariesOf (f : Frames) : List Stmt → Nat
  | [] => 0
  | s :: statements => max (s.temporaries f) (temporariesOf f statements)

end

namespace Direction

def step : Direction → Opcode
  | .up => .add
  | .down => .sub

-- Jumps while the counter has not passed the bound.
def again : Direction → Opcode
  | .up => .jle
  | .down => .jge

end Direction

mutual

/-- The code of a statement inside `loop?`, when `used` bytes of the frame are taken and `label` is
the first free label. -/
def Stmt.code (f : Frames) (loop? : Option Loop) (used label : Nat) : Stmt → Lowered Code
  | .assign _ target value => do
      let value ← value.code f
      return value ++ (← target.reference f).store target.type.size
  | .ifThen _ condition body => do
      let otherwise := numbered "else" label
      let stop := numbered "endif" (label + 1)
      let condition ← conditionCode f condition
      let body ← body.code f loop? used (label + 2)
      return condition ++ jump .jz otherwise :: body ++ [.label otherwise, .label stop]
  | .ifElse _ condition body alternative => do
      let otherwise := numbered "else" label
      let stop := numbered "endif" (label + 1)
      let condition ← conditionCode f condition
      let first ← body.code f loop? used (label + 2)
      let second ← alternative.code f loop? used (label + 2 + body.labels)
      return condition ++ jump .jz otherwise :: first ++
        [jump .jmp stop, .label otherwise] ++ second ++ [.label stop]
  | .while _ condition body => do
      let test := numbered "while_cond" label
      let start := numbered "while_body" (label + 1)
      let stop := numbered "while_end" (label + 2)
      let body ← body.code f (some ⟨test, stop⟩) used (label + 3)
      let condition ← conditionCode f condition
      return jump .jmp test :: .label start :: body ++
        [.label test] ++ condition ++ [jump .jnz start, .label stop]
  | .for _ counter first last direction body => do
      let test := numbered "for_cond" label
      let start := numbered "for_body" (label + 1)
      let next := numbered "for_next" (label + 2)
      let stop := numbered "for_end" (label + 3)
      let bound := frameSlot (used + dwordSize)
      let first ← first.code f
      let target ← counter.reference f
      let last ← last.code f
      let body ← body.code f (some ⟨next, stop⟩) (used + dwordSize) (label + 4)
      let (found, cell) := target.resolve
      let enter := [.instruction .pop [bound], jump .jmp test, .label start]
      let advance := [.instruction direction.step [cell, .immediate 1], .label test]
      let compare :=
        [.instruction .mov [eax, cell], .instruction .cmp [eax, bound],
         jump direction.again start, .label stop]
      return first ++ target.store counter.type.size ++ last ++ enter ++ body ++
        .label next :: found ++ advance ++ found ++ compare
  | .continue info =>
      match loop? with
      | some loop => return [jump .jmp loop.next]
      | none => malformed info.span .jumpOutsideLoop
  | .break info =>
      match loop? with
      | some loop => return [jump .jmp loop.stop]
      | none => malformed info.span .jumpOutsideLoop
  | .read _ targets newline => readCode f newline targets
  | .write _ arguments newline => writeCode f used arguments newline
  | .call info function arguments => do
      let call ← callCode info function (argumentsCode f function.parameters arguments)
      return call ++ discard info.type.size
  | .block _ statements => blockCode f loop? used label statements

def blockCode (f : Frames) (loop? : Option Loop) (used label : Nat) :
    List Stmt → Lowered Code
  | [] => return []
  | s :: statements => do
      let first ← s.code f loop? used label
      return first ++ (← blockCode f loop? used (label + s.labels) statements)

end

end PascalX86
