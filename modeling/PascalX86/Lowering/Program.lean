import PascalX86.Lowering.Statement

/-!
# Code of programs

Functions come first, the main program last. A function saves its caller's frame pointer and the
display entry of its level, and restores both.
-/

set_option autoImplicit false

namespace PascalX86

open Register

/-- The bytes of arguments at each level below the given one. Functions are listed innermost first,
so the next function that lies one level further out is the one around. -/
def outerBlocks : List Function → Nat → List Nat
  | _, 0 => []
  | [], level + 1 => List.replicate (level + 1) 0
  | g :: later, level + 1 =>
      if g.signature.level = level then
        outerBlocks later level ++ [g.signature.block]
      else
        outerBlocks later (level + 1)

namespace Function

def frames (g : Function) (later : List Function) : Frames :=
  ⟨g.signature.level, outerBlocks later g.signature.level ++ [g.signature.block]⟩

def bodyCode (g : Function) (f : Frames) (label : Nat) : Lowered Code :=
  g.body.code f none g.locals.size label

def frameSize (g : Function) (f : Frames) : Nat := g.locals.size + g.body.temporaries f

-- Moves the result, which is the first local, to its register.
def returnCode (g : Function) : Lowered Code :=
  match g.signature.result with
  | .nil => return []
  | .integer => return [.instruction .mov [eax, frameSlot Ty.integer.size]]
  | .char => return [.instruction .mov [eax, frameSlot Ty.char.size]]
  | .double => return [.instruction .movsd [xmm0, (frameSlot Ty.double.size).sized .qword]]
  | type => .error ⟨.aggregateResult type, g.signature.name.span⟩

def code (g : Function) (f : Frames) (label : Nat) : Lowered Code := do
  let entry := displayEntry g.signature.level
  let result ← g.returnCode
  let body ← g.bodyCode f label
  let enter :=
    [.label g.signature.label, .instruction .push [entry], .instruction .push [ebp],
     .instruction .mov [ebp, esp], .instruction .mov [entry, ebp],
     .instruction .sub [esp, .ofNat (g.frameSize f)]]
  let leave :=
    [.instruction .mov [esp, ebp], .instruction .pop [ebp], .instruction .pop [entry],
     .instruction .ret []]
  return enter ++ body ++ result ++ leave

-- The main program lies at level zero and takes no arguments.
def mainFrames : Frames := ⟨0, [0]⟩

def mainCode (g : Function) (label : Nat) : Lowered Code := do
  let body ← g.bodyCode mainFrames label
  let enter :=
    [.label startLabel, .instruction .push [ebp], .instruction .mov [ebp, esp],
     .instruction .mov [displayEntry 0, ebp],
     .instruction .sub [esp, .ofNat (g.frameSize mainFrames)]]
  let leave := [.instruction .mov [esp, ebp], .instruction .pop [ebp], .instruction .exit []]
  return enter ++ body ++ leave

end Function

def bodyLabels : List Function → Nat
  | [] => 0
  | g :: later => g.body.labels + bodyLabels later

def functionsCode (label : Nat) : List Function → Lowered Code
  | [] => return []
  | g :: later => do
      let code ← g.code (g.frames later) label
      return code ++ (← functionsCode (label + g.body.labels) later)

namespace Program

def levels (p : Program) : Nat := p.functions.foldl (fun n g => max n (g.signature.level + 1)) 1

def lower (p : Program) : Lowered Listing := do
  let functions ← functionsCode 0 p.functions
  let main ← p.main.mainCode (bodyLabels p.functions)
  return ⟨p.levels, functions ++ main⟩

end Program

end PascalX86
