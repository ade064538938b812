import PascalX86.Assembly.Basic
import PascalX86.Error.Lowering
import PascalX86.Symbol.Basic

/-!
# Frames and references

Where variables lie on the machine's stack. Above the frame pointer come the linkage and then the
arguments, the first one highest; below it come the locals, and below these the temporaries.
-/

set_option autoImplicit false

namespace PascalX86

open Register

abbrev Lowered (α : Type) := Except (Located LoweringError) α

-- A tree that checking never yields.
def malformed {α : Type} (span : Span) (fault : TreeFault) : Lowered α :=
  .error ⟨.malformed fault, span⟩

-- The saved frame pointer, the saved display entry and the return address.
def linkSize : Nat := 12

-- The cell that holds the frame pointer of the active function at a level.
def displayEntry (level : Nat) : Memory := ⟨.dword, .display, Int32.ofNat (level * dwordSize)⟩

def frameSlot (bytes : Nat) : Memory := .dword ebp (-Int32.ofNat bytes)

def stackTop (offset : Int32) : Memory := .dword esp offset

def Memory.dwords (m : Memory) (size : Nat) : List Memory :=
  (List.range (size / dwordSize)).map fun k =>
    (m.sized .dword).offset (Int32.ofNat (k * dwordSize))

@[simp] theorem Memory.length_dwords (m : Memory) (size : Nat) :
    (m.dwords size).length = size / dwordSize := by
  simp [dwords]

-- Pushes a value from memory, so that its lowest dword ends up on top.
def pushMemory (m : Memory) (size : Nat) : Code :=
  (m.dwords size).reverse.map fun (dword : Memory) => .instruction .push [dword]

def popMemory (m : Memory) (size : Nat) : Code :=
  (m.dwords size).map fun (dword : Memory) => .instruction .pop [dword]

@[simp] theorem length_pushMemory (m : Memory) (size : Nat) :
    (pushMemory m size).length = size / dwordSize := by
  simp [pushMemory]

@[simp] theorem length_popMemory (m : Memory) (size : Nat) :
    (popMemory m size).length = size / dwordSize := by
  simp [popMemory]

def discard (size : Nat) : Code :=
  if size = 0 then [] else [.instruction .add [esp, .ofNat size]]

inductive Place where
  -- An operand that holds until its base register changes.
  | memory (m : Memory)
  -- The address is on top of the stack.
  | stack

structure Reference where
  code : Code
  place : Place

namespace Reference

def displaced (r : Reference) (bytes : Int32) : Reference :=
  match r.place with
  | .memory m => { r with place := .memory (m.offset bytes) }
  | .stack =>
      if bytes = 0 then r
      else { r with code := r.code ++ [.instruction .add [stackTop 0, .immediate bytes]] }

def address (r : Reference) : Code :=
  match r.place with
  | .memory m => r.code ++ [.instruction .lea [eax, m], .instruction .push [eax]]
  | .stack => r.code

-- Code after which an operand stands for the place.
def resolve (r : Reference) : Code × Memory :=
  match r.place with
  | .memory m => (r.code, m)
  | .stack => (r.code ++ [.instruction .pop [eax]], .dword eax 0)

def load (r : Reference) (size : Nat) : Code := r.resolve.1 ++ pushMemory r.resolve.2 size

def store (r : Reference) (size : Nat) : Code := r.resolve.1 ++ popMemory r.resolve.2 size

end Reference

/-- The frames that the code of a function reaches: its own level and, for each level up to it, the
bytes of arguments of the function active there. -/
structure Frames where
  level : Nat
  blocks : List Nat

namespace Frames

def displacement (f : Frames) (span : Span) (s : Symbol) (slot : Slot) : Lowered Int32 :=
  match slot.area, f.blocks[slot.level]? with
  | .locals, _ => return -Int32.ofNat (slot.offset + s.storage)
  | .parameters, some block => return Int32.ofNat (linkSize + block - slot.offset - s.storage)
  | .parameters, none => malformed span (.noEnclosingFunction slot.level)
  | .fields, _ => malformed span (.fieldAsVariable s.name.value)

def pointer (f : Frames) (level : Nat) : Code × Register :=
  if level = f.level then ([], ebp) else ([.instruction .mov [esi, displayEntry level]], esi)

-- A variable; a parameter by reference is followed to what it refers to.
def reference (f : Frames) (span : Span) (s : Symbol) : Lowered Reference := do
  match s.slot? with
  | none => malformed span (.noStorage s.name.value)
  | some slot =>
      let (code, base) := f.pointer slot.level
      let cell := Memory.dword base (← f.displacement span s slot)
      match s.kind with
      | .varParameter => return ⟨code ++ [.instruction .mov [eax, cell]], .memory (.dword eax 0)⟩
      | _ => return ⟨code, .memory cell⟩

end Frames

end PascalX86
