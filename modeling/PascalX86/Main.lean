import PascalX86.Invocation.Run

/-!
# Program

The command line of the compiler.
-/

set_option autoImplicit false

namespace PascalX86

-- Directories can be opened and not read.
def openFile (path : String) : IO (Option Source) := do
  let handle? ← try some <$> IO.FS.Handle.mk path .read catch _ => pure none
  match handle? with
  | none => return none
  | some handle =>
      try
        return some (.ofBytes path (← handle.readBinToEnd))
      catch _ =>
        return some (.unreadable path)

def writeFile (path text : String) : IO Bool := do
  try
    IO.FS.writeFile path text
    return true
  catch _ =>
    return false

def disk : FileAccess IO := ⟨openFile, writeFile⟩

end PascalX86

def main (arguments : List String) : IO UInt32 := do
  let outcome ← PascalX86.disk.run arguments
  IO.print outcome.output
  IO.eprint outcome.report
  return UInt32.ofNat outcome.status
