import PascalX86.Invocation.Run

/-!
# File trees

Files in memory, seen from a working directory. Paths that leave it begin with `..`; nothing is known
of the directories outside but that they exist.
-/

set_option autoImplicit false

namespace PascalX86

/-- A path from the working directory, without `.` and with `..` at its start only. -/
abbrev Path := List String

namespace Path

def parent (path : Path) : Path :=
  match path.getLast? with
  | none | some ".." => path ++ [".."]
  | some _ => path.dropLast

def ofText (text : String) : Path :=
  (text.splitOn "/").filter fun component => component != "" && component != "."

def text (path : Path) : String := "/".intercalate path

def isOutside (path : Path) : Bool := path.head? == some ".."

end Path

structure FileTree where
  files : List (Path × String)
  directories : List Path
  deriving Repr

namespace FileTree

-- Directories above files and directories exist with them.
def isDirectory (t : FileTree) (path : Path) : Bool :=
  path.all (· == "..") || t.directories.any path.isPrefixOf ||
    t.files.any fun (file, _) => path.isPrefixOf file && path != file

def step (t : FileTree) (here : Path) (component : String) : Option Path :=
  if t.isDirectory here then
    match component with
    | "" | "." => some here
    | ".." => some (Path.parent here)
    | _ => some (here ++ [component])
  else
    none

-- Where the text of a path leads. Absolute paths lead nowhere.
def resolve (t : FileTree) (path : String) : Option Path :=
  match path.splitOn "/" with
  | "" :: _ => none
  | components => components.foldlM t.step []

-- What is in a file; a directory can be opened and not read.
def open? (t : FileTree) (path : String) : Option Source :=
  (t.resolve path).bind fun place =>
    if t.isDirectory place then some (.unreadable path)
    else (t.files.lookup place).map (Source.ofText path)

def put (t : FileTree) (place : Path) (text : String) : FileTree :=
  if t.files.any fun (file, _) => file == place then
    { t with files := t.files.map fun (file, old) => (file, if file == place then text else old) }
  else
    { t with files := t.files ++ [(place, text)] }

def write? (t : FileTree) (path text : String) : Option FileTree :=
  (t.resolve path).bind fun place =>
    if t.isDirectory place then none else some (t.put place text)

def access : FileAccess (StateM FileTree) where
  open? path := do return (← get).open? path
  write path text := do
    match (← get).write? path text with
    | some t => set t; return true
    | none => return false

def run (t : FileTree) (arguments : List String) : Outcome × FileTree :=
  (access.run arguments).run t

def ofTexts (files : List (String × String)) (directories : List String) : FileTree :=
  ⟨files.map fun (path, text) => (.ofText path, text), directories.map .ofText⟩

end FileTree

end PascalX86
