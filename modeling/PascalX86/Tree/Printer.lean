import PascalX86.Tree.Outline

/-!
# Tree listings

The text of a program's typed tree, one line per declaration and per node.
-/

set_option autoImplicit false

namespace PascalX86

def Shape.text : Shape → String
  | .var symbol => symbol.name.value.spelling
  | .negate => "-"
  | .complement => "not"
  | .binary op => op.text
  | .const value | .aggregate value => value.text
  | .cast => "cast"
  | .index => "[]"
  | .field f => "." ++ f.name.spelling
  | .assign => ":="
  | .if => "if"
  | .while => "while"
  | .for .up => "for to"
  | .for .down => "for downto"
  | .continue => "continue"
  | .break => "break"
  | .read false => "read"
  | .read true => "readln"
  | .write false => "write"
  | .write true => "writeln"
  | .call function => function.name.value.spelling ++ "()"
  | .block => "begin"

-- A node is shown with its type, if it has a value.
def Entry.text (e : Entry) : String :=
  match e.info.type with
  | .nil => e.shape.text
  | type => e.shape.text ++ " : " ++ type.text

mutual

/-- The lines of a tree. Each is indented by a rail for every ancestor that has siblings to come. -/
def Outline.lines (rails : String) (isLast : Bool) : Outline → List String
  | .node entry children =>
      let here := rails ++ (if isLast then "--- " else "|-- ") ++ entry.text
      here :: Outline.childLines (rails ++ (if isLast then "    " else "|   ")) children

def Outline.childLines (rails : String) : List Outline → List String
  | [] => []
  | o :: rest => o.lines rails rest.isEmpty ++ Outline.childLines rails rest

end

def Symbol.declaration (s : Symbol) : String :=
  let name := s.name.value.spelling
  match s.role with
  | .typeName => s!"type {name} = {s.type.text}"
  | .constant value _ => s!"const {name} : {s.type.text} = {value.text}"
  | .function _ => s.type.text
  | .variable _ | .parameter .. => s!"var {name} : {s.type.text}"

def Parameter.declaration (p : Parameter) : String :=
  let mark := if p.mode = .byReference then "var " else ""
  s!"{mark}{p.name.value.spelling}: {p.type.text}"

def Signature.header (s : Signature) : String :=
  let parameters := "; ".intercalate (s.parameters.map Parameter.declaration)
  s!"{s.name.value.spelling} : function({parameters}) : {s.result.text}"

def Function.lines (f : Function) : List String :=
  f.signature.header :: f.locals.symbols.map (fun s => "|-- " ++ s.declaration)
    ++ f.body.outline.lines "" true

def joinLines (lines : List String) : String :=
  String.join (lines.map fun line => line ++ "\n")

def Program.listing (p : Program) : String :=
  joinLines (p.functions.flatMap (fun f => f.lines ++ [""]) ++ p.main.lines)

end PascalX86
