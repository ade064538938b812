import PascalX86.Error.Compile

/-!
# Diagnostics

Reports of an error with the source lines it concerns.
-/

set_option autoImplicit false

namespace PascalX86.Diagnostic

def empty : String := "No errors were reported\n"

def defaultLabel : String := "error"

def padLeft (width : Nat) (text : String) : String :=
  "".pushn ' ' (width - text.length) ++ text

def margin (span : Span) : Nat := (toString span.stop.line).length

def excerpt (source : Source) (span : Span) : String :=
  let count := span.stop.line + 1 - span.start.line
  let numbers := (List.range count).map (· + span.start.line)
  String.join (numbers.filterMap fun number =>
    (source.line? number).map fun line =>
      s!"{padLeft (margin span) (toString number)} | {line}\n")

-- Marks the columns of the span, or the first column alone if it goes over several lines.
def underline (span : Span) : String :=
  let first := span.start.column
  let last :=
    if span.stop.line = span.start.line then max span.stop.column (first + 1) - 1 else first
  "".pushn ' ' (first - 1) ++ "".pushn '^' (last - first + 1)

def report (source : Source) (label reason : String) (span : Span) : String :=
  let indent := "".pushn ' ' (margin span)
  s!"{label}: {reason}\n --> {span.describe source.name}\n{indent} |\n{excerpt source span}" ++
    s!"{indent} | {underline span}\n\nBuild failed with 1 error\n"

end Diagnostic

def CompileError.diagnostics (e : CompileError) (source : Source) : String :=
  Diagnostic.report source e.kind.label e.reason e.span

end PascalX86
