import PascalX86.Assembly.Text
import PascalX86.Diagnostic
import PascalX86.Invocation.Options
import PascalX86.Lowering.Program
import PascalX86.Parser.Declaration
import PascalX86.Tree.Printer

/-!
# Runs

What an invocation does with a source and with the files around it. An error takes the place of
every result that it prevents.
-/

set_option autoImplicit false

namespace PascalX86

def tokensFile : String := "tokens.txt"

def treeFile : String := "syntax_tree.txt"

def assemblyFile : String := "asm_code.txt"

namespace Product

def files : Product → List String
  | .tokens => [tokensFile]
  | .tree => [treeFile]
  | .assembly => [treeFile, assemblyFile]

end Product

/-- The results of a compilation: texts by file, an exit status and a report for the user. -/
structure Compilation where
  texts : List (String × String)
  status : Nat
  report : String

namespace Compilation

def success (texts : List (String × String)) : Compilation := ⟨texts, 0, ""⟩

def failure (source : Source) (texts : List (String × String)) (files : List String)
    (e : CompileError) : Compilation :=
  ⟨texts ++ files.map (·, e.message), e.exitCode, e.diagnostics source⟩

end Compilation

def Source.compileTree (source : Source) (product : Product) : Compilation :=
  match source.program with
  | .error e => .failure source [] product.files e
  | .ok program =>
      let tree := (treeFile, program.listing)
      if product = .assembly then
        match program.lower with
        | .ok listing => .success [tree, (assemblyFile, listing.text)]
        | .error e => .failure source [tree] [assemblyFile] (.lowering e)
      else
        .success [tree]

def Source.compile (source : Source) (product : Product) : Compilation :=
  match product with
  | .tokens =>
      match source.tokens with
      | .ok tokens => .success [(tokensFile, tokenTable tokens)]
      | .error e => .failure source [] product.files (.lexical e)
  | .tree | .assembly => source.compileTree product

structure FileAccess (m : Type → Type) where
  open? : String → m (Option Source)
  -- Replaces what is in a file, and answers whether that succeeded.
  write : String → String → m Bool

structure Outcome where
  status : Nat
  output : String
  report : String

namespace Outcome

def usage : String :=
  "usage: pascalx86 (-l FILE | -s FILE | -g FILE) [-o DIR]\n\n" ++
    "  -l FILE            write the token table\n" ++
    "  -s FILE            write the typed syntax tree\n" ++
    "  -g FILE            write the syntax tree and the assembly listing\n" ++
    "  -o, --output DIR   directory to write to\n" ++
    "  -h, --help         show this text\n" ++
    "  -V, --version      show the version\n"

def version : String := "pascalx86 1.0.0\n"

def abort (reason : String) : Outcome := ⟨1, "", s!"error: {reason}\n"⟩

end Outcome

def pathIn (directory file : String) : String :=
  if directory.isEmpty || directory.endsWith "/" then directory ++ file
  else directory ++ "/" ++ file

namespace FileAccess

-- Writes texts in order. The answer is the first path that failed.
def writeAll {m : Type → Type} [Monad m] (files : FileAccess m) (directory : String) :
    List (String × String) → m (Option String)
  | [] => return none
  | (file, text) :: rest => do
      let path := pathIn directory file
      if ← files.write path text then files.writeAll directory rest
      else return some path

def runJob {m : Type → Type} [Monad m] (files : FileAccess m) (job : Job) : m Outcome := do
  match ← files.open? job.input with
  | none => return .abort s!"Failed to open for reading: {job.input}"
  | some source =>
      let compilation := source.compile job.product
      match ← files.writeAll job.directory compilation.texts with
      | some path => return .abort s!"Failed to write to file: {path}"
      | none => return ⟨compilation.status, "", compilation.report⟩

def run {m : Type → Type} [Monad m] (files : FileAccess m) (arguments : List String) :
    m Outcome :=
  match Invocation.ofArguments arguments with
  | .run job => files.runJob job
  | .help => return ⟨0, Outcome.usage, ""⟩
  | .version => return ⟨0, Outcome.version, ""⟩
  | .misuse e => return .abort (e.message ++ "\n\n" ++ Outcome.usage)

end FileAccess

end PascalX86
