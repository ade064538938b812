/-!
# Options

How the arguments of an invocation are read. One of the options `-l`, `-s` and `-g` names the source
and says what to make of it; `-o` or `--output` names the directory for the results.
-/

set_option autoImplicit false

namespace PascalX86

inductive Product where
  | tokens
  | tree
  | assembly
  deriving DecidableEq, Repr

structure Job where
  product : Product
  input : String
  directory : String
  deriving DecidableEq, Repr

inductive UsageError where
  | unexpected (argument : String)
  | missingValue (option : String)
  | repeated (option : String)
  | noInput
  | severalInputs
  deriving DecidableEq, Repr

def UsageError.message : UsageError → String
  | .unexpected argument => s!"Unexpected argument `{argument}`"
  | .missingValue option => s!"Option {option} needs a value"
  | .repeated option => s!"Option {option} is given more than once"
  | .noInput => "One of -l, -s and -g is required"
  | .severalInputs => "Only one of -l, -s and -g can be given"

inductive Invocation where
  | run (job : Job)
  | help
  | version
  | misuse (e : UsageError)
  deriving DecidableEq, Repr

namespace Invocation

inductive Setting where
  | input (product : Product)
  | output
  deriving DecidableEq, Repr

def Setting.text : Setting → String
  | .input .tokens => "-l"
  | .input .tree => "-s"
  | .input .assembly => "-g"
  | .output => "-o"

inductive Argument where
  -- The value, if there is one, is part of the argument.
  | setting (s : Setting) (value? : Option String)
  | help
  | version
  -- Everything after it is a value without an option.
  | separator
  | other

def Argument.ofLetter (letter : Char) (attached : List Char) : Argument :=
  let value? :=
    match attached with
    | [] => none
    | '=' :: value => some (String.ofList value)
    | value => some (String.ofList value)
  match letter with
  | 'l' => .setting (.input .tokens) value?
  | 's' => .setting (.input .tree) value?
  | 'g' => .setting (.input .assembly) value?
  | 'o' => .setting .output value?
  | 'h' => .help
  | 'V' => .version
  | _ => .other

def Argument.ofWord (word : List Char) : Argument :=
  let name := String.ofList (word.takeWhile (· != '='))
  match name, word.dropWhile (· != '=') with
  | "output", [] => .setting .output none
  | "output", _ :: value => .setting .output (some (String.ofList value))
  | "help", [] => .help
  | "version", [] => .version
  | _, _ => .other

def Argument.ofText (text : String) : Argument :=
  match text.toList with
  | ['-', '-'] => .separator
  | '-' :: '-' :: word => .ofWord word
  | '-' :: letter :: attached => .ofLetter letter attached
  | _ => .other

def isValue (text : String) : Bool :=
  match text.toList with
  | '-' :: _ :: _ => false
  | _ => true

/-- The settings in order, with their values as far as they have one. What ends the reading, such as
a request for help, ends it at once. -/
def settings : List String → Except Invocation (List (Setting × Option String))
  | [] => .ok []
  | [last] =>
      match Argument.ofText last with
      | .setting s value? => .ok [(s, value?)]
      | .help => .error .help
      | .version => .error .version
      | .separator => .ok []
      | .other => .error (.misuse (.unexpected last))
  | a :: b :: rest =>
      match Argument.ofText a with
      | .setting s (some value) => return (s, some value) :: (← settings (b :: rest))
      | .setting s none =>
          if isValue b then return (s, some b) :: (← settings rest)
          else return (s, none) :: (← settings (b :: rest))
      | .help => .error .help
      | .version => .error .version
      | .separator => .error (.misuse (.unexpected b))
      | .other => .error (.misuse (.unexpected a))

def checked : List (Setting × Option String) → Except UsageError (List (Setting × String))
  | [] => .ok []
  | (s, none) :: _ => .error (.missingValue s.text)
  | (s, some value) :: rest =>
      if rest.any fun (t, _) => t = s then .error (.repeated s.text)
      else return (s, value) :: (← checked rest)

def inputOf : Setting × String → Option (Product × String)
  | (.input product, file) => some (product, file)
  | (.output, _) => none

-- Results go to the working directory unless another one is named.
def job (given : List (Setting × String)) : Except UsageError Job :=
  match given.filterMap inputOf with
  | [(product, input)] => .ok ⟨product, input, (given.lookup .output).getD "."⟩
  | [] => .error .noInput
  | _ => .error .severalInputs

def ofArguments (arguments : List String) : Invocation :=
  match settings arguments with
  | .error invocation => invocation
  | .ok given =>
      match checked given >>= job with
      | .ok job => .run job
      | .error e => .misuse e

end Invocation

end PascalX86
