import PascalX86.Proofs.Output.Statement

/-!
# Formats of output statements

The format of an output statement is read as the text of its constants and a conversion for each other
argument, in order, and each conversion has an operand of its width. All of this is in one call, which
is left out if there is nothing to show.
-/

set_option autoImplicit false

namespace PascalX86

open Register

/-- Commands that show text. -/
def Command.prints : Command → Bool
  | .instruction .printf _ => true
  | _ => false

def Code.Silent (code : Code) : Prop := ∀ c ∈ code, c.prints = false

namespace Code

variable {code first second : Code}

theorem Silent.nil : Code.Silent [] := fun _ mem => absurd mem List.not_mem_nil

theorem Silent.append (h : first.Silent) (h' : second.Silent) : Code.Silent (first ++ second) :=
  List.forall_mem_append.mpr ⟨h, h'⟩

theorem Silent.pushMemory (x : Memory) (size : Nat) : Code.Silent (pushMemory x size) := by
  unfold PascalX86.pushMemory Silent
  exact List.forall_mem_map.mpr fun _ _ => rfl

theorem Silent.popMemory (x : Memory) (size : Nat) : Code.Silent (popMemory x size) := by
  unfold PascalX86.popMemory Silent
  exact List.forall_mem_map.mpr fun _ _ => rfl

theorem Silent.discard (size : Nat) : Code.Silent (discard size) := by
  unfold PascalX86.discard
  split
  · exact .nil
  · exact List.forall_mem_singleton.mpr rfl

end Code

namespace Reference

variable {r : Reference}

theorem silent_displaced (silent : r.code.Silent) (bytes : Int32) : (r.displaced bytes).code.Silent := by
  obtain ⟨code, place⟩ := r
  cases place with
  | memory x => exact silent
  | stack =>
      simp only [displaced]
      split
      · exact silent
      · exact silent.append (List.forall_mem_singleton.mpr rfl)

theorem silent_address (silent : r.code.Silent) : r.address.Silent := by
  obtain ⟨code, place⟩ := r
  cases place with
  | memory x => exact silent.append (List.forall_mem_cons.mpr ⟨rfl, List.forall_mem_singleton.mpr rfl⟩)
  | stack => exact silent

theorem silent_load (silent : r.code.Silent) (size : Nat) : (r.load size).Silent := by
  refine Code.Silent.append ?_ (.pushMemory _ size)
  obtain ⟨code, place⟩ := r
  cases place with
  | memory x => exact silent
  | stack => exact silent.append (List.forall_mem_singleton.mpr rfl)

end Reference

section Pieces

variable {f : Frames} {code : Code} {info : NodeInfo} {r : Reference}

theorem Frames.silent_reference {span : Span} {symbol : Symbol} (lowered : f.reference span symbol = .ok r) :
    r.code.Silent := by
  have pointer (level : Nat) : (f.pointer level).1.Silent := by
    unfold Frames.pointer
    split
    · exact .nil
    · exact List.forall_mem_singleton.mpr rfl
  unfold Frames.reference at lowered
  split at lowered
  · cases lowered
  · obtain ⟨d, -, lowered⟩ := bind_eq_ok.mp lowered
    split at lowered
    · cases lowered
      exact (pointer _).append (List.forall_mem_singleton.mpr rfl)
    · cases lowered
      exact pointer _

theorem Value.silent_push (v : Value) : v.push.Silent := List.forall_mem_map.mpr fun _ _ => rfl

theorem silent_constant {value : Value} (lowered : constantCode info value = .ok code) : code.Silent := by
  unfold constantCode at lowered
  split at lowered
  · cases lowered
  · cases lowered
    exact value.silent_push

theorem silent_element {array : Ty} {base : Lowered Reference} {constant? : Option Int32}
    {index : Lowered Code} (silent : ∀ r, base = .ok r → r.code.Silent)
    (silent' : ∀ code, index = .ok code → code.Silent)
    (lowered : elementReference info array base constant? index = .ok r) : r.code.Silent := by
  unfold elementReference at lowered
  split at lowered
  · split at lowered
    · obtain ⟨r, found, eq⟩ := bind_eq_ok.mp lowered
      cases eq
      exact Reference.silent_displaced (silent r found) _
    · obtain ⟨r, found, lowered⟩ := bind_eq_ok.mp lowered
      obtain ⟨own, subscript, eq⟩ := bind_eq_ok.mp lowered
      cases eq
      refine ((Reference.silent_address (silent r found)).append (silent' own subscript)).append ?_
      unfold Code.Silent
      split <;> split <;> simp [Command.prints]
  · cases lowered

theorem silent_negate (type : Ty) : (negateCode type).Silent := by
  unfold negateCode
  split <;> exact List.forall_mem_singleton.mpr rfl

theorem silent_complement (type : Ty) : (complementCode type).Silent := by
  unfold complementCode Code.Silent
  split <;> simp [popDouble, pushTruth, Command.prints]

theorem silent_cast {source : Ty} {operand : Lowered Code} (silent : ∀ code, operand = .ok code → code.Silent)
    (lowered : castCode info source operand = .ok code) : code.Silent := by
  unfold castCode at lowered
  split at lowered
  all_goals first
    | exact silent code lowered
    | cases lowered
    | obtain ⟨inner, found, eq⟩ := bind_eq_ok.mp lowered
      cases eq
      refine (silent inner found).append ?_
      simp [Code.Silent, widenCode, storeDouble, Command.prints]

theorem silent_binary {left right : Lowered Code} {op : Operator} {operands : Ty}
    (silent : ∀ code, left = .ok code → code.Silent) (silent' : ∀ code, right = .ok code → code.Silent)
    (lowered : binaryCode info op operands left right = .ok code) : code.Silent := by
  unfold binaryCode at lowered
  split at lowered
  · cases lowered
  · obtain ⟨l, found, lowered⟩ := bind_eq_ok.mp lowered
    obtain ⟨r, found', lowered⟩ := bind_eq_ok.mp lowered
    split at lowered
    · next own known =>
      cases lowered
      refine ((silent l found).append (silent' r found')).append ?_
      obtain ⟨core, known, rfl⟩ := Option.map_eq_some_iff.mp known
      have quiet : core.Silent := by
        cases op <;> cases known <;> unfold Code.Silent <;> decide
      exact Code.Silent.append (by unfold Code.Silent; decide) quiet
    · cases lowered
  · obtain ⟨l, found, lowered⟩ := bind_eq_ok.mp lowered
    obtain ⟨r, found', eq⟩ := bind_eq_ok.mp lowered
    cases eq
    refine ((silent l found).append (silent' r found')).append ?_
    cases op <;> unfold Code.Silent <;> decide

theorem silent_result {span : Span} {type : Ty} (lowered : resultCode span type = .ok code) : code.Silent := by
  unfold resultCode at lowered
  split at lowered <;> cases lowered <;> unfold Code.Silent <;> decide

end Pieces

section Trees

variable {f : Frames}

mutual

/-- The code of an expression shows nothing itself. -/
theorem Expr.silent_reference : ∀ {e : Expr} {r : Reference}, e.reference f = .ok r → r.code.Silent
  | .var .., r, lowered => by
      rw [Expr.reference] at lowered
      exact Frames.silent_reference lowered
  | .index info array index, r, lowered => by
      rw [Expr.reference] at lowered
      exact silent_element (fun _ => Expr.silent_reference) (fun _ => Expr.silent) lowered
  | .field info record field, r, lowered => by
      rw [Expr.reference] at lowered
      obtain ⟨r, found, eq⟩ := bind_eq_ok.mp lowered
      cases eq
      exact Reference.silent_displaced (Expr.silent_reference found) _
  | .const .., _, lowered | .aggregate .., _, lowered | .negate .., _, lowered
  | .complement .., _, lowered | .binary .., _, lowered | .cast .., _, lowered | .call .., _, lowered => by
      simp [Expr.reference, malformed] at lowered

theorem Expr.silent : ∀ {e : Expr} {code : Code}, e.code f = .ok code → code.Silent
  | .var .., code, lowered => by
      rw [Expr.code] at lowered
      obtain ⟨r, found, eq⟩ := bind_eq_ok.mp lowered
      cases eq
      exact Reference.silent_load (Frames.silent_reference found) _
  | .index info array index, code, lowered => by
      rw [Expr.code] at lowered
      obtain ⟨r, found, eq⟩ := bind_eq_ok.mp lowered
      cases eq
      exact Reference.silent_load
        (silent_element (fun _ => Expr.silent_reference) (fun _ => Expr.silent) found) _
  | .field info record field, code, lowered => by
      rw [Expr.code] at lowered
      obtain ⟨r, found, eq⟩ := bind_eq_ok.mp lowered
      cases eq
      exact Reference.silent_load (Reference.silent_displaced (Expr.silent_reference found) _) _
  | .const info value, code, lowered | .aggregate info value, code, lowered => by
      rw [Expr.code] at lowered
      exact silent_constant lowered
  | .negate info operand, code, lowered => by
      rw [Expr.code] at lowered
      obtain ⟨own, found, eq⟩ := bind_eq_ok.mp lowered
      cases eq
      exact (Expr.silent found).append (silent_negate info.type)
  | .complement info operand, code, lowered => by
      rw [Expr.code] at lowered
      obtain ⟨own, found, eq⟩ := bind_eq_ok.mp lowered
      cases eq
      exact (Expr.silent found).append (silent_complement operand.type)
  | .binary info op left right, code, lowered => by
      rw [Expr.code] at lowered
      exact silent_binary (fun _ => Expr.silent) (fun _ => Expr.silent) lowered
  | .cast info operand, code, lowered => by
      rw [Expr.code] at lowered
      exact silent_cast (fun _ => Expr.silent) lowered
  | .call info function arguments, code, lowered => by
      rw [Expr.code] at lowered
      obtain ⟨pushes, found, lowered⟩ := bind_eq_ok.mp lowered
      obtain ⟨result, found', eq⟩ := bind_eq_ok.mp lowered
      cases eq
      have call : Code.Silent (.instruction .call [.raw function.label] :: discard function.block) :=
        List.forall_mem_cons.mpr ⟨rfl, Code.Silent.discard function.block⟩
      exact ((silent_arguments found).append call).append (silent_result found')

theorem silent_arguments : ∀ {parameters : List Parameter} {arguments : List Expr} {code : Code},
    argumentsCode f parameters arguments = .ok code → code.Silent
  | [], _, code, lowered | _ :: _, [], code, lowered => by
      simp only [argumentsCode] at lowered
      cases lowered
      exact .nil
  | p :: parameters, e :: arguments, code, lowered => by
      rw [argumentsCode_cons] at lowered
      obtain ⟨own, found, lowered⟩ := bind_eq_ok.mp lowered
      obtain ⟨later, remaining, eq⟩ := bind_eq_ok.mp lowered
      cases eq
      refine Code.Silent.append ?_ (silent_arguments remaining)
      unfold argumentCode at found
      split at found
      · cases reference : e.reference f with
        | error fault => simp [reference] at found
        | ok r =>
            rw [reference] at found
            cases found
            exact Reference.silent_address (Expr.silent_reference reference)
      · exact Expr.silent found
      · exact Expr.silent found

end

end Trees

namespace Format

variable {pieces : List Piece} {c : Char}

theorem plain_of_all {text : List Char} (plain : text.all (fun c => c ≠ '"' && c ≠ '\n') = true)
    (mem : c ∈ text) : c ≠ '"' ∧ c ≠ '\n' := by
  simpa using List.all_eq_true.mp plain c mem

/-- A format can stand between quotes, on one line. -/
theorem plain_escape (d : Char) (mem : c ∈ (escape d).toList) : c ≠ '"' ∧ c ≠ '\n' := by
  unfold escape at mem
  split at mem
  case h_6 percent backslash quote newline tab =>
    rw [String.toList_ofList, List.mem_singleton] at mem
    subst mem
    exact ⟨quote, newline⟩
  all_goals exact plain_of_all (by decide) mem

theorem plain_conversion (k : Conversion) (mem : c ∈ k.text.toList) : c ≠ '"' ∧ c ≠ '\n' := by
  refine plain_of_all ?_ mem
  cases k <;> decide

theorem plain_encode (mem : c ∈ (encode pieces).toList) : c ≠ '"' ∧ c ≠ '\n' := by
  induction pieces with
  | nil => cases mem
  | cons piece pieces ih =>
      rw [encode, String.toList_append, List.mem_append] at mem
      rcases mem with mem | mem
      · cases piece with
        | text s =>
            rw [Piece.encode, String.toList_join, List.mem_flatMap] at mem
            obtain ⟨part, found, mem⟩ := mem
            obtain ⟨d, -, rfl⟩ := List.mem_map.mp found
            exact plain_escape d mem
        | conversion k => exact plain_conversion k mem
      · exact ih mem

/-- A format is empty only if it says nothing. -/
theorem encode_eq_empty : encode pieces = "" ↔ pieces.flatMap Piece.signs = [] := by
  constructor
  · intro empty
    rw [← read_encode, empty]
    rfl
  · intro nothing
    induction pieces with
    | nil => rfl
    | cons piece pieces ih =>
        rw [List.flatMap_cons, List.append_eq_nil_iff] at nothing
        rw [encode, ih nothing.2, String.append_empty]
        cases piece with
        | text s => rw [Piece.encode, List.map_eq_nil_iff.mp nothing.1, List.map_nil, String.join_nil]
        | conversion k => cases nothing.1

end Format

section Outputs

variable {f : Frames} {used : Nat} {arguments : List Expr} {output : Output} {e : Expr}

/-- An operand that an argument is shown from: its own cell, or one that its value is moved to. -/
def Expr.ShownFrom (f : Frames) (code : Code) (e : Expr) (x : Memory) : Prop :=
  ∃ conversion cell, Conversion.ofType? e.type = some conversion ∧ x = cell.sized conversion.width ∧
    (e.direct? f = some cell ∨ e.direct? f = none ∧ ∃ own, e.code f = .ok own ∧
      own ++ popMemory cell e.type.size <:+: code)

theorem Expr.ShownFrom.mono {x : Memory} {inner outer : Code} (shown : e.ShownFrom f inner x)
    (part : inner <:+: outer) : e.ShownFrom f outer x := by
  obtain ⟨conversion, cell, type, eq, direct | ⟨indirect, own, lowered, inside⟩⟩ := shown
  · exact ⟨conversion, cell, type, eq, .inl direct⟩
  · exact ⟨conversion, cell, type, eq, .inr ⟨indirect, own, lowered, inside.trans part⟩⟩

theorem outputOf_silent (lowered : outputOf f used arguments = .ok output) : output.code.Silent := by
  induction arguments generalizing used output with
  | nil =>
      cases lowered
      exact .nil
  | cons e arguments ih =>
      rcases outputOf_cons lowered with ⟨value, text, rest, -, -, found, rfl⟩ |
        ⟨-, conversion, -, ⟨cell, rest, -, found, rfl⟩ | ⟨code, rest, -, evaluated, found, rfl⟩⟩
      · have later := ih found
        exact later
      · have later := ih found
        exact later
      · exact ((Expr.silent evaluated).append (.popMemory _ _)).append (ih found)

/-- What an output statement says for an argument. -/
inductive Expr.Says (e : Expr) : List Format.Sign → Prop where
  | constant {value : Value} {text : String} (known : e.value? = some value)
      (written : value.output? = some text) : Says e (text.toList.map .character)
  | integer (unknown : e.value? = none) (type : e.type = .integer) : Says e [.conversion .decimal]
  | char (unknown : e.value? = none) (type : e.type = .char) : Says e [.conversion .character]
  | double (unknown : e.value? = none) (type : e.type = .double) : Says e [.conversion .float]

theorem outputOf_says (lowered : outputOf f used arguments = .ok output) (mem : e ∈ arguments) :
    e.Says e.signs := by
  obtain ⟨alone, lowered⟩ := outputOf_alone lowered e mem 0
  rcases outputOf_cons lowered with ⟨value, text, -, known, written, -⟩ | ⟨unknown, conversion, shown, -⟩
  · rw [Expr.signs_of_value? known written]
    exact .constant known written
  · rw [Expr.signs_of_type unknown shown]
    unfold Conversion.ofType? at shown
    split at shown <;> cases shown
    · next type => exact .integer unknown type
    · next type => exact .char unknown type
    · next type => exact .double unknown type

/-- The operands are those of the arguments that are no constants, in order. -/
theorem outputOf_operands (lowered : outputOf f used arguments = .ok output) :
    List.Forall₂ (Expr.ShownFrom f output.code) (arguments.filter (·.value?.isNone)) output.operands := by
  induction arguments generalizing used output with
  | nil =>
      cases lowered
      exact .nil
  | cons e arguments ih =>
      rcases outputOf_cons lowered with ⟨value, text, rest, known, -, found, rfl⟩ |
        ⟨unknown, conversion, shown, ⟨cell, rest, direct, found, rfl⟩ |
          ⟨code, rest, indirect, evaluated, found, rfl⟩⟩
      · rw [List.filter_cons_of_neg (by simp [known])]
        have later := ih found
        exact later
      · rw [List.filter_cons_of_pos (by simp [unknown])]
        exact .cons ⟨conversion, cell, shown, rfl, .inl direct⟩ (ih found)
      · rw [List.filter_cons_of_pos (by simp [unknown])]
        refine .cons ⟨conversion, _, shown, rfl, .inr ⟨indirect, code, evaluated, ?_⟩⟩ ?_
        · exact (List.prefix_append _ rest.code).isInfix
        · exact (ih found).imp fun _ _ shown => shown.mono (List.suffix_append _ _).isInfix

theorem outputOf_widths (lowered : outputOf f used arguments = .ok output) :
    output.operands.map Memory.width =
      (Format.conversions (arguments.flatMap Expr.signs)).map Conversion.width := by
  induction arguments generalizing used output with
  | nil =>
      cases lowered
      rfl
  | cons e arguments ih =>
      rw [List.flatMap_cons, Format.conversions, List.filterMap_append, List.map_append]
      rcases outputOf_cons lowered with ⟨value, text, rest, known, -, found, rfl⟩ |
        ⟨unknown, conversion, shown, ⟨cell, rest, -, found, rfl⟩ | ⟨code, rest, -, -, found, rfl⟩⟩
      · have none := Expr.conversions_of_value? known
        rw [Format.conversions] at none
        rw [none]
        have later := ih found
        exact later
      · rw [Expr.signs_of_type unknown shown]
        exact congrArg (List.cons conversion.width) (ih found)
      · rw [Expr.signs_of_type unknown shown]
        exact congrArg (List.cons conversion.width) (ih found)

end Outputs

/-- What the format of an output statement says. -/
def Stmt.text (arguments : List Expr) (newline : Bool) : List Format.Sign :=
  arguments.flatMap Expr.signs ++ newlineSigns newline

theorem Output.printing_cases {f : Frames} {used : Nat} {arguments : List Expr} {output : Output}
    (lowered : outputOf f used arguments = .ok output) (newline : Bool) :
    (Stmt.text arguments newline = [] ∧ output.printing newline = []) ∨
      Stmt.text arguments newline ≠ [] ∧ ∃ format : String,
        output.printing newline =
          [.instruction .printf (.raw s!"\"{format}\"" :: output.operands.map Operand.memory)] ∧
        Format.read format.toList = Stmt.text arguments newline ∧
        '"' ∉ format.toList ∧ '\n' ∉ format.toList := by
  have read := output.read_format newline
  rw [outputOf_signs lowered] at read
  unfold Output.printing
  dsimp only
  split
  · next empty =>
    rw [String.isEmpty_iff, Format.encode_eq_empty, ← Format.read_encode, read] at empty
    exact .inl ⟨empty, rfl⟩
  · next more =>
    rw [String.isEmpty_iff, Format.encode_eq_empty, ← Format.read_encode, read] at more
    exact .inr ⟨more, _, rfl, read, fun mem => (Format.plain_encode mem).1 rfl,
      fun mem => (Format.plain_encode mem).2 rfl⟩

/-- The format of an output statement says what its arguments say, in order, and its conversions take
one operand each. -/
theorem Stmt.format_faithful {f : Frames} {loop? : Option Loop} {used label : Nat} {info : NodeInfo}
    {arguments : List Expr} {newline : Bool} {code : Code}
    (lowered : (Stmt.write info arguments newline).code f loop? used label = .ok code) :
    (∀ e ∈ arguments, e.Says e.signs) ∧
      ∃ evaluation operands, Code.Silent evaluation ∧
        List.Forall₂ (Expr.ShownFrom f evaluation) (arguments.filter (·.value?.isNone)) operands ∧
        operands.map Memory.width = (Format.conversions (Stmt.text arguments newline)).map
          (fun c => if c = .float then .qword else .dword) ∧
        ((Stmt.text arguments newline = [] ∧ code = evaluation) ∨
          Stmt.text arguments newline ≠ [] ∧ ∃ format : String,
            code = evaluation ++
              [.instruction .printf (.raw s!"\"{format}\"" :: operands.map Operand.memory)] ∧
            Format.read format.toList = Stmt.text arguments newline ∧
            '"' ∉ format.toList ∧ '\n' ∉ format.toList) := by
  rw [Stmt.code] at lowered
  obtain ⟨output, found, rfl⟩ := writeCode_eq_ok.mp lowered
  refine ⟨fun e mem => outputOf_says found mem, output.code, output.operands, outputOf_silent found,
    outputOf_operands found, ?_, ?_⟩
  · have ending : Format.conversions (newlineSigns newline) = [] := by cases newline <;> rfl
    have widths : Conversion.width = fun c => if c = .float then Width.qword else .dword := by
      funext c
      cases c <;> rfl
    rw [outputOf_widths found, widths]
    unfold Stmt.text Format.conversions
    rw [List.filterMap_append, show (newlineSigns newline).filterMap _ = [] from ending, List.append_nil]
  · rcases Output.printing_cases found newline with ⟨nothing, silent⟩ | ⟨more, format, prints, faithful⟩
    · rw [silent, List.append_nil]
      exact .inl ⟨nothing, rfl⟩
    · rw [prints]
      exact .inr ⟨more, format, rfl, faithful⟩

def Source.boundary : Source :=
  ⟨"input.pas", ["var d: double; begin writeln('\\', 'n', 100, '%', d, 'd'); end."], .endOfFile⟩

/-- The arguments of a program that writes one line. -/
def Program.line? (p : Program) : Option (NodeInfo × List Expr) :=
  match p.main.body with
  | .block _ [.write info arguments true] => some (info, arguments)
  | _ => none

def Source.boundaryText : List Format.Sign :=
  "\\n100%".toList.map .character ++ [.conversion .float, .character 'd', .character '\n']

theorem Source.boundary_line : Source.boundary.program.toOption.map (fun p => p.line?.any fun (info, arguments) =>
    ((Stmt.write info arguments true).code (p.main.frames []) none 8 0).toOption.isSome &&
      decide (Stmt.text arguments true = boundaryText)) = some true := by
  decide +kernel

-- A backslash that ends a constant does not escape what follows, nor does a percent sign.
theorem Source.boundary_faithful : ∃ p info arguments code, Source.boundary.program = .ok p ∧
    p.line? = some (info, arguments) ∧
    (Stmt.write info arguments true).code (p.main.frames []) none 8 0 = .ok code ∧
    ∃ evaluation, ∃ operands : List Memory, ∃ format : String,
      code = evaluation ++
        [.instruction .printf (.raw s!"\"{format}\"" :: operands.map Operand.memory)] ∧
      Format.read format.toList = boundaryText ∧ operands.map Memory.width = [.qword] := by
  obtain ⟨p, accepted, known⟩ := exists_of_map_toOption Source.boundary_line
  obtain ⟨⟨info, arguments⟩, line, known⟩ := (Option.any_eq_true _ _).mp known
  rw [Bool.and_eq_true, decide_eq_true_eq] at known
  obtain ⟨lowers, text⟩ := known
  cases lowered : (Stmt.write info arguments true).code (p.main.frames []) none 8 0 with
  | error fault =>
      rw [lowered] at lowers
      cases lowers
  | ok code =>
      obtain ⟨-, evaluation, operands, -, -, widths, ⟨nothing, -⟩ | ⟨-, format, whole, read, -⟩⟩ :=
        Stmt.format_faithful lowered
      · rw [text] at nothing
        cases nothing
      · rw [text] at read widths
        exact ⟨p, info, arguments, code, accepted, line, lowered, evaluation, operands, format, whole, read,
          widths⟩

end PascalX86
