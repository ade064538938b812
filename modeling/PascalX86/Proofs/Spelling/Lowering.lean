import PascalX86.Proofs.Lowering.Listing
import PascalX86.Proofs.Scanning.Lexeme
import PascalX86.Proofs.Spelling.Small

/-!
# Code without case

A tree whose names are in small letters has the code of the tree itself, with small letters in the
labels of its functions.
-/

set_option autoImplicit false

namespace PascalX86

open Register
open Spelled (small)

/-- Other names for labels, in calls as well. -/
def Command.relabel (φ : String → String) : Command → Command
  | .label name => .label (φ name)
  | .instruction .call [.raw name] => .instruction .call [.raw (φ name)]
  | c => c

def Listing.relabel (φ : String → String) (listing : Listing) : Listing :=
  { listing with code := listing.code.map (.relabel φ) }

instance : Spelled String := ⟨fun s => String.ofList (lowered s)⟩
instance : Spelled Command := ⟨.relabel small⟩
instance : Spelled Listing := ⟨.relabel small⟩
instance : Spelled Memory := ⟨fun m => m⟩
instance : Spelled Reference := ⟨fun r => { r with code := small r.code }⟩
instance : Spelled Output := ⟨fun output => { output with code := small output.code }⟩

section Labels

theorem lowered_append (first second : String) : lowered (first ++ second) = lowered first ++ lowered second := by
  simp [lowered]

theorem lowered_numbered (word : String) (n : Nat) :
    lowered (numbered word n) = lowered word ++ '_' :: Nat.toDigits 10 n := by
  have digits : (Nat.toDigits 10 n).map Char.toLower = Nat.toDigits 10 n := by
    refine (List.map_congr_left fun c mem => ?_).trans (List.map_id _)
    rcases toLower_cases c with ⟨low, high, -⟩ | ⟨-, same⟩
    · have digit := Nat.isDigit_of_mem_toDigits (by decide) (by decide) mem
      rw [Scan.isDigit_iff] at digit
      omega
    · exact same
  rw [lowered, toList_numbered, List.map_append, List.map_cons, digits]
  rfl

theorem small_numbered (word : String) (n : Nat) : small (numbered word n) = numbered (small word) n := by
  refine String.toList_injective ?_
  change (String.ofList (lowered (numbered word n))).toList = _
  rw [String.toList_ofList, lowered_numbered, toList_numbered]
  change _ = (String.ofList (lowered word)).toList ++ _
  rw [String.toList_ofList]

/-- Labels of functions follow their names. -/
theorem small_label (f : Signature) : (small f).label = small f.label := by
  have word : small ("fn_" ++ f.name.value.spelling) = "fn_" ++ (small f).name.value.spelling := by
    change String.ofList (lowered ("fn_" ++ f.name.value.spelling)) = _
    rw [lowered_append, String.ofList_append]
    rfl
  rw [Signature.label_eq, Signature.label_eq, small_numbered, word]
  rfl

end Labels

section Results

variable {α β : Type} [Spelled α] [Spelled β] {x y : Lowered α} {f g : α → Lowered β}

theorem small_bind (first : small x = y) (rest : ∀ a, small (f a) = g (small a)) :
    small (x >>= f) = y >>= g := by
  subst first
  cases x with
  | ok a => exact rest a
  | error e => rfl

theorem small_map {f g : α → β} (first : small x = y) (same : ∀ a, small (f a) = g (small a)) :
    small (f <$> x) = g <$> y := by
  subst first
  cases x with
  | ok a => exact congrArg Except.ok (same a)
  | error e => rfl

theorem small_pure (a : α) : small (pure a : Lowered α) = pure (small a) := rfl

theorem small_pure_append (as bs : List α) :
    small (pure (as ++ bs) : Lowered (List α)) = pure (small as ++ small bs) :=
  congrArg Except.ok (small_append as bs)

end Results

section Pieces

variable (m : Memory) (size : Nat) (r : Reference) (op : Operator) (type : Ty)

@[simp] theorem small_pushMemory : small (pushMemory m size) = pushMemory m size := by
  change List.map _ (List.map _ _) = _
  rw [List.map_map]
  rfl

@[simp] theorem small_popMemory : small (popMemory m size) = popMemory m size := by
  change List.map _ (List.map _ _) = _
  rw [List.map_map]
  rfl

@[simp] theorem small_push (v : Value) : small v.push = v.push := by
  change List.map _ (List.map _ _) = _
  rw [List.map_map]
  rfl

@[simp] theorem small_discard : small (discard size) = discard size := by
  unfold discard
  split <;> rfl

@[simp] theorem small_integerCode : small op.integerCode = op.integerCode := by
  cases op <;> rfl

variable {op} in
theorem small_doubleCode {code : Code} (known : op.doubleCode? = some code) : small code = code := by
  have same : small op.doubleCode? = op.doubleCode? := by cases op <;> rfl
  rw [known] at same
  exact Option.some.inj same

@[simp] theorem negateCode_small : negateCode (small type) = small (negateCode type) := by
  cases type <;> rfl

@[simp] theorem complementCode_small : complementCode (small type) = small (complementCode type) := by
  cases type <;> rfl

@[simp] theorem small_pointer (f : Frames) (level : Nat) : small (f.pointer level).1 = (f.pointer level).1 := by
  unfold Frames.pointer
  split <;> rfl

@[simp] theorem small_displaced (bytes : Int32) : (small r).displaced bytes = small (r.displaced bytes) := by
  obtain ⟨code, place⟩ := r
  cases place with
  | memory m => rfl
  | stack =>
      have eq (code : Code) : Reference.displaced ⟨code, .stack⟩ bytes = if bytes = 0 then ⟨code, .stack⟩
        else ⟨code ++ [.instruction .add [stackTop 0, .immediate bytes]], .stack⟩ := rfl
      change Reference.displaced ⟨small code, .stack⟩ bytes = _
      rw [eq, eq]
      by_cases zero : bytes = 0
      · rw [if_pos zero, if_pos zero]
        rfl
      · rw [if_neg zero, if_neg zero]
        change _ = Reference.mk (small (code ++ _)) _
        rw [small_append]
        rfl

@[simp] theorem small_address : (small r).address = small r.address := by
  obtain ⟨code, place⟩ := r
  cases place with
  | memory m =>
      exact (small_append code [.instruction .lea [eax, m], .instruction .push [eax]]).symm
  | stack => rfl

theorem small_resolve : (small r).resolve = (small r.resolve.1, r.resolve.2) := by
  obtain ⟨code, place⟩ := r
  cases place with
  | memory m => rfl
  | stack => exact congrArg (Prod.mk · (Memory.dword eax 0)) (small_append code [.instruction .pop [eax]]).symm

@[simp] theorem small_load : (small r).load size = small (r.load size) := by
  rw [Reference.load, Reference.load, small_resolve, small_append, small_pushMemory]

@[simp] theorem small_store : (small r).store size = small (r.store size) := by
  rw [Reference.store, Reference.store, small_resolve, small_append, small_popMemory]

end Pieces

section Nodes

variable (info : NodeInfo) (f : Frames) (span : Span) (symbol : Symbol)

theorem small_constantCode (value : Value) :
    small (constantCode info value) = constantCode (small info) value := by
  obtain ⟨id, span, type⟩ := info
  cases type with
  | string => rfl
  | _ => exact congrArg Except.ok (small_push value)

theorem small_castCode (source : Ty) (operand : Lowered Code) :
    small (castCode info source operand) = castCode (small info) (small source) (small operand) := by
  have widened : small (operand >>= fun code => pure (code ++ widenCode)) =
      small operand >>= fun code => pure (code ++ widenCode) :=
    small_bind rfl fun code => small_pure_append code _
  obtain ⟨id, span, type⟩ := info
  cases source <;> cases type <;> first | rfl | exact widened

theorem small_binaryCode (op : Operator) (operands : Ty) (left right : Lowered Code) :
    small (binaryCode info op operands left right) =
      binaryCode (small info) op (small operands) (small left) (small right) := by
  have integer : small (left >>= fun a => right >>= fun b => pure (a ++ b ++ op.integerCode)) =
      small left >>= fun a => small right >>= fun b => pure (a ++ b ++ op.integerCode) :=
    small_bind rfl fun a => small_bind rfl fun b => by
      rw [small_pure, small_append, small_append, small_integerCode]
  cases operands with
  | string => rfl
  | double =>
      refine small_bind rfl fun a => small_bind rfl fun b => ?_
      cases known : op.doubleCode? with
      | none => rfl
      | some code =>
          change small (pure (a ++ b ++ code) : Lowered Code) = pure (small a ++ small b ++ code)
          rw [small_pure, small_append, small_append, small_doubleCode known]
  | _ => exact integer

theorem small_resultCode (type : Ty) : small (resultCode span type) = resultCode span (small type) := by
  cases type <;> rfl

theorem small_elementReference (array : Ty) (base : Lowered Reference) (constant? : Option Int32)
    (subscript : Lowered Code) : small (elementReference info array base constant? subscript) =
      elementReference (small info) (small array) (small base) constant? (small subscript) := by
  cases array with
  | array low high element =>
      cases constant? with
      | some n =>
          refine small_bind rfl fun r => ?_
          rw [small_pure, small_displaced, Ty.size_small]
      | none =>
          refine small_bind rfl fun r => small_bind rfl fun code => ?_
          change Except.ok (Reference.mk (small (r.address ++ code ++ _)) .stack) =
            Except.ok (Reference.mk ((small r).address ++ small code ++ _) .stack)
          rw [small_append, small_append, small_address, Ty.size_small]
          split <;> split <;> rfl
  | _ => rfl

theorem small_callCode (function : Signature) (arguments : Lowered Code) :
    small (callCode info function arguments) = callCode (small info) (small function) (small arguments) := by
  refine small_bind rfl fun code => small_bind (small_resultCode _ _) fun result => ?_
  rw [small_pure, small_append, small_append, small_cons, small_discard, small_label]
  rfl

theorem small_displacement (slot : Slot) :
    small (f.displacement span symbol slot) = f.displacement span (small symbol) slot := by
  unfold Frames.displacement
  rw [storage_small]
  split <;> rfl

theorem small_variable : small (f.reference span symbol) = f.reference span (small symbol) := by
  unfold Frames.reference
  rw [slot?_small, kind_small]
  cases symbol.slot? with
  | none => rfl
  | some slot =>
      have plain := small_pointer f slot.level
      dsimp only
      generalize f.pointer slot.level = pointer at plain ⊢
      obtain ⟨code, base⟩ := pointer
      refine small_bind (small_displacement f span symbol slot) fun bytes => ?_
      have load : small [Command.instruction .mov [eax, Memory.dword base bytes]] =
        [.instruction .mov [eax, Memory.dword base bytes]] := rfl
      cases symbol.kind with
      | varParameter =>
          change Except.ok (Reference.mk (small (code ++ _)) (.memory (.dword eax 0))) = _
          rw [small_append, load, plain]
          rfl
      | _ =>
          change Except.ok (Reference.mk (small code) (.memory (.dword base bytes))) = _
          rw [plain]
          rfl

end Nodes

section Expressions

variable (f : Frames)

mutual

theorem Expr.small_reference : (e : Expr) → small (e.reference f) = (small e).reference f
  | .var info symbol => by
      change _ = (Expr.var (small info) (small symbol)).reference f
      rw [Expr.reference, Expr.reference]
      exact small_variable f info.span symbol
  | .index info array subscript => by
      change _ = (Expr.index (small info) (small array) (small subscript)).reference f
      rw [Expr.reference, Expr.reference, type_small, value?_small, ← Expr.small_reference array,
        ← Expr.small_code subscript]
      exact small_elementReference info _ _ _ _
  | .field info record field => by
      change _ = (Expr.field (small info) (small record) (small field)).reference f
      rw [Expr.reference, Expr.reference]
      refine small_bind (Expr.small_reference record) fun r => ?_
      rw [small_pure, ← small_displaced]
      rfl
  | .const _ _ | .aggregate _ _ | .negate _ _ | .complement _ _ | .binary _ _ _ _ | .cast _ _
  | .call _ _ _ => rfl

theorem Expr.small_code : (e : Expr) → small (e.code f) = (small e).code f
  | .var info symbol => by
      change _ = (Expr.var (small info) (small symbol)).code f
      rw [Expr.code, Expr.code]
      refine small_bind (small_variable f info.span symbol) fun r => ?_
      rw [small_pure, ← small_load, ← size_small]
      rfl
  | .index info array subscript => by
      change _ = (Expr.index (small info) (small array) (small subscript)).code f
      rw [Expr.code, Expr.code, type_small, value?_small, ← Expr.small_reference array,
        ← Expr.small_code subscript]
      refine small_bind (small_elementReference info _ _ _ _) fun r => ?_
      rw [small_pure, ← small_load, ← size_small]
      rfl
  | .field info record field => by
      change _ = (Expr.field (small info) (small record) (small field)).code f
      rw [Expr.code, Expr.code]
      refine small_bind (Expr.small_reference record) fun r => ?_
      rw [small_pure, ← small_load, ← small_displaced, ← size_small]
      rfl
  | .const info value => by
      change _ = (Expr.const (small info) value).code f
      rw [Expr.code, Expr.code]
      exact small_constantCode info value
  | .aggregate info value => by
      change _ = (Expr.aggregate (small info) value).code f
      rw [Expr.code, Expr.code]
      exact small_constantCode info value
  | .negate info operand => by
      change _ = (Expr.negate (small info) (small operand)).code f
      rw [Expr.code, Expr.code]
      refine small_bind (Expr.small_code operand) fun code => ?_
      rw [small_pure, small_append, ← negateCode_small]
      rfl
  | .complement info operand => by
      change _ = (Expr.complement (small info) (small operand)).code f
      rw [Expr.code, Expr.code, type_small]
      refine small_bind (Expr.small_code operand) fun code => ?_
      rw [small_pure, small_append, ← complementCode_small]
  | .binary info op left right => by
      change _ = (Expr.binary (small info) op (small left) (small right)).code f
      rw [Expr.code, Expr.code, type_small, ← Expr.small_code left, ← Expr.small_code right]
      exact small_binaryCode info op _ _ _
  | .cast info operand => by
      change _ = (Expr.cast (small info) (small operand)).code f
      rw [Expr.code, Expr.code, type_small, ← Expr.small_code operand]
      exact small_castCode info _ _
  | .call info function arguments => by
      rw [small_call, Expr.code, Expr.code]
      have passed := small_argumentsCode function.parameters arguments
      change _ = callCode _ _ (argumentsCode f (small function.parameters) _)
      rw [← passed]
      exact small_callCode info function _

theorem small_argumentsCode : (parameters : List Parameter) → (arguments : List Expr) →
    small (argumentsCode f parameters arguments) = argumentsCode f (small parameters) (small arguments)
  | p :: parameters, e :: arguments => by
      have later (code : Code) :
          small (argumentsCode f parameters arguments >>= fun rest => pure (code ++ rest)) =
            argumentsCode f (small parameters) (small arguments) >>= fun rest => pure (small code ++ rest) :=
        small_bind (small_argumentsCode parameters arguments) fun rest =>
          small_pure_append code rest
      obtain ⟨name, type, mode, default, slot⟩ := p
      rw [small_cons, small_cons, argumentsCode, argumentsCode]
      cases mode with
      | byReference =>
          exact small_bind (small_map (Expr.small_reference e) fun r => (small_address r).symm) later
      | byValue | constant => exact small_bind (Expr.small_code e) later
  | [], [] | [], _ :: _ | _ :: _, [] => by
      simp only [argumentsCode, small_nil, small_cons]
      rfl

end

end Expressions

section Statements

variable (f : Frames)

theorem direct?_small (e : Expr) : (small e).direct? f = e.direct? f := by
  cases e with
  | var info symbol =>
      have found : f.reference (small info).span (small symbol) = small (f.reference info.span symbol) :=
        (small_variable f info.span symbol).symm
      change (Expr.var (small info) (small symbol)).direct? f = _
      unfold Expr.direct?
      dsimp only
      rw [slot?_small, kind_small, found]
      cases f.reference info.span symbol <;> rfl
  | _ => rfl

theorem temporary_small (e : Expr) : (small e).temporary f = e.temporary f := by
  rw [Expr.temporary, value?_small, direct?_small, type_small, size_small, Expr.temporary]

theorem small_conditionCode (e : Expr) : small (conditionCode f e) = conditionCode f (small e) :=
  small_bind (Expr.small_code f e) fun code => small_pure_append code _

theorem ofType?_small (type : Ty) : Conversion.ofType? (small type) = Conversion.ofType? type := by
  cases type <;> rfl

theorem small_outputOf (used : Nat) (arguments : List Expr) :
    small (outputOf f used arguments) = outputOf f used (small arguments) := by
  induction arguments generalizing used with
  | nil => rfl
  | cons e arguments ih =>
      rw [small_cons, outputOf, outputOf, value?_small, expr_span_small, type_small, ofType?_small, direct?_small,
        size_small, temporary_small]
      cases e.value? with
      | some value =>
          dsimp only
          cases value.output? with
          | none => rfl
          | some text => exact small_bind (ih used) fun rest => rfl
      | none =>
          dsimp only
          cases Conversion.ofType? e.type with
          | none => rfl
          | some conversion =>
              have later (found : Code × Memory) :
                  small (outputOf f (used + e.temporary f) arguments >>= fun rest =>
                    pure (⟨found.1 ++ rest.code, .conversion conversion :: rest.pieces,
                      found.2.sized conversion.width :: rest.operands⟩ : Output)) =
                  outputOf f (used + e.temporary f) (small arguments) >>= fun rest =>
                    pure ⟨(small found).1 ++ rest.code, .conversion conversion :: rest.pieces,
                      found.2.sized conversion.width :: rest.operands⟩ := by
                refine small_bind (ih _) fun rest => ?_
                rw [small_pure]
                change pure (Output.mk (small (found.1 ++ rest.code)) _ _) = _
                rw [small_append]
                rfl
              dsimp only
              cases e.direct? f with
              | some cell => exact later ([], cell)
              | none =>
                  refine small_bind (Expr.small_code f e) fun code => (later (code ++ _, _)).trans ?_
                  rw [small_pair, small_append, small_popMemory]
                  rfl

theorem small_writeCode (used : Nat) (arguments : List Expr) (newline : Bool) :
    small (writeCode f used arguments newline) = writeCode f used (small arguments) newline := by
  refine small_bind (small_outputOf f used arguments) fun output => ?_
  change small (if (Format.encode (output.pieces ++ newlinePieces newline)).isEmpty = true then _ else _) =
    if (Format.encode (output.pieces ++ newlinePieces newline)).isEmpty = true then _ else _
  by_cases silent : (Format.encode (output.pieces ++ newlinePieces newline)).isEmpty = true
  · rw [if_pos silent, if_pos silent]
    rfl
  · rw [if_neg silent, if_neg silent]
    exact small_pure_append output.code _

theorem small_readTargetCode (e : Expr) : small (readTargetCode f e) = readTargetCode f (small e) := by
  refine small_bind (Expr.small_reference f e) fun r => ?_
  have popped : (small r).address ++ [.instruction .pop [eax]] =
      small (r.address ++ [.instruction .pop [eax]]) := by
    rw [small_append, small_address]
    rfl
  rw [type_small, expr_span_small, popped]
  cases e.type with
  | integer | double | char => exact small_pure_append _ _
  | _ => rfl

theorem small_readCode (newline : Bool) (targets : List Expr) :
    small (readCode f newline targets) = readCode f newline (small targets) := by
  induction targets with
  | nil => cases newline <;> rfl
  | cons e targets ih =>
      exact small_bind (small_readTargetCode f e) fun code => small_bind ih fun rest =>
        small_pure_append code rest

mutual

theorem Stmt.labels_small : (s : Stmt) → (small s).labels = s.labels
  | .ifThen _ _ body => congrArg (2 + ·) (Stmt.labels_small body)
  | .while _ _ body => congrArg (3 + ·) (Stmt.labels_small body)
  | .for _ _ _ _ _ body => congrArg (4 + ·) (Stmt.labels_small body)
  | .ifElse info condition body otherwise => by
      change 2 + (small body).labels + (small otherwise).labels = _
      rw [Stmt.labels_small body, Stmt.labels_small otherwise]
      rfl
  | .block info statements => by
      rw [small_block]
      exact labelsOf_small statements
  | .assign _ _ _ | .continue _ | .break _ | .read _ _ _ | .write _ _ _ | .call _ _ _ => rfl

theorem labelsOf_small : (statements : List Stmt) → labelsOf (small statements) = labelsOf statements
  | [] => rfl
  | s :: statements => by
      rw [small_cons, labelsOf, labelsOf, Stmt.labels_small s, labelsOf_small statements]

end

theorem outputTemporaries_small (arguments : List Expr) :
    outputTemporaries f (small arguments) = outputTemporaries f arguments := by
  induction arguments with
  | nil => rfl
  | cons e arguments ih => rw [small_cons, outputTemporaries, outputTemporaries, temporary_small, ih]

mutual

theorem Stmt.temporaries_small : (s : Stmt) → (small s).temporaries f = s.temporaries f
  | .ifThen _ _ body | .while _ _ body => Stmt.temporaries_small body
  | .for _ _ _ _ _ body => congrArg (dwordSize + ·) (Stmt.temporaries_small body)
  | .ifElse info condition body otherwise => by
      change max ((small body).temporaries f) ((small otherwise).temporaries f) = _
      rw [Stmt.temporaries_small body, Stmt.temporaries_small otherwise]
      rfl
  | .write info arguments newline => outputTemporaries_small f arguments
  | .block info statements => by
      rw [small_block]
      exact temporariesOf_small statements
  | .assign _ _ _ | .continue _ | .break _ | .read _ _ _ | .call _ _ _ => rfl

theorem temporariesOf_small : (statements : List Stmt) →
    temporariesOf f (small statements) = temporariesOf f statements
  | [] => rfl
  | s :: statements => by
      rw [small_cons, temporariesOf, temporariesOf, Stmt.temporaries_small s, temporariesOf_small statements]

end

/-- Labels of statements are in small letters as they are. -/
theorem small_mark {word : String} (known : word ∈ labelWords) (n : Nat) :
    small (Command.label (numbered word n)) = .label (numbered word n) := by
  have low : ∀ word ∈ labelWords, small word = word := by decide
  refine congrArg Command.label ?_
  rw [small_numbered, low word known]

theorem small_instruction {op : Opcode} (other : op ≠ .call) (operands : List Operand) :
    small (Command.instruction op operands) = .instruction op operands := by
  cases op with
  | call => exact (other rfl).elim
  | _ => rfl

theorem small_step (direction : Direction) (operands : List Operand) :
    small (Command.instruction direction.step operands) = .instruction direction.step operands := by
  cases direction <;> rfl

theorem small_again (direction : Direction) (operands : List Operand) :
    small (Command.instruction direction.again operands) = .instruction direction.again operands := by
  cases direction <;> rfl

mutual

theorem small_stmtCode (loop? : Option Loop) : (used label : Nat) → (s : Stmt) →
    small (s.code f loop? used label) = (small s).code f loop? used label
  | used, label, .assign info target value => by
      change _ = (Stmt.assign (small info) (small target) (small value)).code f loop? used label
      rw [Stmt.code, Stmt.code, type_small, size_small]
      refine small_bind (Expr.small_code f value) fun code => ?_
      refine small_bind (Expr.small_reference f target) fun r => ?_
      rw [small_pure_append, small_store]
  | used, label, .ifThen info condition body => by
      change _ = (Stmt.ifThen (small info) (small condition) (small body)).code f loop? used label
      rw [Stmt.code, Stmt.code]
      refine small_bind (small_conditionCode f condition) fun test => ?_
      refine small_bind (small_stmtCode loop? used (label + 2) body) fun code => ?_
      simp (disch := decide) [small_pure, small_mark, jump, small_instruction]
  | used, label, .ifElse info condition body otherwise => by
      change _ = (Stmt.ifElse (small info) (small condition) (small body) (small otherwise)).code f loop? used label
      rw [Stmt.code, Stmt.code, Stmt.labels_small]
      refine small_bind (small_conditionCode f condition) fun test => ?_
      refine small_bind (small_stmtCode loop? used (label + 2) body) fun first => ?_
      refine small_bind (small_stmtCode loop? used (label + 2 + body.labels) otherwise) fun second => ?_
      simp (disch := decide) [small_pure, small_mark, jump, small_instruction]
  | used, label, .while info condition body => by
      change _ = (Stmt.while (small info) (small condition) (small body)).code f loop? used label
      rw [Stmt.code, Stmt.code]
      refine small_bind (small_stmtCode _ used (label + 3) body) fun code => ?_
      refine small_bind (small_conditionCode f condition) fun test => ?_
      simp (disch := decide) [small_pure, small_mark, jump, small_instruction]
  | used, label, .for info counter first last direction body => by
      change _ = (Stmt.for (small info) (small counter) (small first) (small last) direction
        (small body)).code f loop? used label
      rw [Stmt.code, Stmt.code, type_small, size_small]
      refine small_bind (Expr.small_code f first) fun start => ?_
      refine small_bind (Expr.small_reference f counter) fun r => ?_
      refine small_bind (Expr.small_code f last) fun stop => ?_
      refine small_bind (small_stmtCode _ (used + dwordSize) (label + 4) body) fun code => ?_
      simp (disch := decide) [small_pure, small_mark, jump, small_instruction, small_resolve, small_step, small_again]
  | _, _, .continue info | _, _, .break info => by
      cases loop? <;> rfl
  | used, label, .read info targets newline => small_readCode f newline targets
  | used, label, .write info arguments newline => small_writeCode f used arguments newline
  | used, label, .call info function arguments => by
      change _ = (Stmt.call (small info) (small function) (small arguments)).code f loop? used label
      rw [Stmt.code, Stmt.code]
      have passed := small_argumentsCode f function.parameters arguments
      change _ = callCode _ _ (argumentsCode f (small function.parameters) _) >>= _
      rw [← passed]
      refine small_bind (small_callCode info function _) fun code => ?_
      rw [small_pure_append, small_discard, ← size_small]
      rfl
  | used, label, .block info statements => by
      rw [small_block, Stmt.code, Stmt.code]
      exact small_blockCode loop? used label statements

theorem small_blockCode (loop? : Option Loop) : (used label : Nat) → (statements : List Stmt) →
    small (blockCode f loop? used label statements) = blockCode f loop? used label (small statements)
  | _, _, [] => rfl
  | used, label, s :: statements => by
      rw [small_cons, blockCode, blockCode, Stmt.labels_small]
      refine small_bind (small_stmtCode loop? used label s) fun first => ?_
      exact small_bind (small_blockCode loop? used (label + s.labels) statements) fun rest =>
        small_pure_append first rest

end

end Statements

section Programs

variable (g : Function) (f : Frames) (label : Nat)

theorem outerBlocks_small (functions : List Function) (level : Nat) :
    outerBlocks (small functions) level = outerBlocks functions level := by
  induction functions generalizing level with
  | nil => rfl
  | cons g later ih =>
      cases level with
      | zero => rfl
      | succ level =>
          have signature : (small g).signature.level = g.signature.level ∧
            (small g).signature.block = g.signature.block := ⟨rfl, rfl⟩
          rw [small_cons, outerBlocks, outerBlocks, ih, ih, signature.1, signature.2]

theorem frames_small (later : List Function) : (small g).frames (small later) = g.frames later :=
  congrArg (fun blocks => Frames.mk g.signature.level (blocks ++ [g.signature.block]))
    (outerBlocks_small later g.signature.level)

theorem frameSize_small : (small g).frameSize f = g.frameSize f :=
  congrArg (g.locals.size + ·) (Stmt.temporaries_small f g.body)

theorem small_bodyCode : small (g.bodyCode f label) = (small g).bodyCode f label :=
  small_stmtCode f none g.locals.size label g.body

theorem small_returnCode : small g.returnCode = (small g).returnCode := by
  obtain ⟨⟨id, name, parameters, block, result, level⟩, locals, body⟩ := g
  cases result <;> rfl

theorem small_functionCode : small (g.code f label) = (small g).code f label := by
  have entry : (small g).signature.level = g.signature.level := rfl
  have name : small (Command.label g.signature.label) = .label (small g).signature.label :=
    congrArg Command.label (small_label g.signature).symm
  rw [Function.code, Function.code, frameSize_small, entry]
  refine small_bind (small_returnCode g) fun result => ?_
  refine small_bind (small_bodyCode g f label) fun body => ?_
  simp (disch := decide) [small_pure, small_instruction, name]

theorem small_mainCode : small (g.mainCode label) = (small g).mainCode label := by
  rw [Function.mainCode, Function.mainCode, frameSize_small]
  refine small_bind (small_bodyCode g _ label) fun body => ?_
  have start : small (Command.label startLabel) = .label startLabel := rfl
  simp (disch := decide) [small_pure, small_instruction, start]

theorem bodyLabels_small (functions : List Function) : bodyLabels (small functions) = bodyLabels functions := by
  induction functions with
  | nil => rfl
  | cons g later ih => rw [small_cons, bodyLabels, bodyLabels, ih, ← Stmt.labels_small g.body]; rfl

theorem small_functionsCode (functions : List Function) :
    small (functionsCode label functions) = functionsCode label (small functions) := by
  induction functions generalizing label with
  | nil => rfl
  | cons g later ih =>
      have labels : (small g).body.labels = g.body.labels := Stmt.labels_small g.body
      rw [small_cons, functionsCode, functionsCode, frames_small, labels]
      refine small_bind (small_functionCode g _ label) fun code => ?_
      exact small_bind (ih _) fun rest => small_pure_append code rest

theorem levels_small (p : Program) : (small p).levels = p.levels := by
  change (p.functions.map small).foldl _ 1 = _
  rw [List.foldl_map]
  rfl

/-- The listing of a program in small letters. -/
theorem Program.small_lower (p : Program) : small p.lower = (small p).lower := by
  rw [Program.lower, Program.lower, levels_small]
  refine small_bind (small_functionsCode 0 p.functions) fun functions => ?_
  refine small_bind ?_ fun main => ?_
  · have labels : bodyLabels (small p).functions = bodyLabels p.functions := bodyLabels_small p.functions
    rw [labels]
    exact small_mainCode p.main _
  · rw [small_pure]
    exact congrArg (fun code => Except.ok (Listing.mk p.levels code)) (small_append functions main)

end Programs

end PascalX86
