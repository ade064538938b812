import PascalX86.Parser.Declaration

/-!
# Names in small letters

What is left of the spelling of names when their case is dropped: all data that holds names, with
small letters in each of them. Names are the same if that makes them equal, and nothing that looks at
names or types tells the spellings of one name apart.
-/

set_option autoImplicit false

namespace PascalX86

/-- Data whose names can be written in small letters. -/
class Spelled (α : Type) where
  small : α → α

open Spelled (small)

section Containers

variable {α β ε : Type} [Spelled α] [Spelled β] [Spelled ε]

instance : Spelled Unit := ⟨fun a => a⟩
instance : Spelled Bool := ⟨fun a => a⟩
instance : Spelled Nat := ⟨fun a => a⟩
instance : Spelled Int32 := ⟨fun a => a⟩
instance : Spelled Span := ⟨fun a => a⟩
instance : Spelled Value := ⟨fun a => a⟩
instance : Spelled Mode := ⟨fun a => a⟩
instance : Spelled Direction := ⟨fun a => a⟩
instance : Spelled Operator := ⟨fun a => a⟩
instance : Spelled LexicalError := ⟨fun a => a⟩
instance : Spelled Parser.Bounds := ⟨fun a => a⟩

instance : Spelled (List α) := ⟨List.map small⟩
instance : Spelled (Option α) := ⟨Option.map small⟩
instance : Spelled (α × β) := ⟨Prod.map small small⟩
instance : Spelled (Located α) := ⟨fun a => ⟨small a.value, a.span⟩⟩

instance : Spelled (Except ε α) where
  small
    | .ok a => .ok (small a)
    | .error e => .error (small e)

@[simp] theorem small_nil : small ([] : List α) = [] := rfl

@[simp] theorem small_cons (a : α) (as : List α) : small (a :: as) = small a :: small as := rfl

@[simp] theorem small_append (as bs : List α) : small (as ++ bs) = small as ++ small bs :=
  List.map_append

theorem small_flatten (as : List (List α)) : small as.flatten = (small as).flatten := by
  induction as with
  | nil => rfl
  | cons a as ih => rw [List.flatten_cons, small_append, ih, small_cons, List.flatten_cons]

@[simp] theorem length_small (as : List α) : (small as).length = as.length := List.length_map _

@[simp] theorem small_none : small (none : Option α) = none := rfl

@[simp] theorem small_some (a : α) : small (some a) = some (small a) := rfl

@[simp] theorem isSome_small (a : Option α) : (small a).isSome = a.isSome := by cases a <;> rfl

@[simp] theorem isNone_small (a : Option α) : (small a).isNone = a.isNone := by cases a <;> rfl

@[simp] theorem small_ok (a : α) : small (.ok a : Except ε α) = .ok (small a) := rfl

@[simp] theorem small_error (e : ε) : small (.error e : Except ε α) = .error (small e) := rfl

@[simp] theorem small_pair (a : α) (b : β) : small (a, b) = (small a, small b) := rfl

@[simp] theorem value_small (a : Located α) : (small a).value = small a.value := rfl

@[simp] theorem span_small (a : Located α) : (small a).span = a.span := rfl

end Containers

section Names

instance : Spelled Name := ⟨fun n => .ofSpelling (String.ofList (lowered n.spelling))⟩

theorem spelling_small (n : Name) : (small n).spelling = String.ofList (lowered n.spelling) := rfl

theorem toLower_cases (c : Char) :
    65 ≤ c.toNat ∧ c.toNat ≤ 90 ∧ c.toLower.toNat = c.toNat + 32 ∨
      (c.toNat < 65 ∨ 90 < c.toNat) ∧ c.toLower = c := by
  by_cases capital : c.val ≥ 'A'.val ∧ c.val ≤ 'Z'.val
  · have low : 65 ≤ c.toNat := UInt32.le_iff_toNat_le.mp capital.1
    have high : c.toNat ≤ 90 := UInt32.le_iff_toNat_le.mp capital.2
    refine .inl ⟨low, high, ?_⟩
    have code : c.toLower.val = c.val + ('a'.val - 'A'.val) := congrArg Char.val (dif_pos capital)
    change c.toLower.val.toNat = c.val.toNat + 32
    rw [code, UInt32.toNat_add]
    exact Nat.mod_eq_of_lt (show c.toNat + 32 < 2 ^ 32 by omega)
  · refine .inr ⟨?_, dif_neg capital⟩
    rw [ge_iff_le, UInt32.le_iff_toNat_le, UInt32.le_iff_toNat_le] at capital
    change ¬ (65 ≤ c.toNat ∧ c.toNat ≤ 90) at capital
    omega

@[simp] theorem toLower_toLower (c : Char) : c.toLower.toLower = c.toLower := by
  rcases toLower_cases c with ⟨low, high, code⟩ | ⟨-, same⟩
  · rcases toLower_cases c.toLower with ⟨low', high', -⟩ | ⟨-, same⟩
    · omega
    · exact same
  · rw [same, same]

theorem lowered_ofList_lowered (spelling : String) :
    lowered (String.ofList (lowered spelling)) = lowered spelling := by
  simp [lowered]

@[simp] theorem small_small_name (n : Name) : small (small n) = small n := by
  refine Name.ext ?_
  rw [spelling_small, spelling_small, lowered_ofList_lowered]

theorem small_name_eq_iff (a b : Name) : small a = small b ↔ a.same b = true := by
  rw [Name.same_iff]
  refine ⟨fun eq => ?_, fun eq => Name.ext ?_⟩
  · exact String.ofList_injective (congrArg Name.spelling eq)
  · rw [spelling_small, spelling_small, eq]

@[simp] theorem same_small (a b : Name) : (small a).same (small b) = a.same b := by
  rw [Bool.eq_iff_iff, ← small_name_eq_iff, ← small_name_eq_iff, small_small_name, small_small_name]

instance : Spelled FunctionRef := ⟨fun f => { f with name := small f.name }⟩

instance : Spelled Token where
  small
    | .name n => .name (small n)
    | .keyword k => .keyword k
    | .integer n => .integer n
    | .double x => .double x
    | .char code => .char code
    | .string text => .string text
    | .mark m => .mark m
    | .endOfFile => .endOfFile

end Names

section Types

mutual

def Ty.small : Ty → Ty
  | .integer => .integer
  | .double => .double
  | .char => .char
  | .string => .string
  | .nil => .nil
  | .array low high element => .array low high element.small
  | .record fields => .record fields.small
  | .function f => .function (Spelled.small f)

def Fields.small : Fields → Fields
  | .empty => .empty
  | .more name type rest => .more (Spelled.small name) type.small rest.small

end

instance : Spelled Ty := ⟨Ty.small⟩
instance : Spelled Fields := ⟨Fields.small⟩
instance : Spelled Field := ⟨fun f => { f with name := small f.name, type := small f.type }⟩

mutual

theorem Ty.size_small (type : Ty) : type.small.size = type.size := by
  cases type with
  | array low high element => rw [Ty.small, Ty.size, Ty.size, Ty.size_small element]
  | record fields => rw [Ty.small, Ty.size, Ty.size, Fields.size_small fields]
  | _ => rfl

theorem Fields.size_small (fields : Fields) : fields.small.size = fields.size := by
  cases fields with
  | empty => rfl
  | more name type rest =>
      rw [Fields.small, Fields.size, Fields.size, Ty.size_small type, Fields.size_small rest]

end

mutual

theorem Ty.same_small (a b : Ty) : a.small.same b.small = a.same b := by
  cases a <;> cases b <;> try rfl
  · next element _ _ other => simp [Ty.small, Ty.same, Ty.same_small element other]
  · next fields others => simp [Ty.small, Ty.same, Fields.same_small fields others]

theorem Fields.same_small (a b : Fields) : a.small.same b.small = a.same b := by
  cases a <;> cases b <;> try rfl
  next name type rest name' type' rest' =>
    simp [Fields.small, Fields.same, Ty.same_small type type', Fields.same_small rest rest']

end

@[simp] theorem size_small (type : Ty) : (small type).size = type.size := type.size_small

@[simp] theorem type_same_small (a b : Ty) : (small a).same (small b) = a.same b := a.same_small b

@[simp] theorem category_small (type : Ty) : (small type).category = type.category := by
  cases type <;> rfl

@[simp] theorem isIntegerLike_small (type : Ty) : (small type).isIntegerLike = type.isIntegerLike := by
  cases type <;> rfl

@[simp] theorem isNumeric_small (type : Ty) : (small type).isNumeric = type.isNumeric := by
  cases type <;> rfl

@[simp] theorem isTextual_small (type : Ty) : (small type).isTextual = type.isTextual := by
  cases type <;> rfl

@[simp] theorem isScalar_small (type : Ty) : (small type).isScalar = type.isScalar := by
  cases type <;> rfl

@[simp] theorem accepts_small (required found : Ty) :
    (small required).accepts (small found) = required.accepts found := by
  simp [Ty.accepts]

theorem layout_small (offset : Nat) :
    (fields : Fields) → Fields.layout offset (small fields) = small (fields.layout offset)
  | .empty => rfl
  | .more name type rest => by
      have later := layout_small (offset + (small type).size) rest
      exact congrArg (_ :: ·) (size_small type ▸ later)

theorem find?_small {α : Type} [Spelled α] {p q : α → Bool} (as : List α) (same : ∀ a, q (small a) = p a) :
    (small as).find? q = small (as.find? p) := by
  induction as with
  | nil => rfl
  | cons a as ih =>
      rw [small_cons, List.find?_cons, List.find?_cons, same, ih]
      cases p a <;> rfl

@[simp] theorem field_small (fields : Fields) (name : Name) :
    (small fields).get? (small name) = small (fields.get? name) := by
  rw [Fields.get?, layout_small]
  exact find?_small _ fun f => same_small f.name name

end Types


section Symbols

instance : Spelled Parameter := ⟨fun p => { p with name := small p.name, type := small p.type }⟩

instance : Spelled Signature where
  small f := { f with name := small f.name, parameters := small f.parameters, result := small f.result }

instance : Spelled Role where
  small
    | .typeName => .typeName
    | .constant value slot => .constant value slot
    | .variable slot => .variable slot
    | .parameter mode default slot => .parameter mode default slot
    | .function f => .function (small f)

instance : Spelled Symbol := ⟨fun s => ⟨small s.name, small s.type, small s.role⟩⟩
instance : Spelled Table := ⟨fun t => { t with symbols := small t.symbols }⟩
instance : Spelled Scopes := ⟨fun s => ⟨small s.current, small s.outer⟩⟩

variable (s : Symbol) (t : Table) (scopes : Scopes) (name : Name)

@[simp] theorem slot?_small : (small s).slot? = s.slot? := by
  obtain ⟨name, type, role⟩ := s
  cases role <;> rfl

@[simp] theorem kind_small : (small s).kind = s.kind := by
  obtain ⟨name, type, role⟩ := s
  cases role with
  | parameter mode => cases mode <;> rfl
  | _ => rfl

@[simp] theorem isAssignable_small : (small s).isAssignable = s.isAssignable := by
  rw [Symbol.isAssignable, kind_small, Symbol.isAssignable]

@[simp] theorem mode_size_small (mode : Mode) (type : Ty) : mode.size (small type) = mode.size type := by
  cases mode <;> simp [Mode.size]

@[simp] theorem storage_small : (small s).storage = s.storage := by
  obtain ⟨name, type, role⟩ := s
  cases role with
  | parameter mode => exact mode_size_small mode type
  | _ => exact size_small type

@[simp] theorem parameter?_small : (small s).parameter? = small s.parameter? := by
  obtain ⟨name, type, role⟩ := s
  cases role <;> rfl

@[simp] theorem get?_small : (small t).get? (small name) = small (t.get? name) :=
  find?_small t.symbols fun s => same_small s.name.value name

theorem filterMap_small {α β : Type} [Spelled α] [Spelled β] {f g : α → Option β} (as : List α)
    (same : ∀ a, g (small a) = small (f a)) : (small as).filterMap g = small (as.filterMap f) := by
  induction as with
  | nil => rfl
  | cons a as ih =>
      rw [small_cons, List.filterMap_cons, List.filterMap_cons, same, ih]
      cases f a <;> rfl

@[simp] theorem parameters_small : (small t).parameters = small t.parameters :=
  filterMap_small t.symbols parameter?_small

@[simp] theorem table_small (f : Signature) : (small f).table = small f.table := by
  have symbols : (small f.parameters).map Parameter.symbol = small (f.parameters.map Parameter.symbol) := by
    change List.map _ (List.map _ _) = List.map _ (List.map _ _)
    rw [List.map_map, List.map_map]
    rfl
  exact congrArg (Table.mk · f.block f.level .parameters) symbols

theorem ofList_small (fields : List (Name × Ty)) : Fields.ofList (small fields) = small (Fields.ofList fields) := by
  induction fields with
  | nil => rfl
  | cons field fields ih => exact congrArg (Fields.more _ _) ih

@[simp] theorem record_small : (small t).record = small t.record := by
  have fields : (small t).symbols.map (fun s => (s.name.value, s.type)) =
      small (t.symbols.map fun s => (s.name.value, s.type)) := by
    change List.map _ (List.map _ _) = List.map _ (List.map _ _)
    rw [List.map_map, List.map_map]
    rfl
  rw [Table.record, fields, ofList_small]
  rfl

@[simp] theorem lookup?_small : (small scopes).lookup? (small name) = small (scopes.lookup? name) := by
  have tables : (small scopes).tables = small scopes.tables := rfl
  rw [Scopes.lookup?, tables, Scopes.lookup?]
  induction scopes.tables with
  | nil => rfl
  | cons t ts ih =>
      rw [small_cons, List.findSome?_cons, List.findSome?_cons, get?_small, ih]
      cases t.get? name <;> rfl

@[simp] theorem pop?_small : (small scopes).pop? = small scopes.pop? := by
  obtain ⟨current, outer⟩ := scopes
  cases outer <;> rfl

@[simp] theorem outermost_small : (small scopes).outermost = small scopes.outermost := by
  obtain ⟨current, outer⟩ := scopes
  change ((outer.map small).getLast?).getD (small current) = small (outer.getLast?.getD current)
  rw [List.getLast?_map]
  cases outer.getLast? <;> rfl

end Symbols

section Trees

instance : Spelled NodeInfo := ⟨fun info => { info with type := small info.type }⟩

mutual

def Expr.small : Expr → Expr
  | .var info symbol => .var (Spelled.small info) (Spelled.small symbol)
  | .index info array subscript => .index (Spelled.small info) array.small subscript.small
  | .field info record field => .field (Spelled.small info) record.small (Spelled.small field)
  | .const info value => .const (Spelled.small info) value
  | .aggregate info value => .aggregate (Spelled.small info) value
  | .negate info operand => .negate (Spelled.small info) operand.small
  | .complement info operand => .complement (Spelled.small info) operand.small
  | .binary info op left right => .binary (Spelled.small info) op left.small right.small
  | .cast info operand => .cast (Spelled.small info) operand.small
  | .call info function arguments =>
      .call (Spelled.small info) (Spelled.small function) (smallExprs arguments)

def smallExprs : List Expr → List Expr
  | [] => []
  | e :: es => e.small :: smallExprs es

end

instance : Spelled Expr := ⟨Expr.small⟩

theorem smallExprs_eq (es : List Expr) : smallExprs es = small es := by
  induction es with
  | nil => rfl
  | cons e es ih => exact congrArg (_ :: ·) ih

theorem small_call (info : NodeInfo) (function : Signature) (arguments : List Expr) :
    small (Expr.call info function arguments) = .call (small info) (small function) (small arguments) :=
  congrArg (Expr.call _ _) (smallExprs_eq arguments)

mutual

def Stmt.small : Stmt → Stmt
  | .assign info target value => .assign (Spelled.small info) target.small value.small
  | .ifThen info condition body => .ifThen (Spelled.small info) condition.small body.small
  | .ifElse info condition body otherwise =>
      .ifElse (Spelled.small info) condition.small body.small otherwise.small
  | .while info condition body => .while (Spelled.small info) condition.small body.small
  | .for info counter first last direction body =>
      .for (Spelled.small info) counter.small first.small last.small direction body.small
  | .continue info => .continue (Spelled.small info)
  | .break info => .break (Spelled.small info)
  | .read info targets newline => .read (Spelled.small info) (Spelled.small targets) newline
  | .write info arguments newline => .write (Spelled.small info) (Spelled.small arguments) newline
  | .call info function arguments =>
      .call (Spelled.small info) (Spelled.small function) (Spelled.small arguments)
  | .block info statements => .block (Spelled.small info) (smallStmts statements)

def smallStmts : List Stmt → List Stmt
  | [] => []
  | s :: statements => s.small :: smallStmts statements

end

instance : Spelled Stmt := ⟨Stmt.small⟩

theorem smallStmts_eq (statements : List Stmt) : smallStmts statements = small statements := by
  induction statements with
  | nil => rfl
  | cons s statements ih => exact congrArg (_ :: ·) ih

theorem small_block (info : NodeInfo) (statements : List Stmt) :
    small (Stmt.block info statements) = .block (small info) (small statements) :=
  congrArg (Stmt.block _) (smallStmts_eq statements)

instance : Spelled Function := ⟨fun g => ⟨small g.signature, small g.locals, small g.body⟩⟩
instance : Spelled Program :=
  ⟨fun p => { p with functions := small p.functions, main := small p.main }⟩

variable (e : Expr)

@[simp] theorem info_small : (small e).info = small e.info := by
  cases e <;> rfl

@[simp] theorem type_small : (small e).type = small e.type := by
  rw [Expr.type, info_small]
  rfl

@[simp] theorem expr_span_small : (small e).span = e.span := by
  rw [Expr.span, info_small]
  rfl

@[simp] theorem value?_small : (small e).value? = e.value? := by
  cases e <;> rfl

@[simp] theorem root?_small : (e : Expr) → (small e).root? = small e.root?
  | .var _ _ | .const _ _ | .aggregate _ _ | .negate _ _ | .complement _ _ | .binary _ _ _ _ | .cast _ _
  | .call _ _ _ => rfl
  | .index _ array _ => root?_small array
  | .field _ record _ => root?_small record

end Trees

section Errors

instance : Spelled SemanticError where
  small
    | .duplicate name => .duplicate (small name)
    | .notFound name => .notFound (small name)
    | .incompatible required found => .incompatible (small required) (small found)
    | .expectedType name => .expectedType (small name)
    | .notAnArray found => .notAnArray (small found)
    | .notARecord found => .notARecord (small found)
    | .fieldNotFound name => .fieldNotFound (small name)
    | .illegalInitializationOrder expected found =>
        .illegalInitializationOrder (small expected) (small found)
    | .assignToConstant name => .assignToConstant (small name)
    | .varArgument parameter => .varArgument (small parameter)
    | .noResult name => .noResult (small name)
    | .unreadable type => .unreadable (small type)
    | .unwritable type => .unwritable (small type)
    | e => e

instance : Spelled GrammarError := ⟨fun e => { e with found := small e.found }⟩

instance : Spelled TreeFault where
  small
    | .noConversion source target => .noConversion (small source) (small target)
    | .notAnArray type => .notAnArray (small type)
    | .noStorage name => .noStorage (small name)
    | .fieldAsVariable name => .fieldAsVariable (small name)
    | .unreadable type => .unreadable (small type)
    | fault => fault

instance : Spelled LoweringError where
  small
    | .runtimeString => .runtimeString
    | .aggregateResult type => .aggregateResult (small type)
    | .malformed fault => .malformed (small fault)

instance : Spelled CompileError where
  small
    | .lexical e => .lexical (small e)
    | .semantic e => .semantic (small e)
    | .grammatical e => .grammatical (small e)
    | .lowering e => .lowering (small e)

end Errors

end PascalX86
