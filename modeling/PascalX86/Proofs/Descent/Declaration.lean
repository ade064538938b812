import PascalX86.Proofs.Descent.Statement

/-!
# Descent through types and declarations

Types, structured constants and blocks take a token before they read another one inside, and every
declaration starts with one.
-/

set_option autoImplicit false

namespace PascalX86.Parser

variable {fork : Fork} {n : Nat} {P : Token → Prop}

section Types

variable {p q : Parser Ty}

theorem takes_bounds : Takes fork n P (fun _ => 0) bounds bounds := by
  refine .spanned fun span => takes_constantInteger.seq fun low => ?_
  refine (takes_expect _).seq fun _ => takes_constantInteger.seq fun high => ?_
  exact .ite .failed (.ite .failed (.pure rfl))

theorem blind_arrayOver (element : Ty) (dimensions : List (Located Bounds)) :
    (arrayOver element dimensions).Blind := by
  induction dimensions generalizing element with
  | nil => exact .pure _
  | cons b outer ih => exact .ite (.fail _ _) (ih _)

theorem takes_arrayType (h : Moves fork n p q) :
    Takes fork (n + 1) P (fun _ => 0) (arrayType p) (arrayType q) := by
  refine (takes_keyword _).bind fun _ => (takes_expect _).seq fun _ => ?_
  refine takes_bounds.separatedBy.seq fun dimensions => (takes_expect _).seq fun _ => ?_
  exact (takes_keyword _).seq fun _ => h.seq fun element => (blind_arrayOver _ _).takes

theorem blind_declareFields (type : Ty) (names : List (Located Name)) :
    (declareFields type names).Blind := by
  induction names with
  | nil => exact .pure _
  | cons name names ih => exact (blind_declare _ _).bind fun _ => ih

theorem takes_fieldGroup (h : Moves fork n p q) :
    Takes fork n P turned (fieldGroup p) (fieldGroup q) := by
  refine .test ?_ (.pure rfl)
  refine takes_identifiers.bind fun names => (takes_expect _).seq fun _ => ?_
  refine (h.weaken (Nat.sub_le n 1)).seq fun type => (blind_declareFields _ _).takes.seq fun _ => ?_
  exact (takes_eat _).eaten (.pure rfl) (.pure rfl)

theorem stops_fieldGroup : Stops (fieldGroup p) := fun _ ends => test_at_end isName_inner ends

theorem takes_recordType (h : Moves fork n p q) :
    Takes fork (n + 1) P (fun _ => 0) (recordType p) (recordType q) := by
  refine (takes_keyword _).bind fun _ => (blind_pushScope _).takes.seq fun _ => ?_
  refine (Takes.many (takes_fieldGroup h) stops_fieldGroup stops_fieldGroup).seq fun _ => ?_
  exact blind_popScope.takes.seq fun _ => (takes_keyword _).seq fun _ => .pure rfl

theorem takes_namedType : Takes fork n P (fun _ => 0) namedType namedType := by
  refine takes_identifier.seq fun name => (blind_lookup name).takes.seq fun symbol => ?_
  obtain ⟨declared, type, role⟩ := symbol
  cases role with
  | typeName => exact .pure rfl
  | _ => exact .fail

theorem takes_typeOver (h : Moves fork n p q) : Moves fork (n + 1) (typeOver p) (typeOver q) := by
  refine .look fun u _ => ?_
  cases u with
  | name _ => exact takes_namedType
  | keyword k =>
      cases k with
      | integer | double | char | string => exact (takes_bump_at rfl).seq fun _ => .pure rfl
      | array => exact takes_arrayType h
      | record => exact takes_recordType h
      | _ => exact .unexpected
  | _ => exact .unexpected

theorem grounded_type : Grounded [.type] typeOver typeUpTo :=
  ⟨rfl, fun _ => rfl, fun _ _ ends => look_at_end ends, takes_typeOver⟩

theorem takes_type : Takes fork n P (fun _ => 0) type type := grounded_type.moves_remaining.any

end Types

section Constants

variable {p q : Parser Value}

/-- An array constant, given how its elements are read. -/
def arrayConstant (low high : Int32) (element : Parser Value) : Parser Value := do
  let span ← here
  let _ ← expect .openParen
  let values ← separatedBy .comma element
  let _ ← expect .closeParen
  if values.length = extent low high then
    return .array values
  else
    fail (.elementCount (extent low high) values.length) span

/-- One field of a record constant, given how its value is read. -/
def fieldConstant (all : Fields) (name : Name) (value : Parser Value) : Parser Value := do
  fieldName all name
  let _ ← expect .colon
  value

theorem typedConstant_array (low high : Int32) (element : Ty) :
    typedConstant (.array low high element) = arrayConstant low high (typedConstant element) := by
  rw [typedConstant]
  rfl

theorem fieldConstants_more (all : Fields) (name : Name) (type : Ty) (rest : Fields) :
    fieldConstants all (.more name type rest) = (do
      let value ← fieldConstant all name (typedConstant type)
      match rest with
      | .empty => return [value]
      | .more .. =>
          let _ ← expect .semicolon
          return value :: (← fieldConstants all rest)) := by
  cases rest <;> simp only [fieldConstants, fieldConstant, bind_assoc]

theorem takes_fieldName (fields : Fields) (due : Name) :
    Takes fork n P (fun _ => 1) (fieldName fields due) (fieldName fields due) := by
  refine takes_identifier.bind fun name => ?_
  cases fields.get? name.value with
  | none => exact .fail
  | some f => exact .ite (.pure rfl) .fail

theorem takes_arrayConstant (low high : Int32) (h : Moves fork n p q) :
    Takes fork (n + 1) P (fun _ => 0) (arrayConstant low high p) (arrayConstant low high q) :=
  .spanned fun _ => (takes_expect _).bind fun _ => h.separatedBy.seq fun _ =>
    (takes_expect _).seq fun _ => .ite (.pure rfl) .fail

theorem takes_fieldConstant (all : Fields) (name : Name) (h : Moves fork n p q) :
    Takes fork (n + 1) P (fun _ => 1) (fieldConstant all name p) (fieldConstant all name q) :=
  (takes_fieldName _ _).bind fun _ => (takes_expect _).seq fun _ => h

theorem takes_scalarConstant (type : Ty) : Takes fork n P (fun _ => 0)
    (do
      let e ← expression
      locate e.span (type.check e.type)
      match e.value?.bind fun v => v.cast? type.category with
      | some v => return v
      | none => fail .expectedConstant e.span)
    (do
      let e ← expression
      locate e.span (type.check e.type)
      match e.value?.bind fun v => v.cast? type.category with
      | some v => return v
      | none => fail .expectedConstant e.span) := by
  refine takes_expression.seq fun e => (blind_locate _ _).takes.seq fun _ => ?_
  cases e.value?.bind fun v => v.cast? type.category with
  | some v => exact .pure rfl
  | none => exact .fail

-- The recursion is on the type: constants of both structures read those of a smaller type.
mutual

theorem takes_typedConstant (type : Ty) : Moves fork n (typedConstant type) (typedConstant type) := by
  cases type with
  | array low high element =>
      rw [typedConstant_array]
      exact (takes_arrayConstant low high (takes_typedConstant element)).weaken (Nat.le_add_right n 1)
  | record fields =>
      rw [typedConstant]
      refine (takes_expect _).seq fun _ => (takes_fieldConstants fields fields).seq fun _ => ?_
      exact (takes_eat _).seq fun _ => (takes_expect _).seq fun _ => .pure rfl
  | _ => exact takes_scalarConstant _

-- The name in front of each value is a token of its own.
theorem takes_fieldConstants (all fields : Fields) :
    Takes fork n (fun _ => True) List.length (fieldConstants all fields) (fieldConstants all fields) := by
  cases fields with
  | empty => exact .pure rfl
  | more name type rest =>
      rw [fieldConstants_more]
      have value : Takes fork (n + 1) (fun _ => True) (fun _ => 1) _ _ :=
        takes_fieldConstant all name (takes_typedConstant type)
      refine (value.weaken (Nat.le_add_right n 1)).bind fun value => ?_
      have later := (takes_fieldConstants all rest).weaken (Nat.sub_le n 1)
      cases rest with
      | empty => exact .pure rfl
      | more => exact (takes_expect _).seq fun _ => later.bind fun values => .pure (Nat.sub_self _)

end

theorem descends_arrayConstant (low high : Int32) : Descends (arrayConstant low high) := by
  refine .of_takes (fun p q s ends => ?_) (takes_arrayConstant low high)
  have located : here s = .ok (s.cursor.current.span, s) := rfl
  have fails : expect .openParen s = .error (.grammatical
      ⟨⟨[.mark .openParen], s.cursor.current.value⟩, s.cursor.current.span⟩) :=
    test_at_end isMark_inner ends
  rw [arrayConstant, arrayConstant, bind_of_ok located, bind_of_ok located, bind_of_error fails,
    bind_of_error fails]

theorem descends_fieldConstant (all : Fields) (name : Name) : Descends (fieldConstant all name) := by
  refine .of_takes (fun p q s ends => ?_) fun h => (takes_fieldConstant all name h).mono fun _ => Nat.zero_le _
  have fails : identifier s = .error (.grammatical
      ⟨⟨[.identifier], s.cursor.current.value⟩, s.cursor.current.span⟩) :=
    look_at_end ends
  have named : fieldName all name s = .error _ := bind_of_error fails
  rw [fieldConstant, fieldConstant, bind_of_error named, bind_of_error named]

end Constants

section Items

theorem takes_declare {α : Type} (name : Located Name) (d : Declaring α) :
    Takes fork n P (fun _ => 0) (declare name d) (declare name d) :=
  (blind_declare name d).takes

theorem takes_typeDeclaration : Takes fork n P (fun _ => 1) typeDeclaration typeDeclaration :=
  takes_identifier.bind fun _ => (takes_expect _).seq fun _ => takes_type.seq fun _ =>
    (takes_expect _).seq fun _ => (takes_declare _ _).seq fun _ => .pure rfl

theorem blind_initializer (symbol : Symbol) (span : Span) (value : Value) :
    (initializer symbol span value).Blind :=
  (blind_variableNode _ _).bind fun _ => (blind_constantNode _ _ _).bind fun _ =>
    (blind_node _ _).bind fun _ => .pure _

theorem takes_typedConstantDeclaration (name : Located Name) :
    Moves fork n (typedConstantDeclaration name) (typedConstantDeclaration name) := by
  refine takes_type.seq fun type => (takes_expect _).seq fun _ => .spanned fun span => ?_
  refine (takes_typedConstant type).seq fun value => (takes_declare _ _).seq fun symbol => .ite ?_ (.pure rfl)
  exact (blind_initializer _ _ _).takes.seq fun _ => .pure rfl

theorem takes_plainConstantDeclaration (name : Located Name) :
    Moves fork n (plainConstantDeclaration name) (plainConstantDeclaration name) := by
  refine (takes_expect _).seq fun _ => takes_expression.seq fun e => ?_
  cases e.value? with
  | none => exact .fail
  | some value => exact (takes_declare _ _).seq fun _ => .pure rfl

theorem takes_constantDeclaration :
    Takes fork n P (fun _ => 1) constantDeclaration constantDeclaration := by
  have closed (statements : List Stmt) : Moves fork (n - 1) (do let _ ← expect .semicolon; return statements)
      (do let _ ← expect .semicolon; return statements) :=
    (takes_expect _).seq fun _ => .pure rfl
  refine takes_identifier.bind fun name => (takes_eat _).eaten (Takes.weaken ?_ (Nat.sub_le _ 1)) ?_
  · exact (takes_typedConstantDeclaration name).seq closed
  · exact (takes_plainConstantDeclaration name).seq fun _ => closed []

theorem takes_initialValue (type : Ty) (count : Nat) :
    Moves fork n (initialValue type count) (initialValue type count) := by
  refine .ite ((takes_eat _).eaten (.spanned fun span => ?_) (.pure rfl)) (.pure rfl)
  exact (takes_typedConstant type).seq fun _ => .pure rfl

theorem blind_declareVariables (type : Ty) (initial : Option (Span × Value)) (names : List (Located Name)) :
    (declareVariables type initial names).Blind := by
  induction names with
  | nil => exact .pure _
  | cons name names ih =>
      refine (blind_declare _ _).bind fun symbol => ?_
      cases initial with
      | none => exact ih
      | some start => exact (blind_initializer _ _ _).bind fun _ => ih.bind fun _ => .pure _

theorem takes_variableDeclaration :
    Takes fork n P (fun _ => 1) variableDeclaration variableDeclaration :=
  takes_identifiers.bind fun names => (takes_expect _).seq fun _ => takes_type.seq fun type =>
    (takes_initialValue type names.length).seq fun initial => (takes_expect _).seq fun _ =>
      (blind_declareVariables type initial names).takes

end Items

section Functions

theorem takes_mode : Takes fork n P (fun _ => 0) mode mode :=
  (takes_eatKeyword _).eaten (.pure rfl) ((takes_eatKeyword _).eaten (.pure rfl) (.pure rfl))

theorem takes_defaultValue (mode : Mode) (type : Ty) :
    Moves fork n (defaultValue mode type) (defaultValue mode type) := by
  refine .test ((takes_bump isMark_inner).seq fun _ => .ite .fail ?_) (.pure rfl)
  exact (takes_typedConstant type).seq fun _ => .pure rfl

theorem blind_addParameters (type : Ty) (mode : Mode) (default : Option Value) (t : Table)
    (names : List (Located Name)) : (addParameters type mode default t names).Blind := by
  induction names generalizing t with
  | nil => exact .pure _
  | cons name names ih => exact (blind_locate _ _).bind fun _ => ih _

theorem takes_parameterGroup (list : ParameterList) :
    Moves fork n (parameterGroup list) (parameterGroup list) := by
  refine takes_mode.seq fun mode => takes_identifiers.seq fun names => (takes_expect _).seq fun _ => ?_
  refine takes_type.seq fun type => (takes_defaultValue mode type).seq fun default => ?_
  refine .ite (.spanned fun _ => .failed) ?_
  exact (blind_addParameters type mode default list.table names).takes.seq fun _ => .pure rfl

theorem takes_parameterGroups (t : Table) :
    Moves fork n (parameterGroups t) (parameterGroups t) := by
  refine (takes_parameterGroup _).seq fun first => ?_
  have next (list : ParameterList) : Takes fork n (fun _ => True) turned
      (listed .semicolon (parameterGroup list)) (listed .semicolon (parameterGroup list)) :=
    takes_listed (takes_parameterGroup list)
  exact (Takes.iterate next (fun _ => stops_listed) (fun _ => stops_listed) first).seq fun _ => .pure rfl

theorem takes_parameters (level : Nat) : Moves fork n (parameters level) (parameters level) := by
  have closed (t : Table) : Moves fork (n - 1) (do let _ ← expect .closeParen; return t)
      (do let _ ← expect .closeParen; return t) :=
    (takes_expect _).seq fun _ => .pure rfl
  exact (takes_eat _).eaten (.test (closed _).any ((takes_parameterGroups _).seq closed)) (.pure rfl)

theorem takes_signature {u : Token} (inner : u.isEndOfFile = false) :
    Takes fork n (· = u) (fun _ => 1) signature signature := by
  refine (takes_bump_at inner).bind fun t => takes_identifier.seq fun name => ?_
  refine .get fun s _ _ => (takes_parameters (s.level + 1)).seq fun table => ?_
  have numbered (result : Ty) : Moves fork (n - 1)
      (do
        let _ ← expect .semicolon
        let s' ← get
        set { s' with nextFunction := s'.nextFunction + 1 }
        return Signature.mk s'.nextFunction name table.parameters table.size result (s.level + 1))
      (do
        let _ ← expect .semicolon
        let s' ← get
        set { s' with nextFunction := s'.nextFunction + 1 }
        return Signature.mk s'.nextFunction name table.parameters table.size result (s.level + 1)) :=
    (takes_expect _).seq fun _ => Blind.takes fun _ _ => rfl
  exact .ite (numbered .nil) ((takes_expect _).seq fun _ => takes_type.seq numbered)

theorem blind_localsOf (f : Signature) : (localsOf f).Blind := by
  obtain ⟨id, name, parameters, block, result, level⟩ := f
  cases result with
  | nil => exact .pure _
  | _ => exact (blind_locate _ _).bind fun _ => .pure _

variable {p q : Parser Stmt}

theorem takes_functionOver (h : Moves fork n p q) {u : Token} (inner : u.isEndOfFile = false) :
    Takes fork (n + 1) (· = u) (fun _ => 1) (functionOver p) (functionOver q) := by
  refine (takes_signature inner).bind fun f => (takes_declare _ _).seq fun _ => ?_
  refine (blind_localsOf f).takes.seq fun locals => (blind_pushScope _).takes.seq fun _ => ?_
  refine (blind_pushScope _).takes.seq fun _ => .get fun s _ _ => ?_
  refine (blind_modify _ fun _ _ => rfl).takes.seq fun _ => h.seq fun body => ?_
  refine (blind_modify _ fun _ _ => rfl).takes.seq fun _ => blind_popScope.takes.seq fun locals => ?_
  refine blind_popScope.takes.seq fun _ => (takes_expect _).seq fun _ => ?_
  exact (blind_modify _ fun _ _ => rfl).takes

theorem takes_sectionOver (h : Moves fork n p q) :
    Takes fork (n + 1) P turned (sectionOver p) (sectionOver q) := by
  refine .look fun u _ => ?_
  cases u with
  | keyword k =>
      cases k with
      | type =>
          exact (takes_bump_at rfl).bind fun _ => takes_typeDeclaration.whileNames.seq fun _ => .pure rfl
      | const =>
          exact (takes_bump_at rfl).bind fun _ => takes_constantDeclaration.whileNames.seq fun _ => .pure rfl
      | var =>
          exact (takes_bump_at rfl).bind fun _ => takes_variableDeclaration.whileNames.seq fun _ => .pure rfl
      | function | procedure => exact (takes_functionOver h rfl).bind fun _ => .pure rfl
      | _ => exact .pure rfl
  | _ => exact .pure rfl

theorem stops_sectionOver : Stops (sectionOver p) := fun _ ends => look_at_end ends

theorem takes_blockOver (h : Moves fork n p q) : Moves fork (n + 1) (blockOver p) (blockOver q) :=
  (Takes.many (takes_sectionOver h) stops_sectionOver stops_sectionOver).seq fun _ =>
    takes_compound.seq fun _ => takes_node.seq fun _ => .pure rfl

theorem grounded_block : Grounded [.keyword .«begin»] blockOver block := by
  refine ⟨rfl, fun _ => rfl, fun p s ends => ?_, takes_blockOver⟩
  -- There are no declarations where the text ends, and no compound statement either.
  have none : many (sectionOver p) s = .ok ([], s) := manyUpTo_of_none (stops_sectionOver s ends) _
  have opens : keyword .«begin» s = .error (.grammatical
      ⟨⟨[.keyword .«begin»], s.cursor.current.value⟩, s.cursor.current.span⟩) :=
    test_at_end isKeyword_inner ends
  have fails : compoundOver (statement s.cursor.remaining) s = .error _ := bind_of_error opens
  rw [blockOver, bind_of_ok none, bind_of_error (show compound s = .error _ from fails)]
  rfl

theorem takes_programName : Takes fork n P (fun _ => 0) programName programName := by
  refine .spanned fun span => (takes_eatKeyword _).eaten ?_ (.pure rfl)
  exact takes_identifier.seq fun _ => (takes_expect _).seq fun _ => .pure rfl

theorem takes_program : Moves fork n program program := by
  refine takes_programName.seq fun name => .bounded fun m _ i j hi hj => ?_
  refine (grounded_block.moves m i j hi hj).seq fun body => (takes_expect _).seq fun _ => ?_
  refine .look fun u _ => ?_
  have finished : Blind (do
      let s ← get
      return Program.mk s.functions ⟨⟨0, name, [], 0, .nil, 0⟩, s.scopes.outermost, body⟩ s.nodes) :=
    fun _ _ => rfl
  exact .ite (Takes.seq (j := fun _ => 0) .unexpected fun _ => finished.takes) finished.takes

end Functions

end PascalX86.Parser
