import PascalX86.Proofs.Spelling.Expression

/-!
# Programs without case

Statements, types and declarations are read alike in every spelling, and so are whole programs.
-/

set_option autoImplicit false

namespace PascalX86

open Spelled (small)

namespace Parser

section Statements

variable {p q : Parser (Option Stmt)}

theorem respells_compoundOver (h : p.Respells q) : (compoundOver p).Respells (compoundOver q) := by
  refine (respells_keyword _).bind fun span => (respells_separatedBy _ h).bind fun statements => ?_
  refine (respells_keyword _).bind fun _ => .answer ?_
  have same : (small statements).filterMap id = small (statements.filterMap id) :=
    filterMap_small statements fun _ => rfl
  exact congrArg (Prod.mk span) same.symm

theorem respells_bodyOver (h : p.Respells q) : (bodyOver p).Respells (bodyOver q) := by
  refine respells_here.bind fun span => h.bind fun s => ?_
  cases s with
  | some s => exact .pure
  | none => exact (respells_node span .nil).bind fun _ => .pure

theorem respells_loopBodyOver (h : p.Respells q) : (loopBodyOver p).Respells (loopBodyOver q) :=
  Respells.bind (.modify fun _ => rfl) fun _ => (respells_bodyOver h).bind fun _ =>
    Respells.bind (.modify fun _ => rfl) fun _ => .pure

theorem respells_ifOver (h : p.Respells q) : (ifOver p).Respells (ifOver q) := by
  refine (respells_keyword _).bind fun span => respells_condition.bind fun _ => ?_
  refine (respells_keyword _).bind fun _ => (respells_bodyOver h).bind fun _ => ?_
  refine (respells_eatKeyword _).bind fun _ => .ite .rfl ?_ ?_
  · exact (respells_bodyOver h).bind fun _ => (respells_node span .nil).bind fun _ => .pure
  · exact (respells_node span .nil).bind fun _ => .pure

theorem respells_whileOver (h : p.Respells q) : (whileOver p).Respells (whileOver q) := by
  refine (respells_keyword _).bind fun span => respells_condition.bind fun _ => ?_
  refine (respells_keyword _).bind fun _ => (respells_loopBodyOver h).bind fun _ => ?_
  exact (respells_node span .nil).bind fun _ => .pure

theorem respells_counter : counter.Respells counter := by
  refine (respells_assignable respells_expression).bind fun answer => ?_
  obtain ⟨name, target⟩ := answer
  cases target with
  | var info symbol =>
      have same : (small info).type.isIntegerLike = info.type.isIntegerLike := isIntegerLike_small info.type
      exact .ite (by rw [← same]) .pure .fail
  | _ => exact .fail

theorem respells_direction : direction.Respells direction := by
  refine respells_token.bind fun t => ?_
  cases t with
  | keyword k =>
      cases k with
      | «to» | downto => exact respells_bump.bind fun _ => .pure
      | _ => exact .unexpected
  | _ => exact .unexpected

theorem respells_forOver (h : p.Respells q) : (forOver p).Respells (forOver q) := by
  refine (respells_keyword _).bind fun span => respells_counter.bind fun target => ?_
  rw [type_small]
  refine (respells_expect _).bind fun _ => respells_expression.bind fun first => ?_
  refine (respells_coerce first target.type).bind fun first => respells_direction.bind fun way => ?_
  refine respells_expression.bind fun last => (respells_coerce last target.type).bind fun last => ?_
  refine (respells_keyword _).bind fun _ => (respells_loopBodyOver h).bind fun body => ?_
  exact (respells_node span .nil).bind fun _ => .pure

theorem respells_jump (k : Keyword) : (jump k).Respells (jump k) :=
  respells_bump.bind fun _ => Respells.get.bind fun _ => .ite .rfl .fail .pure

theorem respells_readTarget : readTarget.Respells readTarget := by
  refine (respells_assignable respells_expression).bind fun answer => ?_
  obtain ⟨name, target⟩ := answer
  simp only [small_pair, type_small, expr_span_small]
  cases target.type with
  | integer | double | char => exact .pure
  | _ => exact .fail

theorem respells_readStatement (newline : Bool) : (readStatement newline).Respells (readStatement newline) := by
  refine respells_bump.bind fun t => (respells_eat _).bind fun _ => ?_
  have read (targets : List Expr) : Respells (do return Stmt.read (← node t.span .nil) targets newline)
      (do return Stmt.read (← node t.span .nil) (small targets) newline) :=
    (respells_node t.span .nil).bind fun _ => .pure
  refine .ite .rfl ?_ (read [])
  exact (respells_separatedBy _ respells_readTarget).bind fun targets =>
    (respells_expect _).bind fun _ => read targets

theorem respells_writeArgument : writeArgument.Respells writeArgument := by
  refine respells_expression.bind fun e => ?_
  rw [type_small, expr_span_small, isScalar_small]
  exact .ite .rfl .pure .fail

theorem respells_writeStatement (newline : Bool) :
    (writeStatement newline).Respells (writeStatement newline) := by
  refine respells_bump.bind fun t => (respells_eat _).bind fun _ => ?_
  have written (arguments : List Expr) : Respells (do return Stmt.write (← node t.span .nil) arguments newline)
      (do return Stmt.write (← node t.span .nil) (small arguments) newline) :=
    (respells_node t.span .nil).bind fun _ => .pure
  refine .ite .rfl ?_ (written [])
  have closed (arguments : List Expr) : Respells
      (do
        let _ ← expect .closeParen
        return Stmt.write (← node t.span .nil) arguments newline)
      (do
        let _ ← expect .closeParen
        return Stmt.write (← node t.span .nil) (small arguments) newline) :=
    (respells_expect _).bind fun _ => written arguments
  exact (respells_atMark _).bind fun _ =>
    .ite .rfl (closed []) ((respells_separatedBy _ respells_writeArgument).bind closed)

theorem respells_assignment (target : Expr) : (assignment target).Respells (assignment (small target)) := by
  refine (respells_expect _).bind fun sign => respells_expression.bind fun value => ?_
  rw [type_small, expr_span_small]
  exact (respells_coerce value target.type).bind fun _ => (respells_node _ .nil).bind fun _ => .pure

theorem respells_namedStatement : namedStatement.Respells namedStatement := by
  refine respells_identifier.bind fun name => (respells_lookup name).bind fun symbol => ?_
  refine (respells_atMark _).bind fun assigns => ?_
  have assigned : Respells
      (do
        if symbol.isAssignable then
          assignment (← selectors expression (← variableNode name.span symbol))
        else
          fail (.assignToConstant name.value) name.span)
      (do
        if (small symbol).isAssignable then
          assignment (← selectors expression (← variableNode name.span (small symbol)))
        else
          fail (.assignToConstant (small name.value)) name.span) := by
    rw [isAssignable_small]
    refine .ite .rfl ?_ .fail
    exact (respells_variableNode name.span symbol).bind fun target =>
      (respells_selectors respells_expression target).bind respells_assignment
  obtain ⟨declared, type, role⟩ := symbol
  cases role with
  | typeName => exact .fail
  | function f =>
      cases assigns with
      | true => exact assigned
      | false =>
          refine (respells_call respells_expression name f).bind fun answer => ?_
          exact .pure
  | _ => exact assigned

theorem respells_statementOver (h : p.Respells q) : (statementOver p).Respells (statementOver q) := by
  refine respells_token.bind fun t => ?_
  cases t with
  | name _ => exact respells_namedStatement.map fun _ => rfl
  | mark m =>
      cases m with
      | semicolon => exact .pure
      | _ => exact .unexpected
  | keyword k =>
      cases k with
      | «begin» =>
          refine (respells_compoundOver h).bind fun answer => ?_
          obtain ⟨span, statements⟩ := answer
          exact (respells_node span .nil).bind fun info =>
            .answer (congrArg some (small_block info statements))
      | «if» => exact (respells_ifOver h).map fun _ => rfl
      | «while» => exact (respells_whileOver h).map fun _ => rfl
      | «for» => exact (respells_forOver h).map fun _ => rfl
      | «continue» | «break» =>
          exact (respells_jump _).bind fun span => (respells_node span .nil).bind fun _ => .pure
      | read | readln => exact (respells_readStatement _).map fun _ => rfl
      | write | writeln => exact (respells_writeStatement _).map fun _ => rfl
      | «end» | «else» => exact .pure
      | _ => exact .unexpected
  | _ => exact .unexpected

theorem respells_statement (n : Nat) : (statement n).Respells (statement n) := by
  induction n with
  | zero => exact .unexpected
  | succ n ih => exact respells_statementOver ih

theorem respells_compound : compound.Respells compound :=
  respells_remaining.bind fun n => respells_compoundOver (respells_statement n)

end Statements

section Types

variable {p q : Parser Ty}

theorem respells_bounds : bounds.Respells bounds := by
  refine respells_here.bind fun span => respells_constantInteger.bind fun low => ?_
  refine (respells_expect _).bind fun _ => respells_constantInteger.bind fun high => ?_
  refine .ite .rfl .failed (.ite .rfl .failed .pure)

theorem respells_arrayOver (element : Ty) (dimensions : List (Located Bounds)) :
    (arrayOver element dimensions).Respells (arrayOver (small element) dimensions) := by
  induction dimensions generalizing element with
  | nil => exact .pure
  | cons b outer ih =>
      unfold arrayOver
      rw [size_small]
      exact .ite .rfl .failed (ih (.array b.value.low b.value.high element))

theorem respells_arrayType (h : p.Respells q) : (arrayType p).Respells (arrayType q) := by
  refine (respells_keyword _).bind fun _ => (respells_expect _).bind fun _ => ?_
  refine (respells_separatedBy _ respells_bounds).bind fun dimensions => ?_
  have same : small dimensions = dimensions := List.map_id _
  rw [same]
  exact (respells_expect _).bind fun _ => (respells_keyword _).bind fun _ =>
    h.bind fun element => respells_arrayOver element dimensions.reverse

theorem respells_declareFields (type : Ty) (names : List (Located Name)) :
    (declareFields type names).Respells (declareFields (small type) (small names)) := by
  induction names with
  | nil => exact .pure
  | cons name names ih =>
      exact (respells_declare name (Declaring.respells_addVariable name type)).bind fun _ => ih

theorem respells_fieldGroup (h : p.Respells q) : (fieldGroup p).Respells (fieldGroup q) := by
  refine respells_atName.bind fun _ => .ite .rfl ?_ .pure
  refine respells_identifiers.bind fun names => (respells_expect _).bind fun _ => ?_
  refine h.bind fun type => (respells_declareFields type names).bind fun _ => ?_
  exact (respells_eat _).bind fun _ => .ite .rfl .pure .pure

theorem respells_recordType (h : p.Respells q) : (recordType p).Respells (recordType q) := by
  refine (respells_keyword _).bind fun _ => (respells_pushScope _).bind fun _ => ?_
  refine (Respells.many (respells_fieldGroup h)).bind fun _ => respells_popScope.bind fun fields => ?_
  exact (respells_keyword _).bind fun _ => .answer (record_small fields).symm

theorem respells_namedType : namedType.Respells namedType := by
  refine respells_identifier.bind fun name => (respells_lookup name).bind fun symbol => ?_
  obtain ⟨declared, type, role⟩ := symbol
  cases role with
  | typeName => exact .pure
  | _ => exact .fail

theorem respells_typeOver (h : p.Respells q) : (typeOver p).Respells (typeOver q) := by
  refine respells_token.bind fun t => ?_
  cases t with
  | name _ => exact respells_namedType
  | keyword k =>
      cases k with
      | integer | double | char | string => exact respells_bump.bind fun _ => .pure
      | array => exact respells_arrayType h
      | record => exact respells_recordType h
      | _ => exact .unexpected
  | _ => exact .unexpected

theorem respells_typeUpTo (n : Nat) : (typeUpTo n).Respells (typeUpTo n) := by
  induction n with
  | zero => exact .unexpected
  | succ n ih => exact respells_typeOver ih

theorem respells_type : type.Respells type := respells_remaining.bind respells_typeUpTo

theorem respells_fieldName (fields : Fields) (due : Name) :
    (fieldName fields due).Respells (fieldName (small fields) (small due)) := by
  refine respells_identifier.bind fun name => ?_
  have same : (small fields).get? (small name).value = small (fields.get? name.value) :=
    field_small fields name.value
  rw [same]
  cases fields.get? name.value with
  | none => exact .fail
  | some f =>
      have found : (small f).name.same (small due) = f.name.same due := same_small f.name due
      exact .ite (by rw [← found]) .pure .fail

theorem small_values (values : List Value) : small values = values := List.map_id _

theorem respells_scalarConstant (type : Ty) : Respells
    (do
      let e ← expression
      locate e.span (type.check e.type)
      match e.value?.bind fun v => v.cast? type.category with
      | some v => return v
      | none => fail .expectedConstant e.span)
    (do
      let e ← expression
      locate e.span ((small type).check e.type)
      match e.value?.bind fun v => v.cast? (small type).category with
      | some v => return v
      | none => fail .expectedConstant e.span) := by
  refine respells_expression.bind fun e => ?_
  rw [type_small, expr_span_small, value?_small, check_small, category_small]
  refine (Respells.locate _).bind fun _ => ?_
  cases e.value?.bind fun v => v.cast? type.category with
  | some v => exact .pure
  | none => exact .fail

mutual

theorem respells_typedConstant (type : Ty) : (typedConstant type).Respells (typedConstant (small type)) := by
  cases type with
  | array low high element =>
      refine respells_here.bind fun span => (respells_expect _).bind fun _ => ?_
      refine (respells_separatedBy _ (respells_typedConstant element)).bind fun values => ?_
      rw [small_values]
      exact (respells_expect _).bind fun _ => .ite .rfl .pure .fail
  | record fields =>
      refine (respells_expect _).bind fun _ => (respells_fieldConstants fields fields).bind fun values => ?_
      rw [small_values]
      exact (respells_eat _).bind fun _ => (respells_expect _).bind fun _ => .pure
  | _ => exact respells_scalarConstant _

theorem respells_fieldConstants (all fields : Fields) :
    (fieldConstants all fields).Respells (fieldConstants (small all) (small fields)) := by
  cases fields with
  | empty => exact .pure
  | more name type rest =>
      refine (respells_fieldName all name).bind fun _ => (respells_expect _).bind fun _ => ?_
      refine (respells_typedConstant type).bind fun value => ?_
      have later := respells_fieldConstants all rest
      cases rest with
      | empty => exact .pure
      | more => exact (respells_expect _).bind fun _ => later.bind fun _ => .pure

end

end Types

section Declarations

theorem respells_typeDeclaration : typeDeclaration.Respells typeDeclaration := by
  refine respells_identifier.bind fun name => (respells_expect _).bind fun _ => ?_
  refine respells_type.bind fun type => (respells_expect _).bind fun _ => ?_
  exact (respells_declare name (Declaring.respells_addType name type)).bind fun _ => .pure

theorem respells_initializer (symbol : Symbol) (span : Span) (value : Value) :
    (initializer symbol span value).Respells (initializer (small symbol) span value) :=
  (respells_variableNode span symbol).bind fun _ =>
    (respells_constantNode span symbol.type value).bind fun _ => (respells_node span .nil).bind fun _ => .pure

theorem respells_typedConstantDeclaration (name : Located Name) :
    (typedConstantDeclaration name).Respells (typedConstantDeclaration (small name)) := by
  refine respells_type.bind fun type => (respells_expect _).bind fun _ => respells_here.bind fun span => ?_
  refine (respells_typedConstant type).bind fun value => ?_
  rw [isScalar_small]
  refine (respells_declare name (Declaring.respells_addConstant name type value _)).bind fun symbol => ?_
  exact .ite .rfl ((respells_initializer symbol span value).bind fun _ => .pure) .pure

theorem respells_plainConstantDeclaration (name : Located Name) :
    (plainConstantDeclaration name).Respells (plainConstantDeclaration (small name)) := by
  refine (respells_expect _).bind fun _ => respells_expression.bind fun e => ?_
  rw [value?_small, type_small, expr_span_small]
  cases e.value? with
  | none => exact .fail
  | some value =>
      exact (respells_declare name (Declaring.respells_addConstant name e.type value false)).bind fun _ => .pure

theorem respells_constantDeclaration : constantDeclaration.Respells constantDeclaration := by
  refine respells_identifier.bind fun name => (respells_eat _).bind fun _ => ?_
  have closed (statements : List Stmt) : Respells (do let _ ← expect .semicolon; return statements)
      (do let _ ← expect .semicolon; return small statements) :=
    (respells_expect _).bind fun _ => .pure
  refine .ite .rfl ((respells_typedConstantDeclaration name).bind closed) ?_
  exact (respells_plainConstantDeclaration name).bind fun _ => closed []

theorem respells_initialValue (type : Ty) (count : Nat) :
    (initialValue type count).Respells (initialValue (small type) count) := by
  refine .ite .rfl ?_ .pure
  refine (respells_eat _).bind fun _ => .ite .rfl ?_ .pure
  exact respells_here.bind fun span => (respells_typedConstant type).bind fun value => .pure

theorem respells_declareVariables (type : Ty) (initial : Option (Span × Value)) (names : List (Located Name)) :
    (declareVariables type initial names).Respells (declareVariables (small type) initial (small names)) := by
  induction names with
  | nil => exact .pure
  | cons name names ih =>
      refine (respells_declare name (Declaring.respells_addVariable name type)).bind fun symbol => ?_
      cases initial with
      | none => exact ih
      | some start =>
          exact (respells_initializer symbol start.1 start.2).bind fun _ => ih.bind fun _ => .pure

theorem respells_variableDeclaration : variableDeclaration.Respells variableDeclaration := by
  refine respells_identifiers.bind fun names => (respells_expect _).bind fun _ => ?_
  refine respells_type.bind fun type => ?_
  rw [length_small]
  refine (respells_initialValue type names.length).bind fun initial => (respells_expect _).bind fun _ => ?_
  have same : small initial = initial := by cases initial <;> rfl
  rw [same]
  exact respells_declareVariables type initial names

theorem respells_mode : mode.Respells mode :=
  (respells_eatKeyword _).bind fun _ => .ite .rfl .pure
    ((respells_eatKeyword _).bind fun _ => .ite .rfl .pure .pure)

theorem respells_defaultValue (mode : Mode) (type : Ty) :
    (defaultValue mode type).Respells (defaultValue mode (small type)) := by
  refine (respells_atMark _).bind fun _ => .ite .rfl ?_ .pure
  exact respells_bump.bind fun _ => .ite .rfl .fail ((respells_typedConstant type).bind fun _ => .pure)

instance : Spelled ParameterList := ⟨fun list => { list with table := small list.table }⟩

theorem respells_addParameters (type : Ty) (mode : Mode) (default : Option Value) (t : Table)
    (names : List (Located Name)) :
    (addParameters type mode default t names).Respells
      (addParameters (small type) mode default (small t) (small names)) := by
  induction names generalizing t with
  | nil => exact .pure
  | cons name names ih =>
      have added := Declaring.respells_addParameter name type mode default t
      change Respells (addParameters type mode default t (name :: names))
        (addParameters (small type) mode default (small t) (small name :: small names))
      unfold addParameters
      rw [← added]
      exact (Respells.locate _).bind fun _ => ih _

theorem respells_parameterGroup (list : ParameterList) :
    (parameterGroup list).Respells (parameterGroup (small list)) := by
  refine respells_mode.bind fun mode => respells_identifiers.bind fun names => ?_
  refine (respells_expect _).bind fun _ => respells_type.bind fun type => ?_
  refine (respells_defaultValue mode type).bind fun default => ?_
  have same : small default = default := by cases default <;> rfl
  have first : (small names).head?.map Located.span = names.head?.map Located.span := by
    cases names <;> rfl
  rw [same, first]
  have added : Respells
      (do
        let table ← addParameters type mode default list.table names
        return ParameterList.mk table (list.defaults || default.isSome))
      (do
        let table ← addParameters (small type) mode default (small list.table) (small names)
        return ParameterList.mk table (list.defaults || default.isSome)) :=
    (respells_addParameters type mode default list.table names).bind fun _ => .pure
  exact .ite .rfl (respells_here.bind fun _ => .failed) added

theorem respells_parameterGroups (t : Table) : (parameterGroups t).Respells (parameterGroups (small t)) := by
  refine (respells_parameterGroup ⟨t, false⟩).bind fun first => ?_
  refine (Respells.iterate (fun list => ?_) first).bind fun _ => .pure
  refine (respells_eat _).bind fun _ => ?_
  exact .ite .rfl ((respells_parameterGroup list).bind fun _ => .pure) .pure

theorem respells_parameters (level : Nat) : (parameters level).Respells (parameters level) := by
  have closed (t : Table) : Respells (do let _ ← expect .closeParen; return t)
      (do let _ ← expect .closeParen; return small t) :=
    (respells_expect _).bind fun _ => .pure
  refine (respells_eat _).bind fun _ => .ite .rfl ?_ .pure
  refine (respells_atMark _).bind fun _ => .ite .rfl (closed _) ?_
  exact (respells_parameterGroups _).bind closed

theorem respells_signature : signature.Respells signature := by
  refine respells_bump.bind fun t => respells_identifier.bind fun name => ?_
  refine Respells.get.bind fun s => (respells_parameters _).bind fun table => ?_
  have numbered (result : Ty) : Respells
      (do
        let _ ← expect .semicolon
        let s' ← get
        set { s' with nextFunction := s'.nextFunction + 1 }
        return Signature.mk s'.nextFunction name table.parameters table.size result (s.level + 1))
      (do
        let _ ← expect .semicolon
        let s' ← get
        set { s' with nextFunction := s'.nextFunction + 1 }
        return Signature.mk s'.nextFunction (small name) (small table).parameters table.size
          (small result) (s.level + 1)) := by
    rw [parameters_small]
    exact (respells_expect _).bind fun _ => Respells.get.bind fun _ => Respells.set.bind fun _ => .pure
  refine .ite (by rw [value_small, isKeyword_small]) (numbered .nil) ?_
  exact (respells_expect _).bind fun _ => respells_type.bind numbered

theorem small_result : small (Name.ofSpelling "result") = .ofSpelling "result" := by
  refine Name.ext ?_
  decide

theorem small_located_result (span : Span) :
    small (Located.mk (Name.ofSpelling "result") span) = ⟨.ofSpelling "result", span⟩ :=
  congrArg (Located.mk · span) small_result

theorem small_empty (area : Area) (level : Nat) : small (Table.empty area level) = .empty area level := rfl

theorem respells_localsOf (f : Signature) : (localsOf f).Respells (localsOf (small f)) := by
  obtain ⟨id, name, parameters, block, result, level⟩ := f
  have added := Declaring.respells_addVariable ⟨.ofSpelling "result", name.span⟩ result (.empty .locals level)
  rw [small_located_result, small_empty] at added
  have answered (r : Except SemanticError Symbol × Table) : Respells
      (do
        let _ ← locate name.span r.1
        return r.2)
      (do
        let _ ← locate name.span (small r).1
        return (small r).2) :=
    (Respells.locate _).bind fun _ => .pure
  have located := answered ((Declaring.addVariable ⟨.ofSpelling "result", name.span⟩ result).runOn
    (.empty .locals level))
  rw [added] at located
  cases result with
  | nil => exact .pure
  | _ => exact located

variable {p q : Parser Stmt}

theorem respells_functionOver (h : p.Respells q) : (functionOver p).Respells (functionOver q) := by
  refine respells_signature.bind fun f => ?_
  refine (respells_declare f.name (Declaring.respells_addFunction f)).bind fun _ => ?_
  refine (respells_localsOf f).bind fun locals => ?_
  rw [table_small]
  refine (respells_pushScope f.table).bind fun _ => (respells_pushScope locals).bind fun _ => ?_
  refine Respells.get.bind fun s => ?_
  refine Respells.bind (.modify fun _ => rfl) fun _ => h.bind fun body => ?_
  refine Respells.bind (.modify fun _ => rfl) fun _ => respells_popScope.bind fun locals => ?_
  refine respells_popScope.bind fun _ => (respells_expect _).bind fun _ => .modify fun s => ?_
  exact congrArg (fun functions => { small s with functions := functions }) (small_append s.functions _)

theorem respells_sectionOver (h : p.Respells q) : (sectionOver p).Respells (sectionOver q) := by
  refine respells_token.bind fun t => ?_
  cases t with
  | keyword k =>
      cases k with
      | type => exact respells_bump.bind fun _ => (respells_whileNames respells_typeDeclaration).bind fun _ => .pure
      | const =>
          refine respells_bump.bind fun _ => (respells_whileNames respells_constantDeclaration).bind fun _ => ?_
          exact .answer (congrArg some (small_flatten _))
      | var =>
          refine respells_bump.bind fun _ => (respells_whileNames respells_variableDeclaration).bind fun _ => ?_
          exact .answer (congrArg some (small_flatten _))
      | function | procedure => exact (respells_functionOver h).bind fun _ => .pure
      | _ => exact .pure
  | _ => exact .pure

theorem respells_blockOver (h : p.Respells q) : (blockOver p).Respells (blockOver q) := by
  refine (Respells.many (respells_sectionOver h)).bind fun initializers => ?_
  refine respells_compound.bind fun answer => ?_
  obtain ⟨span, statements⟩ := answer
  refine (respells_node span .nil).bind fun info => .answer ?_
  rw [small_block, small_append, small_flatten]

theorem respells_block (n : Nat) : (block n).Respells (block n) := by
  induction n with
  | zero => exact .unexpected
  | succ n ih => exact respells_blockOver ih

/-- A program without a heading has a name with a capital letter. -/
theorem respells_programName : ∃ q, programName.Respells q := by
  refine ⟨do
    let span ← here
    if ← eatKeyword .program then
      let name ← identifier
      let _ ← expect .semicolon
      return name
    else
      return small ⟨.ofSpelling "Main", span⟩, ?_⟩
  refine respells_here.bind fun span => (respells_eatKeyword _).bind fun _ => .ite .rfl ?_ .pure
  exact respells_identifier.bind fun _ => (respells_expect _).bind fun _ => .pure

theorem respells_program : ∃ q, program.Respells q := by
  obtain ⟨q, named⟩ := respells_programName
  refine ⟨do
    let name ← q
    let body ← block (← remaining)
    let _ ← expect .period
    if !(← token).isEndOfFile then
      unexpected [.endOfFile]
    let s ← get
    return ⟨s.functions, ⟨⟨0, name, [], 0, .nil, 0⟩, s.scopes.outermost, body⟩, s.nodes⟩, ?_⟩
  refine named.bind fun name => respells_remaining.bind fun n => (respells_block n).bind fun body => ?_
  refine (respells_expect _).bind fun _ => respells_token.bind fun t => ?_
  have last : (small t).isEndOfFile = t.isEndOfFile := by cases t <;> rfl
  rw [last]
  have finished : Respells
      (do
        let s ← get
        return Program.mk s.functions ⟨⟨0, name, [], 0, .nil, 0⟩, s.scopes.outermost, body⟩ s.nodes)
      (do
        let s ← get
        return Program.mk s.functions ⟨⟨0, small name, [], 0, .nil, 0⟩, s.scopes.outermost, small body⟩
          s.nodes) := by
    refine Respells.get.bind fun s => .answer ?_
    have outermost : (small s).scopes.outermost = small s.scopes.outermost := outermost_small s.scopes
    rw [outermost]
    rfl
  exact .ite .rfl (Respells.unexpected.bind fun _ => finished) finished

end Declarations

end Parser

end PascalX86
