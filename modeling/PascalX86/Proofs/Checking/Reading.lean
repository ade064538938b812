import PascalX86.Proofs.Checking.Nesting
import PascalX86.Proofs.Parsing.Reference

/-!
# Bodies as they are read

The bodies of all functions are read from names of the text. Declarations only matter for what they
leave in scope: functions under their own names, and locals for the initializers.
-/

set_option autoImplicit false

namespace PascalX86

section Tables

variable {t t' : Table} {symbol : Symbol}

theorem Table.Named.extend (named : t.Named) (extends_ : t.Extends symbol t')
    (own : ∀ f, symbol.role = .function f → symbol.name = f.name) : t'.Named := by
  intro other mem f role
  rw [extends_.symbols, List.mem_append, List.mem_singleton] at mem
  rcases mem with mem | rfl
  · exact named other mem f role
  · exact own f role

theorem Table.named_empty (area : Area) (level : Nat) : (Table.empty area level).Named := by
  simp [Table.Named, Table.empty]

theorem Signature.named_table (f : Signature) : f.table.Named := by
  intro symbol mem g role
  obtain ⟨p, -, rfl⟩ := List.mem_map.mp mem
  cases role

theorem Checking.ResultLocal.named {f : Signature} (h : Checking.ResultLocal f t) : t.Named := by
  intro symbol mem g role
  obtain ⟨slot, other⟩ := h.fresh symbol mem
  rw [role] at other
  cases other

end Tables

namespace Parser

open Checking

variable {items : List Scanned}

section Scopes

theorem cites_declare {name : Located Name} {d : Declaring Symbol}
    (own : ∀ t symbol t', d.runOn t = (.ok symbol, t') →
      t.Extends symbol t' ∧ ∀ f, symbol.role = .function f → symbol.name = f.name) :
    (declare name d).Cites items fun _ => True := by
  intro s from_
  refine (ensures_declare name d).mono fun symbol s' adds => ⟨?_, trivial⟩
  obtain ⟨added, eq⟩ := adds.run
  obtain ⟨extends_, named⟩ := own _ _ _ added
  rw [eq]
  refine ⟨from_.cursor, fun t mem => ?_, from_.functions⟩
  rcases List.mem_cons.mp mem with rfl | mem
  · exact (from_.named _ List.mem_cons_self).extend extends_ named
  · exact from_.named t (List.mem_cons_of_mem _ mem)

theorem cites_declareVariable (name : Located Name) (type : Ty) :
    (declare name (Declaring.addVariable name type)).Cites items fun _ => True :=
  cites_declare fun _ _ _ run => by
    obtain ⟨rfl, extends_⟩ := Declaring.addVariable_ok run
    exact ⟨extends_, nofun⟩

theorem cites_declareConstant (name : Located Name) (type : Ty) (value : Value) (stored : Bool) :
    (declare name (Declaring.addConstant name type value stored)).Cites items fun _ => True :=
  cites_declare fun _ _ _ run => by
    obtain ⟨rfl, extends_⟩ := Declaring.addConstant_ok run
    exact ⟨extends_, nofun⟩

theorem cites_declareType (name : Located Name) (type : Ty) :
    (declare name (Declaring.addType name type)).Cites items fun _ => True :=
  cites_declare fun _ _ _ run => by
    obtain ⟨rfl, extends_⟩ := Declaring.addType_ok run
    exact ⟨extends_, nofun⟩

theorem cites_declareFunction (f : Signature) :
    (declare f.name (Declaring.addFunction f)).Cites items fun _ => True :=
  cites_declare fun _ _ _ run => by
    obtain ⟨rfl, extends_⟩ := Declaring.addFunction_ok run
    refine ⟨extends_, fun g role => ?_⟩
    cases role
    rfl

theorem cites_pushScope {t : Table} (named : t.Named) : (pushScope t).Cites items fun _ => True :=
  .modified fun _ from_ => ⟨from_.cursor, List.forall_mem_cons.mpr ⟨named, from_.named⟩, from_.functions⟩

theorem cites_popScope : popScope.Cites items fun _ => True := by
  refine fun s from_ => .get ?_
  split
  · next t σ popped =>
    refine .set (.pure ⟨⟨from_.cursor, fun u mem => from_.named u ?_, from_.functions⟩, trivial⟩)
    rw [Scopes.pop?] at popped
    split at popped
    · cases popped
    · next eq =>
      cases popped
      rw [Scopes.tables, eq]
      exact List.mem_cons_of_mem _ mem
  · exact .pure ⟨from_, trivial⟩

end Scopes

section Types

theorem cites_bounds : bounds.Cites items fun _ => True :=
  cites_here.bind fun _ _ => cites_constantInteger.bind fun _ _ =>
    (cites_expect .doubleDot).bind fun _ _ => cites_constantInteger.bind fun _ _ =>
      .ite .failed (.ite .failed (.pure trivial))

theorem cites_arrayOver {element : Ty} {dimensions : List (Located Bounds)} :
    (arrayOver element dimensions).Cites items fun _ => True := by
  induction dimensions generalizing element with
  | nil => exact .pure trivial
  | cons b outer ih => exact .ite .failed ih

theorem cites_arrayType {type : Parser Ty} (h : type.Cites items fun _ => True) :
    (arrayType type).Cites items fun _ => True :=
  (cites_keyword .array).bind fun _ _ => (cites_expect .openSquare).bind fun _ _ =>
    (cites_separatedBy .comma cites_bounds).bind fun _ _ => (cites_expect .closeSquare).bind fun _ _ =>
      (cites_keyword .of).bind fun _ _ => h.bind fun _ _ => cites_arrayOver

theorem cites_declareFields (type : Ty) (names : List (Located Name)) :
    (declareFields type names).Cites items fun _ => True := by
  induction names with
  | nil => exact .pure trivial
  | cons name names ih => exact (cites_declareVariable name type).bind fun _ _ => ih

theorem cites_fieldGroup {type : Parser Ty} (h : type.Cites items fun _ => True) :
    (fieldGroup type).Cites items fun _ => True := by
  refine cites_atName.bind fun _ _ => .ite ?_ (.pure trivial)
  refine cites_identifiers.bind fun names _ => (cites_expect .colon).bind fun _ _ => ?_
  refine h.bind fun type _ => (cites_declareFields type names).bind fun _ _ => ?_
  exact (cites_eat .semicolon).bind fun _ _ => .ite (.pure trivial) (.pure trivial)

theorem cites_recordType {type : Parser Ty} (h : type.Cites items fun _ => True) :
    (recordType type).Cites items fun _ => True := by
  refine (cites_keyword .record).bind fun _ _ => ?_
  refine (cites_pushScope (Table.named_empty .fields 0)).bind fun _ _ => ?_
  have group := (cites_fieldGroup h).mono (Q := fun r => ∀ a ∈ r, True) fun _ _ _ _ => trivial
  refine (Cites.many group).bind fun _ _ => ?_
  exact cites_popScope.bind fun _ _ => (cites_keyword .end).bind fun _ _ => .pure trivial

theorem cites_namedType : namedType.Cites items fun _ => True := by
  refine cites_identifier.bind fun name _ => (cites_lookup name).bind fun symbol _ => ?_
  split
  · exact .pure trivial
  · exact .fail

theorem cites_typeOver {inner : Parser Ty} (h : inner.Cites items fun _ => True) :
    (typeOver inner).Cites items fun _ => True := by
  refine cites_token.bind fun t _ => ?_
  split
  · exact cites_bump.bind fun _ _ => .pure trivial
  · exact cites_bump.bind fun _ _ => .pure trivial
  · exact cites_bump.bind fun _ _ => .pure trivial
  · exact cites_bump.bind fun _ _ => .pure trivial
  · exact cites_arrayType h
  · exact cites_recordType h
  · exact cites_namedType
  · exact .unexpected

theorem cites_typeUpTo (depth : Nat) : (typeUpTo depth).Cites items fun _ => True := by
  induction depth with
  | zero => exact .unexpected
  | succ depth ih => exact cites_typeOver ih

theorem cites_type : type.Cites items fun _ => True :=
  cites_remaining.bind fun depth _ => cites_typeUpTo depth

theorem cites_fieldName (fields : Fields) (due : Name) : (fieldName fields due).Cites items fun _ => True := by
  refine cites_identifier.bind fun name _ => ?_
  split
  · exact .fail
  · exact .ite (.pure trivial) .fail

mutual

theorem cites_typedConstant (type : Ty) : (typedConstant type).Cites items fun _ => True := by
  cases type with
  | array low high element =>
      unfold typedConstant
      refine cites_here.bind fun _ _ => (cites_expect .openParen).bind fun _ _ => ?_
      refine (cites_separatedBy .comma (cites_typedConstant element)).bind fun _ _ => ?_
      exact (cites_expect .closeParen).bind fun _ _ => .ite (.pure trivial) .fail
  | record fields =>
      unfold typedConstant
      refine (cites_expect .openParen).bind fun _ _ => (cites_fieldConstants fields fields).bind fun _ _ => ?_
      exact (cites_eat .semicolon).bind fun _ _ => (cites_expect .closeParen).bind fun _ _ => .pure trivial
  | _ =>
      unfold typedConstant
      refine cites_expression.bind fun e _ => .located fun _ _ => ?_
      split
      · exact .pure trivial
      · exact .fail

theorem cites_fieldConstants (all fields : Fields) :
    (fieldConstants all fields).Cites items fun _ => True := by
  cases fields with
  | empty =>
      unfold fieldConstants
      exact .pure trivial
  | more name type rest =>
      unfold fieldConstants
      refine (cites_fieldName all name).bind fun _ _ => (cites_expect .colon).bind fun _ _ => ?_
      refine (cites_typedConstant type).bind fun value _ => ?_
      cases rest with
      | empty => exact .pure trivial
      | more name' type' rest' =>
          exact (cites_expect .semicolon).bind fun _ _ =>
            (cites_fieldConstants all (.more name' type' rest')).bind fun _ _ => .pure trivial

end

end Types

section Declarations

theorem cites_typeDeclaration : typeDeclaration.Cites items fun _ => True :=
  cites_identifier.bind fun name _ => (cites_expect .equal).bind fun _ _ =>
    cites_type.bind fun type _ => (cites_expect .semicolon).bind fun _ _ =>
      (cites_declareType name type).bind fun _ _ => .pure trivial

theorem cites_initializer (symbol : Symbol) (span : Span) (value : Value) :
    (Parser.initializer symbol span value).Cites items fun _ => True := by
  have target : (variableNode span symbol).Cites items fun _ => True :=
    (cites_node span symbol.type).bind fun _ _ => .pure trivial
  exact target.bind fun _ _ => (cites_constantNode span symbol.type value).bind fun _ _ =>
    (cites_node span .nil).bind fun _ _ => .pure trivial

theorem cites_typedConstantDeclaration (name : Located Name) :
    (typedConstantDeclaration name).Cites items fun _ => True := by
  refine cites_type.bind fun type _ => (cites_expect .equal).bind fun _ _ => ?_
  refine cites_here.bind fun span _ => (cites_typedConstant type).bind fun value _ => ?_
  refine (cites_declareConstant name type value _).bind fun symbol _ => .ite ?_ (.pure trivial)
  exact (cites_initializer symbol span value).bind fun _ _ => .pure trivial

theorem cites_plainConstantDeclaration (name : Located Name) :
    (plainConstantDeclaration name).Cites items fun _ => True := by
  refine (cites_expect .equal).bind fun _ _ => cites_expression.bind fun e _ => ?_
  split
  · exact (cites_declareConstant name e.type _ false).bind fun _ _ => .pure trivial
  · exact .fail

theorem cites_constantDeclaration : constantDeclaration.Cites items fun _ => True := by
  have closed (initializers : List Stmt) :
      (do let _ ← expect .semicolon
          return initializers : Parser (List Stmt)).Cites items fun _ => True :=
    (cites_expect .semicolon).bind fun _ _ => .pure trivial
  refine cites_identifier.bind fun name _ => (cites_eat .colon).bind fun _ _ => .ite ?_ ?_
  · exact (cites_typedConstantDeclaration name).bind fun initializers _ => closed initializers
  · exact (cites_plainConstantDeclaration name).bind fun _ _ => closed []

theorem cites_initialValue (type : Ty) (count : Nat) :
    (initialValue type count).Cites items fun _ => True := by
  refine .ite ((cites_eat .equal).bind fun _ _ => .ite ?_ (.pure trivial)) (.pure trivial)
  exact cites_here.bind fun _ _ => (cites_typedConstant type).bind fun _ _ => .pure trivial

theorem cites_declareVariables (type : Ty) (initial : Option (Span × Value))
    (names : List (Located Name)) :
    (declareVariables type initial names).Cites items fun _ => True := by
  induction names with
  | nil => exact .pure trivial
  | cons name names ih =>
      refine (cites_declareVariable name type).bind fun symbol _ => ?_
      split
      · next span value =>
        exact (cites_initializer symbol span value).bind fun _ _ => ih.bind fun _ _ => .pure trivial
      · exact ih

theorem cites_variableDeclaration : variableDeclaration.Cites items fun _ => True :=
  cites_identifiers.bind fun names _ => (cites_expect .colon).bind fun _ _ =>
    cites_type.bind fun type _ => (cites_initialValue type names.length).bind fun initial _ =>
      (cites_expect .semicolon).bind fun _ _ => cites_declareVariables type initial names

theorem cites_mode : mode.Cites items fun _ => True :=
  (cites_eatKeyword .var).bind fun _ _ => .ite (.pure trivial)
    ((cites_eatKeyword .const).bind fun _ _ => .ite (.pure trivial) (.pure trivial))

theorem cites_defaultValue (mode : Mode) (type : Ty) :
    (defaultValue mode type).Cites items fun _ => True := by
  refine (cites_atMark .equal).bind fun _ _ => .ite ?_ (.pure trivial)
  exact cites_bump.bind fun _ _ => .ite .fail ((cites_typedConstant type).bind fun _ _ => .pure trivial)

theorem cites_addParameters (type : Ty) (mode : Mode) (default : Option Value)
    (names : List (Located Name)) (t : Table) :
    (addParameters type mode default t names).Cites items fun _ => True := by
  induction names generalizing t with
  | nil => exact .pure trivial
  | cons name names ih => exact .located fun _ _ => ih _

theorem cites_parameterGroup (list : ParameterList) :
    (parameterGroup list).Cites items fun _ => True := by
  have added (type : Ty) (mode : Mode) (default : Option Value) (names : List (Located Name)) :
      (do let table ← addParameters type mode default list.table names
          return ⟨table, list.defaults || default.isSome⟩ : Parser ParameterList).Cites items
        fun _ => True :=
    (cites_addParameters type mode default names list.table).bind fun _ _ => .pure trivial
  refine cites_mode.bind fun mode _ => cites_identifiers.bind fun names _ => ?_
  refine (cites_expect .colon).bind fun _ _ => cites_type.bind fun type _ => ?_
  refine (cites_defaultValue mode type).bind fun default _ => .ite ?_ (added type mode default names)
  exact cites_here.bind fun _ _ => .failed

theorem cites_parameterGroups (t : Table) : (parameterGroups t).Cites items fun _ => True := by
  refine (cites_parameterGroup _).bind fun first _ => ?_
  refine (Cites.iterate (Q := fun _ => True) trivial fun list _ => ?_).bind fun _ _ => .pure trivial
  refine (cites_eat .semicolon).bind fun _ _ => .ite ?_ (.pure trivial)
  exact (cites_parameterGroup list).bind fun _ _ => .pure trivial

theorem cites_parameters (level : Nat) : (parameters level).Cites items fun _ => True := by
  refine (cites_eat .openParen).bind fun _ _ => .ite ?_ (.pure trivial)
  refine (cites_atMark .closeParen).bind fun _ _ => .ite ?_ ?_
  · exact (cites_expect .closeParen).bind fun _ _ => .pure trivial
  · exact (cites_parameterGroups _).bind fun _ _ =>
      (cites_expect .closeParen).bind fun _ _ => .pure trivial

theorem cites_signature : signature.Cites items fun _ => True := by
  have ended (f : ParserState → Signature) :
      (do let _ ← expect .semicolon
          let s ← get
          set { s with nextFunction := s.nextFunction + 1 }
          return f s : Parser Signature).Cites items fun _ => True := by
    refine (cites_expect .semicolon).bind fun _ _ s from_ => .get (.set (.pure ⟨?_, trivial⟩))
    exact ⟨from_.cursor, from_.named, from_.functions⟩
  refine cites_bump.bind fun t _ => cites_identifier.bind fun name _ => .get fun s => ?_
  refine (cites_parameters _).bind fun table _ => .ite (ended _) ?_
  exact (cites_expect .colon).bind fun _ _ => cites_type.bind fun result _ => ended _

end Declarations

section Blocks

def CitesBlock (items : List Scanned) (p : Parser Stmt) : Prop :=
  ∀ s : ParserState, s.Sound → s.loops = 0 → s.From items →
    p.Ensures s fun body s' => s'.From items ∧ body.Read items s'.scopes.current

variable {block : Parser Stmt} {s : ParserState}

theorem Ensures.and {α : Type} {p : Parser α} {P Q : α → ParserState → Prop} (hp : p.Ensures s P)
    (hq : p.Ensures s Q) : p.Ensures s fun a s' => P a s' ∧ Q a s' :=
  fun a s' run => ⟨hp a s' run, hq a s' run⟩

theorem from_functionOver (blocks : Blocks block) (h : CitesBlock items block) (sound : s.Sound)
    (from_ : s.From items) : (functionOver block).Ensures s fun _ s' => s'.From items := by
  refine ((ensures_signature sound).and (cites_signature s from_)).bind ?_
  rintro f _ ⟨⟨u, before, heading, rfl⟩, from₁, -⟩
  refine ((ensures_declare f.name _).and (cites_declareFunction f _ from₁)).bind ?_
  rintro symbol u₁ ⟨adds, from₂, -⟩
  refine (ensures_localsOf f).bind ?_
  rintro locals u₁ ⟨result, rfl⟩
  refine .modify (.modify (.get (.modify ?_)))
  obtain ⟨outside, entered⟩ := adds.entered (before.sound sound).sound heading result
  have inside : (u₁.entered f locals).From items := by
    refine ⟨from₂.cursor, ?_, from₂.functions⟩
    exact List.forall_mem_cons.mpr ⟨result.named, List.forall_mem_cons.mpr ⟨f.named_table, from₂.named⟩⟩
  refine ((blocks (u₁.entered f locals) entered rfl).and (h _ entered rfl inside)).bind ?_
  rintro body _ ⟨⟨u₂, initializers, statements, n, span, c, declares, chain, -, rfl⟩, from₃, read⟩
  -- The block has left the scopes outside its own as they were.
  have pop : u₂.scopes.pop? = some (u₂.scopes.current, u₁.scopes.push f.table) := by
    rw [Scopes.pop?, (declares.sound entered).outer]
    rfl
  refine .modify (.bind (ensures_popScope pop rfl) ?_)
  rintro _ _ ⟨rfl, rfl⟩
  refine (ensures_popScope (Scopes.pop?_push u₁.scopes f.table) rfl).bind ?_
  rintro _ _ ⟨rfl, rfl⟩
  have current : u₂.scopes.current.Named := from₃.named _ List.mem_cons_self
  have closed (v : ParserState) (from_ : v.From items) :
      (do let _ ← expect .semicolon
          modify fun s => { s with functions := s.functions ++ [⟨f, u₂.scopes.current, body⟩] } :
        Parser Unit).Ensures v fun _ s' => s'.From items := by
    refine (cites_expect .semicolon v from_).bind fun _ w expected => .modified ?_
    have from_ := expected.1
    refine ⟨from_.cursor, from_.named, ?_⟩
    rw [List.forall_mem_append, List.forall_mem_singleton]
    exact ⟨from_.functions, current, read⟩
  exact closed _ ⟨from₃.cursor, from₂.named, from₃.functions⟩

theorem from_sectionOver (blocks : Blocks block) (h : CitesBlock items block) (sound : s.Sound)
    (from_ : s.From items) : (sectionOver block).Ensures s fun _ s' => s'.From items := by
  have token : Parser.token.Ensures s fun _ s' => s'.Sound ∧ s'.From items :=
    fun _ _ run => by cases run; exact ⟨sound, from_⟩
  have listed {α β : Type} {p : Parser α} {f : List α → β} (each : p.Cites items fun _ => True) :
      (do let _ ← bump
          return f (← whileNames p) : Parser β).Cites items fun _ => True :=
    cites_bump.bind fun _ _ => (cites_whileNames each).bind fun _ _ => .pure trivial
  refine token.bind ?_
  rintro t s ⟨sound, from_⟩
  split
  · exact (listed (f := fun _ => some []) cites_typeDeclaration s from_).mono fun _ _ => And.left
  · exact (listed cites_constantDeclaration s from_).mono fun _ _ => And.left
  · exact (listed cites_variableDeclaration s from_).mono fun _ _ => And.left
  · exact (from_functionOver blocks h sound from_).bind fun _ _ from_ => .pure from_
  · exact (from_functionOver blocks h sound from_).bind fun _ _ from_ => .pure from_
  · exact .pure from_

theorem from_sections (blocks : Blocks block) (h : CitesBlock items block) (sound : s.Sound)
    (from_ : s.From items) : (many (sectionOver block)).Ensures s fun _ s' => s'.From items := by
  refine (Ensures.many (R := fun _ _ _ => True) (E := fun s s' => s.From items → s'.From items)
    (I := fun s => s.Sound ∧ s.From items) ⟨sound, from_⟩ ?_ fun s => id).mono ?_
  · rintro s ⟨sound, from_⟩
    refine ((ensures_sectionOver blocks sound).and (from_sectionOver blocks h sound from_)).mono ?_
    rintro (_ | initializers) s' ⟨itemized, from'⟩
    · exact fun _ => from'
    · exact ⟨trivial, (Checking.Declares.sound itemized sound).sound, from'⟩
  · rintro _ _ ⟨t, -, ⟨-, from_⟩, last⟩
    exact last from_

theorem citesBlock_blockOver (blocks : Blocks block) (h : CitesBlock items block) :
    CitesBlock items (blockOver block) := by
  intro s sound loops from_
  have declared := ensures_declarations (f := id) sound fun s sound => ensures_sectionOver blocks sound
  refine (declared.and (from_sections blocks h sound from_)).bind ?_
  rintro lists t ⟨declares, from_⟩
  have yields := (yields_compound (s := t) (n := t.nodes)).ensures
  refine (yields.and (cites_compound t from_)).bind ?_
  rintro body _ ⟨⟨c, n, rfl, -⟩, from_, cited⟩
  refine (((yields_node body.1 .nil).ensures (s := t.moved c n)).and (cites_node body.1 .nil _ from_)).bind ?_
  rintro info _ ⟨⟨c', _, rfl, -, rfl⟩, from_, -⟩
  have initial : ∀ i ∈ lists.flatMap id, i.Initial t.scopes.current := declares.initial sound
  exact .pure ⟨from_, info, lists.flatten, body.2, rfl, List.flatMap_id ▸ initial, cited⟩

end Blocks

section Programs

theorem citesBlock_block (depth : Nat) : CitesBlock items (block depth) := by
  induction depth with
  | zero => exact fun _ _ _ _ => .unexpected
  | succ depth ih => exact citesBlock_blockOver (blocks_block depth) ih

theorem cites_programName : programName.Cites items fun _ => True := by
  refine cites_here.bind fun span _ => (cites_eatKeyword .program).bind fun _ _ => .ite ?_ (.pure trivial)
  exact cites_identifier.bind fun _ _ => (cites_expect .semicolon).bind fun _ _ => .pure trivial

theorem within_ofItems {c : Cursor} (h : Cursor.ofItems items = .ok c) : c.Within items := by
  cases items with
  | nil =>
      cases h
      exact ⟨.inr ⟨rfl, rfl⟩, by simp⟩
  | cons item coming =>
      cases item with
      | error e => cases h
      | ok t =>
          cases h
          exact ⟨.inl List.mem_cons_self, fun item mem => List.mem_cons_of_mem _ mem⟩

theorem from_initialState {c : Cursor} (within : c.Within items) : (initialState c).From items := by
  refine ⟨within, fun t mem => ?_, by simp [initialState]⟩
  obtain rfl : t = .empty .locals 0 := by simpa [initialState, Scopes.start, Scopes.tables] using mem
  exact Table.named_empty .locals 0

/-- A program that is read to its end, which is where its text ends. -/
theorem read_program {c : Cursor} (within : c.Within items) :
    program.Ensures (initialState c) fun p s' =>
      (∀ g ∈ p.bodies, g.Read items) ∧ s'.cursor.Within items ∧
        s'.cursor.current.value.isEndOfFile = true := by
  have start := from_initialState within
  refine ((reads_programName.ensures (s := initialState c)).and (cites_programName _ start)).bind ?_
  rintro name _ ⟨⟨c₁, rfl⟩, from₁, -⟩
  refine ((reads_remaining.ensures (s := (initialState c).moved c₁ _)).and (cites_remaining _ from₁)).bind ?_
  rintro depth _ ⟨⟨c₂, rfl⟩, from₂, -⟩
  have sound := sound_initialState c₂
  refine ((blocks_block depth (initialState c₂) sound rfl).and
    (citesBlock_block depth (initialState c₂) sound rfl from₂)).bind ?_
  rintro body _ ⟨⟨t, initializers, statements, n, span, c₃, declares, -, -, rfl⟩, from₃, read⟩
  refine ((reads_expect .period).ensures.and (cites_expect .period _ from₃)).bind ?_
  rintro _ _ ⟨⟨c₄, rfl⟩, from₄, -⟩
  refine ensures_token.bind ?_
  rintro last _ ⟨rfl, rfl⟩
  split
  · exact Ensures.bind (P := fun _ _ => False) .unexpected fun _ _ h => h.elim
  · next ends =>
    have outer : t.scopes.outer = [] := (declares.sound sound).outer
    have outermost : t.scopes.outermost = t.scopes.current := by
      rw [Scopes.outermost, outer]
      rfl
    have named : t.scopes.current.Named := from₃.named _ List.mem_cons_self
    have main (f : Signature) : Function.Read items ⟨f, t.scopes.outermost, body⟩ :=
      ⟨outermost ▸ named, outermost ▸ read⟩
    refine .get (.pure ⟨?_, from₄.cursor, by simpa using ends⟩)
    rw [Program.bodies, List.forall_mem_append, List.forall_mem_singleton]
    exact ⟨from₃.functions, main _⟩

end Programs

end Parser

theorem Source.read_whole {source : Source} {p : Program} (h : source.program = .ok p) :
    (∀ g ∈ p.bodies, g.Read source.scan) ∧ ∃ c : Cursor, c.Within source.scan ∧
      c.current.value.isEndOfFile = true := by
  simp only [Source.program, Program.ofItems] at h
  split at h
  · cases h
  · next c start =>
    cases run : Parser.program.run (Parser.initialState c) with
    | error e => simp [run] at h
    | ok answer =>
        obtain ⟨q, s'⟩ := answer
        obtain rfl : q = p := by simpa [run] using h
        obtain ⟨read, within, ends⟩ := Parser.read_program (Parser.within_ofItems start) q s' run
        exact ⟨read, s'.cursor, within, ends⟩

/-- All that a program refers to or calls is read from a name of its text. -/
theorem Source.read {source : Source} {p : Program} (h : source.program = .ok p) :
    ∀ g ∈ p.bodies, g.Read source.scan :=
  (Source.read_whole h).1

end PascalX86
