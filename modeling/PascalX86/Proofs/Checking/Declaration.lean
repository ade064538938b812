import PascalX86.Proofs.Checking.Statement
import PascalX86.Proofs.Checking.Type

/-!
# Checking of declarations

The parsers of declarations and programs do what the rules describe. What is declared stays sound
along the way, which is what types and constants are read by.
-/

set_option autoImplicit false

namespace PascalX86

namespace Checking

variable {s u : ParserState} {initializers : List Stmt}

theorem Declares.refl (s : ParserState) : Declares s [] s := .move s.cursor (Nat.le_refl s.nodes)

theorem Declares.moved (h : Declares s initializers u) (c : Cursor) {n : Nat} (later : u.nodes ≤ n) :
    Declares s initializers (u.moved c n) := by
  simpa using h.append (.move c later)

end Checking

namespace Parser

open Checking

variable {s : ParserState} {n : Nat}

section Steps

variable {α β : Type} {u : ParserState} {initializers : List Stmt} {p : Parser α} {f : α → Parser β}
  {Q : β → ParserState → Prop}

theorem Ensures.reading {P : α → Nat → Prop} (h : p.Yields u u.nodes P)
    (le : ∀ a n', P a n' → u.nodes ≤ n') (declared : Declares s initializers u)
    (hf : ∀ a n' v, P a n' → v.scopes = u.scopes → Declares s initializers v → (f a).Ensures v Q) :
    (p >>= f).Ensures u Q := by
  refine h.ensures.bind fun a v ⟨c, n', eq, ha⟩ => hf a n' v ha ?_ ?_
  · rw [eq]
    rfl
  · exact eq ▸ declared.moved c (le a n' ha)

theorem Ensures.reads (h : p.Reads) (declared : Declares s initializers u)
    (hf : ∀ a v, v.scopes = u.scopes → Declares s initializers v → (f a).Ensures v Q) :
    (p >>= f).Ensures u Q :=
  .reading (h u u.nodes) (fun _ _ same => Nat.le_of_eq same.symm) declared
    fun a _ v _ => hf a v

def Itemized (f : α → List Stmt) (s : ParserState) (r : Option α) (s' : ParserState) : Prop :=
  match r with
  | none => ∃ c, s' = s.moved c s.nodes
  | some a => Declares s (f a) s'

theorem ensures_declarations {p : Parser (Option α)} {f : α → List Stmt} (sound : s.Sound)
    (each : ∀ s : ParserState, s.Sound → p.Ensures s (Itemized f s)) :
    (many p).Ensures s fun as s' => Declares s (as.flatMap f) s' := by
  refine (Ensures.many (R := fun s a s' => Declares s (f a) s')
    (E := fun s s' => ∃ c, s' = s.moved c s.nodes) (I := ParserState.Sound) sound ?_
    fun s => ⟨s.cursor, rfl⟩).mono ?_
  · intro s sound
    refine (each s sound).mono fun r s' h => ?_
    cases r with
    | none => exact h
    | some a => exact ⟨h, (h.sound sound).sound⟩
  · rintro as s' ⟨t, chain, -, c, rfl⟩
    refine Declares.moved ?_ c (Nat.le_refl _)
    -- Each item declares from the state that the items before it have left.
    clear sound
    induction chain with
    | nil s => exact .refl s
    | cons head _ ih => exact head.append ih

theorem ensures_whileNames {item : Parser α} {f : α → List Stmt} (sound : s.Sound)
    (each : ∀ s : ParserState, s.Sound → item.Ensures s fun a s' => Declares s (f a) s') :
    (whileNames item).Ensures s fun as s' => Declares s (as.flatMap f) s' := by
  refine (each s sound).bind fun a s₁ first => ?_
  refine (ensures_declarations (f := f) (first.sound sound).sound fun s sound => ?_).bind
    fun as s₂ rest => .pure (first.append rest)
  refine reads_atName.ensures.bind fun b u ⟨c, eq⟩ => ?_
  cases b with
  | false => exact .pure ⟨c, eq⟩
  | true =>
      have moved : Declares s [] u := eq ▸ .move c (Nat.le_refl _)
      refine (each u (moved.sound sound).sound).bind fun a u' h => .pure ?_
      exact moved.append h

end Steps

section Sections

theorem ensures_typeDeclaration (sound : s.Sound) :
    typeDeclaration.Ensures s fun _ s' => Declares s [] s' := by
  refine .reads reads_identifier (.refl s) fun name u₁ _ h₁ => ?_
  refine .reads (reads_expect .equal) h₁ fun _ u₂ _ h₂ => ?_
  have scopes := (h₂.sound sound).sound.scopes.fulfilled
  refine .reading (types_type u₂ u₂.nodes scopes) (fun _ _ => And.right) h₂
    fun type n u₃ proper _ h₃ => ?_
  refine .reads (reads_expect .semicolon) h₃ fun _ u₄ _ h₄ => ?_
  refine (ensures_declare name _).bind fun symbol u₅ adds => .pure ?_
  exact h₄.append (.type proper.1 adds)

theorem yields_initializer (symbol : Symbol) (span : Span) (value : Value) :
    (Parser.initializer symbol span value).Yields s n fun i n' =>
      i = Checking.initializer n span symbol value ∧ n' = n + 3 := by
  have target : (variableNode span symbol).Yields s n fun e n' =>
      e = .var ⟨n, span, symbol.type⟩ symbol ∧ n' = n + 1 := .node (.pure ⟨rfl, rfl⟩)
  refine target.bind ?_
  rintro _ _ ⟨rfl, rfl⟩
  refine (yields_constantNode span symbol.type value).bind ?_
  rintro _ _ ⟨rfl, rfl⟩
  exact .node (.pure ⟨rfl, rfl⟩)

theorem ensures_initialized {symbol : Symbol} {span : Span} {value : Value} {t u : ParserState}
    (before : Declares s [] t)
    (made : Declares t [Checking.initializer u.nodes span symbol value]
      (u.moved u.cursor (u.nodes + 3))) :
    (Parser.initializer symbol span value).Ensures u fun i u' => Declares s [i] u' := by
  refine (yields_initializer symbol span value).ensures.mono ?_
  rintro _ u' ⟨c, _, rfl, rfl, rfl⟩
  exact (before.append made).moved c (Nat.le_refl _)

theorem ensures_typedConstantDeclaration (name : Located Name) (sound : s.Sound) :
    (typedConstantDeclaration name).Ensures s fun initializers s' => Declares s initializers s' := by
  refine .reading (types_type s s.nodes sound.scopes.fulfilled) (fun _ _ => And.right) (.refl s)
    fun type n u₁ proper _ h₁ => ?_
  refine .reads (reads_expect .equal) h₁ fun _ u₂ _ h₂ => .reads reads_here h₂ fun span u₃ _ h₃ => ?_
  have scopes := (h₃.sound sound).sound.scopes.fulfilled
  refine .reading (yields_typedConstant scopes u₃.nodes type) (fun _ _ => And.right) h₃
    fun value n u₄ fits _ h₄ => ?_
  refine (ensures_declare name _).bind fun symbol u₅ adds => ?_
  cases scalar : type.isScalar with
  | true =>
      rw [scalar] at adds
      exact .pure (h₄.append (.scalar scalar fits.1 adds))
  | false =>
      rw [scalar] at adds
      refine (ensures_initialized h₄ (.stored proper.1 scalar fits.1 adds)).bind fun i u' h => ?_
      exact .pure h

theorem ensures_plainConstantDeclaration (name : Located Name) (sound : s.Sound) :
    (plainConstantDeclaration name).Ensures s fun _ s' => Declares s [] s' := by
  refine .reads (reads_expect .equal) (.refl s) fun _ u₁ _ h₁ => ?_
  have scopes := (h₁.sound sound).sound.scopes.fulfilled
  refine .reading (builds_expression u₁ u₁.nodes) (fun _ _ made => (made.sound scopes).1) h₁
    fun e n u₂ made same h₂ => ?_
  split
  · next value known =>
    rw [← same] at made
    refine (ensures_declare name _).bind fun symbol u₃ adds => .pure ?_
    exact h₂.append (.constant made known adds)
  · exact .fail

theorem ensures_constantDeclaration (sound : s.Sound) :
    constantDeclaration.Ensures s fun initializers s' => Declares s initializers s' := by
  refine .reads reads_identifier (.refl s) fun name u₁ _ h₁ => ?_
  refine .reads (reads_eat .colon) h₁ fun b u₂ _ h₂ => ?_
  have sound₂ := (h₂.sound sound).sound
  have closed {initializers : List Stmt} {u : ParserState} (h : Declares u₂ initializers u) :
      (do let _ ← expect .semicolon
          return initializers : Parser (List Stmt)).Ensures u fun initializers s' =>
        Declares s initializers s' :=
    .reads (reads_expect .semicolon) (h₂.append h) fun _ _ _ h' => .pure h'
  cases b with
  | true => exact (ensures_typedConstantDeclaration name sound₂).bind fun initializers u h => closed h
  | false => exact (ensures_plainConstantDeclaration name sound₂).bind fun _ u h => closed h

theorem yields_initialValue (scopes : s.scopes.Fulfilled) (type : Ty) (count : Nat) :
    (initialValue type count).Yields s n fun r n' =>
      (∀ span value, r = some (span, value) → value.Fits type) ∧ n ≤ n' := by
  have absent : (pure none : Parser (Option (Span × Value))).Yields s n fun r n' =>
      (∀ span value, r = some (span, value) → value.Fits type) ∧ n ≤ n' :=
    .pure ⟨nofun, Nat.le_refl n⟩
  refine .ite (fun _ => (reads_eat .equal).bind fun b => .ite (fun _ => ?_) fun _ => absent) fun _ => absent
  refine reads_here.bind fun span => ?_
  refine (yields_typedConstant scopes n type).bind fun value n' fits => .pure ⟨?_, fits.2⟩
  intro span' value' same
  cases same
  exact fits.1

theorem ensures_declareVariables {type : Ty} {initial : Option (Span × Value)} (proper : type.Proper)
    (fits : ∀ span value, initial = some (span, value) → value.Fits type)
    (names : List (Located Name)) :
    (declareVariables type initial names).Ensures s fun initializers s' =>
      Declares s initializers s' := by
  induction names generalizing s with
  | nil => exact .pure (.refl s)
  | cons name names ih =>
      refine (ensures_declare name _).bind fun symbol u adds => ?_
      split
      · next span value =>
        have made := fits span value rfl
        refine (ensures_initialized (.refl s) (.initialized proper made adds)).bind fun i u₁ h₁ => ?_
        exact ih.bind fun rest u₂ h₂ => .pure (h₁.append h₂)
      · exact ih.mono fun rest u₁ h₁ => (Declares.variable proper adds).append h₁

theorem ensures_variableDeclaration (sound : s.Sound) :
    variableDeclaration.Ensures s fun initializers s' => Declares s initializers s' := by
  refine .reads reads_identifiers (.refl s) fun names u₁ _ h₁ => ?_
  refine .reads (reads_expect .colon) h₁ fun _ u₂ _ h₂ => ?_
  have scopes₂ := (h₂.sound sound).sound.scopes.fulfilled
  refine .reading (types_type u₂ u₂.nodes scopes₂) (fun _ _ => And.right) h₂
    fun type n u₃ proper _ h₃ => ?_
  have scopes₃ := (h₃.sound sound).sound.scopes.fulfilled
  refine .reading (yields_initialValue scopes₃ type names.length) (fun _ _ => And.right) h₃
    fun initial n u₄ fits _ h₄ => ?_
  refine .reads (reads_expect .semicolon) h₄ fun _ u₅ _ h₅ => ?_
  exact (ensures_declareVariables proper.1 fits.1 names).mono fun initializers u₆ h₆ => h₅.append h₆

end Sections

section Headings

variable {level : Nat}

def Listed (level : Nat) (list : ParameterList) : Prop :=
  ∃ defaults, Parameters level defaults list.table ∧ (defaults = true → list.defaults = true)

theorem reads_mode : mode.Reads := by
  refine (reads_eatKeyword .var).seq fun b _ _ => .ite (fun _ => .pure rfl) fun _ => ?_
  exact (reads_eatKeyword .const).bind fun b => .ite (fun _ => .pure rfl) fun _ => .pure rfl

theorem yields_defaultValue (scopes : s.scopes.Fulfilled) (mode : Mode) (type : Ty) :
    (defaultValue mode type).Yields s n fun r n' =>
      (∀ v, r = some v → mode ≠ .byReference ∧ v.Fits type) ∧ n ≤ n' := by
  refine (reads_atMark .equal).bind fun b => .ite (fun _ => ?_) fun _ => .pure ⟨nofun, Nat.le_refl n⟩
  refine reads_bump.bind fun t => .ite (fun _ => .fail) fun other => ?_
  refine (yields_typedConstant scopes n type).bind fun value n' fits => .pure ⟨?_, fits.2⟩
  intro v same
  cases same
  exact ⟨other, fits.1⟩

theorem yields_addParameters {type : Ty} {mode : Mode} {default : Option Value} {t : Table}
    {defaults : Bool} (proper : type.Proper)
    (fits : ∀ v, default = some v → mode ≠ .byReference ∧ v.Fits type) (names : List (Located Name))
    (before : Parameters level defaults t) (suffix : defaults = true → default.isSome = true) :
    (addParameters type mode default t names).Yields s n fun t' n' =>
      n' = n ∧ ∃ defaults', Parameters level defaults' t' ∧
        (defaults' = true → defaults = true ∨ default.isSome = true) := by
  induction names generalizing t defaults with
  | nil => exact .pure ⟨rfl, defaults, before, .inl⟩
  | cons name names ih =>
      refine .located fun symbol answered => ?_
      have added := Parameters.add before proper suffix fits (Prod.ext answered rfl)
      -- Once there is a default, later parameters need one too.
      have next : (defaults || default.isSome) = true → default.isSome = true := by
        cases defaults <;> simp_all
      refine (ih added next).mono ?_
      rintro t' n' ⟨same, defaults', listed, seen⟩
      refine ⟨same, defaults', listed, fun h => ?_⟩
      rcases seen h with h | h
      · simpa using h
      · exact .inr h

theorem yields_parameterGroup (scopes : s.scopes.Fulfilled) {list : ParameterList}
    (listed : Listed level list) :
    (parameterGroup list).Yields s n fun list' n' => Listed level list' ∧ n ≤ n' := by
  obtain ⟨defaults, before, seen⟩ := listed
  refine reads_mode.bind fun mode => reads_identifiers.bind fun names => ?_
  refine (reads_expect .colon).bind fun _ => ?_
  refine (types_type s n scopes).bind fun type n₁ ⟨proper, le₁⟩ => ?_
  refine (yields_defaultValue scopes mode type).bind fun default n₂ ⟨fits, le₂⟩ => ?_
  refine .ite (fun _ => reads_here.bind fun _ => .failed) fun due => ?_
  have suffix : defaults = true → default.isSome = true := by
    intro h
    cases default <;> simp_all
  refine (yields_addParameters proper fits names before suffix).bind ?_
  rintro t' _ ⟨rfl, defaults', after, seen'⟩
  refine .pure ⟨⟨defaults', after, fun h => ?_⟩, by omega⟩
  rcases seen' h with h | h
  · simp [seen h]
  · simp [h]

theorem yields_parameters (scopes : s.scopes.Fulfilled) (level : Nat) :
    (parameters level).Yields s n fun t n' => (∃ defaults, Parameters level defaults t) ∧ n ≤ n' := by
  have start : Listed level ⟨.empty .parameters level, false⟩ := ⟨false, .empty, nofun⟩
  have groups : (parameterGroups (.empty .parameters level)).Yields s n fun t n' =>
      (∃ defaults, Parameters level defaults t) ∧ n ≤ n' := by
    refine (yields_parameterGroup scopes start).bind fun first n₁ hfirst => ?_
    refine (Yields.iterate (I := fun list n' => Listed level list ∧ n ≤ n') hfirst
      fun list n₁ ⟨listed, le⟩ => ?_).bind fun last n₂ ⟨⟨defaults, made, _⟩, le⟩ =>
        .pure ⟨⟨defaults, made⟩, le⟩
    refine (reads_eat .semicolon).bind fun b => .ite (fun _ => ?_) fun _ => .pure ⟨listed, le⟩
    exact (yields_parameterGroup scopes listed).bind fun list' n₂ ⟨listed', le'⟩ =>
      .pure ⟨listed', Nat.le_trans le le'⟩
  have closed {t : Table} {n' : Nat} (h : (∃ defaults, Parameters level defaults t) ∧ n ≤ n') :
      (do let _ ← expect .closeParen
          return t : Parser Table).Yields s n' fun t n' =>
        (∃ defaults, Parameters level defaults t) ∧ n ≤ n' :=
    (reads_expect .closeParen).bind fun _ => .pure h
  refine (reads_eat .openParen).bind fun b => .ite (fun _ => ?_) fun _ =>
    .pure ⟨⟨false, .empty⟩, Nat.le_refl n⟩
  refine (reads_atMark .closeParen).bind fun b => .ite (fun _ => ?_) fun _ => ?_
  · exact closed ⟨⟨false, .empty⟩, Nat.le_refl n⟩
  · exact groups.bind fun t n' h => closed h

theorem ensures_signature (sound : s.Sound) :
    signature.Ensures s fun f u' => ∃ u, Declares s [] u ∧ Heading u f ∧
      u' = { u with nextFunction := u.nextFunction + 1 } := by
  refine .reads reads_bump (.refl s) fun t u₁ _ h₁ => ?_
  refine .reads reads_identifier h₁ fun name u₂ _ h₂ => .get ?_
  have scopes₂ := (h₂.sound sound).sound.scopes.fulfilled
  refine .reading (yields_parameters scopes₂ (u₂.level + 1)) (fun _ _ => And.right) h₂
    fun table n u₃ ⟨⟨defaults, made⟩, _⟩ _ h₃ => ?_
  have ended {result : Ty} {u : ParserState} (h : Declares s [] u) (proper : result = .nil ∨ result.Proper) :
      (do let _ ← expect .semicolon
          let s ← get
          set { s with nextFunction := s.nextFunction + 1 }
          return ⟨s.nextFunction, name, table.parameters, table.size, result, u₂.level + 1⟩ :
        Parser Signature).Ensures u fun f u' => ∃ u, Declares s [] u ∧ Heading u f ∧
          u' = { u with nextFunction := u.nextFunction + 1 } := by
    refine .reads (reads_expect .semicolon) h fun _ v _ h' => .get (.set (.pure ?_))
    -- The level was read before the parameters, and declarations keep it.
    have level : u₂.level = v.level := by
      rw [(h₂.sound sound).level, (h'.sound sound).level]
    exact ⟨v, h', ⟨rfl, congrArg (· + 1) level, ⟨defaults, table, made, rfl, rfl⟩, proper⟩, rfl⟩
  split
  · exact ended h₃ (.inl rfl)
  · refine .reads (reads_expect .colon) h₃ fun _ u₄ _ h₄ => ?_
    have scopes₄ := (h₄.sound sound).sound.scopes.fulfilled
    exact .reading (types_type u₄ u₄.nodes scopes₄) (fun _ _ => And.right) h₄
      fun result n u₅ proper _ h₅ => ended h₅ (.inr proper.1)

theorem ensures_localsOf (f : Signature) :
    (localsOf f).Ensures s fun t s' => ResultLocal f t ∧ s' = s := by
  unfold localsOf
  split
  · next result => exact .pure ⟨.procedure result, rfl⟩
  · next result => exact .located fun symbol answered => .pure ⟨.function result (Prod.ext answered rfl), rfl⟩

end Headings

section Blocks

def Blocked (s : ParserState) (body : Stmt) (s' : ParserState) : Prop :=
  ∃ t initializers statements n span c, Declares s initializers t ∧
    Chain (Statement t.scopes 0) t.nodes statements n ∧
    body = .block ⟨n, span, .nil⟩ (initializers ++ statements) ∧ s' = t.moved c (n + 1)

def Blocks (p : Parser Stmt) : Prop :=
  ∀ s : ParserState, s.Sound → s.loops = 0 → p.Ensures s (Blocked s)

theorem ensures_functionOver {block : Parser Stmt} (h : Blocks block) (sound : s.Sound) :
    (functionOver block).Ensures s fun _ s' => Declares s [] s' := by
  refine (ensures_signature sound).bind ?_
  rintro f _ ⟨u, before, heading, rfl⟩
  refine (ensures_declare f.name _).bind fun symbol u₁ adds => ?_
  refine (ensures_localsOf f).bind ?_
  rintro locals u₁ ⟨result, rfl⟩
  refine .modify (.modify (.get (.modify ?_)))
  obtain ⟨outside, entered⟩ := adds.entered (before.sound sound).sound heading result
  refine (h (u₁.entered f locals) entered rfl).bind ?_
  rintro body _ ⟨u₂, initializers, statements, n, span, c, declares, chain, rfl, rfl⟩
  have inside := declares.sound entered
  -- The block has left the scopes outside its own as they were.
  have pop : u₂.scopes.pop? = some (u₂.scopes.current, u₁.scopes.push f.table) := by
    rw [Scopes.pop?, inside.outer]
    rfl
  refine .modify (.bind (ensures_popScope pop rfl) ?_)
  rintro _ _ ⟨rfl, rfl⟩
  refine (ensures_popScope (Scopes.pop?_push u₁.scopes f.table) rfl).bind ?_
  rintro _ _ ⟨rfl, rfl⟩
  refine (reads_expect .semicolon).ensures.bind ?_
  rintro _ _ ⟨c', rfl⟩
  refine .modified ?_
  have made := before.append (@Declares.function _ _ _ _ _ _ _ _ span _ heading adds result declares chain)
  have level : f.level - 1 = u₁.level := by
    rw [outside.level, heading.level]
    rfl
  simp only [ParserState.moved, level]
  exact made.moved c' (Nat.le_refl (n + 1))

theorem ensures_sectionOver {block : Parser Stmt} (h : Blocks block) (sound : s.Sound) :
    (sectionOver block).Ensures s (Itemized id s) := by
  refine reads_token.ensures.bind ?_
  rintro t u ⟨c, rfl⟩
  have start : Declares s [] (s.moved c s.nodes) := .move c (Nat.le_refl _)
  have sound' := (start.sound sound).sound
  split
  · refine .reads reads_bump start fun _ v _ h₁ => ?_
    refine (ensures_whileNames (f := fun _ => []) (h₁.sound sound).sound fun s =>
      ensures_typeDeclaration).bind fun names u h₂ => .pure ?_
    have none : names.flatMap (fun _ => ([] : List Stmt)) = [] := by simp
    exact h₁.append (none ▸ h₂)
  · refine .reads reads_bump start fun _ v _ h₁ => ?_
    refine (ensures_whileNames (f := id) (h₁.sound sound).sound fun s =>
      ensures_constantDeclaration).bind fun initializers u h₂ => .pure ?_
    simpa only [Itemized, id, List.nil_append, List.flatMap_id] using h₁.append h₂
  · refine .reads reads_bump start fun _ v _ h₁ => ?_
    refine (ensures_whileNames (f := id) (h₁.sound sound).sound fun s =>
      ensures_variableDeclaration).bind fun initializers u h₂ => .pure ?_
    simpa only [Itemized, id, List.nil_append, List.flatMap_id] using h₁.append h₂
  · exact (ensures_functionOver h sound').bind fun _ u h₂ => .pure (start.append h₂)
  · exact (ensures_functionOver h sound').bind fun _ u h₂ => .pure (start.append h₂)
  · exact .pure ⟨c, rfl⟩

theorem blocks_blockOver {block : Parser Stmt} (h : Blocks block) : Blocks (blockOver block) := by
  intro s sound loops
  refine (ensures_declarations (f := id) sound fun s sound => ensures_sectionOver h sound).bind
    fun lists t declares => ?_
  have none : t.loops = 0 := by
    rw [(declares.sound sound).loops, loops]
  refine (yields_compound (s := t) (n := t.nodes)).ensures.bind ?_
  rintro body _ ⟨c, n, rfl, chain⟩
  rw [none] at chain
  refine (yields_node body.1 .nil).ensures.bind ?_
  rintro info _ ⟨c', _, rfl, rfl, rfl⟩
  exact .pure ⟨t, lists.flatten, body.2, n, body.1, c', by simpa using declares, chain, rfl, rfl⟩

theorem blocks_block (depth : Nat) : Blocks (block depth) := by
  induction depth with
  | zero => exact fun _ _ _ => .unexpected
  | succ depth ih => exact blocks_blockOver ih

theorem reads_programName : programName.Reads := by
  refine reads_here.seq fun span => (reads_eatKeyword .program).seq fun b _ _ => .ite (fun _ => ?_) fun _ => ?_
  · exact reads_identifier.bind fun name => (reads_expect .semicolon).bind fun _ => .pure rfl
  · exact .pure rfl

theorem sound_initialState (c : Cursor) : (initialState c).Sound := by
  refine ⟨fun t mem => ?_, by simp [initialState]⟩
  obtain rfl : t = .empty .locals 0 := by simpa [initialState, Scopes.start, Scopes.tables] using mem
  exact ⟨Table.sound_empty _ _, Nat.le_refl 0, by simp [Table.empty]⟩

theorem ensures_program (c : Cursor) :
    program.Ensures (initialState c) fun p _ => Checking.Program p := by
  refine reads_programName.ensures.bind ?_
  rintro name _ ⟨c₁, rfl⟩
  refine reads_remaining.ensures.bind ?_
  rintro depth _ ⟨c₂, rfl⟩
  have start := (sound_initialState c₂)
  refine (blocks_block depth (initialState c₂) start rfl).bind ?_
  rintro body _ ⟨t, initializers, statements, n, span, c₃, declares, chain, rfl, rfl⟩
  refine (reads_expect .period).ensures.bind ?_
  rintro _ _ ⟨c₄, rfl⟩
  refine reads_token.ensures.bind ?_
  rintro last _ ⟨c₅, rfl⟩
  split
  · exact Ensures.bind (P := fun _ _ => False) .unexpected fun _ _ h => h.elim
  · exact .get (.pure ⟨c₂, t, initializers, statements, n, span, name, declares, chain, rfl⟩)

end Blocks

end Parser

end PascalX86
