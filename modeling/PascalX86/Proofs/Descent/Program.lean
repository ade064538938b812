import PascalX86.Proofs.Descent.Declaration

/-!
# Parsing ends

Loops and recursions carry bounds by the tokens left. They never notice them: each turn of a loop and
each step down takes a token, so what is read is what would be read without bounds, and the number of
tokens taken is at most the number of those up to the end.
-/

set_option autoImplicit false

namespace PascalX86

namespace Parser

/-- The turns of all loops of the grammar, given how the expressions, types, statements and blocks in
them are read. -/
inductive Turn : {α : Type} → Parser (Option α) → Prop where
  | sections {block : Parser Stmt} (h : block.Forward) : Turn (sectionOver block)
  | typeDeclarations : Turn (named typeDeclaration)
  | constantDeclarations : Turn (named constantDeclaration)
  | variableDeclarations : Turn (named variableDeclaration)
  | names : Turn (listed .comma identifier)
  | parameters (list : ParameterList) : Turn (listed .semicolon (parameterGroup list))
  | fields {type : Parser Ty} (h : type.Forward) : Turn (fieldGroup type)
  | dimensions : Turn (listed .comma bounds)
  | elements (type : Ty) : Turn (listed .comma (typedConstant type))
  | operators {operand : Parser Expr} (h : operand.Forward) (level : Precedence) (left : Expr) :
      Turn (turn level operand left)
  | selectors {expression : Parser Expr} (h : expression.Forward) (e : Expr) : Turn (selector expression e)
  | subscripts {expression : Parser Expr} (h : expression.Forward) (array : Expr) :
      Turn (listed .comma (subscript expression array))
  | arguments {expression : Parser Expr} (h : expression.Forward) : Turn (listed .comma expression)
  | targets : Turn (listed .comma readTarget)
  | written : Turn (listed .comma writeArgument)
  | statements {statement : Parser (Option Stmt)} (h : statement.Forward) :
      Turn (listed .semicolon statement)

/-- The loops of the grammar without bounds: a turn that goes on takes a token, and then the loop starts
anew. The fields of a record constant are as many as the turns of their loop. -/
structure Looping : Prop where
  turns : ∀ {α : Type} {step : Parser (Option α)}, Turn step → step.Consumes turned
  many : ∀ {α : Type} {step : Parser (Option α)}, Turn step → ∀ s, s.cursor.Closed →
    Parser.many step s = (do
      match ← step with
      | none => return []
      | some a => return a :: (← Parser.many step) : Parser (List α)) s
  iterate : ∀ {α : Type} {step : α → Parser (Option α)}, (∀ a, Turn (step a)) → ∀ a s, s.cursor.Closed →
    Parser.iterate step a s = (do
      match ← step a with
      | none => return a
      | some next => Parser.iterate step next : Parser α) s
  values : ∀ all fields, (fieldConstants all fields).Consumes List.length

/-- The recursions of the grammar without bounds. -/
structure Descending : Prop where
  type : Recursive typeOver type
  factor : Recursive factorOver (unbounded factor)
  statement : Recursive statementOver (unbounded statement)
  block : Recursive blockOver (unbounded block)
  operand : ∀ level operand, operand.Forward → (chain level operand).Forward
  expression : ∀ s, s.cursor.Closed → Parser.expression s = levels (unbounded Parser.factor) s
  compound : ∀ s, s.cursor.Closed → Parser.compound s = compoundOver (unbounded Parser.statement) s
  elements : ∀ low high element, Descends (arrayConstant low high) ∧
    typedConstant (.array low high element) = arrayConstant low high (typedConstant element)
  values : ∀ all name type rest, Descends (fieldConstant all name) ∧
    fieldConstants all (.more name type rest) = (do
      let value ← fieldConstant all name (typedConstant type)
      match rest with
      | .empty => return [value]
      | .more .. =>
          let _ ← expect .semicolon
          return value :: (← fieldConstants all rest))

section Loops

variable {α : Type} {step : Parser (Option α)}

theorem Forward.moves {p : Parser α} (h : p.Forward) {n : Nat} : Moves .none n p p :=
  Consumes.takes h fun _ _ _ => rfl

theorem Turn.takes (h : Turn step) (n : Nat) : Takes .none n (fun _ => True) turned step step := by
  cases h with
  | sections h => exact (takes_sectionOver h.moves).weaken (Nat.le_add_right n 1)
  | typeDeclarations => exact takes_named takes_typeDeclaration
  | constantDeclarations => exact takes_named takes_constantDeclaration
  | variableDeclarations => exact takes_named takes_variableDeclaration
  | names => exact takes_listed (takes_identifier.mono fun _ => Nat.zero_le _)
  | parameters list => exact takes_listed (takes_parameterGroup list)
  | fields h => exact takes_fieldGroup h.moves
  | dimensions => exact takes_listed takes_bounds
  | elements type => exact takes_listed (takes_typedConstant type)
  | operators h level left => exact takes_turn h.moves level left
  | selectors h e => exact takes_selector h.moves e
  | subscripts h array => exact takes_listed (takes_subscript h.moves array)
  | arguments h | statements h => exact takes_listed h.moves
  | targets => exact takes_listed takes_readTarget
  | written => exact takes_listed takes_writeArgument

theorem Turn.stops (h : Turn step) : Stops step := by
  cases h with
  | sections => exact stops_sectionOver
  | typeDeclarations | constantDeclarations | variableDeclarations => exact stops_named
  | fields => exact stops_fieldGroup
  | operators _ level left => exact stops_turn level left
  | selectors _ e => exact stops_selector e
  | _ => exact stops_listed

theorem looping : Looping where
  turns h := Takes.consumes h.takes
  many h _ closed := many_run h.takes h.stops closed
  iterate h a _ closed := iterate_run (fun n a => (h a).takes n) (fun a => (h a).stops) a closed
  values all fields := Takes.consumes fun _ => takes_fieldConstants all fields

end Loops

theorem descending : Descending where
  type := grounded_type.recursive
  factor := grounded_factor.recursive
  statement := grounded_statement.recursive
  block := grounded_block.recursive
  operand level _ h := Takes.consumes fun _ => takes_chain h.moves level
  expression _ closed := expression_unbounded closed
  compound _ closed := compound_unbounded closed
  elements low high element := ⟨descends_arrayConstant low high, typedConstant_array low high element⟩
  values all name type rest := ⟨descends_fieldConstant all name, fieldConstants_more all name type rest⟩

end Parser

section Items

variable {items : List Scanned} {c : Cursor}

theorem Cursor.items_ofItems (ended : Ended items) (first : Cursor.ofItems items = .ok c) :
    c.items = items := by
  rcases items with _ | ⟨e | t, items⟩
  · obtain ⟨item, mem, -⟩ := ended
    cases mem
  · cases first
  · cases first
    rfl

namespace Program

/-- Texts that fork are read alike, unless the first one is read up to the error at its end. -/
theorem ofItems_fork (fork : Fork) (common : List Scanned) (ended : Ended (common ++ fork.stop))
    (least : fork.stop.length ≤ fork.more.length) :
    (∃ e, fork.error = some e ∧ ofItems (common ++ fork.stop) = .error (.lexical e)) ∨
      ofItems (common ++ fork.stop) = ofItems (common ++ fork.more) := by
  rcases common with _ | ⟨e | t, common⟩
  -- Without a first token there is no cursor, and only an error to be found.
  · rcases fork with ⟨_ | e, more⟩
    · obtain ⟨item, mem, -⟩ := ended
      cases mem
    · exact .inl ⟨e, rfl, rfl⟩
  · exact .inr rfl
  · have forked : Cursor.Forked fork ⟨t, common ++ fork.stop, _, rfl⟩ ⟨t, common ++ fork.more, _, rfl⟩ :=
      ⟨rfl, ⟨common, rfl, rfl⟩, by simpa using least, ended⟩
    have alike := Parser.takes_program (Parser.initialState ⟨t, common ++ fork.stop, _, rfl⟩) _ _ forked
      (Nat.le_refl _) trivial
    have run (rest : List Scanned) : ofItems (.ok t :: rest) =
        Prod.fst <$> Parser.program (Parser.initialState ⟨t, rest, _, rfl⟩) := rfl
    rw [List.cons_append, List.cons_append, run, run]
    change Parser.Alike fork _ _ (Parser.program (Parser.initialState ⟨t, common ++ fork.stop, _, rfl⟩))
      (Parser.program (Parser.initialState ⟨t, common ++ fork.more, _, rfl⟩)) at alike
    generalize Parser.program (Parser.initialState ⟨t, common ++ fork.stop, _, rfl⟩) = r at alike ⊢
    generalize Parser.program (Parser.initialState ⟨t, common ++ fork.more, _, rfl⟩) = r' at alike ⊢
    cases alike with
    | failed e => exact .inr rfl
    | @apart e _ here => exact .inl ⟨e, here, rfl⟩
    | answered => exact .inr rfl

/-- Every text with an end is read to a program or to its first error. Nothing behind the end decides
which, and nothing behind any other place of the text does either, unless an error that were planted
there would be found. What is read never moves back, each turn of a loop takes a token, and so does
each way from a type, a factor, a statement or a block to another one inside it. -/
theorem parsing_ends (ended : Ended items) :
    (∀ more, ofItems (items ++ more) = ofItems items) ∧
      (∀ common rest e, items = common ++ rest → rest ≠ [] →
        ofItems (common ++ [.error e]) = .error (.lexical e) ∨
          ofItems (common ++ [.error e]) = ofItems items) ∧
      (∀ c p s, Cursor.ofItems items = .ok c → Parser.program (Parser.initialState c) = .ok (p, s) →
        s.cursor.items <:+ items) ∧
      Parser.Looping ∧ Parser.Descending := by
  refine ⟨fun more => ?_, ?_, fun c p s first run => ?_, Parser.looping, Parser.descending⟩
  · have same : items ++ (Fork.mk none more).stop = items := List.append_nil items
    have answer := ofItems_fork ⟨none, more⟩ items (same.symm ▸ ended) (Nat.zero_le _)
    rw [same] at answer
    rcases answer with ⟨e, nothing, -⟩ | answer
    · cases nothing
    · exact answer.symm
  · rintro common rest e rfl more
    have planted : Ended (common ++ (Fork.mk (some e) rest).stop) :=
      ⟨.error e, List.mem_append_right _ List.mem_cons_self, nofun⟩
    rcases ofItems_fork ⟨some e, rest⟩ common planted (List.length_pos_of_ne_nil more) with
      ⟨e', here, found⟩ | answer
    · cases here
      exact .inl found
    · exact .inr answer
  · have same := Cursor.items_ofItems ended first
    have closed : c.Closed := by rw [Cursor.Closed, same]; exact ended
    have forward : Parser.program.Forward := Parser.Takes.consumes fun _ => Parser.takes_program
    exact same ▸ (forward _ closed p s run).2.suffix

theorem nested_parsing_ends :
    let text : List Token := [.keyword .«begin», .keyword .«while», .mark .openParen, .integer 1, .mark .closeParen,
      .keyword .«do», .keyword .«begin», .mark .semicolon, .keyword .«break», .keyword .«end», .keyword .«end»,
      .mark .period, .endOfFile]
    let items : List Scanned := text.map fun t => .ok ⟨t, .first⟩
    Ended items ∧ ∀ more, (ofItems (items ++ more)).isOk = true := by
  intro text items
  have ended : Ended items := ⟨.ok ⟨.endOfFile, .first⟩, by simp [items, text], fun t same => by cases same; rfl⟩
  refine ⟨ended, fun more => ?_⟩
  rw [(parsing_ends ended).1 more]
  decide +kernel

end Program

end Items

end PascalX86
