import PascalX86.Proofs.Checking.Table
import PascalX86.Proofs.Phrase.Sentence

/-!
# Programs that are printed and parsed

Programs that declare integer variables, one after the other, and whose body is a compound statement.
Reading the text of one answers a program with the same variables and the tree of the same body.
-/

set_option autoImplicit false

namespace PascalX86

/-- Integer variables alone, in order of declaration. -/
structure Table.Integers (t : Table) (vars : List Name) : Prop where
  names : t.symbols.map (fun symbol => symbol.name.value) = vars
  each : ∀ symbol ∈ t.symbols, symbol.isAssignable = true ∧ symbol.type = .integer
  size : t.size = 4 * vars.length

namespace Table.Integers

variable {t : Table} {vars : List Name}

theorem assigns (h : t.Integers vars) {name known : Name} (mem : known ∈ vars)
    (same : known.same name = true) : (Scopes.start t).Assigns name := by
  rw [← h.names, List.mem_map] at mem
  obtain ⟨symbol, inside, rfl⟩ := mem
  have found : (t.get? name).isSome := List.find?_isSome.mpr ⟨symbol, inside, same⟩
  obtain ⟨first, found⟩ := Option.isSome_iff_exists.mp found
  obtain ⟨assignable, type⟩ := h.each first (List.mem_of_find?_eq_some found)
  exact ⟨first, by simp [Scopes.lookup?, Scopes.tables, Scopes.start, found], assignable, type⟩

theorem declare (h : t.Integers vars) {name : Located Name}
    (fresh : ∀ known ∈ vars, known.same name.value = false)
    (room : 4 * (vars.length + 1) ≤ maxSize) : ∃ symbol t',
      (Declaring.addVariable name .integer).runOn t = (.ok symbol, t') ∧
        t'.Integers (vars ++ [name.value]) := by
  let symbol : Symbol := ⟨name, .integer, .variable ⟨t.level, t.size, t.area⟩⟩
  let grown : Table := { t with size := t.size + 4 }
  have space : t.size + Ty.integer.size ≤ maxSize := by
    rw [h.size]
    exact room
  have unknown : grown.get? name.value = none := by
    rw [Table.get?, List.find?_eq_none]
    intro other mem same
    have known : other.name.value ∈ vars := h.names ▸ List.mem_map_of_mem mem
    rw [fresh _ known] at same
    cases same
  refine ⟨symbol, { grown with symbols := t.symbols ++ [symbol] }, ?_, ?_, ?_, ?_⟩
  · rw [Declaring.addVariable, Declaring.runOn_bind, Declaring.runOn_allocate, if_pos space]
    dsimp only
    rw [Declaring.runOn_add]
    dsimp only
    rw [show ({ t with size := t.size + Ty.integer.size } : Table).get? name.value = none from unknown]
    rfl
  · rw [List.map_append, h.names]
    rfl
  · rw [List.forall_mem_append, List.forall_mem_singleton]
    exact ⟨h.each, rfl, rfl⟩
  · rw [List.length_append]
    show t.size + 4 = _
    rw [h.size]
    rfl

end Table.Integers

namespace Sentence

open PascalX86.Parser

def declaration (name : Name) : List Token :=
  [.name name, .mark .colon, .keyword .integer, .mark .semicolon]

/-- Declarations of integer variables, one by one. -/
def heading (vars : List Name) : List Token :=
  if vars.isEmpty then [] else .keyword .var :: vars.flatMap declaration

def programWords (vars : List Name) (body : List Sentence) : List Token :=
  heading vars ++ ((Sentence.compound body).words ++ [.mark .period])

def programText (vars : List Name) (body : List Sentence) : String :=
  String.ofList (Token.spaced (programWords vars body))

section Declarations

variable {s : ParserState} {c : Cursor} {t : Table} {n : Nat} {vars done rest : List Name}
  {ts : List (Located Token)}

/-- The state where a table is the only one. -/
def within (s : ParserState) (t : Table) : ParserState := { s with scopes := .start t }

theorem declare_of_ok {α : Type} {name : Located Name} {d : Declaring α} {a : α} {t' : Table}
    (h : d.runOn t = (.ok a, t')) :
    Parser.declare name d ((within s t).moved c n) = .ok (a, (within s t').moved c n) := by
  have scopes : (Scopes.start t).declare d = (.ok a, .start t') := by
    rw [Scopes.declare, Scopes.start, h]
    rfl
  show locate name.span ((Scopes.start t).declare d).1
    ({ s with scopes := ((Scopes.start t).declare d).2 }.moved c n) = _
  rw [scopes]
  rfl

/-- One more declaration, if a name begins it. -/
def onward : Parser (Option (List Stmt)) := do
  if ← atName then
    return some (← variableDeclaration)
  else
    return none

theorem read_declaration (h : t.Integers done) {name : Name}
    (values : ts.map Located.value = declaration name)
    (fresh : ∀ known ∈ done, known.same name = false) (room : 4 * (done.length + 1) ≤ maxSize) :
    ∃ t', t'.Integers (done ++ [name]) ∧
      variableDeclaration ((within s t).moved (c.pushAll ts) n) =
        .ok ([], (within s t').moved c n) ∧
      onward ((within s t).moved (c.pushAll ts) n) = .ok (some [], (within s t').moved c n) := by
  obtain ⟨⟨_, span⟩, ts, rfl, rfl, values₁⟩ := List.map_eq_cons_iff.mp values
  obtain ⟨⟨_, colon⟩, ts, rfl, rfl, values₂⟩ := List.map_eq_cons_iff.mp values₁
  obtain ⟨⟨_, integer⟩, ts, rfl, rfl, values₃⟩ := List.map_eq_cons_iff.mp values₂
  obtain ⟨⟨_, semicolon⟩, rfl, rfl⟩ := List.map_eq_singleton_iff.mp values₃
  obtain ⟨symbol, t', added, integers⟩ := @Table.Integers.declare _ _ h ⟨name, span⟩ fresh room
  refine ⟨t', integers, ?_⟩
  let c₁ := c.push ⟨.mark .semicolon, semicolon⟩
  let c₂ := c₁.push ⟨.keyword .integer, integer⟩
  let c₃ := (c₂.push ⟨.mark .colon, colon⟩).push ⟨.name name, span⟩
  have single : identifiers ((within s t).moved c₃ n) =
      .ok ([⟨name, span⟩], (within s t).moved (c₂.push ⟨.mark .colon, colon⟩) n) := by
    rw [identifiers, separatedBy, bind_of_ok identifier_push]
    rfl
  have read : type ((within s t).moved c₂ n) = .ok (.integer, (within s t).moved c₁ n) := by
    show typeOver (typeUpTo c₁.remaining) ((within s t).moved c₂ n) = _
    rw [typeOver, bind_of_ok token_push]
    exact bind_of_ok (@bump_push (within s t) c₁ ⟨.keyword .integer, integer⟩ n rfl)
  have plain : initialValue .integer [(⟨name, span⟩ : Located Name)].length
      ((within s t).moved c₁ n) = .ok (none, (within s t).moved c₁ n) := rfl
  have declared : declareVariables .integer none [⟨name, span⟩] ((within s t).moved c n) =
      .ok ([], (within s t').moved c n) :=
    bind_of_ok (declare_of_ok added)
  have run : variableDeclaration ((within s t).moved c₃ n) = .ok ([], (within s t').moved c n) := by
    rw [variableDeclaration, bind_of_ok single, bind_of_ok expect_push, bind_of_ok read,
      bind_of_ok plain, bind_of_ok expect_push]
    exact declared
  refine ⟨run, ?_⟩
  have ahead : atName ((within s t).moved c₃ n) = .ok (true, (within s t).moved c₃ n) := rfl
  show onward ((within s t).moved c₃ n) = _
  rw [onward, bind_of_ok ahead, if_pos rfl, bind_of_ok run]
  rfl

theorem read_declarations (values : ts.map Located.value = rest.flatMap declaration)
    (h : t.Integers done) (distinct : (done ++ rest).Pairwise fun a b => a.same b = false)
    (room : 4 * (done ++ rest).length ≤ maxSize) (ends : c.current.value.isName = false) {m : Nat}
    (turns : rest.length ≤ m) : ∃ lists t', lists.flatten = [] ∧ t'.Integers (done ++ rest) ∧
      manyUpTo onward m ((within s t).moved (c.pushAll ts) n) =
        .ok (lists, (within s t').moved c n) := by
  induction rest generalizing t done ts m with
  | nil =>
      obtain rfl : ts = [] := List.map_eq_nil_iff.mp values
      refine ⟨[], t, rfl, (List.append_nil done).symm ▸ h, ?_⟩
      have ahead : atName ((within s t).moved c n) =
          .ok (c.current.value.isName, (within s t).moved c n) := rfl
      have stops : onward ((within s t).moved c n) = .ok (none, (within s t).moved c n) := by
        rw [onward, bind_of_ok ahead, ends]
        rfl
      cases m with
      | zero => rfl
      | succ m => exact bind_of_ok stops
  | cons name rest ih =>
      obtain ⟨us, vs, rfl, own, others⟩ := List.map_eq_append_iff.mp values
      obtain ⟨m, rfl⟩ := Nat.exists_eq_add_of_le' (Nat.le_trans (Nat.le_add_left 1 _) turns)
      have fresh : ∀ known ∈ done, known.same name = false := fun known mem =>
        (List.pairwise_append.mp distinct).2.2 known mem name List.mem_cons_self
      have space : 4 * (done.length + 1) ≤ maxSize := by
        simp only [List.length_append, List.length_cons] at room
        omega
      obtain ⟨t', grown, -, run⟩ :=
        read_declaration (s := s) (c := c.pushAll vs) (n := n) h own fresh space
      rw [List.append_cons] at distinct room
      obtain ⟨lists, t'', plain, all, runs⟩ :=
        ih others grown distinct room (Nat.le_of_succ_le_succ turns)
      refine ⟨[] :: lists, t'', plain, (List.append_cons _ _ _).symm ▸ all, ?_⟩
      rw [Cursor.pushAll_append, manyUpTo]
      exact (bind_of_ok run).trans (bind_of_ok runs)

theorem length_le_flatMap (vars : List Name) : vars.length ≤ (vars.flatMap declaration).length := by
  induction vars with
  | nil => simp
  | cons name rest ih =>
      simp only [List.flatMap_cons, List.length_append, List.length_cons, declaration]
      omega

/-- The declarations of a program, in front of its body. -/
theorem read_heading (block : Parser Stmt) (values : ts.map Located.value = heading vars)
    (distinct : vars.Pairwise fun a b => a.same b = false) (room : 4 * vars.length ≤ maxSize)
    (ends : c.current.value = .keyword .begin) : ∃ lists t', lists.flatten = [] ∧
      t'.Integers vars ∧ many (sectionOver block)
        ((within s (.empty .locals 0)).moved (c.pushAll ts) n) =
          .ok (lists, (within s t').moved c n) := by
  have stops (t : Table) : sectionOver block ((within s t).moved c n) =
      .ok (none, (within s t).moved c n) := by
    have ahead : token ((within s t).moved c n) =
        .ok (c.current.value, (within s t).moved c n) := rfl
    rw [sectionOver, bind_of_ok ahead, ends]
    rfl
  have finished (t : Table) (k : Nat) : manyUpTo (sectionOver block) k ((within s t).moved c n) =
      .ok ([], (within s t).moved c n) := by
    cases k with
    | zero => rfl
    | succ k => exact bind_of_ok (stops t)
  have start : (Table.empty .locals 0).Integers [] := ⟨rfl, nofun, rfl⟩
  cases vars with
  | nil =>
      obtain rfl : ts = [] := List.map_eq_nil_iff.mp values
      exact ⟨[], _, rfl, start, finished _ _⟩
  | cons name rest =>
      obtain ⟨⟨_, var⟩, ts, rfl, rfl, values₁⟩ := List.map_eq_cons_iff.mp values
      obtain ⟨us, vs, rfl, own, others⟩ := List.map_eq_append_iff.mp values₁
      have others : vs.map Located.value = rest.flatMap declaration := others
      have one : 4 * (([] : List Name).length + 1) ≤ maxSize := by decide
      obtain ⟨t₁, first, run, -⟩ :=
        read_declaration (s := s) (c := c.pushAll vs) (n := n) start own nofun one
      have noname : c.current.value.isName = false := by
        rw [ends]
        rfl
      have turns : rest.length ≤ (c.pushAll vs).remaining := by
        have le := length_le_flatMap rest
        rw [← others, List.length_map] at le
        rw [Cursor.remaining_pushAll]
        omega
      obtain ⟨lists, t₂, plain, integers, runs⟩ :=
        read_declarations (s := s) (c := c) (n := n) others first distinct room noname turns
      have names : whileNames variableDeclaration
          ((within s (.empty .locals 0)).moved ((c.pushAll vs).pushAll us) n) =
            .ok ([] :: lists, (within s t₂).moved c n) := by
        rw [whileNames, bind_of_ok run]
        exact bind_of_ok runs
      have read : sectionOver block ((within s (.empty .locals 0)).moved
          (((c.pushAll vs).pushAll us).push ⟨.keyword .var, var⟩) n) =
            .ok (some [], (within s t₂).moved c n) := by
        rw [sectionOver, bind_of_ok token_push]
        have bumped := @bump_push (within s (.empty .locals 0)) ((c.pushAll vs).pushAll us)
          ⟨.keyword .var, var⟩ n rfl
        refine (bind_of_ok bumped).trans ((bind_of_ok names).trans ?_)
        exact congrArg (fun list => Except.ok (some list, _)) plain
      refine ⟨[[]], t₂, rfl, integers, ?_⟩
      rw [Cursor.pushAll_cons, Cursor.pushAll_append]
      show manyUpTo (sectionOver block) (((c.pushAll vs).pushAll us).remaining + 1) _ = _
      exact (bind_of_ok read).trans (bind_of_ok (finished t₂ _))

end Declarations

section Legible

variable {inside : Bool} {x : Sentence} {xs : List Sentence}

theorem names_of_mem (mem : x ∈ xs) {name : Name} (inside : name ∈ x.names) : name ∈ namesOf xs := by
  induction xs with
  | nil => cases mem
  | cons y rest ih =>
      rw [namesOf, List.mem_append]
      rcases List.mem_cons.mp mem with rfl | mem
      · exact .inl inside
      · exact .inr (ih mem)

theorem legible_followers {rest : List Sentence}
    (each : ∀ x ∈ rest, ∀ t ∈ x.words, t.Legible) : ∀ t ∈ followers rest, t.Legible := by
  induction rest with
  | nil => exact nofun
  | cons x rest ih =>
      rw [List.forall_mem_cons] at each
      rw [followers, List.forall_mem_cons, List.forall_mem_append]
      exact ⟨Mark.legible _, each.1, ih each.2⟩

theorem legible_compound (each : ∀ x ∈ xs, ∀ t ∈ x.words, t.Legible) :
    ∀ t ∈ (Sentence.compound xs).words, t.Legible := by
  have close : ∀ t ∈ [Token.keyword .end], t.Legible :=
    List.forall_mem_singleton.mpr (Keyword.legible _)
  cases xs with
  | nil =>
      rw [words, List.forall_mem_cons]
      exact ⟨Keyword.legible _, close⟩
  | cons x rest =>
      rw [List.forall_mem_cons] at each
      rw [words, List.forall_mem_cons, List.forall_mem_append, List.forall_mem_append]
      exact ⟨Keyword.legible _, each.1, legible_followers each.2, close⟩

theorem Formed.legible (h : Formed inside x) (writable : ∀ name ∈ x.names, name.IsIdentifier) :
    ∀ t ∈ x.words, t.Legible := by
  have formula (f : Formula) (names : ∀ name ∈ f.names, name.IsIdentifier) :
      ∀ t ∈ f.words 3, t.Legible := Formula.legible_words names 3
  induction h with
  | empty => exact nofun
  | assign target value =>
      simp only [names, List.forall_mem_cons] at writable
      simp only [words, List.forall_mem_cons]
      exact ⟨writable.1.legible, Mark.legible _, formula value writable.2⟩
  | ifThen test _ ih | «while» test _ ih =>
      simp only [names, List.forall_mem_append] at writable
      simp only [words, List.forall_mem_cons, List.forall_mem_append]
      exact ⟨Keyword.legible _, formula test writable.1, Keyword.legible _, ih writable.2⟩
  | ifElse test _ _ _ ih ih' =>
      simp only [names, List.forall_mem_append] at writable
      simp only [words, List.forall_mem_cons, List.forall_mem_append]
      exact ⟨Keyword.legible _, formula test writable.1, Keyword.legible _, ih writable.2.1,
        Keyword.legible _, ih' writable.2.2⟩
  | «for» counter first way last _ ih =>
      simp only [names, List.forall_mem_cons, List.forall_mem_append] at writable
      simp only [words, List.forall_mem_cons, List.forall_mem_append]
      exact ⟨Keyword.legible _, writable.1.legible, Mark.legible _, formula first writable.2.1,
        Keyword.legible _, formula last writable.2.2.1, Keyword.legible _, ih writable.2.2.2⟩
  | «continue» | «break» => exact List.forall_mem_singleton.mpr (Keyword.legible _)
  | compound _ ih =>
      exact legible_compound fun x mem =>
        ih x mem fun name inside => writable name (names_of_mem mem inside)

theorem legible_heading {vars : List Name} (writable : ∀ name ∈ vars, name.IsIdentifier) :
    ∀ t ∈ heading vars, t.Legible := by
  cases vars with
  | nil => exact nofun
  | cons name rest =>
      intro t mem
      rcases List.mem_cons.mp mem with rfl | mem
      · exact Keyword.legible _
      · obtain ⟨name, inside, mem⟩ := List.mem_flatMap.mp mem
        simp only [declaration, List.mem_cons, List.not_mem_nil, or_false] at mem
        rcases mem with rfl | rfl | rfl | rfl
        · exact (writable name inside).legible
        · exact Mark.legible _
        · exact Keyword.legible _
        · exact Mark.legible _

end Legible

section Programs

variable {vars : List Name} {body : List Sentence} {ts : List (Located Token)}

theorem programName_run {s : ParserState} {c : Cursor} {n : Nat}
    (unnamed : c.current.value.isKeyword .program = false) :
    programName (s.moved c n) = .ok (⟨.ofSpelling "Main", c.current.span⟩, s.moved c n) := by
  have here : here (s.moved c n) = .ok (c.current.span, s.moved c n) := rfl
  rw [programName, bind_of_ok here, bind_of_ok (eatKeyword_of_not unnamed)]
  rfl

/-- Declarations and a body, as they stand in a program without a name. -/
theorem read_block {s : ParserState} {c : Cursor} {vs : List (Located Token)} (block : Parser Stmt)
    (front : ts.map Located.value = heading vars)
    (own : vs.map Located.value = (Sentence.compound body).words)
    (formed : ∀ x ∈ body, x.Formed false)
    (declared : ∀ name ∈ namesOf body, ∃ known ∈ vars, known.same name = true)
    (distinct : vars.Pairwise fun a b => a.same b = false) (room : 4 * vars.length ≤ maxSize) :
    ∃ t tree n, t.Integers vars ∧ (Sentence.compound body).Mirrors (.start t) tree ∧
      blockOver block ((within s (.empty .locals 0)).moved ((c.pushAll vs).pushAll ts) 0) =
        .ok (tree, (within s t).moved c n) := by
  obtain ⟨lists, t, plain, integers, heads⟩ := read_heading (s := s) (n := 0)
    (c := c.pushAll vs) block front distinct room (current_compound own)
  have scope : ∀ name ∈ namesOf body, (within s t).scopes.Assigns name := fun name mem => by
    obtain ⟨known, inside, same⟩ := declared name mem
    exact integers.assigns inside same
  have deep : vs.length ≤ (c.pushAll vs).remaining + 1 := by
    rw [Cursor.remaining_pushAll]
    omega
  obtain ⟨span, trees, n, mirrors, run⟩ := read_compound (s := within s t) (c := c)
    (fun x mem => (formed x mem).isRead) own scope nofun deep 0
  have compounds : Parser.compound ((within s t).moved (c.pushAll vs) 0) =
      .ok ((span, trees), (within s t).moved c n) := run
  refine ⟨t, .block ⟨n, span, .nil⟩ trees, n + 1, integers, .compound mirrors, ?_⟩
  rw [blockOver, bind_of_ok heads, bind_of_ok compounds, plain]
  rfl

theorem read_program (last : Span) (values : ts.map Located.value = programWords vars body)
    (formed : ∀ x ∈ body, x.Formed false)
    (declared : ∀ name ∈ namesOf body, ∃ known ∈ vars, known.same name = true)
    (distinct : vars.Pairwise fun a b => a.same b = false) (room : 4 * vars.length ≤ maxSize) :
    ∃ p s', p.functions = [] ∧ p.main.locals.Integers vars ∧
      (Sentence.compound body).Mirrors (.start p.main.locals) p.main.body ∧
      program (initialState ((Cursor.atEnd last).pushAll ts)) = .ok (p, s') := by
  obtain ⟨us, ts, rfl, front, values₁⟩ := List.map_eq_append_iff.mp values
  obtain ⟨vs, ts, rfl, own, values₂⟩ := List.map_eq_append_iff.mp values₁
  obtain ⟨⟨_, point⟩, rfl, rfl⟩ := List.map_eq_singleton_iff.mp values₂
  let final := (Cursor.atEnd last).push ⟨.mark .period, point⟩
  let c := (final.pushAll vs).pushAll us
  have unnamed : c.current.value.isKeyword .program = false := by
    cases vars with
    | nil =>
        obtain rfl : us = [] := List.map_eq_nil_iff.mp front
        show (final.pushAll vs).current.value.isKeyword .program = false
        rw [current_compound own]
        rfl
    | cons name rest =>
        obtain ⟨t, ts, rfl, value, -⟩ := List.map_eq_cons_iff.mp front
        show t.value.isKeyword .program = false
        rw [value]
        rfl
  obtain ⟨k, enough⟩ : ∃ k, c.remaining = k + 1 :=
    Nat.exists_eq_add_of_le' (by simp [c, final]; omega)
  obtain ⟨t, tree, n, integers, mirrors, run⟩ := read_block (s := initialState c) (c := final)
    (block k) front own formed declared distinct room
  have named : programName (initialState c) =
      .ok (⟨.ofSpelling "Main", c.current.span⟩, initialState c) :=
    @programName_run (initialState c) c 0 unnamed
  have counted : remaining (initialState c) = .ok (c.remaining, initialState c) := rfl
  have built : block c.remaining (initialState c) =
      .ok (tree, (within (initialState c) t).moved final n) := by
    rw [enough]
    exact run
  let main : Function := ⟨⟨0, ⟨.ofSpelling "Main", c.current.span⟩, [], 0, .nil, 0⟩, t, tree⟩
  refine ⟨⟨[], main, n⟩, (within (initialState c) t).moved (.atEnd last) n, rfl, integers, mirrors, ?_⟩
  rw [Cursor.pushAll_append, Cursor.pushAll_append]
  show program (initialState c) = _
  rw [program, bind_of_ok named, bind_of_ok counted, bind_of_ok built, bind_of_ok expect_push]
  rfl

/-- Printing a program of sentences over integer variables and parsing the text gives the program
back: its variables, and the tree of its body. -/
theorem program_text (file : String) (formed : ∀ x ∈ body, x.Formed false)
    (declared : ∀ name ∈ namesOf body, ∃ known ∈ vars, known.same name = true)
    (writable : ∀ name ∈ vars ++ namesOf body, name.IsIdentifier)
    (distinct : vars.Pairwise fun a b => a.same b = false) (room : 4 * vars.length ≤ maxSize) :
    ∃ p, (Source.ofText file (programText vars body)).program = .ok p ∧ p.functions = [] ∧
      p.main.locals.Integers vars ∧
      (Sentence.compound body).Mirrors (.start p.main.locals) p.main.body := by
  rw [List.forall_mem_append] at writable
  have legible : ∀ t ∈ programWords vars body, t.Legible := by
    rw [programWords, List.forall_mem_append, List.forall_mem_append, List.forall_mem_singleton]
    refine ⟨legible_heading writable.1, legible_compound fun x mem => ?_, Mark.legible _⟩
    exact (formed x mem).legible fun name inside => writable.2 name (names_of_mem mem inside)
  obtain ⟨ts, last, items, values⟩ := Source.scan_spaced file legible
  obtain ⟨p, s, functions, integers, mirrors, run⟩ :=
    read_program last values formed declared distinct room
  refine ⟨p, ?_, functions, integers, mirrors⟩
  have start : Cursor.ofItems (Source.ofText file (programText vars body)).scan =
      .ok ((Cursor.atEnd last).pushAll ts) := by
    rw [programText, items, List.map_append, ← Cursor.ofItems_items, Cursor.items_pushAll]
    rfl
  rw [Source.program, Program.ofItems, start]
  exact congrArg (fun answer => Prod.fst <$> answer) run

end Programs

section Sample

/-- An `else` behind two conditions, jumps, both kinds of empty sentences, and nested compounds. -/
def sample : List Sentence :=
  let a := Name.ofSpelling "a"
  let b := Name.ofSpelling "b"
  [.ifThen (.var a) (.ifElse (.var b) (.while (.var b) .continue) .empty), .empty,
    .for a (.var b) .down (.negate (.var b))
      (.compound [.ifThen (.var a) .break, .assign b (.binary .add (.var a) (.var b)), .empty]),
    .compound []]

theorem mem_names_sample {name : Name} (mem : name ∈ namesOf sample) :
    name = .ofSpelling "a" ∨ name = .ofSpelling "b" := by
  simp only [sample, namesOf, names, Formula.names, List.cons_append, List.nil_append,
    List.append_nil, List.mem_cons, List.not_mem_nil] at mem
  tauto

theorem formed_sample : ∀ x ∈ sample, x.Formed false := by
  simp only [sample, List.forall_mem_cons]
  refine ⟨.ifThen _ (.ifElse _ (.while _ .continue) .empty rfl), .empty,
    .for _ _ _ _ (.compound ?_), .compound nofun, nofun⟩
  simp only [List.forall_mem_cons]
  exact ⟨.ifThen _ .break, .assign _ _, .empty, nofun⟩

theorem program_sample :
    programText [.ofSpelling "a", .ofSpelling "b"] sample =
      "var a : integer ; b : integer ; begin if a then if b then while b do continue else ; ; " ++
        "for a := b downto - b do begin if a then break ; b := a + b ; end ; begin end end ." ∧
    ∃ p, (Source.ofText "sample.pas" (programText [.ofSpelling "a", .ofSpelling "b"] sample)).program =
        .ok p ∧ p.functions = [] ∧
      p.main.locals.Integers [.ofSpelling "a", .ofSpelling "b"] ∧
      (Sentence.compound sample).Mirrors (.start p.main.locals) p.main.body := by
  have a : (Name.ofSpelling "a").IsIdentifier := ⟨⟨'a', [], rfl, rfl, nofun⟩, rfl⟩
  have b : (Name.ofSpelling "b").IsIdentifier := ⟨⟨'b', [], rfl, rfl, nofun⟩, rfl⟩
  refine ⟨by decide +kernel, program_text "sample.pas" formed_sample ?_ ?_ ?_ (by decide)⟩
  · intro name mem
    rcases mem_names_sample mem with rfl | rfl
    · exact ⟨_, List.mem_cons_self, rfl⟩
    · exact ⟨_, List.mem_cons_of_mem _ List.mem_cons_self, rfl⟩
  · intro name mem
    have known : name = .ofSpelling "a" ∨ name = .ofSpelling "b" := by
      rcases List.mem_append.mp mem with mem | mem
      · simpa using mem
      · exact mem_names_sample mem
    rcases known with rfl | rfl
    · exact a
    · exact b
  · exact List.pairwise_pair.mpr rfl

end Sample

end Sentence

end PascalX86
