import PascalX86.Parser.Declaration
import PascalX86.Proofs.Phrase.Reading
import PascalX86.Proofs.Scanning.Spaced
import PascalX86.Proofs.Typing.Tree

/-!
# Formulas that are printed and parsed

Formulas over integer variables. They are printed with parentheses only around an operand that binds
more loosely than its place allows, and parsing the text gives the formula back as a tree.
-/

set_option autoImplicit false

namespace PascalX86

inductive Formula where
  | var (name : Name)
  | negate (operand : Formula)
  | complement (operand : Formula)
  | binary (op : Operator) (left right : Formula)

/-- The tree has the shape, the operators and the variables of the formula, and only integers. -/
inductive Formula.Mirrors (σ : Scopes) : Formula → Expr → Prop where
  | var {name : Name} {symbol : Symbol} {info : NodeInfo} (found : σ.lookup? name = some symbol)
      (type : info.type = .integer) : Mirrors σ (.var name) (.var info symbol)
  | negate {f : Formula} {e : Expr} {info : NodeInfo} (operand : Mirrors σ f e)
      (type : info.type = .integer) : Mirrors σ (.negate f) (.negate info e)
  | complement {f : Formula} {e : Expr} {info : NodeInfo} (operand : Mirrors σ f e)
      (type : info.type = .integer) : Mirrors σ (.complement f) (.complement info e)
  | binary {op : Operator} {f g : Formula} {l r : Expr} {info : NodeInfo} (left : Mirrors σ f l)
      (right : Mirrors σ g r) (type : info.type = .integer) :
      Mirrors σ (.binary op f g) (.binary info op l r)

namespace Formula

def names : Formula → List Name
  | var name => [name]
  | negate operand | complement operand => operand.names
  | binary _ left right => left.names ++ right.names

/-- The tokens of a formula where operators up to a rank may stand. Operators associate to the left,
and signs apply to a single factor. -/
def words (j : Nat) : Formula → List Token
  | var name => [.name name]
  | negate operand => .mark .minus :: operand.words 0
  | complement operand => .keyword .not :: operand.words 0
  | binary op left right =>
      let inner := left.words op.rank ++ op.token :: right.words (op.rank - 1)
      if op.rank ≤ j then inner else .mark .openParen :: (inner ++ [.mark .closeParen])

def text (f : Formula) : String := String.ofList (Token.spaced (f.words 3))

/-- The phrases that a formula may be written as where operators up to a rank may stand. -/
inductive Written : Nat → Formula → Phrase → Prop where
  | var {j : Nat} (name : Name) (span : Span) : Written j (.var name) (.atom ⟨.name name, span⟩)
  | negate {j : Nat} {f : Formula} {p : Phrase} (span : Span) (operand : Written 0 f p) :
      Written j (.negate f) (.signed .minus span p)
  | complement {j : Nat} {f : Formula} {p : Phrase} (span : Span) (operand : Written 0 f p) :
      Written j (.complement f) (.signed .not span p)
  | binary {j : Nat} {op : Operator} {f g : Formula} {p q : Phrase} (span : Span)
      (left : Written op.rank f p) (right : Written (op.rank - 1) g q) (fits : op.rank ≤ j) :
      Written j (.binary op f g) (.binary op span p q)
  | group {j : Nat} {op : Operator} {f g : Formula} {p : Phrase} (opening closing : Span)
      (inner : Written op.rank (.binary op f g) p) (loose : ¬ op.rank ≤ j) :
      Written j (.binary op f g) (.group opening p closing)

section Writing

variable {j : Nat} {f : Formula} {p : Phrase}

theorem Written.rank_le (h : Written j f p) : p.rank ≤ j := by
  cases h with
  | binary _ _ _ fits => exact fits
  | _ => exact Nat.zero_le j

theorem one_le_rank (op : Operator) : 1 ≤ op.rank := by
  cases op <;> decide

theorem Written.ranked (h : Written j f p) : p.Ranked := by
  induction h with
  | var => trivial
  | negate _ operand ih | complement _ operand ih =>
      exact ⟨Nat.eq_zero_of_le_zero operand.rank_le, ih⟩
  | @binary _ op _ _ _ _ _ left right _ ihl ihr =>
      have positive := one_le_rank op
      have tighter := right.rank_le
      exact ⟨left.rank_le, by omega, ihl, ihr⟩
  | group _ _ _ _ ih => exact ih

theorem Written.leaves (h : Written j f p) :
    ∀ t ∈ p.leaves, ∃ name ∈ f.names, t.value = .name name := by
  induction h with
  | var name span => simp [Phrase.leaves, names]
  | negate _ _ ih | complement _ _ ih => exact ih
  | binary _ _ _ _ ihl ihr =>
      intro t mem
      rcases List.mem_append.mp mem with mem | mem
      · obtain ⟨name, inside, value⟩ := ihl t mem
        exact ⟨name, List.mem_append_left _ inside, value⟩
      · obtain ⟨name, inside, value⟩ := ihr t mem
        exact ⟨name, List.mem_append_right _ inside, value⟩
  | group _ _ _ _ ih => exact ih

/-- Wherever its tokens stand in a text, a formula is written there as a phrase. -/
theorem exists_written (f : Formula) : ∀ (j : Nat) (ts : List (Located Token)),
    ts.map Located.value = f.words j → ∃ p, Written j f p ∧ p.tokens = ts := by
  induction f with
  | var name =>
      intro j ts values
      obtain ⟨⟨t, span⟩, rfl, rfl⟩ := List.map_eq_singleton_iff.mp values
      exact ⟨_, .var name span, rfl⟩
  | negate operand ih =>
      intro j ts values
      obtain ⟨⟨t, span⟩, rest, rfl, rfl, later⟩ := List.map_eq_cons_iff.mp values
      obtain ⟨p, written, rfl⟩ := ih 0 rest later
      exact ⟨_, .negate span written, rfl⟩
  | complement operand ih =>
      intro j ts values
      obtain ⟨⟨t, span⟩, rest, rfl, rfl, later⟩ := List.map_eq_cons_iff.mp values
      obtain ⟨p, written, rfl⟩ := ih 0 rest later
      exact ⟨_, .complement span written, rfl⟩
  | binary op left right ihl ihr =>
      intro j ts values
      have bare (ts : List (Located Token)) (i : Nat) (fits : op.rank ≤ i)
          (values : ts.map Located.value =
            left.words op.rank ++ op.token :: right.words (op.rank - 1)) :
          ∃ p, Written i (.binary op left right) p ∧ p.tokens = ts := by
        obtain ⟨front, back, rfl, first, later⟩ := List.map_eq_append_iff.mp values
        obtain ⟨⟨t, span⟩, back, rfl, rfl, second⟩ := List.map_eq_cons_iff.mp later
        obtain ⟨p, writtenl, rfl⟩ := ihl op.rank front first
        obtain ⟨q, writtenr, rfl⟩ := ihr (op.rank - 1) back second
        exact ⟨_, .binary span writtenl writtenr fits, rfl⟩
      by_cases fits : op.rank ≤ j
      · rw [words, if_pos fits] at values
        exact bare ts j fits values
      · rw [words, if_neg fits] at values
        obtain ⟨⟨t, opening⟩, rest, rfl, rfl, later⟩ := List.map_eq_cons_iff.mp values
        obtain ⟨inner, last, rfl, middle, closes⟩ := List.map_eq_append_iff.mp later
        obtain ⟨⟨t, closing⟩, rfl, rfl⟩ := List.map_eq_singleton_iff.mp closes
        obtain ⟨p, written, rfl⟩ := bare inner op.rank (Nat.le_refl _) middle
        exact ⟨_, .group opening closing written fits, rfl⟩

end Writing

end Formula

namespace Parser

variable {s : ParserState} {c : Cursor} {n : Nat} {e l r : Expr}

theorem convert_of_category_eq {target : Ty} (same : e.type.category = target.category) :
    convert e target = pure e := by
  rw [convert, if_pos (.inl same)]

theorem plus_integer (sign : Span) (type : e.type = .integer) :
    plus sign e (s.moved c n) = .ok (e, s.moved c n) := by
  have kept : convert e .integer = pure e := convert_of_category_eq (congrArg Ty.category type)
  rw [plus, type]
  exact congrFun kept _

theorem minus_integer (sign : Span) (type : e.type = .integer) (unknown : e.value? = none) :
    minus sign e (s.moved c n) =
      .ok (.negate ⟨n, sign.join e.span, e.type⟩ e, s.moved c (n + 1)) := by
  rw [minus, bind_of_ok (plus_integer sign type), unknown]
  rfl

theorem complement_integer (sign : Span) (type : e.type = .integer) (unknown : e.value? = none) :
    complement sign e (s.moved c n) =
      .ok (.complement ⟨n, sign.join e.span, .integer⟩ e, s.moved c (n + 1)) := by
  rw [complement, bind_of_ok (plus_integer sign type), unknown]
  rfl

theorem operation_integer (op : Operator) (sign : Span) (typel : l.type = .integer)
    (typer : r.type = .integer) (unknown : l.value? = none) :
    operation op sign l r (s.moved c n) =
      .ok (.binary ⟨n, l.span.join r.span, .integer⟩ op l r, s.moved c (n + 1)) := by
  have typed : op.type .integer .integer = .ok ⟨.integer, .integer⟩ :=
    Operator.type_of_isIntegerLike rfl rfl
  have unfolded : foldable? l r .integer = none := by simp [foldable?, unknown]
  have keptl : convert l .integer = pure l := convert_of_category_eq (congrArg Ty.category typel)
  have keptr : convert r .integer = pure r := convert_of_category_eq (congrArg Ty.category typer)
  rw [operation, typel, typer, typed]
  dsimp only [locate]
  rw [pure_bind]
  dsimp only
  rw [unfolded, keptl, keptr]
  rfl

/-- Tokens after which a variable is not selected from. -/
def Selects (t : Token) : Prop := t = .mark .openSquare ∨ t = .mark .period

theorem selectors_run {expression : Parser Expr} (follows : ¬ Selects c.current.value) :
    selectors expression e (s.moved c n) = .ok (e, s.moved c n) := by
  obtain ⟨square, period⟩ := not_or.mp follows
  have ahead : token (s.moved c n) = .ok (c.current.value, s.moved c n) := rfl
  apply iterate_of_none
  rw [bind_of_ok ahead]
  clear ahead
  generalize c.current.value = t at square period
  cases t with
  | mark m =>
      cases m with
      | openSquare => exact absurd rfl square
      | period => exact absurd rfl period
      | _ => rfl
  | _ => rfl

/-- The node of a variable in scope. -/
def variableLeaf (σ : Scopes) (t : Located Token) : Parser Expr :=
  match t.value with
  | .name name =>
      match σ.lookup? name with
      | some symbol => variableNode t.span symbol
      | none => fail (.notFound name) t.span
  | _ => fail .illegalExpression t.span

theorem leaf_of_variable {name : Name} {span : Span} {symbol : Symbol}
    (found : s.scopes.lookup? name = some symbol) (referable : symbol.IsReferable)
    (type : symbol.type = .integer) :
    Leaf s (fun t => ¬ Selects t) (variableLeaf s.scopes) ⟨.name name, span⟩ := by
  have leaf : variableLeaf s.scopes ⟨.name name, span⟩ = variableNode span symbol := by
    simp only [variableLeaf, found]
  constructor
  · rw [leaf]
    exact (still_node _ _).bind fun _ => .pure _
  · intro inner c n follows
    rw [factorOver, bind_of_ok token_push, leaf]
    show designator _ _ = _
    rw [designator, bind_of_ok identifier_push, bind_of_ok (lookup_run found)]
    have selected : (variableNode span symbol >>= selectors (levels inner)) (s.moved c n) =
        variableNode span symbol (s.moved c n) :=
      selectors_run follows
    cases role : symbol.role with
    | constant value slot => simp [Symbol.IsReferable, role, type, Ty.isScalar] at referable
    | typeName | function => simp [Symbol.IsReferable, role] at referable
    | «variable» | parameter => exact selected

end Parser

namespace Formula

open PascalX86.Parser

variable {j : Nat} {f : Formula} {p : Phrase} {s : ParserState} {c : Cursor} {n : Nat}

theorem Mirrors.type {σ : Scopes} {e : Expr} (h : f.Mirrors σ e) : e.type = .integer := by
  cases h <;> assumption

theorem Mirrors.value? {σ : Scopes} {e : Expr} (h : f.Mirrors σ e) : e.value? = none := by
  cases h <;> rfl

/-- What is written for a formula becomes a tree that mirrors the formula. -/
theorem Written.build (h : Written j f p) (declared : ∀ name ∈ f.names, ∃ symbol,
      s.scopes.lookup? name = some symbol ∧ symbol.type = .integer) (n : Nat) :
    ∃ e n', f.Mirrors s.scopes e ∧
      p.build (variableLeaf s.scopes) (s.moved c n) = .ok (e, s.moved c n') := by
  induction h generalizing n with
  | var name span =>
      obtain ⟨symbol, found, type⟩ := declared name List.mem_cons_self
      refine ⟨.var ⟨n, span, symbol.type⟩ symbol, n + 1, .var found type, ?_⟩
      simp only [Phrase.build, variableLeaf, found]
      rfl
  | negate span operand ih =>
      obtain ⟨e, n', mirrors, run⟩ := ih declared n
      refine ⟨.negate ⟨n', span.join e.span, e.type⟩ e, n' + 1, .negate mirrors mirrors.type, ?_⟩
      exact (bind_of_ok run).trans (minus_integer span mirrors.type mirrors.value?)
  | complement span operand ih =>
      obtain ⟨e, n', mirrors, run⟩ := ih declared n
      refine ⟨.complement ⟨n', span.join e.span, .integer⟩ e, n' + 1, .complement mirrors rfl, ?_⟩
      exact (bind_of_ok run).trans (complement_integer span mirrors.type mirrors.value?)
  | @binary _ op f g p q span left right fits ihl ihr =>
      simp only [names, List.forall_mem_append] at declared
      obtain ⟨l, n₁, mirrorsl, runl⟩ := ihl declared.1 n
      obtain ⟨r, n₂, mirrorsr, runr⟩ := ihr declared.2 n₁
      have run := @operation_integer s c n₂ l r op span mirrorsl.type mirrorsr.type mirrorsl.value?
      refine ⟨.binary ⟨n₂, l.span.join r.span, .integer⟩ op l r, n₂ + 1, ?_, ?_⟩
      · exact .binary mirrorsl mirrorsr rfl
      · exact (bind_of_ok runl).trans ((bind_of_ok runr).trans run)
  | group opening closing inner loose ih => exact ih declared n

/-- The names of a formula as integer variables in scope. -/
def InScope (σ : Scopes) (f : Formula) : Prop := ∀ name ∈ f.names, ∃ symbol,
  σ.lookup? name = some symbol ∧ symbol.IsReferable ∧ symbol.type = .integer

/-- The tokens of a formula are parsed as the formula, in front of any token that neither continues
the expression nor selects from its last variable. -/
theorem expression_words {ts : List (Located Token)} (values : ts.map Located.value = f.words 3)
    (declared : f.InScope s.scopes) (ends : Operator.ofToken? c.current.value = none)
    (follows : ¬ Selects c.current.value) (n : Nat) :
    ∃ e n', f.Mirrors s.scopes e ∧
      expression (s.moved (c.pushAll ts) n) = .ok (e, s.moved c n') := by
  obtain ⟨p, written, rfl⟩ := exists_written f 3 ts values
  have leaves (t : Located Token) (mem : t ∈ p.leaves) :
      Leaf s (fun t => ¬ Selects t) (variableLeaf s.scopes) t := by
    obtain ⟨token, span⟩ := t
    obtain ⟨name, inside, rfl⟩ := written.leaves _ mem
    obtain ⟨symbol, found, referable, type⟩ := declared name inside
    exact leaf_of_variable found referable type
  have operators (op : Operator) : ¬ Selects op.token := by
    cases op <;> simp [Selects, Operator.token]
  have read : p.IsReadBy s (variableLeaf s.scopes) expression c :=
    written.ranked.expression leaves operators (by simp [Selects])
      ⟨follows, fun op found => by simp [ends] at found⟩
  have known (name : Name) (inside : name ∈ f.names) : ∃ symbol,
      s.scopes.lookup? name = some symbol ∧ symbol.type = .integer := by
    obtain ⟨symbol, found, -, type⟩ := declared name inside
    exact ⟨symbol, found, type⟩
  obtain ⟨e, n', mirrors, run⟩ := @Written.build 3 f p s c written known n
  exact ⟨e, n', mirrors, (read n).trans run⟩

theorem legible_words (writable : ∀ name ∈ f.names, name.IsIdentifier) (j : Nat) :
    ∀ t ∈ f.words j, t.Legible := by
  induction f generalizing j with
  | var name =>
      have name := writable name List.mem_cons_self
      exact List.forall_mem_singleton.mpr name.legible
  | negate operand ih =>
      rw [words, List.forall_mem_cons]
      exact ⟨Mark.legible _, ih writable 0⟩
  | complement operand ih =>
      rw [words, List.forall_mem_cons]
      exact ⟨Keyword.legible _, ih writable 0⟩
  | binary op left right ihl ihr =>
      simp only [names, List.forall_mem_append] at writable
      have operator : op.token.Legible := by
        cases op <;> first | exact Mark.legible _ | exact Keyword.legible _
      have inner : ∀ t ∈ left.words op.rank ++ op.token :: right.words (op.rank - 1),
          t.Legible := by
        rw [List.forall_mem_append, List.forall_mem_cons]
        exact ⟨ihl writable.1 op.rank, operator, ihr writable.2 (op.rank - 1)⟩
      by_cases fits : op.rank ≤ j
      · rw [words, if_pos fits]
        exact inner
      · rw [words, if_neg fits, List.forall_mem_cons, List.forall_mem_append]
        exact ⟨Mark.legible _, inner, by simpa using Mark.legible .closeParen⟩

/-- Printing a formula over integer variables and parsing the text gives the formula back, up to the
end of the text. -/
theorem expression_text (f : Formula) (file : String) (declared : f.InScope s.scopes)
    (writable : ∀ name ∈ f.names, name.IsIdentifier) :
    ∃ c e s', Cursor.ofItems (Source.ofText file f.text).scan = .ok c ∧
      expression { s with cursor := c } = .ok (e, s') ∧ f.Mirrors s.scopes e ∧
      s'.cursor.current.value = .endOfFile := by
  obtain ⟨ts, last, items, values⟩ := Source.scan_spaced file (legible_words writable 3)
  have ends : ¬ Selects (Cursor.atEnd last).current.value := by simp [Cursor.atEnd, Selects]
  obtain ⟨e, n', mirrors, run⟩ := expression_words values declared rfl ends s.nodes
  have start : Cursor.ofItems (Source.ofText file f.text).scan =
      .ok ((Cursor.atEnd last).pushAll ts) := by
    rw [text, items, List.map_append, ← Cursor.ofItems_items, Cursor.items_pushAll]
    rfl
  exact ⟨_, e, _, start, run, mirrors, rfl⟩

section Sample

/-- Signs, parentheses on both sides of an operator, and all levels. -/
def sample : Formula :=
  let a := var (.ofSpelling "a")
  let b := var (.ofSpelling "b")
  .binary .less (.binary .mul (.negate (.binary .sub a (.binary .sub b a))) (.complement b))
    (.binary .or (.binary .sub a b) (.negate (.negate a)))

/-- Where `a` and `b` are integer variables. -/
def sampleState : ParserState :=
  let a : Symbol := ⟨⟨.ofSpelling "a", .first⟩, .integer, .variable ⟨0, 0, .locals⟩⟩
  let b : Symbol := ⟨⟨.ofSpelling "b", .first⟩, .integer, .variable ⟨0, 4, .locals⟩⟩
  { initialState (.atEnd .first) with
    scopes := .start { Table.empty .locals 0 with symbols := [a, b] } }

theorem mem_names_sample {name : Name} (mem : name ∈ sample.names) :
    name = .ofSpelling "a" ∨ name = .ofSpelling "b" := by
  simp only [sample, names, List.cons_append, List.nil_append, List.mem_cons,
    List.not_mem_nil] at mem
  tauto

theorem expression_sample : sample.text = "- ( a - ( b - a ) ) * not b < a - b or - - a" ∧
    ∃ c e s', Cursor.ofItems (Source.ofText "sample.pas" sample.text).scan = .ok c ∧
      expression { sampleState with cursor := c } = .ok (e, s') ∧
      sample.Mirrors sampleState.scopes e ∧ s'.cursor.current.value = .endOfFile := by
  refine ⟨rfl, expression_text sample "sample.pas" ?_ ?_⟩
  · intro name mem
    rcases mem_names_sample mem with rfl | rfl
    · exact ⟨_, rfl, trivial, rfl⟩
    · exact ⟨_, rfl, trivial, rfl⟩
  · intro name mem
    rcases mem_names_sample mem with rfl | rfl
    · exact ⟨⟨'a', [], rfl, rfl, nofun⟩, rfl⟩
    · exact ⟨⟨'b', [], rfl, rfl, nofun⟩, rfl⟩

end Sample

end Formula

end PascalX86
