import PascalX86.Proofs.Checking.Expression
import PascalX86.Proofs.Phrase.Printing

/-!
# Statements that are printed and parsed

Statements over integer variables, written without `begin` and `end` around the bodies of others.
An `else` belongs to the nearest `if` still open, so no body that leaves one open stands in front of
an `else`. Every other statement is read as it was written.
-/

set_option autoImplicit false

namespace PascalX86

inductive Sentence where
  | empty
  | assign (target : Name) (value : Formula)
  | ifThen (test : Formula) (body : Sentence)
  | ifElse (test : Formula) (body otherwise : Sentence)
  | while (test : Formula) (body : Sentence)
  | for (counter : Name) (first : Formula) (way : Direction) (last : Formula) (body : Sentence)
  | continue
  | break
  | compound (sentences : List Sentence)

def Direction.keyword : Direction → Keyword
  | .up => .to
  | .down => .downto

/-- Names of integer variables that can be assigned to. -/
def Scopes.Assigns (σ : Scopes) (name : Name) : Prop :=
  ∃ symbol, σ.lookup? name = some symbol ∧ symbol.isAssignable = true ∧ symbol.type = .integer

namespace Sentence

def isEmpty : Sentence → Bool
  | empty => true
  | _ => false

/-- Whether a sentence ends in an `if` without `else`, where one more `else` would go. -/
def isOpen : Sentence → Bool
  | ifThen .. => true
  | ifElse _ _ body | .while _ body | .for _ _ _ _ body => body.isOpen
  | _ => false

mutual

def names : Sentence → List Name
  | empty | .continue | .break => []
  | assign target value => target :: value.names
  | ifThen test body | .while test body => test.names ++ body.names
  | ifElse test body otherwise => test.names ++ (body.names ++ otherwise.names)
  | .for counter first _ last body => counter :: (first.names ++ (last.names ++ body.names))
  | compound sentences => namesOf sentences

def namesOf : List Sentence → List Name
  | [] => []
  | x :: rest => x.names ++ namesOf rest

end

mutual

def words : Sentence → List Token
  | empty => []
  | assign target value => .name target :: .mark .assign :: value.words 3
  | ifThen test body => .keyword .if :: (test.words 3 ++ .keyword .then :: body.words)
  | ifElse test body otherwise =>
      .keyword .if :: (test.words 3 ++ .keyword .then ::
        (body.words ++ .keyword .else :: otherwise.words))
  | .while test body => .keyword .while :: (test.words 3 ++ .keyword .do :: body.words)
  | .for counter first way last body =>
      .keyword .for :: .name counter :: .mark .assign :: (first.words 3 ++
        .keyword way.keyword :: (last.words 3 ++ .keyword .do :: body.words))
  | .continue => [.keyword .continue]
  | .break => [.keyword .break]
  | compound [] => [.keyword .begin, .keyword .end]
  | compound (x :: rest) => .keyword .begin :: (x.words ++ (followers rest ++ [.keyword .end]))

/-- The tokens of sentences after the first one. -/
def followers : List Sentence → List Token
  | [] => []
  | x :: rest => .mark .semicolon :: (x.words ++ followers rest)

end

/-- Sentences as they may stand inside a loop, or outside of all loops. -/
inductive Formed : Bool → Sentence → Prop where
  | empty {inside : Bool} : Formed inside .empty
  | assign {inside : Bool} (target : Name) (value : Formula) : Formed inside (.assign target value)
  | ifThen {inside : Bool} {body : Sentence} (test : Formula) (first : Formed inside body) :
      Formed inside (.ifThen test body)
  | ifElse {inside : Bool} {body otherwise : Sentence} (test : Formula) (first : Formed inside body)
      (second : Formed inside otherwise) (closed : body.isOpen = false) :
      Formed inside (.ifElse test body otherwise)
  | while {inside : Bool} {body : Sentence} (test : Formula) (first : Formed true body) :
      Formed inside (.while test body)
  | for {inside : Bool} {body : Sentence} (counter : Name) (first : Formula) (way : Direction)
      (last : Formula) (turn : Formed true body) : Formed inside (.for counter first way last body)
  | continue : Formed true .continue
  | break : Formed true .break
  | compound {inside : Bool} {sentences : List Sentence} (each : ∀ x ∈ sentences, Formed inside x) :
      Formed inside (.compound sentences)

/-- The tree has the shape of the sentence and the trees of its parts. An empty sentence is an empty
block as a body, and nothing in a compound. -/
inductive Mirrors (σ : Scopes) : Sentence → Stmt → Prop where
  | empty {info : NodeInfo} : Mirrors σ .empty (.block info [])
  | assign {target : Name} {value : Formula} {info : NodeInfo} {v e : Expr}
      (name : (Formula.var target).Mirrors σ v) (tree : value.Mirrors σ e) :
      Mirrors σ (.assign target value) (.assign info v e)
  | ifThen {test : Formula} {body : Sentence} {info : NodeInfo} {e : Expr} {t : Stmt}
      (condition : test.Mirrors σ e) (first : Mirrors σ body t) :
      Mirrors σ (.ifThen test body) (.ifThen info e t)
  | ifElse {test : Formula} {body otherwise : Sentence} {info : NodeInfo} {e : Expr} {t u : Stmt}
      (condition : test.Mirrors σ e) (first : Mirrors σ body t) (second : Mirrors σ otherwise u) :
      Mirrors σ (.ifElse test body otherwise) (.ifElse info e t u)
  | while {test : Formula} {body : Sentence} {info : NodeInfo} {e : Expr} {t : Stmt}
      (condition : test.Mirrors σ e) (first : Mirrors σ body t) :
      Mirrors σ (.while test body) (.while info e t)
  | for {counter : Name} {first last : Formula} {way : Direction} {body : Sentence}
      {info : NodeInfo} {v e e' : Expr} {t : Stmt}
      (name : (Formula.var counter).Mirrors σ v) (start : first.Mirrors σ e)
      (stop : last.Mirrors σ e') (turn : Mirrors σ body t) :
      Mirrors σ (.for counter first way last body) (.for info v e e' way t)
  | continue {info : NodeInfo} : Mirrors σ .continue (.continue info)
  | break {info : NodeInfo} : Mirrors σ .break (.break info)
  | compound {sentences : List Sentence} {info : NodeInfo} {ts : List Stmt}
      (each : List.Forall₂ (Mirrors σ) (sentences.filter fun x => !x.isEmpty) ts) :
      Mirrors σ (.compound sentences) (.block info ts)

end Sentence

namespace Parser

variable {s : ParserState} {c : Cursor} {n : Nat} {e : Expr} {k : Keyword} {m : Mark} {span : Span}

theorem atKeyword_push : atKeyword k (s.moved (c.push ⟨.keyword k, span⟩) n) =
    .ok (true, s.moved (c.push ⟨.keyword k, span⟩) n) := by
  show Except.ok ((Token.keyword k).isKeyword k, _) = _
  simp [Token.isKeyword]

theorem keyword_push :
    keyword k (s.moved (c.push ⟨.keyword k, span⟩) n) = .ok (span, s.moved c n) := by
  rw [keyword, bind_of_ok atKeyword_push, if_pos rfl, bind_of_ok (bump_push rfl)]
  rfl

theorem eatKeyword_push :
    eatKeyword k (s.moved (c.push ⟨.keyword k, span⟩) n) = .ok (true, s.moved c n) := by
  rw [eatKeyword, bind_of_ok atKeyword_push, if_pos rfl, bind_of_ok (bump_push rfl)]
  rfl

theorem eatKeyword_of_not (absent : c.current.value.isKeyword k = false) :
    eatKeyword k (s.moved c n) = .ok (false, s.moved c n) := by
  have ahead : atKeyword k (s.moved c n) = .ok (c.current.value.isKeyword k, s.moved c n) := rfl
  rw [eatKeyword, bind_of_ok ahead, absent]
  rfl

theorem eat_push : eat m (s.moved (c.push ⟨.mark m, span⟩) n) = .ok (true, s.moved c n) := by
  rw [eat, bind_of_ok atMark_push, if_pos rfl, bind_of_ok (bump_push rfl)]
  rfl

theorem eat_of_not (absent : c.current.value.isMark m = false) :
    eat m (s.moved c n) = .ok (false, s.moved c n) := by
  have ahead : atMark m (s.moved c n) = .ok (c.current.value.isMark m, s.moved c n) := rfl
  rw [eat, bind_of_ok ahead, absent]
  rfl

theorem coerce_of_integer (type : e.type = .integer) :
    coerce e .integer (s.moved c n) = .ok (e, s.moved c n) := by
  have kept : convert e .integer = pure e := convert_of_category_eq (congrArg Ty.category type)
  have fits : Ty.integer.check .integer = .ok () := rfl
  rw [coerce, type, fits, kept]
  rfl

/-- Tokens that neither continue an expression nor select from its last variable. -/
structure Closes (t : Token) : Prop where
  ends : Operator.ofToken? t = none
  follows : ¬ Selects t

theorem closes_keyword (h : Operator.ofToken? (.keyword k) = none) : Closes (.keyword k) :=
  ⟨h, by simp [Selects]⟩

section Expressions

variable {f : Formula} {ts : List (Located Token)} {name : Name}

theorem integer_words (values : ts.map Located.value = f.words 3)
    (declared : ∀ name ∈ f.names, s.scopes.Assigns name) (closes : Closes c.current.value)
    (n : Nat) : ∃ e n', f.Mirrors s.scopes e ∧
      expression (s.moved (c.pushAll ts) n) = .ok (e, s.moved c n') ∧
      coerce e .integer (s.moved c n') = .ok (e, s.moved c n') := by
  have scope : f.InScope s.scopes := fun name mem => by
    obtain ⟨symbol, found, assignable, type⟩ := declared name mem
    exact ⟨symbol, found, isReferable_of_isAssignable assignable, type⟩
  obtain ⟨e, n', mirrors, run⟩ :=
    Formula.expression_words values scope closes.ends closes.follows n
  exact ⟨e, n', mirrors, run, coerce_of_integer mirrors.type⟩

theorem condition_words (values : ts.map Located.value = f.words 3)
    (declared : ∀ name ∈ f.names, s.scopes.Assigns name) (closes : Closes c.current.value)
    (n : Nat) : ∃ e n', f.Mirrors s.scopes e ∧
      condition (s.moved (c.pushAll ts) n) = .ok (e, s.moved c n') := by
  obtain ⟨e, n', mirrors, run, coerced⟩ := integer_words values declared closes n
  exact ⟨e, n', mirrors, (bind_of_ok run).trans coerced⟩

theorem counter_push (span : Span) (declared : s.scopes.Assigns name)
    (follows : ¬ Selects c.current.value) (n : Nat) : ∃ e n', (Formula.var name).Mirrors s.scopes e ∧
      counter (s.moved (c.push ⟨.name name, span⟩) n) = .ok (e, s.moved c n') := by
  obtain ⟨symbol, found, assignable, type⟩ := declared
  refine ⟨.var ⟨n, span, symbol.type⟩ symbol, n + 1, .var found type, ?_⟩
  have target : Parser.assignable expression (s.moved (c.push ⟨.name name, span⟩) n) =
      .ok ((⟨name, span⟩, .var ⟨n, span, symbol.type⟩ symbol), s.moved c (n + 1)) := by
    rw [Parser.assignable, bind_of_ok identifier_push, bind_of_ok (lookup_run found),
      if_pos assignable]
    have made : variableNode span symbol (s.moved c n) =
        .ok (.var ⟨n, span, symbol.type⟩ symbol, s.moved c (n + 1)) := rfl
    rw [bind_of_ok made, bind_of_ok (selectors_run follows)]
    rfl
  rw [counter, bind_of_ok target]
  dsimp only
  rw [type]
  rfl

theorem direction_push (way : Direction) :
    direction (s.moved (c.push ⟨.keyword way.keyword, span⟩) n) = .ok (way, s.moved c n) := by
  have bumped := @bump_push s c ⟨.keyword way.keyword, span⟩ n rfl
  rw [direction, bind_of_ok token_push]
  cases way <;> exact bind_of_ok bumped

theorem assignment_words (declared : s.scopes.Assigns name)
    (values : ts.map Located.value = f.words 3)
    (names : ∀ name ∈ f.names, s.scopes.Assigns name) (closes : Closes c.current.value)
    (span sign : Span) (n : Nat) : ∃ info v e n', (Formula.var name).Mirrors s.scopes v ∧
      f.Mirrors s.scopes e ∧
      namedStatement (s.moved (((c.pushAll ts).push ⟨.mark .assign, sign⟩).push
        ⟨.name name, span⟩) n) = .ok (.assign info v e, s.moved c n') := by
  obtain ⟨symbol, found, assignable, type⟩ := declared
  obtain ⟨e, n', mirrors, run, coerced⟩ := integer_words values names closes (n + 1)
  refine ⟨⟨n', span.join sign, .nil⟩, .var ⟨n, span, symbol.type⟩ symbol, e, n' + 1,
    .var found type, mirrors, ?_⟩
  rw [namedStatement, bind_of_ok identifier_push, bind_of_ok (lookup_run found)]
  have made : variableNode span symbol (s.moved ((c.pushAll ts).push ⟨.mark .assign, sign⟩) n) =
      .ok (.var ⟨n, span, symbol.type⟩ symbol,
        s.moved ((c.pushAll ts).push ⟨.mark .assign, sign⟩) (n + 1)) := rfl
  have selected : ¬ Selects (Token.mark .assign) := by simp [Selects]
  have assigned : assignment (.var ⟨n, span, symbol.type⟩ symbol)
      (s.moved ((c.pushAll ts).push ⟨.mark .assign, sign⟩) (n + 1)) =
        .ok (.assign ⟨n', span.join sign, .nil⟩ (.var ⟨n, span, symbol.type⟩ symbol) e,
          s.moved c (n' + 1)) := by
    have target : (Expr.var ⟨n, span, symbol.type⟩ symbol).type = .integer := type
    rw [assignment, bind_of_ok expect_push, bind_of_ok run, target, bind_of_ok coerced]
    rfl
  have whole : (variableNode span symbol >>= fun target =>
      selectors expression target >>= assignment)
        (s.moved ((c.pushAll ts).push ⟨.mark .assign, sign⟩) n) =
      .ok (.assign ⟨n', span.join sign, .nil⟩ (.var ⟨n, span, symbol.type⟩ symbol) e,
          s.moved c (n' + 1)) := by
    rw [bind_of_ok made, bind_of_ok (selectors_run selected), assigned]
  rw [bind_of_ok atMark_push, if_pos assignable]
  cases role : symbol.role with
  | typeName | function | constant => simp [Symbol.isAssignable, Symbol.kind, role] at assignable
  | «variable» | parameter => exact whole

end Expressions

end Parser

namespace Sentence

open PascalX86.Parser

variable {σ : Scopes} {inside : Bool} {x y z : Sentence} {t : Token}

/-- What reading a sentence answers. An empty one leaves nothing behind. -/
inductive Answers (σ : Scopes) : Sentence → Option Stmt → Prop where
  | nothing : Answers σ .empty none
  | tree {x : Sentence} {t : Stmt} (present : x.isEmpty = false) (mirrors : x.Mirrors σ t) :
      Answers σ x (some t)

/-- Tokens that end a sentence; an `else` goes to an `if` that is still open. -/
def Ends (x : Sentence) (t : Token) : Prop :=
  t = .mark .semicolon ∨ t = .keyword .end ∨ t = .keyword .else ∧ x.isOpen = false

theorem Ends.closes (h : x.Ends t) : Closes t := by
  rcases h with rfl | rfl | ⟨rfl, -⟩
  · exact ⟨rfl, by simp [Selects]⟩
  · exact closes_keyword rfl
  · exact closes_keyword rfl

/-- An `else` after an `if` without one would have been taken for it. -/
theorem Ends.of_open (h : x.Ends t) (isOpen : x.isOpen = true) :
    t.isKeyword .else = false ∧ ∀ y : Sentence, y.Ends t := by
  rcases h with rfl | rfl | ⟨-, closed⟩
  · exact ⟨rfl, fun _ => .inl rfl⟩
  · exact ⟨rfl, fun _ => .inr (.inl rfl)⟩
  · simp [isOpen] at closed

theorem Ends.of_isOpen (h : x.Ends t) (same : y.isOpen = x.isOpen) : y.Ends t := by
  rw [Ends, same]
  exact h

/-- The tokens of the sentence are read as the sentence wherever they stand. Each sentence inside
another one takes one from the depth and at least one from the tokens. -/
def IsRead (inside : Bool) (x : Sentence) : Prop :=
  ∀ {s : ParserState} {c : Cursor} {k : Nat} {ts : List (Located Token)} (n : Nat),
    ts.map Located.value = x.words → (∀ name ∈ x.names, s.scopes.Assigns name) →
    (inside = true → s.loops ≠ 0) → x.Ends c.current.value → ts.length < k →
      ∃ r n', Answers s.scopes x r ∧
        statement k (s.moved (c.pushAll ts) n) = .ok (r, s.moved c n')

section Bodies

variable {s : ParserState} {c : Cursor} {k : Nat} {ts : List (Located Token)}

theorem IsRead.body (h : IsRead inside x) (n : Nat) (values : ts.map Located.value = x.words)
    (declared : ∀ name ∈ x.names, s.scopes.Assigns name) (loops : inside = true → s.loops ≠ 0)
    (ends : x.Ends c.current.value) (enough : ts.length < k) : ∃ t n', x.Mirrors s.scopes t ∧
      bodyOver (statement k) (s.moved (c.pushAll ts) n) = .ok (t, s.moved c n') := by
  obtain ⟨r, n', answers, run⟩ := h n values declared loops ends enough
  have here : here (s.moved (c.pushAll ts) n) =
      .ok ((c.pushAll ts).current.span, s.moved (c.pushAll ts) n) := rfl
  cases answers with
  | nothing =>
      refine ⟨.block ⟨n', (c.pushAll ts).current.span, .nil⟩ [], n' + 1, .empty, ?_⟩
      rw [bodyOver, bind_of_ok here, bind_of_ok run]
      rfl
  | @tree _ t present mirrors =>
      refine ⟨t, n', mirrors, ?_⟩
      rw [bodyOver, bind_of_ok here, bind_of_ok run]
      rfl

theorem IsRead.loopBody (h : IsRead true x) (n : Nat) (values : ts.map Located.value = x.words)
    (declared : ∀ name ∈ x.names, s.scopes.Assigns name) (ends : x.Ends c.current.value)
    (enough : ts.length < k) : ∃ t n', x.Mirrors s.scopes t ∧
      loopBodyOver (statement k) (s.moved (c.pushAll ts) n) = .ok (t, s.moved c n') := by
  let inner : ParserState := { s with loops := s.loops + 1 }
  obtain ⟨t, n', mirrors, run⟩ :=
    h.body (s := inner) n values declared (fun _ => Nat.succ_ne_zero _) ends enough
  refine ⟨t, n', mirrors, ?_⟩
  have entered : (modify fun s => { s with loops := s.loops + 1 } : Parser Unit)
      (s.moved (c.pushAll ts) n) = .ok ((), inner.moved (c.pushAll ts) n) := rfl
  rw [loopBodyOver, bind_of_ok entered, bind_of_ok run]
  rfl

end Bodies

theorem isRead_empty : IsRead inside .empty := by
  intro s c k ts n values _ _ ends enough
  obtain rfl : ts = [] := List.map_eq_nil_iff.mp values
  obtain ⟨k, rfl⟩ := Nat.exists_eq_add_of_le' enough
  refine ⟨none, n, .nothing, ?_⟩
  have ahead : token (s.moved c n) = .ok (c.current.value, s.moved c n) := rfl
  show statementOver (statement k) (s.moved c n) = _
  rw [statementOver, bind_of_ok ahead]
  rcases ends with value | value | ⟨value, -⟩ <;> rw [value] <;> rfl

theorem isRead_assign (target : Name) (value : Formula) : IsRead inside (.assign target value) := by
  intro s c k ts n values declared _ ends enough
  obtain ⟨⟨_, span⟩, rest, rfl, rfl, rest_values⟩ := List.map_eq_cons_iff.mp values
  obtain ⟨⟨_, sign⟩, ts, rfl, rfl, later⟩ := List.map_eq_cons_iff.mp rest_values
  obtain ⟨k, rfl⟩ := Nat.exists_eq_add_of_le' (Nat.zero_lt_of_lt enough)
  simp only [names, List.forall_mem_cons] at declared
  obtain ⟨info, v, e, n', name, tree, run⟩ :=
    assignment_words declared.1 later declared.2 ends.closes span sign n
  refine ⟨some (.assign info v e), n', .tree rfl (.assign name tree), ?_⟩
  rw [Cursor.pushAll_cons, Cursor.pushAll_cons, statement, statementOver, bind_of_ok token_push]
  exact map_of_ok run

theorem isRead_ifThen (test : Formula) (first : IsRead inside x) :
    IsRead inside (.ifThen test x) := by
  intro s c k ts n values declared loops ends enough
  obtain ⟨⟨_, span⟩, ts, rfl, rfl, values₁⟩ := List.map_eq_cons_iff.mp values
  obtain ⟨us, ts, rfl, formula, values₂⟩ := List.map_eq_append_iff.mp values₁
  obtain ⟨⟨_, link⟩, vs, rfl, rfl, last⟩ := List.map_eq_cons_iff.mp values₂
  obtain ⟨k, rfl⟩ := Nat.exists_eq_add_of_le' (Nat.zero_lt_of_lt enough)
  simp only [names, List.forall_mem_append] at declared
  simp only [List.length_cons, List.length_append] at enough
  obtain ⟨e, n₁, condition, tested⟩ := condition_words (s := s)
    (c := (c.pushAll vs).push ⟨.keyword .then, link⟩) formula declared.1 (closes_keyword rfl) n
  obtain ⟨closed, stops⟩ := ends.of_open rfl
  have small : vs.length < k := by omega
  obtain ⟨t, n₂, mirrors, run⟩ := first.body n₁ last declared.2 loops (stops x) small
  refine ⟨some (.ifThen ⟨n₂, span, .nil⟩ e t), n₂ + 1, .tree rfl (.ifThen condition mirrors), ?_⟩
  rw [Cursor.pushAll_cons, Cursor.pushAll_append, Cursor.pushAll_cons, statement, statementOver,
    bind_of_ok token_push]
  refine map_of_ok ?_
  rw [ifOver, bind_of_ok keyword_push, bind_of_ok tested, bind_of_ok keyword_push, bind_of_ok run,
    bind_of_ok (eatKeyword_of_not closed)]
  rfl

theorem isRead_ifElse (test : Formula) (first : IsRead inside x) (second : IsRead inside y)
    (closed : x.isOpen = false) : IsRead inside (.ifElse test x y) := by
  intro s c k ts n values declared loops ends enough
  obtain ⟨⟨_, span⟩, ts, rfl, rfl, values₁⟩ := List.map_eq_cons_iff.mp values
  obtain ⟨us, ts, rfl, formula, values₂⟩ := List.map_eq_append_iff.mp values₁
  obtain ⟨⟨_, link⟩, ts, rfl, rfl, values₃⟩ := List.map_eq_cons_iff.mp values₂
  obtain ⟨vs, ts, rfl, middle, values₄⟩ := List.map_eq_append_iff.mp values₃
  obtain ⟨⟨_, other⟩, ws, rfl, rfl, last⟩ := List.map_eq_cons_iff.mp values₄
  obtain ⟨k, rfl⟩ := Nat.exists_eq_add_of_le' (Nat.zero_lt_of_lt enough)
  simp only [names, List.forall_mem_append] at declared
  simp only [List.length_cons, List.length_append] at enough
  have smallv : vs.length < k := by omega
  have smallw : ws.length < k := by omega
  let rest := (c.pushAll ws).push ⟨.keyword .else, other⟩
  obtain ⟨e, n₁, condition, tested⟩ := condition_words (s := s)
    (c := (rest.pushAll vs).push ⟨.keyword .then, link⟩) formula declared.1 (closes_keyword rfl) n
  obtain ⟨t, n₂, mirrors, run⟩ :=
    first.body (c := rest) n₁ middle declared.2.1 loops (.inr (.inr ⟨rfl, closed⟩)) smallv
  obtain ⟨u, n₃, mirrors', run'⟩ :=
    second.body n₂ last declared.2.2 loops (ends.of_isOpen rfl) smallw
  refine ⟨some (.ifElse ⟨n₃, span, .nil⟩ e t u), n₃ + 1,
    .tree rfl (.ifElse condition mirrors mirrors'), ?_⟩
  rw [Cursor.pushAll_cons, Cursor.pushAll_append, Cursor.pushAll_cons, Cursor.pushAll_append,
    Cursor.pushAll_cons, statement, statementOver, bind_of_ok token_push]
  refine map_of_ok ?_
  rw [ifOver, bind_of_ok keyword_push, bind_of_ok tested, bind_of_ok keyword_push, bind_of_ok run,
    bind_of_ok eatKeyword_push, if_pos rfl, bind_of_ok run']
  rfl

theorem isRead_while (test : Formula) (turn : IsRead true x) : IsRead inside (.while test x) := by
  intro s c k ts n values declared _ ends enough
  obtain ⟨⟨_, span⟩, ts, rfl, rfl, values₁⟩ := List.map_eq_cons_iff.mp values
  obtain ⟨us, ts, rfl, formula, values₂⟩ := List.map_eq_append_iff.mp values₁
  obtain ⟨⟨_, link⟩, vs, rfl, rfl, last⟩ := List.map_eq_cons_iff.mp values₂
  obtain ⟨k, rfl⟩ := Nat.exists_eq_add_of_le' (Nat.zero_lt_of_lt enough)
  simp only [names, List.forall_mem_append] at declared
  simp only [List.length_cons, List.length_append] at enough
  have small : vs.length < k := by omega
  obtain ⟨e, n₁, condition, tested⟩ := condition_words (s := s)
    (c := (c.pushAll vs).push ⟨.keyword .do, link⟩) formula declared.1 (closes_keyword rfl) n
  obtain ⟨t, n₂, mirrors, run⟩ := turn.loopBody n₁ last declared.2 (ends.of_isOpen rfl) small
  refine ⟨some (.while ⟨n₂, span, .nil⟩ e t), n₂ + 1, .tree rfl (.while condition mirrors), ?_⟩
  rw [Cursor.pushAll_cons, Cursor.pushAll_append, Cursor.pushAll_cons, statement, statementOver,
    bind_of_ok token_push]
  refine map_of_ok ?_
  rw [whileOver, bind_of_ok keyword_push, bind_of_ok tested, bind_of_ok keyword_push,
    bind_of_ok run]
  rfl

theorem isRead_for (counter : Name) (first : Formula) (way : Direction) (last : Formula)
    (turn : IsRead true x) : IsRead inside (.for counter first way last x) := by
  intro s c k ts n values declared _ ends enough
  obtain ⟨⟨_, span⟩, ts, rfl, rfl, values₁⟩ := List.map_eq_cons_iff.mp values
  obtain ⟨⟨_, name⟩, ts, rfl, rfl, values₂⟩ := List.map_eq_cons_iff.mp values₁
  obtain ⟨⟨_, sign⟩, ts, rfl, rfl, values₃⟩ := List.map_eq_cons_iff.mp values₂
  obtain ⟨us, ts, rfl, start, values₄⟩ := List.map_eq_append_iff.mp values₃
  obtain ⟨⟨_, turning⟩, ts, rfl, rfl, values₅⟩ := List.map_eq_cons_iff.mp values₄
  obtain ⟨vs, ts, rfl, stop, values₆⟩ := List.map_eq_append_iff.mp values₅
  obtain ⟨⟨_, link⟩, ws, rfl, rfl, inner⟩ := List.map_eq_cons_iff.mp values₆
  obtain ⟨k, rfl⟩ := Nat.exists_eq_add_of_le' (Nat.zero_lt_of_lt enough)
  simp only [names, List.forall_mem_cons, List.forall_mem_append] at declared
  simp only [List.length_cons, List.length_append] at enough
  have small : ws.length < k := by omega
  let body := (c.pushAll ws).push ⟨.keyword .do, link⟩
  let limit := (body.pushAll vs).push ⟨.keyword way.keyword, turning⟩
  have ahead : Closes (.keyword way.keyword) := by cases way <;> exact closes_keyword rfl
  obtain ⟨v, n₁, named, counted⟩ := counter_push name (s := s)
    (c := (limit.pushAll us).push ⟨.mark .assign, sign⟩) declared.1 (by simp [Selects]) n
  obtain ⟨e, n₂, mirrors, run, coerced⟩ := integer_words (c := limit) start declared.2.1 ahead n₁
  obtain ⟨e', n₃, mirrors', run', coerced'⟩ :=
    integer_words (c := body) stop declared.2.2.1 (closes_keyword rfl) n₂
  obtain ⟨t, n₄, tree, turned⟩ :=
    turn.loopBody n₃ inner declared.2.2.2 (ends.of_isOpen rfl) small
  refine ⟨some (.for ⟨n₄, span, .nil⟩ v e e' way t), n₄ + 1,
    .tree rfl (.for named mirrors mirrors' tree), ?_⟩
  rw [Cursor.pushAll_cons, Cursor.pushAll_cons, Cursor.pushAll_cons, Cursor.pushAll_append,
    Cursor.pushAll_cons, Cursor.pushAll_append, Cursor.pushAll_cons, statement, statementOver,
    bind_of_ok token_push]
  refine map_of_ok ?_
  rw [forOver, bind_of_ok keyword_push, bind_of_ok counted, bind_of_ok expect_push, bind_of_ok run,
    named.type, bind_of_ok coerced, bind_of_ok (direction_push way), bind_of_ok run',
    bind_of_ok coerced', bind_of_ok keyword_push, bind_of_ok turned]
  rfl

theorem jump_push {s : ParserState} {c : Cursor} {k : Keyword} {span : Span} (n : Nat)
    (loops : s.loops ≠ 0) : Parser.jump k (s.moved (c.push ⟨.keyword k, span⟩) n) =
      .ok (span, s.moved c n) := by
  have looked : (get : Parser ParserState) (s.moved c n) = .ok (s.moved c n, s.moved c n) := rfl
  rw [Parser.jump, bind_of_ok (bump_push rfl), bind_of_ok looked]
  exact congrFun (if_neg loops) _

theorem isRead_continue : IsRead true .continue := by
  intro s c k ts n values _ loops _ enough
  obtain ⟨⟨_, span⟩, rfl, rfl⟩ := List.map_eq_singleton_iff.mp values
  obtain ⟨k, rfl⟩ := Nat.exists_eq_add_of_le' (Nat.zero_lt_of_lt enough)
  refine ⟨some (.continue ⟨n, span, .nil⟩), n + 1, .tree rfl .continue, ?_⟩
  rw [Cursor.pushAll_cons, statement, statementOver, bind_of_ok token_push]
  exact bind_of_ok (jump_push n (loops rfl))

theorem isRead_break : IsRead true .break := by
  intro s c k ts n values _ loops _ enough
  obtain ⟨⟨_, span⟩, rfl, rfl⟩ := List.map_eq_singleton_iff.mp values
  obtain ⟨k, rfl⟩ := Nat.exists_eq_add_of_le' (Nat.zero_lt_of_lt enough)
  refine ⟨some (.break ⟨n, span, .nil⟩), n + 1, .tree rfl .break, ?_⟩
  rw [Cursor.pushAll_cons, statement, statementOver, bind_of_ok token_push]
  exact bind_of_ok (jump_push n (loops rfl))

section Compounds

variable {s : ParserState} {c : Cursor} {k : Nat} {ts : List (Located Token)}
  {rest xs : List Sentence}

theorem Answers.mirrors {rs : List (Option Stmt)} (h : List.Forall₂ (Answers σ) xs rs) :
    List.Forall₂ (Mirrors σ) (xs.filter fun x => !x.isEmpty) (rs.filterMap id) := by
  induction h with
  | nil => exact .nil
  | cons head _ ih =>
      cases head with
      | nothing => exact ih
      | @tree x t present mirrors =>
          rw [List.filter_cons_of_pos (by simp [present])]
          exact .cons mirrors ih

theorem length_le_followers (rest : List Sentence) : rest.length ≤ (followers rest).length := by
  induction rest with
  | nil => simp
  | cons x rest ih =>
      simp only [followers, List.length_cons, List.length_append]
      omega

theorem ends_followers (values : ts.map Located.value = followers rest)
    (ends : c.current.value = .keyword .end) (x : Sentence) :
    x.Ends (c.pushAll ts).current.value := by
  cases rest with
  | nil =>
      obtain rfl : ts = [] := List.map_eq_nil_iff.mp values
      exact .inr (.inl ends)
  | cons y rest =>
      obtain ⟨t, ts, rfl, value, -⟩ := List.map_eq_cons_iff.mp values
      exact .inl value

/-- One more sentence, if a semicolon announces it. -/
def another (k : Nat) : Parser (Option (Option Stmt)) := do
  if ← eat .semicolon then
    return some (← statement k)
  else
    return none

theorem read_followers (each : ∀ x ∈ rest, IsRead inside x)
    (values : ts.map Located.value = followers rest)
    (declared : ∀ name ∈ namesOf rest, s.scopes.Assigns name)
    (loops : inside = true → s.loops ≠ 0) (ends : c.current.value = .keyword .end)
    (enough : ts.length < k) {m : Nat} (turns : rest.length ≤ m) (n : Nat) :
    ∃ rs n', List.Forall₂ (Answers s.scopes) rest rs ∧
      manyUpTo (another k) m (s.moved (c.pushAll ts) n) = .ok (rs, s.moved c n') := by
  induction rest generalizing ts m n with
  | nil =>
      obtain rfl : ts = [] := List.map_eq_nil_iff.mp values
      refine ⟨[], n, .nil, ?_⟩
      have absent : c.current.value.isMark .semicolon = false := by
        rw [ends]
        rfl
      have stops : another k (s.moved c n) = .ok (none, s.moved c n) :=
        bind_of_ok (eat_of_not absent)
      cases m with
      | zero => rfl
      | succ m => exact bind_of_ok stops
  | cons x rest ih =>
      obtain ⟨⟨_, span⟩, ts, rfl, rfl, values₁⟩ := List.map_eq_cons_iff.mp values
      obtain ⟨us, vs, rfl, own, others⟩ := List.map_eq_append_iff.mp values₁
      obtain ⟨m, rfl⟩ := Nat.exists_eq_add_of_le' (Nat.le_trans (Nat.le_add_left 1 _) turns)
      simp only [namesOf, List.forall_mem_append] at declared
      simp only [List.length_cons, List.length_append] at enough turns
      have smallu : us.length < k := by omega
      have smallv : vs.length < k := by omega
      rw [List.forall_mem_cons] at each
      obtain ⟨r, n₁, answer, run⟩ := each.1 (c := c.pushAll vs) n own declared.1 loops
        (ends_followers others ends x) smallu
      obtain ⟨rs, n₂, answers, runs⟩ :=
        ih each.2 others declared.2 smallv (Nat.le_of_succ_le_succ turns) n₁
      refine ⟨r :: rs, n₂, .cons answer answers, ?_⟩
      have next : another k (s.moved (((c.pushAll vs).pushAll us).push ⟨.mark .semicolon, span⟩) n) =
          .ok (some r, s.moved (c.pushAll vs) n₁) := by
        rw [another, bind_of_ok eat_push]
        exact bind_of_ok run
      rw [Cursor.pushAll_cons, Cursor.pushAll_append, manyUpTo, bind_of_ok next]
      exact bind_of_ok runs

theorem read_compound (each : ∀ x ∈ xs, IsRead inside x)
    (values : ts.map Located.value = (Sentence.compound xs).words)
    (declared : ∀ name ∈ namesOf xs, s.scopes.Assigns name) (loops : inside = true → s.loops ≠ 0)
    (enough : ts.length ≤ k + 1) (n : Nat) :
    ∃ span trees n', List.Forall₂ (Mirrors s.scopes) (xs.filter fun x => !x.isEmpty) trees ∧
      compoundOver (statement k) (s.moved (c.pushAll ts) n) =
        .ok ((span, trees), s.moved c n') := by
  -- Nothing between `begin` and `end` is read as one empty sentence.
  have general (x : Sentence) (rest : List Sentence) (each : ∀ y ∈ x :: rest, IsRead inside y)
      (values : ts.map Located.value =
        .keyword .begin :: (x.words ++ (followers rest ++ [.keyword .end])))
      (declared : ∀ name ∈ namesOf (x :: rest), s.scopes.Assigns name) :
      ∃ span trees n',
        List.Forall₂ (Mirrors s.scopes) ((x :: rest).filter fun x => !x.isEmpty) trees ∧
        compoundOver (statement k) (s.moved (c.pushAll ts) n) =
          .ok ((span, trees), s.moved c n') := by
    obtain ⟨⟨_, opening⟩, ts, rfl, rfl, values₁⟩ := List.map_eq_cons_iff.mp values
    obtain ⟨us, ts, rfl, own, values₂⟩ := List.map_eq_append_iff.mp values₁
    obtain ⟨vs, ts, rfl, others, values₃⟩ := List.map_eq_append_iff.mp values₂
    obtain ⟨⟨_, closing⟩, rfl, rfl⟩ := List.map_eq_singleton_iff.mp values₃
    simp only [namesOf, List.forall_mem_append] at declared
    simp only [List.length_cons, List.length_append, List.length_nil] at enough
    have smallu : us.length < k := by omega
    have smallv : vs.length < k := by omega
    rw [List.forall_mem_cons] at each
    let last := c.push ⟨.keyword .end, closing⟩
    obtain ⟨r, n₁, answer, run⟩ := each.1 (c := last.pushAll vs) n own declared.1 loops
      (ends_followers others rfl x) smallu
    have turns : rest.length ≤ (last.pushAll vs).remaining := by
      have le := length_le_followers rest
      rw [← others, List.length_map] at le
      rw [Cursor.remaining_pushAll]
      omega
    obtain ⟨rs, n₂, answers, runs⟩ :=
      read_followers (c := last) each.2 others declared.2 loops rfl smallv turns n₁
    refine ⟨opening, (r :: rs).filterMap id, n₂, Answers.mirrors (.cons answer answers), ?_⟩
    have separated : separatedBy .semicolon (statement k)
        (s.moved ((last.pushAll vs).pushAll us) n) = .ok (r :: rs, s.moved last n₂) := by
      rw [separatedBy, bind_of_ok run]
      exact bind_of_ok runs
    rw [Cursor.pushAll_cons, Cursor.pushAll_append, Cursor.pushAll_append, Cursor.pushAll_cons,
      compoundOver, bind_of_ok keyword_push]
    exact (bind_of_ok separated).trans (bind_of_ok keyword_push)
  cases xs with
  | nil => exact general .empty [] (List.forall_mem_singleton.mpr isRead_empty) values declared
  | cons x rest => exact general x rest each values declared

theorem current_compound (values : ts.map Located.value = (Sentence.compound xs).words) :
    (c.pushAll ts).current.value = .keyword .begin := by
  cases xs <;> obtain ⟨t, ts, rfl, value, -⟩ := List.map_eq_cons_iff.mp values <;> exact value

theorem isRead_compound (each : ∀ x ∈ xs, IsRead inside x) : IsRead inside (.compound xs) := by
  intro s c k ts n values declared loops _ enough
  obtain ⟨k, rfl⟩ := Nat.exists_eq_add_of_le' (Nat.zero_lt_of_lt enough)
  obtain ⟨span, trees, n', mirrors, run⟩ :=
    read_compound (c := c) each values declared loops (Nat.le_of_lt enough) n
  refine ⟨some (.block ⟨n', span, .nil⟩ trees), n' + 1, .tree rfl (.compound mirrors), ?_⟩
  have begins : token (s.moved (c.pushAll ts) n) =
      .ok (.keyword .begin, s.moved (c.pushAll ts) n) :=
    congrArg (fun word => Except.ok (word, _)) (current_compound values)
  rw [statement, statementOver, bind_of_ok begins]
  exact bind_of_ok run

end Compounds

/-- Every formed sentence is read as it was written. -/
theorem Formed.isRead (h : Formed inside x) : IsRead inside x := by
  induction h with
  | empty => exact isRead_empty
  | assign target value => exact isRead_assign target value
  | ifThen test _ first => exact isRead_ifThen test first
  | ifElse test _ _ closed first second => exact isRead_ifElse test first second closed
  | «while» test _ turn => exact isRead_while test turn
  | «for» counter first way last _ turn => exact isRead_for counter first way last turn
  | «continue» => exact isRead_continue
  | «break» => exact isRead_break
  | compound _ each => exact isRead_compound each

end Sentence

end PascalX86
