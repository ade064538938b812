import PascalX86.Proofs.Phrase.Basic

/-!
# Phrases are read as they are meant

Parsing the tokens of a phrase does what the phrase says, whether that succeeds or fails. Each level
goes on for as long as it meets an operator of its own, so what has to be shown is where it stops.
-/

set_option autoImplicit false

namespace PascalX86

namespace Cursor

theorem length_of_nothing : 0 = ([] : List Scanned).length := rfl

/-- The cursor on the end of a text. -/
def atEnd (span : Span) : Cursor := ⟨⟨.endOfFile, span⟩, [], 0, length_of_nothing⟩

/-- The cursor before a token that is read in front of what is to come. -/
def push (t : Located Token) (c : Cursor) : Cursor :=
  ⟨t, .ok c.current :: c.coming, c.remaining + 1, by simp [c.remaining_eq]⟩

def pushAll (ts : List (Located Token)) (c : Cursor) : Cursor := ts.foldr push c

variable {t : Located Token} {ts us : List (Located Token)} {c : Cursor}

@[simp] theorem current_push : (c.push t).current = t := rfl

@[simp] theorem remaining_push : (c.push t).remaining = c.remaining + 1 := rfl

@[simp] theorem pushAll_nil : c.pushAll [] = c := rfl

@[simp] theorem pushAll_cons : c.pushAll (t :: ts) = (c.pushAll ts).push t := rfl

@[simp] theorem pushAll_append : c.pushAll (ts ++ us) = (c.pushAll us).pushAll ts := by
  simp [pushAll]

@[simp] theorem remaining_pushAll : (c.pushAll ts).remaining = c.remaining + ts.length := by
  induction ts with
  | nil => rfl
  | cons t ts ih => simp [ih, Nat.add_assoc]

/-- The items from the cursor on. -/
def items (c : Cursor) : List Scanned := .ok c.current :: c.coming

theorem items_pushAll : (c.pushAll ts).items = ts.map .ok ++ c.items := by
  induction ts with
  | nil => rfl
  | cons t ts ih =>
      rw [pushAll_cons, List.map_cons, List.cons_append, ← ih]
      rfl

theorem ofItems_items (c : Cursor) : ofItems c.items = .ok c := by
  obtain ⟨current, coming, remaining, rfl⟩ := c
  rfl

theorem advance_push (h : t.value.isEndOfFile = false) :
    (c.push t).advance = (.ok !c.current.value.isEndOfFile, c) := by
  simp only [advance, h, push]
  rfl

end Cursor

namespace Parser

variable {α β : Type} {s : ParserState} {c c' : Cursor} {t : Located Token} {n : Nat}

section Runs

variable {p q : Parser α} {f g : α → Parser β} {st st' : ParserState} {a : α}

theorem bind_run (p : Parser α) (f : α → Parser β) (st : ParserState) :
    (p >>= f) st = (p st).bind fun answer => f answer.1 answer.2 := rfl

theorem bind_of_ok (h : p st = .ok (a, st')) : (p >>= f) st = f a st' := by
  rw [bind_run, h]
  rfl

theorem bind_of_error {e : CompileError} (h : p st = .error e) : (p >>= f) st = .error e := by
  rw [bind_run, h]
  rfl

theorem map_of_ok {f : α → β} (h : p st = .ok (a, st')) : (f <$> p) st = .ok (f a, st') := by
  show (p st >>= fun answer => pure (f answer.1, answer.2)) = _
  rw [h]
  rfl

theorem bind_congr_run (h : p st = q st') : (p >>= f) st = (q >>= f) st' := by
  rw [bind_run, bind_run, h]

theorem token_push : token (s.moved (c.push t) n) = .ok (t.value, s.moved (c.push t) n) := rfl

theorem bump_push (h : t.value.isEndOfFile = false) :
    bump (s.moved (c.push t) n) = .ok (t, s.moved c n) := by
  have advanced : (s.moved (c.push t) n).cursor.advance = (.ok !c.current.value.isEndOfFile, c) :=
    Cursor.advance_push h
  rw [bump, bind_of_ok rfl, advanced]
  rfl

theorem atMark_push {m : Mark} {span : Span} :
    atMark m (s.moved (c.push ⟨.mark m, span⟩) n) =
      .ok (true, s.moved (c.push ⟨.mark m, span⟩) n) := by
  show Except.ok ((Token.mark m).isMark m, _) = _
  simp [Token.isMark]

theorem expect_push {m : Mark} {span : Span} :
    expect m (s.moved (c.push ⟨.mark m, span⟩) n) = .ok (span, s.moved c n) := by
  rw [expect, bind_of_ok atMark_push, if_pos rfl, bind_of_ok (bump_push rfl)]
  rfl

theorem iterateUpTo_of_none {step : α → Parser (Option α)} (stops : step a st = .ok (none, st))
    (k : Nat) : iterateUpTo step k a st = .ok (a, st) := by
  cases k with
  | zero => rfl
  | succ k => exact bind_of_ok stops

theorem iterate_of_none {step : α → Parser (Option α)} (stops : step a st = .ok (none, st)) :
    iterate step a st = .ok (a, st) :=
  iterateUpTo_of_none stops _

theorem identifier_push {name : Name} {span : Span} :
    identifier (s.moved (c.push ⟨.name name, span⟩) n) = .ok (⟨name, span⟩, s.moved c n) := by
  rw [identifier, bind_of_ok token_push]
  exact bind_of_ok (@bump_push s c ⟨.name name, span⟩ n rfl)

theorem lookup_run {name : Located Name} {symbol : Symbol}
    (found : s.scopes.lookup? name.value = some symbol) :
    lookup name (s.moved c n) = .ok (symbol, s.moved c n) := by
  have looked : s.scopes.lookup name.value = .ok symbol := by simp [Scopes.lookup, found]
  show locate name.span (s.scopes.lookup name.value) _ = _
  rw [looked]
  rfl

end Runs

/-- The parser neither looks at the text nor moves in it, and changes nothing but the number of the
next node. -/
def Still (s : ParserState) (p : Parser α) : Prop :=
  ∃ r : Nat → Except CompileError (α × Nat), ∀ c n,
    p (s.moved c n) = (r n).map fun answer => (answer.1, s.moved c answer.2)

section Still

variable {p : Parser α} {f g : α → Parser β}

/-- A still parser may as well run further on in the text. -/
theorem Still.bind_run (h : Still s p) (next : ∀ a n, f a (s.moved c n) = g a (s.moved c' n)) :
    (p >>= f) (s.moved c n) = (p >>= g) (s.moved c' n) := by
  obtain ⟨r, run⟩ := h
  rw [Parser.bind_run, Parser.bind_run, run, run]
  cases r n with
  | error e => rfl
  | ok answer => exact next answer.1 answer.2

theorem Still.pure (a : α) : Still s (pure a : Parser α) := ⟨fun n => .ok (a, n), fun _ _ => rfl⟩

theorem Still.bind (h : Still s p) (next : ∀ a, Still s (f a)) : Still s (p >>= f) := by
  obtain ⟨r, run⟩ := h
  refine ⟨fun n => (r n).bind fun answer => (next answer.1).choose answer.2, fun c n => ?_⟩
  rw [Parser.bind_run, run]
  dsimp only
  cases r n with
  | error e => rfl
  | ok answer => exact (next answer.1).choose_spec c answer.2

theorem Still.fail (e : SemanticError) (span : Span) : Still s (fail e span : Parser α) :=
  ⟨fun _ => .error (.semantic ⟨e, span⟩), fun _ _ => rfl⟩

theorem Still.locate (span : Span) (answer : Except SemanticError α) :
    Still s (locate span answer) := by
  cases answer with
  | ok a => exact .pure a
  | error e => exact .fail e span

theorem still_node (span : Span) (type : Ty) : Still s (node span type) :=
  ⟨fun n => .ok (⟨n, span, type⟩, n + 1), fun _ _ => rfl⟩

theorem Still.ite {P : Prop} [Decidable P] {p q : Parser α} (hp : Still s p) (hq : Still s q) :
    Still s (if P then p else q) := by
  split
  · exact hp
  · exact hq

theorem still_convert (e : Expr) (target : Ty) : Still s (convert e target) := by
  refine .ite (.pure e) ((still_node _ _).bind fun info => ?_)
  split
  · exact .pure _
  · exact .pure _

theorem still_plus (sign : Span) (e : Expr) : Still s (plus sign e) :=
  .ite (still_convert _ _) (.fail _ _)

theorem still_minus (sign : Span) (e : Expr) : Still s (minus sign e) := by
  refine (still_plus sign e).bind fun operand => ?_
  dsimp only
  split
  · exact (still_node _ _).bind fun _ => .pure _
  · exact (still_node _ _).bind fun _ => .pure _

theorem still_complement (sign : Span) (e : Expr) : Still s (complement sign e) := by
  refine (still_plus sign e).bind fun operand => ?_
  dsimp only
  split
  · exact (still_node _ _).bind fun _ => .pure _
  · exact (still_node _ _).bind fun _ => .pure _

theorem still_operation (op : Operator) (sign : Span) (left right : Expr) :
    Still s (operation op sign left right) := by
  refine (Still.locate _ _).bind fun typing => ?_
  dsimp only
  split
  · exact (Still.locate _ _).bind fun _ => (still_node _ _).bind fun _ => .pure _
  · refine (still_convert _ _).bind fun _ => (still_convert _ _).bind fun _ => ?_
    exact (still_node _ _).bind fun _ => .pure _

theorem still_apply (sign : Sign) (span : Span) (e : Expr) : Still s (sign.apply span e) := by
  cases sign with
  | plus => exact still_plus span e
  | minus => exact still_minus span e
  | not => exact still_complement span e

end Still

section Levels

def levelOf : Nat → Precedence
  | 0 | 1 => .multiplicative
  | 2 => .additive
  | _ => .relational

/-- The levels up to one, over a factor. -/
def climb (factor : Parser Expr) : Nat → Parser Expr
  | 0 => factor
  | j + 1 => chain (levelOf (j + 1)) (climb factor j)

theorem levels_eq_climb (factor : Parser Expr) : levels factor = climb factor 3 := rfl

/-- What a level does with the operand on its left. -/
def turn (level : Precedence) (operand : Parser Expr) (left : Expr) : Parser (Option Expr) := do
  match ← operatorAt level with
  | none => return none
  | some op =>
      let sign ← bump
      let right ← operand
      return some (← operation op sign.span left right)

/-- A token that ends a phrase of a rank, because only operators of higher ranks can continue it. -/
structure Ends (follows : Token → Prop) (j : Nat) (t : Token) : Prop where
  follows : follows t
  higher : ∀ op, Operator.ofToken? t = some op → j < op.rank

theorem chain_eq (level : Precedence) (operand : Parser Expr) :
    chain level operand = operand >>= iterate (turn level operand) := rfl

theorem levelOf_rank (op : Operator) : levelOf op.rank = op.precedence := by
  cases h : op.precedence <;> simp [Operator.rank, Precedence.rank, levelOf, h]

theorem rank_le_of_level {op : Operator} {j : Nat} (h : op.precedence = levelOf (j + 1)) :
    op.rank ≤ j + 1 := by
  rw [Operator.rank, h]
  match j with
  | 0 | 1 => decide
  | j + 2 => exact Nat.le_add_left 3 j

theorem Ends.mono {follows : Token → Prop} {j : Nat} {t : Token} (h : Ends follows (j + 1) t) :
    Ends follows j t :=
  ⟨h.follows, fun op found => Nat.lt_of_succ_lt (h.higher op found)⟩

/-- A level passes over a token that ends its phrases. -/
theorem turn_of_ends {follows : Token → Prop} {j : Nat} {operand : Parser Expr} {left : Expr}
    (h : Ends follows (j + 1) c.current.value) :
    turn (levelOf (j + 1)) operand left (s.moved c n) = .ok (none, s.moved c n) := by
  have absent : Operator.atLevel? (levelOf (j + 1)) c.current.value = none := by
    rw [Operator.atLevel?, Option.filter_eq_none_iff]
    intro op found same
    have higher := h.higher op found
    have le := rank_le_of_level (eq_of_beq same)
    omega
  have ahead : operatorAt (levelOf (j + 1)) (s.moved c n) = .ok (none, s.moved c n) := by
    show Except.ok (Operator.atLevel? (levelOf (j + 1)) c.current.value, _) = _
    rw [absent]
  rw [turn, bind_of_ok ahead]
  rfl

theorem isEndOfFile_token (op : Operator) : op.token.isEndOfFile = false := by
  cases op <;> rfl

theorem turn_push {operand : Parser Expr} {left : Expr} {op : Operator} {span : Span} :
    turn op.precedence operand left (s.moved (c.push ⟨op.token, span⟩) n) =
      (operand >>= fun right => operation op span left right >>= fun e => pure (some e))
        (s.moved c n) := by
  have ahead : operatorAt op.precedence (s.moved (c.push ⟨op.token, span⟩) n) =
      .ok (some op, s.moved (c.push ⟨op.token, span⟩) n) := by
    show Except.ok (Operator.atLevel? op.precedence op.token, _) = _
    simp [Operator.atLevel?]
  have bumped := @bump_push s c ⟨op.token, span⟩ n (isEndOfFile_token op)
  rw [turn, bind_of_ok ahead]
  exact bind_of_ok bumped

end Levels

/-- How a leaf is read wherever a token can follow it. -/
structure Leaf (s : ParserState) (follows : Token → Prop) (leaf : Located Token → Parser Expr)
    (t : Located Token) : Prop where
  still : Still s (leaf t)
  read : ∀ inner c n, follows c.current.value →
    factorOver inner (s.moved (c.push t) n) = leaf t (s.moved c n)

end Parser

namespace Phrase

open PascalX86.Parser

variable {s : ParserState} {leaf : Located Token → Parser Expr} {follows : Token → Prop}
  {p left right : Phrase} {parser operand : Parser Expr} {c : Cursor} {j k : Nat}

def IsReadBy (s : ParserState) (leaf : Located Token → Parser Expr) (p : Phrase)
    (parser : Parser Expr) (c : Cursor) : Prop :=
  ∀ n, parser (s.moved (c.pushAll p.tokens) n) = p.build leaf (s.moved c n)

/-- After a phrase its level goes on with the tree of the phrase on its left, and it can still make
as many turns as there are tokens. -/
def Continues (s : ParserState) (leaf : Located Token → Parser Expr) (p : Phrase)
    (operand : Parser Expr) (j : Nat) (c : Cursor) : Prop :=
  ∃ k, c.remaining ≤ k ∧ ∀ n,
    chain (levelOf (j + 1)) operand (s.moved (c.pushAll p.tokens) n) =
      (p.build leaf >>= iterateUpTo (turn (levelOf (j + 1)) operand) k) (s.moved c n)

theorem IsReadBy.continues (h : p.IsReadBy s leaf operand c) (still : Still s (p.build leaf)) :
    p.Continues s leaf operand j c := by
  refine ⟨c.remaining, Nat.le_refl _, fun n => ?_⟩
  rw [chain_eq, bind_congr_run (h n)]
  exact still.bind_run fun a n => rfl

theorem Continues.isReadBy (h : p.Continues s leaf operand j c) (still : Still s (p.build leaf))
    (ends : Ends follows (j + 1) c.current.value) :
    p.IsReadBy s leaf (chain (levelOf (j + 1)) operand) c := by
  obtain ⟨k, -, run⟩ := h
  have stops (e : Expr) (n : Nat) :
      iterateUpTo (turn (levelOf (j + 1)) operand) k e (s.moved c n) =
        (pure e : Parser Expr) (s.moved c n) :=
    iterateUpTo_of_none (turn_of_ends ends) k
  intro n
  rw [run, still.bind_run stops, bind_pure]

/-- A phrase is read at every level that it belongs to, with so much depth left. -/
structure Understood (s : ParserState) (leaf : Located Token → Parser Expr) (follows : Token → Prop)
    (p : Phrase) (k : Nat) : Prop where
  still : Still s (p.build leaf)
  factor : p.rank = 0 → ∀ c, follows c.current.value → p.IsReadBy s leaf (Parser.factor k) c
  level : ∀ j, p.rank ≤ j + 1 → ∀ c, Ends follows j c.current.value →
    p.Continues s leaf (climb (Parser.factor k) j) j c

theorem Understood.isReadBy (h : p.Understood s leaf follows k) (rank : p.rank ≤ j)
    (ends : Ends follows j c.current.value) : p.IsReadBy s leaf (climb (Parser.factor k) j) c := by
  cases j with
  | zero => exact h.factor (Nat.eq_zero_of_le_zero rank) c ends.follows
  | succ j => exact (h.level j rank c ends.mono).isReadBy h.still ends

/-- Above the level of its own operator a phrase is an operand of the next level. -/
theorem Understood.of_rank (still : Still s (p.build leaf))
    (factor : p.rank = 0 → ∀ c, follows c.current.value →
      p.IsReadBy s leaf (Parser.factor k) c)
    (own : ∀ j, p.rank = j + 1 → ∀ c, Ends follows j c.current.value →
      p.Continues s leaf (climb (Parser.factor k) j) j c) :
    p.Understood s leaf follows k := by
  refine ⟨still, factor, fun j => ?_⟩
  induction j with
  | zero =>
      intro rank c ends
      by_cases same : p.rank = 1
      · exact own 0 same c ends
      · exact (factor (by omega) c ends.follows).continues still
  | succ j ih =>
      intro rank c ends
      by_cases same : p.rank = j + 2
      · exact own (j + 1) same c ends
      · exact ((ih (by omega) c ends.mono).isReadBy still ends).continues still

theorem understood_atom {t : Located Token} (h : Leaf s follows leaf t) (enough : 1 ≤ k) :
    (atom t).Understood s leaf follows k := by
  obtain ⟨k, rfl⟩ := Nat.exists_eq_add_of_le' enough
  exact .of_rank h.still (fun _ c ends n => h.read _ c n ends) nofun

theorem understood_group {opening closing : Span} (h : p.Understood s leaf follows k)
    (rank : p.rank ≤ 3) (close : Ends follows 3 (.mark .closeParen)) :
    (group opening p closing).Understood s leaf follows (k + 1) := by
  refine .of_rank h.still (fun _ c _ n => ?_) nofun
  have inner := h.isReadBy (c := c.push ⟨.mark .closeParen, closing⟩) rank close n
  have after (e : Expr) (n : Nat) :
      (expect .closeParen >>= fun _ => pure e) (s.moved (c.push ⟨.mark .closeParen, closing⟩) n) =
        (pure e : Parser Expr) (s.moved c n) :=
    bind_of_ok expect_push
  have opened : Parser.factor (k + 1) (s.moved (c.pushAll (group opening p closing).tokens) n) =
      (levels (Parser.factor k) >>= fun e => expect .closeParen >>= fun _ => pure e)
        (s.moved ((c.push ⟨.mark .closeParen, closing⟩).pushAll p.tokens) n) := by
    rw [Phrase.tokens, Cursor.pushAll_cons, Cursor.pushAll_append, Parser.factor, factorOver,
      bind_of_ok token_push]
    exact bind_of_ok (@bump_push s _ ⟨.mark .openParen, opening⟩ n rfl)
  rw [opened, levels_eq_climb, bind_congr_run inner, h.still.bind_run after]
  exact congrFun (bind_pure _) _

theorem understood_signed {sign : Sign} {span : Span} (h : p.Understood s leaf follows k)
    (rank : p.rank = 0) : (signed sign span p).Understood s leaf follows (k + 1) := by
  refine .of_rank (h.still.bind fun e => still_apply sign span e) (fun _ c ends n => ?_) nofun
  have operand := h.factor rank c ends n
  have bumped : bump (s.moved ((c.pushAll p.tokens).push ⟨sign.token, span⟩) n) =
      .ok (⟨sign.token, span⟩, s.moved (c.pushAll p.tokens) n) :=
    bump_push (by cases sign <;> rfl)
  have signed : Parser.factor (k + 1) (s.moved (c.pushAll (signed sign span p).tokens) n) =
      (Parser.factor k >>= fun e => sign.apply span e) (s.moved (c.pushAll p.tokens) n) := by
    rw [Phrase.tokens, Cursor.pushAll_cons, Parser.factor, factorOver, bind_of_ok token_push]
    cases sign <;> exact bind_of_ok bumped
  rw [signed, bind_congr_run operand]
  rfl

theorem understood_binary {op : Operator} {sign : Span} (hl : left.Understood s leaf follows k)
    (hr : right.Understood s leaf follows k) (rankl : left.rank ≤ op.rank)
    (rankr : right.rank < op.rank) (operators : ∀ op : Operator, follows op.token) :
    (binary op sign left right).Understood s leaf follows k := by
  have still : Still s ((binary op sign left right).build leaf) :=
    hl.still.bind fun l => hr.still.bind fun r => still_operation op sign l r
  refine .of_rank still (fun zero => ?_) fun j own c ends => ?_
  · have zero : op.rank = 0 := zero
    omega
  · have own : op.rank = j + 1 := own
    have level : levelOf (j + 1) = op.precedence := own ▸ levelOf_rank op
    have higher (op' : Operator) (found : Operator.ofToken? op.token = some op') :
        j < op'.rank := by
      rw [Operator.ofToken?_token] at found
      cases found
      omega
    -- The left operand leaves one turn for the operator, and the others for what follows.
    obtain ⟨m, enough, run⟩ := hl.level j (by omega)
      ((c.pushAll right.tokens).push ⟨op.token, sign⟩) ⟨operators op, higher⟩
    rw [Cursor.remaining_push, Cursor.remaining_pushAll] at enough
    obtain ⟨m, rfl⟩ := Nat.exists_eq_add_of_le' (Nat.le_trans (Nat.le_add_left 1 _) enough)
    refine ⟨m, by omega, fun n => ?_⟩
    have goes_on (l : Expr) (n : Nat) :
        iterateUpTo (turn (levelOf (j + 1)) (climb (Parser.factor k) j)) (m + 1) l
            (s.moved ((c.pushAll right.tokens).push ⟨op.token, sign⟩) n) =
          ((right.build leaf >>= fun r => operation op sign l r) >>=
            iterateUpTo (turn (levelOf (j + 1)) (climb (Parser.factor k) j)) m) (s.moved c n) := by
      have next := hr.isReadBy (j := j) (by omega) ends n
      rw [iterateUpTo, level, bind_congr_run turn_push]
      simp only [bind_assoc, pure_bind]
      exact bind_congr_run next
    rw [Phrase.tokens, Cursor.pushAll_append, Cursor.pushAll_cons, run, hl.still.bind_run goes_on]
    simp only [Phrase.build, bind_assoc]

/-- Phrases are read at every depth that holds their parentheses and signs. -/
theorem Ranked.understood (ranked : p.Ranked) (leaves : ∀ t ∈ p.leaves, Leaf s follows leaf t)
    (operators : ∀ op : Operator, follows op.token) (close : follows (.mark .closeParen)) :
    ∀ k, p.depth ≤ k → p.Understood s leaf follows k := by
  have closes : Ends follows 3 (.mark .closeParen) := ⟨close, nofun⟩
  -- Parentheses and signs take one from the depth, and operators nothing.
  induction p with
  | atom t => exact fun k enough => understood_atom (leaves t List.mem_cons_self) enough
  | group opening inner closing ih =>
      intro k enough
      obtain ⟨k, rfl⟩ := Nat.exists_eq_add_of_le' (Nat.le_trans (Nat.le_add_left 1 _) enough)
      have inner := ih ranked leaves k (by simp only [depth] at enough; omega)
      exact understood_group inner (rank_le _) closes
  | signed sign span operand ih =>
      intro k enough
      obtain ⟨k, rfl⟩ := Nat.exists_eq_add_of_le' (Nat.le_trans (Nat.le_add_left 1 _) enough)
      have operand := ih ranked.2 leaves k (by simp only [depth] at enough; omega)
      exact understood_signed operand ranked.1
  | binary op sign left right ihl ihr =>
      intro k enough
      obtain ⟨rankl, rankr, rankedl, rankedr⟩ := ranked
      simp only [Phrase.leaves, List.forall_mem_append] at leaves
      simp only [depth] at enough
      have hl := ihl rankedl leaves.1 k (by omega)
      have hr := ihr rankedr leaves.2 k (by omega)
      exact understood_binary hl hr rankl rankr operators

/-- In front of anything that no operator goes on with, an expression is the tree of its phrase. -/
theorem Ranked.expression (ranked : p.Ranked) (leaves : ∀ t ∈ p.leaves, Leaf s follows leaf t)
    (operators : ∀ op : Operator, follows op.token) (close : follows (.mark .closeParen))
    (ends : Ends follows 3 c.current.value) : p.IsReadBy s leaf Parser.expression c := by
  have deep := p.depth_le_length
  have understood := ranked.understood leaves operators close
    (c.pushAll p.tokens).remaining (by simp; omega)
  exact fun n => understood.isReadBy (rank_le p) ends n

end Phrase

end PascalX86
