import PascalX86.Proofs.Phrase.Reading
import PascalX86.Proofs.Scanning.Streaming

/-!
# Recursive descent

Two runs of a parser on texts with a common beginning. They agree up to where the texts fork, since
nothing is read ahead of the next token, and on the way they only move forward. There is one rule for
each way to put parsers together, and each counts the tokens that are taken.
-/

set_option autoImplicit false

namespace PascalX86

def ParserState.placed (s : ParserState) (c : Cursor) : ParserState := { s with cursor := c }

/-- The items come to an end: one of them is the end of the file, or an error. -/
def Ended (items : List Scanned) : Prop :=
  ∃ item ∈ items, ∀ t, item = .ok t → t.value.isEndOfFile = true

/-- Where two texts fork: the first one ends, with an error or as it is, and the second one goes on. -/
structure Fork where
  error : Option (Located LexicalError)
  more : List Scanned

-- What the first text ends with.
def Fork.stop (fork : Fork) : List Scanned := (fork.error.map .error).toList

-- Two texts that are the same.
def Fork.none : Fork := ⟨.none, []⟩

namespace Cursor

/-- The text has an end, on which the cursor stands or which is still to come. -/
def Closed (c : Cursor) : Prop := Ended c.items

/-- A cursor that has moved on over so many tokens at least. -/
structure Passes (k : Nat) (c c' : Cursor) : Prop where
  suffix : c'.items <:+ c.items
  count : c'.remaining + k ≤ c.remaining

structure Forked (fork : Fork) (c c' : Cursor) : Prop where
  current : c'.current = c.current
  coming : ∃ common, c.coming = common ++ fork.stop ∧ c'.coming = common ++ fork.more
  least : c.remaining ≤ c'.remaining
  closed : c.Closed

variable {c c' c'' : Cursor} {j k : Nat} {fork : Fork}

theorem Closed.ends (closed : c.Closed) (none : c.remaining = 0) :
    c.current.value.isEndOfFile = true := by
  rw [c.remaining_eq, List.length_eq_zero_iff] at none
  obtain ⟨item, mem, final⟩ := closed
  rw [items, none, List.mem_singleton] at mem
  exact final _ mem

theorem Passes.refl (c : Cursor) : Passes 0 c c := ⟨List.suffix_rfl, Nat.le_refl _⟩

theorem Passes.trans (h : Passes j c c') (h' : Passes k c' c'') : Passes (j + k) c c'' := by
  have first := h.count
  have second := h'.count
  exact ⟨h'.suffix.trans h.suffix, by omega⟩

theorem Passes.mono (h : Passes k c c') (le : j ≤ k) : Passes j c c' :=
  ⟨h.suffix, Nat.le_trans (Nat.add_le_add_left le _) h.count⟩

theorem Forked.nil (closed : c.Closed) : Forked .none c c :=
  ⟨rfl, ⟨c.coming, (List.append_nil _).symm, (List.append_nil _).symm⟩, Nat.le_refl _, closed⟩

theorem Forked.eq (forked : Forked .none c c') : c' = c := by
  obtain ⟨current, coming, _, rfl⟩ := c
  obtain ⟨_, _, _, rfl⟩ := c'
  obtain ⟨rfl, ⟨common, same, same'⟩, -, -⟩ := forked
  cases same.trans same'.symm
  rfl

/-- Before the end of the text, both cursors move on to the same item, unless the texts fork there. -/
theorem Forked.advance (forked : Forked fork c c') (inner : c.current.value.isEndOfFile = false) :
    (∃ e, c.advance.1 = .error e ∧ (c'.advance.1 = .error e ∨ fork.error = some e)) ∨
      ∃ b, c.advance.1 = .ok b ∧ c'.advance.1 = .ok b ∧ Forked fork c.advance.2 c'.advance.2 ∧
        c.Passes 1 c.advance.2 := by
  have inner' : c'.current.value.isEndOfFile = false := forked.current ▸ inner
  obtain ⟨common, eq, eq'⟩ := forked.coming
  rcases common with _ | ⟨e | t, common⟩
  -- With nothing in common any more, the first text stands at its end or before the error there.
  · cases error : fork.error with
    | none =>
        have none : c.remaining = 0 := by rw [c.remaining_eq, eq, Fork.stop, error]; rfl
        rw [forked.closed.ends none] at inner
        cases inner
    | some e =>
        rw [Fork.stop, error] at eq
        exact .inl ⟨e, (advance_error inner eq).1, .inr rfl⟩
  · exact .inl ⟨e, (advance_error inner eq).1, .inl (advance_error inner' eq').1⟩
  · obtain ⟨answer, current, rest⟩ := advance_token inner eq
    obtain ⟨answer', current', rest'⟩ := advance_token inner' eq'
    have items : c.advance.2.items = c.coming := by
      rw [Cursor.items, current, rest, eq]
      rfl
    have fewer : c.advance.2.remaining + 1 = c.remaining := by
      rw [c.remaining_eq, c.advance.2.remaining_eq, rest, eq]
      rfl
    have fewer' : c'.advance.2.remaining + 1 = c'.remaining := by
      rw [c'.remaining_eq, c'.advance.2.remaining_eq, rest', eq']
      rfl
    have least := forked.least
    have closed : c.advance.2.Closed := by
      obtain ⟨item, mem, final⟩ := forked.closed
      rcases List.mem_cons.mp mem with rfl | mem
      · rw [final _ rfl] at inner
        cases inner
      · exact ⟨item, items ▸ mem, final⟩
    refine .inr ⟨_, answer, answer', ⟨current'.trans current.symm, ⟨common, rest, rest'⟩, ?_, closed⟩, ?_⟩
    · omega
    · exact ⟨items ▸ List.suffix_cons .., Nat.le_of_eq fewer⟩

end Cursor

namespace Parser

variable {α β : Type} {fork : Fork} {n : Nat} {P : Token → Prop}

/-- Two runs that fail alike or answer alike, the first one from a cursor and over so many tokens, unless
it has come to where the texts fork. -/
inductive Alike (fork : Fork) (k : α → Nat) (c : Cursor) :
    Except CompileError (α × ParserState) → Except CompileError (α × ParserState) → Prop where
  | failed (e : CompileError) : Alike fork k c (.error e) (.error e)
  | apart {e : Located LexicalError} {r : Except CompileError (α × ParserState)} (here : fork.error = some e) :
      Alike fork k c (.error (.lexical e)) r
  | answered {a : α} {s : ParserState} {c₁ c₂ : Cursor} (forked : Cursor.Forked fork c₁ c₂)
      (passes : c.Passes (k a) c₁) : Alike fork k c (.ok (a, s.placed c₁)) (.ok (a, s.placed c₂))

/-- Wherever at most `n` tokens are left and the next one is such and such, both parsers do the same
and take `k a` tokens or more if they answer `a`. -/
def Takes (fork : Fork) (n : Nat) (P : Token → Prop) (k : α → Nat) (p q : Parser α) : Prop :=
  ∀ (s : ParserState) (c c' : Cursor), Cursor.Forked fork c c' → c.remaining ≤ n → P c.current.value →
    Alike fork k c (p (s.placed c)) (q (s.placed c'))

-- The parsers do the same and never move back.
abbrev Moves (fork : Fork) (n : Nat) (p q : Parser α) : Prop :=
  Takes fork n (fun _ => True) (fun _ => 0) p q

/-- The parser does not look at the text. -/
def Blind (p : Parser α) : Prop :=
  ∀ s c, p (s.placed c) = (p s).map fun answer => (answer.1, answer.2.placed c)

section Rules

variable {p q : Parser α} {f g : α → Parser β} {i j : α → Nat} {k : β → Nat}

theorem Alike.lift {c c' : Cursor} {m : Nat} {k' : β → Nat} {r r' : Except CompileError (β × ParserState)}
    (h : Alike fork k' c' r r') (passes : c.Passes m c') (le : ∀ b, k b ≤ m + k' b) :
    Alike fork k c r r' := by
  cases h with
  | failed e => exact .failed e
  | apart here => exact .apart here
  | answered forked passes' => exact .answered forked ((passes.trans passes').mono (le _))

theorem Takes.mono (h : Takes fork n P j p q) (le : ∀ a, i a ≤ j a) : Takes fork n P i p q := by
  intro s c c' forked least holds
  refine (h s c c' forked least holds).lift (.refl _) fun a => ?_
  rw [Nat.zero_add]
  exact le a

theorem Takes.any (h : Takes fork n (fun _ => True) j p q) : Takes fork n P j p q :=
  fun s c c' forked least _ => h s c c' forked least trivial

theorem Takes.weaken {m : Nat} (h : Takes fork n P j p q) (le : m ≤ n) : Takes fork m P j p q :=
  fun s c c' forked least => h s c c' forked (Nat.le_trans least le)

theorem Takes.pure {a : α} (none : j a = 0) : Takes fork n P j (pure a) (pure a) := by
  intro s c c' forked _ _
  refine .answered forked ?_
  rw [none]
  exact .refl _

theorem Takes.throw {e : CompileError} : Takes fork n P j (throw e) (throw e) :=
  fun _ _ _ _ _ _ => .failed e

theorem Takes.fail {e : SemanticError} {span : Span} :
    Takes fork n P j (fail e span) (fail e span) := .throw

theorem Takes.failed {e : SemanticError} {span : Span} :
    Takes fork n P k ((Parser.fail e span : Parser α) >>= f) (Parser.fail e span >>= g) :=
  fun _ _ _ _ _ _ => .failed _

theorem Takes.bind (hp : Takes fork n P j p q)
    (hf : ∀ a, Takes fork (n - j a) (fun _ => True) (fun b => k b - j a) (f a) (g a)) :
    Takes fork n P k (p >>= f) (q >>= g) := by
  intro s c c' forked least holds
  have first := hp s c c' forked least holds
  rw [bind_run, bind_run]
  generalize p (s.placed c) = r at first
  generalize q (s.placed c') = r' at first
  cases first with
  | failed e => exact .failed e
  | apart here => exact .apart here
  | @answered a s c₁ c₂ forked passes =>
      -- The second part need not take what the first one took, and has as many tokens less.
      have fewer : c₁.remaining ≤ n - j a := by
        have count := passes.count
        omega
      exact (hf a s c₁ c₂ forked fewer trivial).lift passes fun b => by omega

theorem Takes.seq (hp : Takes fork n P j p q) (hf : ∀ a, Takes fork n (fun _ => True) k (f a) (g a)) :
    Takes fork n P k (p >>= f) (q >>= g) :=
  (hp.mono fun _ => Nat.zero_le _).bind hf

theorem Takes.map {f : α → β} (h : Takes fork n P j p q) (le : ∀ a, k (f a) ≤ j a) :
    Takes fork n P k (f <$> p) (f <$> q) :=
  h.bind fun a => .pure (Nat.sub_eq_zero_of_le (le a))

theorem Takes.ite {c : Prop} [Decidable c] {p' q' : Parser α} (hp : Takes fork n P j p q)
    (hq : Takes fork n P j p' q') : Takes fork n P j (if c then p else p') (if c then q else q') := by
  split
  · exact hp
  · exact hq

theorem Takes.look {f g : Token → Parser β} (h : ∀ u, P u → Takes fork n (· = u) k (f u) (g u)) :
    Takes fork n P k (token >>= f) (token >>= g) := by
  intro s c c' forked least holds
  have same : (token >>= g) (s.placed c') = g c.current.value (s.placed c') := by
    rw [← forked.current]
    rfl
  rw [same]
  exact h _ holds s c c' forked least rfl

theorem Takes.seen {γ : Type} {r : Token → γ} {f g : γ → Parser β}
    (h : ∀ u, P u → Takes fork n (· = u) k (f (r u)) (g (r u))) :
    Takes fork n P k ((do return r (← token)) >>= f) ((do return r (← token)) >>= g) :=
  .look (f := fun u => f (r u)) (g := fun u => g (r u)) h

theorem Takes.spanned {f g : Span → Parser β} (h : ∀ span, Takes fork n P k (f span) (g span)) :
    Takes fork n P k (here >>= f) (here >>= g) := by
  intro s c c' forked least holds
  have same : (here >>= g) (s.placed c') = g c.current.span (s.placed c') := by
    rw [← forked.current]
    rfl
  rw [same]
  exact h _ s c c' forked least holds

theorem Takes.get {f g : ParserState → Parser β}
    (h : ∀ (s : ParserState) c c', Takes fork n P k (f (s.placed c)) (g (s.placed c'))) :
    Takes fork n P k (get >>= f) (get >>= g) :=
  fun s c c' forked least => h s c c' s c c' forked least

/-- A bound by the tokens left decides nothing if any bounds will do. -/
theorem Takes.bounded {f g : Nat → Parser β}
    (h : ∀ m, m ≤ n → ∀ a b, m ≤ a → m ≤ b → Takes fork m P k (f a) (g b)) :
    Takes fork n P k (remaining >>= f) (remaining >>= g) :=
  fun s c c' forked least =>
    h _ least _ _ (Nat.le_refl _) forked.least s c c' forked (Nat.le_refl _)

theorem Takes.unbounded {p : Parser β} {f : Nat → Parser β}
    (h : ∀ m, m ≤ n → ∀ i, m ≤ i → Takes fork m P k p (f i)) : Takes fork n P k p (remaining >>= f) :=
  fun s c c' forked least => h _ least _ forked.least s c c' forked (Nat.le_refl _)

theorem Takes.unexpected {expected : List Expectation} :
    Takes fork n P j (unexpected expected) (unexpected expected) := by
  intro s c c' forked _ _
  have fails (c : Cursor) : (Parser.unexpected expected : Parser α) (s.placed c) =
    .error (.grammatical ⟨⟨expected, c.current.value⟩, c.current.span⟩) := rfl
  rw [fails, fails, forked.current]
  exact .failed _

theorem Takes.test {r : Token → Bool} {f g : Bool → Parser β}
    (yes : Takes fork n (r · = true) k (f true) (g true)) (no : Takes fork n P k (f false) (g false)) :
    Takes fork n P k ((do return r (← token)) >>= f) ((do return r (← token)) >>= g) := by
  intro s c c' forked least holds
  have same (h : Bool → Parser β) (c : Cursor) :
      ((do return r (← token)) >>= h) (s.placed c) = h (r c.current.value) (s.placed c) := rfl
  rw [same, same, forked.current]
  cases is : r c.current.value with
  | true => exact yes s c c' forked least is
  | false => exact no s c c' forked least holds

theorem Blind.takes (h : p.Blind) : Takes fork n P (fun _ => 0) p p := by
  intro s c c' forked _ _
  rw [h s c, h s c']
  cases p s with
  | error e => exact .failed e
  | ok answer => exact .answered forked (.refl _)

end Rules

section Blindness

variable {p q : Parser α} {f : α → Parser β} {s : ParserState}

theorem blind_of_still (still : ∀ s, Still s p) : p.Blind := by
  intro s c
  obtain ⟨r, run⟩ := still s
  have first : p s = _ := run s.cursor s.nodes
  have second : p (s.placed c) = _ := run c s.nodes
  rw [first, second]
  cases r s.nodes <;> rfl

theorem Blind.pure (a : α) : (pure a : Parser α).Blind := fun _ _ => rfl

theorem Blind.fail (e : SemanticError) (span : Span) : (fail e span : Parser α).Blind := fun _ _ => rfl

theorem Blind.bind (hp : p.Blind) (hf : ∀ a, (f a).Blind) : (p >>= f).Blind := by
  intro s c
  rw [bind_run, bind_run, hp s c]
  cases p s with
  | error e => rfl
  | ok answer => exact hf answer.1 answer.2 c

theorem Blind.ite {c : Prop} [Decidable c] (hp : p.Blind) (hq : q.Blind) :
    (if c then p else q).Blind := by
  split
  · exact hp
  · exact hq

theorem blind_locate (span : Span) (answer : Except SemanticError α) : (locate span answer).Blind := by
  cases answer with
  | ok a => exact .pure a
  | error e => exact .fail e span

theorem blind_modify (h : ParserState → ParserState) (apart : ∀ s c, h (s.placed c) = (h s).placed c) :
    (modify h : Parser PUnit).Blind :=
  fun s c => congrArg (fun s => Except.ok ((), s)) (apart s c)

theorem blind_node (span : Span) (type : Ty) : (node span type).Blind := fun _ _ => rfl

theorem blind_lookup (name : Located Name) : (lookup name).Blind :=
  fun s c => blind_locate name.span (s.scopes.lookup name.value) s c

theorem blind_declare (name : Located Name) (d : Declaring α) : (declare name d).Blind :=
  fun s c => blind_locate name.span (s.scopes.declare d).1 { s with scopes := (s.scopes.declare d).2 } c

theorem blind_pushScope (t : Table) : (pushScope t).Blind := fun _ _ => rfl

theorem blind_popScope : popScope.Blind := by
  intro s c
  have run (s : ParserState) : popScope s = s.scopes.pop?.elim (.ok (s.scopes.current, s))
      fun popped => .ok (popped.1, { s with scopes := popped.2 }) := by
    rw [popScope, bind_of_ok (show (get : Parser ParserState) s = .ok (s, s) from rfl)]
    cases s.scopes.pop? <;> rfl
  have same : (s.placed c).scopes = s.scopes := rfl
  rw [run, run, same]
  cases s.scopes.pop? <;> rfl

theorem blind_constantNode (span : Span) (type : Ty) (value : Value) :
    (constantNode span type value).Blind :=
  (blind_node span type).bind fun _ => .pure _

end Blindness

section Tokens

variable {p q : Parser α} {k : α → Nat} {u : Token}

theorem bump_of_ok {s : ParserState} {c : Cursor} {b : Bool} (moves : c.advance.1 = .ok b) :
    bump (s.placed c) = .ok (c.current, s.placed c.advance.2) := by
  have advance : (s.placed c).cursor.advance = (.ok b, c.advance.2) := Prod.ext moves rfl
  rw [bump, bind_of_ok (show (get : Parser ParserState) _ = .ok (s.placed c, s.placed c) from rfl), advance]
  rfl

theorem bump_of_error {s : ParserState} {c : Cursor} {e : Located LexicalError}
    (fails : c.advance.1 = .error e) : bump (s.placed c) = .error (.lexical e) := by
  have advance : (s.placed c).cursor.advance = (.error e, c.advance.2) := Prod.ext fails rfl
  rw [bump, bind_of_ok (show (get : Parser ParserState) _ = .ok (s.placed c, s.placed c) from rfl), advance]
  rfl

theorem takes_bump (inner : ∀ u, P u → u.isEndOfFile = false) :
    Takes fork n P (fun _ => 1) bump bump := by
  intro s c c' forked least holds
  rcases forked.advance (inner _ holds) with ⟨e, fails, fails' | here⟩ | ⟨b, moves, moves', after, passes⟩
  · rw [bump_of_error fails, bump_of_error fails']
    exact .failed _
  · rw [bump_of_error fails]
    exact .apart here
  · rw [bump_of_ok moves, bump_of_ok moves', forked.current]
    exact .answered after passes

theorem takes_bump_at (inner : u.isEndOfFile = false) : Takes fork n (· = u) (fun _ => 1) bump bump :=
  takes_bump fun _ same => same ▸ inner

theorem isMark_inner {m : Mark} (u : Token) (is : u.isMark m = true) : u.isEndOfFile = false := by
  cases u <;> first | rfl | cases is

theorem isKeyword_inner {w : Keyword} (u : Token) (is : u.isKeyword w = true) : u.isEndOfFile = false := by
  cases u <;> first | rfl | cases is

theorem takes_eat (m : Mark) : Takes fork n P Bool.toNat (eat m) (eat m) :=
  .test ((takes_bump isMark_inner).bind fun _ => .pure rfl) (.pure rfl)

theorem takes_eatKeyword (w : Keyword) : Takes fork n P Bool.toNat (eatKeyword w) (eatKeyword w) :=
  .test ((takes_bump isKeyword_inner).bind fun _ => .pure rfl) (.pure rfl)

theorem Takes.eaten {p q : Parser Bool} {f g : Bool → Parser α} (hp : Takes fork n P Bool.toNat p q)
    (yes : Takes fork (n - 1) (fun _ => True) (fun a => k a - 1) (f true) (g true))
    (no : Takes fork n (fun _ => True) k (f false) (g false)) : Takes fork n P k (p >>= f) (q >>= g) := by
  refine hp.bind fun b => ?_
  cases b with
  | true => exact yes
  | false => exact no

theorem takes_expect (m : Mark) : Takes fork n P (fun _ => 1) (expect m) (expect m) :=
  .test ((takes_bump isMark_inner).bind fun _ => .pure rfl) .unexpected

theorem takes_keyword (w : Keyword) : Takes fork n P (fun _ => 1) (keyword w) (keyword w) :=
  .test ((takes_bump isKeyword_inner).bind fun _ => .pure rfl) .unexpected

theorem takes_identifier : Takes fork n P (fun _ => 1) identifier identifier := by
  refine .look fun u _ => ?_
  cases u with
  | name name => exact (takes_bump_at rfl).bind fun _ => .pure rfl
  | _ => exact .unexpected

end Tokens

end Parser

end PascalX86
