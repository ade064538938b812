import PascalX86.Parser.Basic

/-!
# Outcomes of parsers

Rules for what a parser that succeeds has answered and left behind, whatever tokens lie ahead. Most
parsers only read tokens and number nodes; for them the rules speak about these numbers alone.
-/

set_option autoImplicit false

namespace PascalX86

def ParserState.moved (s : ParserState) (c : Cursor) (n : Nat) : ParserState :=
  { s with cursor := c, nodes := n }

/-- Items in sequence, each with what it leads from and to. -/
inductive Chain {σ α : Type} (R : σ → α → σ → Prop) : σ → List α → σ → Prop where
  | nil (s : σ) : Chain R s [] s
  | cons {s t u : σ} {a : α} {as : List α} :
      R s a t → Chain R t as u → Chain R s (a :: as) u

namespace Chain

variable {σ α : Type} {R : σ → α → σ → Prop} {s t : σ} {as : List α}

theorem stages (h : Chain R s as t) :
    ∃ stage : Nat → σ, stage 0 = s ∧ stage as.length = t ∧
      ∀ i (hi : i < as.length), R (stage i) as[i] (stage (i + 1)) := by
  induction h with
  | nil s => exact ⟨fun _ => s, rfl, rfl, by simp⟩
  | @cons s _ _ a as head _ ih =>
      obtain ⟨stage, first, last, each⟩ := ih
      -- A new first stage goes in front of those of the rest.
      refine ⟨fun i => i.casesOn s stage, rfl, last, fun i hi => ?_⟩
      cases i with
      | zero =>
          show R s a (stage 0)
          rw [first]
          exact head
      | succ i => simpa using each i (by simpa using hi)

theorem forall_mem {P : α → Prop} (h : Chain R s as t) (each : ∀ s a t, R s a t → P a) :
    ∀ a ∈ as, P a := by
  induction h with
  | nil => simp
  | cons head _ ih => simpa using ⟨each _ _ _ head, ih⟩

theorem map {τ : Type} {S : τ → α → τ → Prop} (f : σ → τ)
    (h : Chain (fun s a t => S (f s) a (f t)) s as t) : Chain S (f s) as (f t) := by
  induction h with
  | nil s => exact .nil (f s)
  | cons head _ ih => exact .cons head ih

theorem of_stages {stage : Nat → σ}
    (each : ∀ i (hi : i < as.length), R (stage i) as[i] (stage (i + 1))) :
    Chain R (stage 0) as (stage as.length) := by
  induction as generalizing stage with
  | nil => exact .nil _
  | cons a as ih =>
      have rest : Chain R (stage 1) as (stage (as.length + 1)) :=
        @ih (fun i => stage (i + 1)) fun i hi => each (i + 1) (Nat.succ_lt_succ hi)
      exact .cons (each 0 (Nat.succ_pos _)) rest

theorem bounded {R : Nat → α → Nat → Prop} {Q : Nat → α → Prop} {n n' : Nat}
    (h : Chain R n as n') (each : ∀ n a n', R n a n' → n ≤ n' ∧ Q n' a)
    (mono : ∀ n n' a, n ≤ n' → Q n a → Q n' a) : n ≤ n' ∧ ∀ a ∈ as, Q n' a := by
  induction h with
  | nil n => exact ⟨Nat.le_refl n, by simp⟩
  | @cons n₀ n₁ n₂ a as head _ ih =>
      obtain ⟨first, ha⟩ := each n₀ a n₁ head
      obtain ⟨rest, has⟩ := ih
      refine ⟨Nat.le_trans first rest, ?_⟩
      simpa using ⟨mono n₁ n₂ a rest ha, has⟩

end Chain

namespace Parser

variable {α β : Type} {s : ParserState} {n : Nat}

/-- If the parser succeeds from `s`, then `Q` holds of its answer and the state it leaves. -/
def Ensures (p : Parser α) (s : ParserState) (Q : α → ParserState → Prop) : Prop :=
  ∀ a s', p s = .ok (a, s') → Q a s'

/-- If the parser succeeds where `n` is the next node's number, then nothing but the place in the
text and that number has changed, and `Q` holds of its answer and the number after it. -/
def Yields (p : Parser α) (s : ParserState) (n : Nat) (Q : α → Nat → Prop) : Prop :=
  ∀ c, p.Ensures (s.moved c n) fun a s' => ∃ c' n', s' = s.moved c' n' ∧ Q a n'

def Reads (p : Parser α) : Prop := ∀ s n, p.Yields s n fun _ n' => n' = n

section Ensures

variable {p : Parser α} {f : α → Parser β} {P Q : α → ParserState → Prop}
  {R : β → ParserState → Prop}

theorem Ensures.pure {a : α} (h : Q a s) : (pure a : Parser α).Ensures s Q := by
  intro b s' run
  cases (show Except.ok (a, s) = Except.ok (b, s') from run)
  exact h

theorem Ensures.bind (hp : p.Ensures s P) (hf : ∀ a s', P a s' → (f a).Ensures s' R) :
    (p >>= f).Ensures s R := by
  intro b s'' run
  simp only [Bind.bind, StateT.bind, Except.bind] at run
  split at run
  · simp at run
  · next r first => exact hf _ _ (hp _ _ first) _ _ run

theorem Ensures.mono (hp : p.Ensures s P) (h : ∀ a s', P a s' → Q a s') : p.Ensures s Q :=
  fun a s' run => h a s' (hp a s' run)

theorem Ensures.throw {e : CompileError} : (throw e : Parser α).Ensures s Q := by
  intro a s' run
  simp [throwThe, MonadExceptOf.throw, MonadExcept.throw, StateT.lift, Bind.bind, Except.bind] at run

theorem Ensures.fail {e : SemanticError} {span : Span} : (fail e span : Parser α).Ensures s Q :=
  .throw

theorem Ensures.get {f : ParserState → Parser β} (h : (f s).Ensures s R) :
    ((get : Parser ParserState) >>= f).Ensures s R :=
  .bind (P := fun t s' => t = s ∧ s' = s) (fun _ _ run => by cases run; exact ⟨rfl, rfl⟩)
    fun _ _ ⟨same, same'⟩ => same ▸ same' ▸ h

theorem Ensures.set {t : ParserState} {f : PUnit → Parser β} (h : (f ⟨⟩).Ensures t R) :
    ((set t : Parser PUnit) >>= f).Ensures s R :=
  .bind (P := fun _ s' => s' = t) (fun _ _ run => by cases run; rfl) fun _ _ same => same ▸ h

theorem Ensures.modified {g : ParserState → ParserState} {Q : PUnit → ParserState → Prop}
    (h : Q ⟨⟩ (g s)) : (modify g : Parser PUnit).Ensures s Q := by
  intro _ _ run
  cases run
  exact h

theorem Ensures.modify {g : ParserState → ParserState} {f : PUnit → Parser β}
    (h : (f ⟨⟩).Ensures (g s) R) : ((modify g : Parser PUnit) >>= f).Ensures s R :=
  .bind (P := fun _ s' => s' = g s) (.modified rfl) fun _ _ same => same ▸ h

theorem Ensures.unexpected {expected : List Expectation} :
    (unexpected expected : Parser α).Ensures s Q :=
  Ensures.bind (P := fun _ _ => True) (fun _ _ _ => trivial) fun _ _ _ => .throw

theorem Ensures.locate {span : Span} {answer : Except SemanticError α}
    (h : ∀ a, answer = .ok a → Q a s) : (locate span answer).Ensures s Q := by
  cases answer with
  | ok a => exact .pure (h a rfl)
  | error e => exact .fail

theorem Ensures.located {span : Span} {answer : Except SemanticError α}
    (hf : ∀ a, answer = .ok a → (f a).Ensures s R) : (Parser.locate span answer >>= f).Ensures s R := by
  refine (Ensures.locate (Q := fun a s' => answer = .ok a ∧ s' = s) fun a ha => ⟨ha, rfl⟩).bind ?_
  rintro a _ ⟨ha, rfl⟩
  exact hf a ha

theorem Ensures.iterate {I : α → ParserState → Prop} {step : α → Parser (Option α)} {a : α}
    (h : I a s)
    (each : ∀ a s, I a s → (step a).Ensures s fun r s' => I (r.getD a) s') :
    (iterate step a).Ensures s I := by
  -- Induction on the number of turns, with `I` as the invariant.
  have upTo (k : Nat) : ∀ a s, I a s → (iterateUpTo step k a).Ensures s I := by
    induction k with
    | zero => exact fun a s h => .pure h
    | succ k ih =>
        intro a s h
        refine (each a s h).bind fun r s' hr => ?_
        cases r with
        | none => exact .pure hr
        | some b => exact ih b s' hr
  refine Ensures.bind (P := fun _ s' => s' = s) (fun _ _ run => by cases run; rfl) ?_
  rintro k _ rfl
  exact upTo k a _ h

/-- Items are collected in a chain of states. The last attempt answers nothing and still may leave
another state behind. -/
theorem Ensures.many {R : ParserState → α → ParserState → Prop}
    {E : ParserState → ParserState → Prop} {I : ParserState → Prop} {p : Parser (Option α)}
    (h : I s)
    (each : ∀ s, I s → p.Ensures s fun r s' =>
      match r with
      | none => E s s'
      | some a => R s a s' ∧ I s')
    (stay : ∀ s, E s s) :
    (many p).Ensures s fun as s' => ∃ t, Chain R s as t ∧ I t ∧ E t s' := by
  have upTo (k : Nat) : ∀ s, I s → (manyUpTo p k).Ensures s fun as s' =>
      ∃ t, Chain R s as t ∧ I t ∧ E t s' := by
    induction k with
    | zero => exact fun s h => .pure ⟨s, .nil s, h, stay s⟩
    | succ k ih =>
        intro s h
        refine (each s h).bind fun r s' hr => ?_
        cases r with
        | none => exact .pure ⟨s, .nil s, h, hr⟩
        | some a =>
            refine (ih s' hr.2).bind fun as u hu => .pure ?_
            obtain ⟨t, chain, last⟩ := hu
            exact ⟨t, .cons hr.1 chain, last⟩
  refine Ensures.bind (P := fun _ s' => s' = s) (fun _ _ run => by cases run; rfl) ?_
  rintro k _ rfl
  exact upTo k _ h

end Ensures

section Yields

variable {p : Parser α} {f : α → Parser β} {P Q : α → Nat → Prop} {R : β → Nat → Prop}

theorem Yields.pure {a : α} (h : Q a n) : (pure a : Parser α).Yields s n Q :=
  fun c => .pure ⟨c, n, rfl, h⟩

theorem Yields.bind (hp : p.Yields s n P) (hf : ∀ a n', P a n' → (f a).Yields s n' R) :
    (p >>= f).Yields s n R := by
  intro c
  refine (hp c).bind ?_
  rintro a _ ⟨c', n', rfl, h⟩
  exact hf a n' h c'

theorem Yields.pure_bind {a : α} (hf : (f a).Yields s n R) :
    ((Pure.pure a : Parser α) >>= f).Yields s n R := hf

theorem Yields.mono (hp : p.Yields s n P) (h : ∀ a n', P a n' → Q a n') : p.Yields s n Q :=
  fun c => (hp c).mono fun _ _ ⟨c', n', same, ha⟩ => ⟨c', n', same, h _ _ ha⟩

theorem Yields.map {g : α → β} (hp : p.Yields s n fun a n' => R (g a) n') :
    (g <$> p).Yields s n R :=
  hp.bind fun _ _ h => .pure h

theorem Yields.fail {e : SemanticError} {span : Span} : (fail e span : Parser α).Yields s n Q :=
  fun _ => .fail

theorem Yields.failed {e : SemanticError} {span : Span} :
    ((Parser.fail e span : Parser α) >>= f).Yields s n R :=
  .bind (P := fun _ _ => False) .fail fun _ _ h => h.elim

theorem Yields.unexpected {expected : List Expectation} :
    (unexpected expected : Parser α).Yields s n Q :=
  fun _ => .unexpected

theorem Yields.located {span : Span} {answer : Except SemanticError α}
    (hf : ∀ a, answer = .ok a → (f a).Yields s n R) : (Parser.locate span answer >>= f).Yields s n R :=
  fun c => .located fun a ha => hf a ha c

theorem Yields.ite {c : Prop} [Decidable c] {p q : Parser α} (hp : c → p.Yields s n Q)
    (hq : ¬c → q.Yields s n Q) : (if c then p else q).Yields s n Q := by
  split
  · next h => exact hp h
  · next h => exact hq h

theorem Yields.iterate {I : α → Nat → Prop} {step : α → Parser (Option α)} {a : α} (h : I a n)
    (each : ∀ a n, I a n → (step a).Yields s n fun r n' => I (r.getD a) n') :
    (iterate step a).Yields s n I := by
  intro c
  refine Ensures.iterate (I := fun a s' => ∃ c' n', s' = s.moved c' n' ∧ I a n') ⟨c, n, rfl, h⟩ ?_
  rintro a _ ⟨c', n', rfl, ha⟩
  exact each a n' ha c'

theorem Yields.many {R : Nat → α → Nat → Prop} {p : Parser (Option α)}
    (each : ∀ n, p.Yields s n fun r n' =>
      match r with
      | none => n' = n
      | some a => R n a n') :
    (many p).Yields s n fun as n' => Chain R n as n' := by
  intro c
  -- All states on the way differ from `s` in place and node number only.
  refine (Ensures.many (R := fun t a t' => R t.nodes a t'.nodes)
    (E := fun t t' => ∃ c, t' = t.moved c t.nodes) (I := fun t => ∃ c n, t = s.moved c n)
    ⟨c, n, rfl⟩ ?_ fun t => ⟨t.cursor, rfl⟩).mono ?_
  · rintro _ ⟨c, n, rfl⟩
    refine (each n c).mono ?_
    rintro (_ | a) _ ⟨c', n', rfl, h⟩
    · exact ⟨c', h ▸ rfl⟩
    · exact ⟨h, c', n', rfl⟩
  · rintro as _ ⟨_, chain, ⟨c', n', rfl⟩, c'', rfl⟩
    exact ⟨c'', n', rfl, chain.map ParserState.nodes⟩

theorem Reads.bind (hp : p.Reads) (hf : ∀ a, (f a).Yields s n R) : (p >>= f).Yields s n R :=
  (hp s n).bind fun a _ same => same ▸ hf a

theorem Reads.pure (a : α) : (pure a : Parser α).Reads := fun _ _ => .pure rfl

theorem Reads.seq (hp : p.Reads) (hf : ∀ a, (f a).Reads) : (p >>= f).Reads :=
  fun _ _ => hp.bind fun a => hf a _ _

end Yields

section Reading

theorem reads_current : current.Reads := fun _ n c => .get (.pure ⟨c, n, rfl, rfl⟩)

theorem reads_token : token.Reads := reads_current.seq fun _ => .pure _

theorem ensures_token : token.Ensures s fun t s' => t = s.cursor.current.value ∧ s' = s := by
  intro t s' run
  cases run
  exact ⟨rfl, rfl⟩

theorem reads_here : here.Reads := reads_current.seq fun _ => .pure _

theorem reads_remaining : remaining.Reads := fun _ n c => .get (.pure ⟨c, n, rfl, rfl⟩)

theorem reads_bump : bump.Reads := by
  refine fun s n c => .get ?_
  split
  · next c' _ => exact .set (.pure ⟨c', n, rfl, rfl⟩)
  · exact .throw

theorem reads_atMark (m : Mark) : (atMark m).Reads := reads_token.seq fun _ => .pure _

theorem reads_atKeyword (k : Keyword) : (atKeyword k).Reads := reads_token.seq fun _ => .pure _

theorem reads_atName : atName.Reads := reads_token.seq fun _ => .pure _

theorem reads_eat (m : Mark) : (eat m).Reads := by
  refine (reads_atMark m).seq fun b => ?_
  cases b with
  | true => exact reads_bump.seq fun _ => .pure _
  | false => exact .pure _

theorem reads_eatKeyword (k : Keyword) : (eatKeyword k).Reads := by
  refine (reads_atKeyword k).seq fun b => ?_
  cases b with
  | true => exact reads_bump.seq fun _ => .pure _
  | false => exact .pure _

theorem reads_expect (m : Mark) : (expect m).Reads := by
  refine (reads_atMark m).seq fun b => ?_
  cases b with
  | true => exact reads_bump.seq fun _ => .pure _
  | false => exact fun _ _ => .unexpected

theorem reads_keyword (k : Keyword) : (keyword k).Reads := by
  refine (reads_atKeyword k).seq fun b => ?_
  cases b with
  | true => exact reads_bump.seq fun _ => .pure _
  | false => exact fun _ _ => .unexpected

theorem reads_identifier : identifier.Reads := by
  refine reads_token.seq fun t => ?_
  cases t with
  | name n => exact reads_bump.seq fun _ => .pure _
  | _ => exact fun _ _ => .unexpected

theorem Yields.ensures {Q : α → Nat → Prop} {p : Parser α} (h : p.Yields s s.nodes Q) :
    p.Ensures s fun a s' => ∃ c n', s' = s.moved c n' ∧ Q a n' :=
  h s.cursor

theorem Reads.ensures {p : Parser α} (h : p.Reads) :
    p.Ensures s fun _ s' => ∃ c, s' = s.moved c s.nodes :=
  (h s s.nodes).ensures.mono fun _ _ ⟨c, _, eq, same⟩ => ⟨c, same ▸ eq⟩

theorem yields_separatedBy {R : Nat → α → Nat → Prop} {item : Parser α} (m : Mark)
    (each : ∀ n, item.Yields s n (R n)) :
    (separatedBy m item).Yields s n fun as n' => Chain R n as n' ∧ as ≠ [] := by
  refine (each n).bind fun a n₁ ha => ?_
  refine (Yields.many (R := R) fun n₂ => (reads_eat m).bind fun b => ?_).bind
    fun as n₃ has => .pure ⟨.cons ha has, by simp⟩
  cases b with
  | true => exact (each n₂).bind fun b n₃ hb => .pure hb
  | false => exact .pure rfl

theorem reads_identifiers : identifiers.Reads := by
  intro s n
  refine (yields_separatedBy (R := fun n _ n' => n' = n) .comma fun n => reads_identifier s n).mono ?_
  rintro names n' ⟨chain, -⟩
  clear s
  induction chain with
  | nil => rfl
  | cons head _ ih => exact ih.trans head

end Reading

theorem yields_node (span : Span) (type : Ty) :
    (node span type).Yields s n fun info n' => info = ⟨n, span, type⟩ ∧ n' = n + 1 :=
  fun c => .get (.set (.pure ⟨c, n + 1, rfl, rfl, rfl⟩))

theorem Yields.node {f : NodeInfo → Parser β} {R : β → Nat → Prop} {span : Span} {type : Ty}
    (hf : (f ⟨n, span, type⟩).Yields s (n + 1) R) : (Parser.node span type >>= f).Yields s n R :=
  (yields_node span type).bind fun _ _ ⟨info, next⟩ => info ▸ next ▸ hf

theorem yields_lookup (name : Located Name) :
    (lookup name).Yields s n fun symbol n' =>
      s.scopes.lookup? name.value = some symbol ∧ n' = n := by
  refine fun c => .get (.locate fun symbol found => ⟨c, n, rfl, ?_, rfl⟩)
  simp only [Scopes.lookup, ParserState.moved] at found
  split at found
  · next h => simpa [h] using found
  · simp at found

theorem Yields.lookup {f : Symbol → Parser β} {R : β → Nat → Prop} {name : Located Name}
    (hf : ∀ symbol, s.scopes.lookup? name.value = some symbol → (f symbol).Yields s n R) :
    (Parser.lookup name >>= f).Yields s n R := by
  refine (yields_lookup name).bind ?_
  rintro symbol _ ⟨found, rfl⟩
  exact hf symbol found

end Parser

end PascalX86
