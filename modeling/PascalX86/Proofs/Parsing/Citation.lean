import PascalX86.Proofs.Checking.Rules

/-!
# Names that trees are read from

Every reference and every call in the statements of a program is read from a name of the text, which
its symbol is found under. Parsers only move on over the items of the text, so a name that was read
is one of them.
-/

set_option autoImplicit false

namespace PascalX86

/-- The cursor stands on one of the items, or on the end of a text without any. -/
def Cursor.Within (items : List Scanned) (c : Cursor) : Prop :=
  (.ok c.current ∈ items ∨ items = [] ∧ c.current.value.isEndOfFile = true) ∧
    ∀ item ∈ c.coming, item ∈ items

theorem Cursor.Within.advance {items : List Scanned} {c : Cursor} (h : c.Within items) :
    c.advance.2.Within items := by
  obtain ⟨current, coming⟩ := h
  unfold Cursor.advance
  split
  · exact ⟨current, coming⟩
  · split
    · exact ⟨current, coming⟩
    · next eq =>
      rw [eq, List.forall_mem_cons] at coming
      exact ⟨.inl coming.1, coming.2⟩
    · next eq =>
      rw [eq, List.forall_mem_cons] at coming
      exact ⟨current, coming.2⟩

/-- The names that symbols of functions are declared under are those of the functions. -/
def Table.Named (t : Table) : Prop :=
  ∀ symbol ∈ t.symbols, ∀ f, symbol.role = .function f → symbol.name = f.name

/-- A call is read from where its span starts. -/
def Signature.CitedAt (items : List Scanned) (f : Signature) (span : Span) : Prop :=
  ∃ name place, .ok ⟨.name name, place⟩ ∈ items ∧ place.start = span.start ∧
    f.name.value.same name = true

def Expr.Cited (items : List Scanned) : Expr → Prop
  | .var info symbol =>
      ∃ name, .ok ⟨.name name, info.span⟩ ∈ items ∧ symbol.name.value.same name = true
  | .call info function _ => function.CitedAt items info.span
  | _ => True

def Stmt.Cited (items : List Scanned) : Stmt → Prop
  | .call info function _ => function.CitedAt items info.span
  | _ => True

/-- A body of which all statements behind the initializers are read from names of the items. -/
def Stmt.Read (items : List Scanned) (locals : Table) (body : Stmt) : Prop :=
  ∃ info initializers statements, body = .block info (initializers ++ statements) ∧
    (∀ i ∈ initializers, i.Initial locals) ∧
    ∀ s ∈ statements, s.All (Expr.Cited items) (Stmt.Cited items)

structure Function.Read (items : List Scanned) (g : Function) : Prop where
  named : g.locals.Named
  body : g.body.Read items g.locals

structure ParserState.From (items : List Scanned) (s : ParserState) : Prop where
  cursor : s.cursor.Within items
  named : ∀ t ∈ s.scopes.tables, t.Named
  functions : ∀ g ∈ s.functions, g.Read items

namespace Parser

variable {α β : Type} {items : List Scanned}

/-- Read from the items, whatever else has been declared, the parser answers what fulfils `Q`. -/
def Cites (items : List Scanned) (p : Parser α) (Q : α → Prop) : Prop :=
  ∀ s : ParserState, s.From items → p.Ensures s fun a s' => s'.From items ∧ Q a

section Rules

variable {p : Parser α} {f : α → Parser β} {P Q : α → Prop} {R : β → Prop}

theorem Cites.pure {a : α} (h : Q a) : (Pure.pure a : Parser α).Cites items Q :=
  fun _ from_ => .pure ⟨from_, h⟩

theorem Cites.bind (hp : p.Cites items P) (hf : ∀ a, P a → (f a).Cites items R) :
    (p >>= f).Cites items R :=
  fun s from_ => (hp s from_).bind fun a s' h => hf a h.2 s' h.1

theorem Cites.mono (hp : p.Cites items P) (h : ∀ a, P a → Q a) : p.Cites items Q :=
  fun s from_ => (hp s from_).mono fun a _ ha => ⟨ha.1, h a ha.2⟩

theorem Cites.fail {e : SemanticError} {span : Span} : (fail e span : Parser α).Cites items Q :=
  fun _ _ => .fail

theorem Cites.failed {e : SemanticError} {span : Span} :
    ((Parser.fail e span : Parser α) >>= f).Cites items R :=
  .bind (P := fun _ => False) .fail fun _ h => h.elim

theorem Cites.unexpected {expected : List Expectation} :
    (unexpected expected : Parser α).Cites items Q :=
  fun _ _ => .unexpected

theorem Cites.located {span : Span} {answer : Except SemanticError α}
    (hf : ∀ a, answer = .ok a → (f a).Cites items R) :
    (Parser.locate span answer >>= f).Cites items R :=
  fun s from_ => .located fun a ha => hf a ha s from_

theorem Cites.ite {c : Prop} [Decidable c] {p q : Parser α} (hp : p.Cites items Q)
    (hq : q.Cites items Q) : (if c then p else q).Cites items Q := by
  split
  · exact hp
  · exact hq

theorem Cites.get {f : ParserState → Parser β} (h : ∀ s, (f s).Cites items R) :
    ((MonadState.get : Parser ParserState) >>= f).Cites items R :=
  fun s from_ => .get (h s s from_)

theorem Cites.modified {g : ParserState → ParserState}
    (h : ∀ s : ParserState, s.From items → (g s).From items) :
    (modify g : Parser PUnit).Cites items fun _ => True :=
  fun s from_ => .modified ⟨h s from_, trivial⟩

theorem Cites.iterate {step : α → Parser (Option α)} {a : α} (h : Q a)
    (each : ∀ a, Q a → (step a).Cites items fun r => Q (r.getD a)) :
    (iterate step a).Cites items Q := by
  intro s from_
  refine (Ensures.iterate (I := fun a s' => s'.From items ∧ Q a) ⟨from_, h⟩ ?_)
  rintro a s ⟨from_, ha⟩
  exact each a ha s from_

theorem Cites.many {p : Parser (Option α)} (each : p.Cites items fun r => ∀ a ∈ r, Q a) :
    (many p).Cites items fun as => ∀ a ∈ as, Q a := by
  intro s from_
  refine (Ensures.many (R := fun _ a _ => Q a) (E := fun s s' => s.From items → s'.From items)
    (I := fun s => s.From items) from_ (fun s from_ => ?_) fun s => id).mono ?_
  · refine (each s from_).mono fun r s' h => ?_
    cases r with
    | none => exact fun _ => h.1
    | some a => exact ⟨h.2 a rfl, h.1⟩
  · rintro as s' ⟨t, chain, inside, last⟩
    exact ⟨last inside, chain.forall_mem fun _ _ _ => id⟩

end Rules

section Tokens

theorem cites_current : current.Cites items fun _ => True := .get fun _ => .pure trivial

theorem cites_token : token.Cites items fun _ => True := cites_current.bind fun _ _ => .pure trivial

theorem cites_here : here.Cites items fun _ => True := cites_current.bind fun _ _ => .pure trivial

theorem cites_remaining : remaining.Cites items fun _ => True := .get fun _ => .pure trivial

theorem cites_bump : bump.Cites items fun _ => True := by
  refine fun s from_ => .get ?_
  have within := from_.cursor.advance
  split
  · next c eq =>
    rw [eq] at within
    exact .set (.pure ⟨⟨within, from_.named, from_.functions⟩, trivial⟩)
  · exact .throw

theorem cites_atMark (m : Mark) : (atMark m).Cites items fun _ => True :=
  cites_token.bind fun _ _ => .pure trivial

theorem cites_atKeyword (k : Keyword) : (atKeyword k).Cites items fun _ => True :=
  cites_token.bind fun _ _ => .pure trivial

theorem cites_atName : atName.Cites items fun _ => True := cites_token.bind fun _ _ => .pure trivial

theorem cites_eat (m : Mark) : (eat m).Cites items fun _ => True :=
  (cites_atMark m).bind fun _ _ => .ite (cites_bump.bind fun _ _ => .pure trivial) (.pure trivial)

theorem cites_eatKeyword (k : Keyword) : (eatKeyword k).Cites items fun _ => True :=
  (cites_atKeyword k).bind fun _ _ => .ite (cites_bump.bind fun _ _ => .pure trivial) (.pure trivial)

theorem cites_expect (m : Mark) : (expect m).Cites items fun _ => True :=
  (cites_atMark m).bind fun _ _ => .ite (cites_bump.bind fun _ _ => .pure trivial) .unexpected

theorem cites_keyword (k : Keyword) : (keyword k).Cites items fun _ => True :=
  (cites_atKeyword k).bind fun _ _ => .ite (cites_bump.bind fun _ _ => .pure trivial) .unexpected

/-- A name that was read stands in the text. -/
theorem cites_identifier :
    identifier.Cites items fun name => .ok ⟨.name name.value, name.span⟩ ∈ items := by
  intro s from_
  refine ensures_token.bind ?_
  rintro t s ⟨rfl, rfl⟩
  split
  · next n read =>
    have bumped : bump.Ensures s fun t s' => t = s.cursor.current ∧ s'.From items := by
      refine .get ?_
      have within := from_.cursor.advance
      split
      · next eq =>
        rw [eq] at within
        exact .set (.pure ⟨rfl, within, from_.named, from_.functions⟩)
      · exact .throw
    refine bumped.bind ?_
    rintro t s' ⟨rfl, from'⟩
    refine .pure ⟨from', ?_⟩
    show Except.ok ⟨.name n, s.cursor.current.span⟩ ∈ items
    rw [← read]
    rcases from_.cursor.1 with mem | ⟨-, last⟩
    · exact mem
    · rw [read] at last
      cases last
  · exact .unexpected

theorem cites_separatedBy {item : Parser α} {Q : α → Prop} (m : Mark) (each : item.Cites items Q) :
    (separatedBy m item).Cites items fun as => ∀ a ∈ as, Q a := by
  refine each.bind fun a ha => ?_
  refine (Cites.many (Q := Q) ((cites_eat m).bind fun _ _ => .ite ?_ ?_)).bind fun as has => .pure ?_
  · exact each.bind fun b hb => .pure (by simpa using hb)
  · exact .pure nofun
  · exact List.forall_mem_cons.mpr ⟨ha, has⟩

theorem cites_whileNames {item : Parser α} {Q : α → Prop} (each : item.Cites items Q) :
    (whileNames item).Cites items fun as => ∀ a ∈ as, Q a := by
  refine each.bind fun a ha => ?_
  refine (Cites.many (Q := Q) (cites_atName.bind fun _ _ => .ite ?_ ?_)).bind fun as has => .pure ?_
  · exact each.bind fun b hb => .pure (by simpa using hb)
  · exact .pure nofun
  · exact List.forall_mem_cons.mpr ⟨ha, has⟩

theorem cites_identifiers : identifiers.Cites items fun _ => True :=
  (cites_separatedBy .comma cites_identifier).mono fun _ _ => trivial

theorem cites_node (span : Span) (type : Ty) : (node span type).Cites items fun info => info.span = span :=
  fun _ from_ => .get (.set (.pure ⟨⟨from_.cursor, from_.named, from_.functions⟩, rfl⟩))

theorem cites_lookup (name : Located Name) :
    (lookup name).Cites items fun symbol =>
      symbol.name.value.same name.value = true ∧
        ∀ f, symbol.role = .function f → symbol.name = f.name := by
  refine fun s from_ => .get (.locate fun symbol found => ⟨from_, ?_⟩)
  simp only [Scopes.lookup] at found
  split at found
  · next other h =>
    obtain rfl : other = symbol := by simpa using found
    obtain ⟨t, mem, inside⟩ := List.exists_of_findSome?_eq_some h
    have same := List.find?_some (p := fun symbol : Symbol => symbol.name.value.same name.value) inside
    exact ⟨same, from_.named t mem other (List.mem_of_find?_eq_some inside)⟩
  · cases found

end Tokens

end Parser

end PascalX86
