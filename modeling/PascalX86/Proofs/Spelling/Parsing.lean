import PascalX86.Proofs.Checking.Table
import PascalX86.Proofs.Spelling.Small

/-!
# Parsing without case

A parser does the same with all names in small letters. What it answers, and all it leaves behind, is
then the same in small letters.
-/

set_option autoImplicit false

namespace PascalX86

open Spelled (small)

instance : Spelled Cursor :=
  ⟨fun c => ⟨small c.current, small c.coming, c.remaining, by simp [c.remaining_eq]⟩⟩

instance : Spelled ParserState where
  small s := { s with cursor := small s.cursor, scopes := small s.scopes, functions := small s.functions }

theorem advance_small (c : Cursor) : (small c).advance = small c.advance := by
  obtain ⟨⟨t, span⟩, coming, remaining, eq⟩ := c
  have last : (small t).isEndOfFile = t.isEndOfFile := by cases t <;> rfl
  unfold Cursor.advance
  change (if (small t).isEndOfFile then _ else _) = _
  rw [last]
  cases t.isEndOfFile with
  | true => rfl
  | false =>
      rcases coming with _ | ⟨_ | next, coming⟩
      · rfl
      · rfl
      · have last : (small next).value.isEndOfFile = next.value.isEndOfFile := by
          obtain ⟨t, span⟩ := next
          cases t <;> rfl
        change (Except.ok (!(small next).value.isEndOfFile), _) = _
        rw [last]
        rfl

namespace Declaring

variable {α β : Type} [Spelled α] [Spelled β]

/-- The declaration does the same with all names in small letters. -/
def Respells (d d' : Declaring α) : Prop := ∀ t, small (d.runOn t) = d'.runOn (small t)

theorem Respells.bind {d d' : Declaring α} {f f' : α → Declaring β} (hd : d.Respells d')
    (hf : ∀ a, (f a).Respells (f' (small a))) : (d >>= f).Respells (d' >>= f') := by
  intro t
  rw [runOn_bind, runOn_bind, ← hd t]
  cases d.runOn t with
  | mk answer t' =>
      cases answer with
      | ok a => exact hf a t'
      | error e => rfl

instance : Spelled Slot := ⟨fun slot => slot⟩

theorem respells_allocate (bytes : Nat) : (allocate bytes).Respells (allocate bytes) := by
  intro t
  have same : (small t).size = t.size := rfl
  rw [runOn_allocate, runOn_allocate, same]
  split <;> rfl

theorem respells_add (symbol : Symbol) : (add symbol).Respells (add (small symbol)) := by
  intro t
  have same : (small t).get? (small symbol).name.value = small (t.get? symbol.name.value) :=
    get?_small t symbol.name.value
  rw [runOn_add, runOn_add, same]
  cases t.get? symbol.name.value with
  | none =>
      have symbols : small (t.symbols ++ [symbol]) = (small t).symbols ++ [small symbol] :=
        small_append t.symbols [symbol]
      exact congrArg (fun symbols => (Except.ok (small symbol), { small t with symbols := symbols })) symbols
  | some _ => rfl

theorem respells_addVariable (name : Located Name) (type : Ty) :
    (addVariable name type).Respells (addVariable (small name) (small type)) := by
  unfold addVariable
  rw [size_small]
  exact (respells_allocate type.size).bind fun slot => respells_add ⟨name, type, .variable slot⟩

theorem respells_addParameter (name : Located Name) (type : Ty) (mode : Mode) (default : Option Value) :
    (addParameter name type mode default).Respells (addParameter (small name) (small type) mode default) := by
  unfold addParameter
  rw [mode_size_small]
  exact (respells_allocate (mode.size type)).bind fun slot =>
    respells_add ⟨name, type, .parameter mode default slot⟩

theorem respells_addConstant (name : Located Name) (type : Ty) (value : Value) (stored : Bool) :
    (addConstant name type value stored).Respells (addConstant (small name) (small type) value stored) := by
  unfold addConstant
  rw [size_small]
  cases stored with
  | true =>
      simp only [if_true, bind_map_left]
      exact (respells_allocate type.size).bind fun slot =>
        respells_add ⟨name, type, .constant value (some slot)⟩
  | false => exact respells_add ⟨name, type, .constant value none⟩

theorem respells_addType (name : Located Name) (type : Ty) :
    (addType name type).Respells (addType (small name) (small type)) :=
  respells_add ⟨name, type, .typeName⟩

theorem respells_addFunction (f : Signature) : (addFunction f).Respells (addFunction (small f)) :=
  respells_add ⟨f.name, .function f.ref, .function f⟩

end Declaring

namespace Parser

variable {α β : Type} [Spelled α] [Spelled β]

def Respells (p q : Parser α) : Prop := ∀ s, small (p s) = q (small s)

section Rules

variable {p q : Parser α} {f g : α → Parser β}

theorem Respells.pure {a : α} : (Pure.pure a : Parser α).Respells (Pure.pure (small a)) := fun _ => rfl

theorem Respells.answer {a b : α} (h : small a = b) : (Pure.pure a : Parser α).Respells (Pure.pure b) :=
  h ▸ .pure

theorem Respells.bind (hp : p.Respells q) (hf : ∀ a, (f a).Respells (g (small a))) :
    (p >>= f).Respells (q >>= g) := by
  intro s
  change small (Except.bind (p s) _) = Except.bind (q (small s)) _
  rw [← hp s]
  cases p s with
  | ok r => exact hf r.1 r.2
  | error e => rfl

theorem Respells.map {f g : α → β} (hp : p.Respells q) (hf : ∀ a, small (f a) = g (small a)) :
    (f <$> p).Respells (g <$> q) :=
  Respells.bind (f := fun a => Pure.pure (f a)) (g := fun a => Pure.pure (g a)) hp fun a => hf a ▸ .pure

theorem Respells.throw {e : CompileError} : (throw e : Parser α).Respells (throw (small e)) := fun _ => rfl

theorem Respells.fail {e : SemanticError} {span : Span} :
    (fail e span : Parser α).Respells (fail (small e) span) := fun _ => rfl

omit [Spelled α] in
theorem Respells.failed {e : SemanticError} {span : Span} :
    ((Parser.fail e span : Parser α) >>= f).Respells (Parser.fail (small e) span >>= g) := fun _ => rfl

theorem Respells.locate {span : Span} (answer : Except SemanticError α) :
    (locate span answer).Respells (locate span (small answer)) := by
  cases answer <;> exact fun _ => rfl

theorem Respells.get : (get : Parser ParserState).Respells get := fun _ => rfl

theorem Respells.set {s : ParserState} : (set s : Parser PUnit).Respells (set (small s)) := fun _ => rfl

theorem Respells.modify {f g : ParserState → ParserState} (h : ∀ s, small (f s) = g (small s)) :
    (modify f : Parser PUnit).Respells (modify g) :=
  fun s => congrArg (fun s => Except.ok ((), s)) (h s)

theorem Respells.ite {c c' : Prop} [Decidable c] [Decidable c'] {p' q' : Parser α} (same : c ↔ c')
    (hp : p.Respells q) (hq : p'.Respells q') : (if c then p else p').Respells (if c' then q else q') := by
  by_cases h : c
  · rw [if_pos h, if_pos (same.mp h)]
    exact hp
  · rw [if_neg h, if_neg fun h' => h (same.mpr h')]
    exact hq

theorem respells_current : current.Respells current := Respells.get.bind fun _ => .pure

theorem respells_token : token.Respells token := respells_current.bind fun _ => .pure

theorem respells_here : here.Respells here := respells_current.bind fun _ => .pure

theorem respells_remaining : remaining.Respells remaining := Respells.get.bind fun _ => .pure

theorem Respells.iterate {step step' : α → Parser (Option α)} (h : ∀ a, (step a).Respells (step' (small a)))
    (a : α) : (iterate step a).Respells (iterate step' (small a)) := by
  have upTo (k : Nat) : ∀ a, (iterateUpTo step k a).Respells (iterateUpTo step' k (small a)) := by
    induction k with
    | zero => exact fun a => .pure
    | succ k ih =>
        refine fun a => (h a).bind fun r => ?_
        cases r with
        | none => exact .pure
        | some b => exact ih b
  exact respells_remaining.bind fun k => upTo k a

theorem Respells.many {p q : Parser (Option α)} (h : p.Respells q) : (many p).Respells (many q) := by
  have upTo (k : Nat) : (manyUpTo p k).Respells (manyUpTo q k) := by
    induction k with
    | zero => exact .pure
    | succ k ih =>
        refine h.bind fun r => ?_
        cases r with
        | none => exact .pure
        | some b => exact ih.bind fun _ => .pure
  exact respells_remaining.bind upTo

end Rules

section Tokens

theorem Respells.unexpected {expected : List Expectation} :
    (unexpected expected : Parser α).Respells (unexpected expected) :=
  respells_current.bind fun _ => .throw

theorem respells_bump : bump.Respells bump := by
  refine Respells.get.bind fun s => ?_
  have same : (small s).cursor.advance = small s.cursor.advance := advance_small s.cursor
  rw [same]
  cases s.cursor.advance with
  | mk answer cursor =>
      cases answer with
      | ok _ => exact Respells.set.bind fun _ => .pure
      | error e => exact .throw

@[simp] theorem isMark_small (t : Token) (m : Mark) : (small t).isMark m = t.isMark m := by
  cases t <;> rfl

@[simp] theorem isKeyword_small (t : Token) (k : Keyword) : (small t).isKeyword k = t.isKeyword k := by
  cases t <;> rfl

@[simp] theorem isName_small (t : Token) : (small t).isName = t.isName := by
  cases t <;> rfl

theorem respells_atMark (m : Mark) : (atMark m).Respells (atMark m) :=
  respells_token.bind fun t => isMark_small t m ▸ .pure

theorem respells_atKeyword (k : Keyword) : (atKeyword k).Respells (atKeyword k) :=
  respells_token.bind fun t => isKeyword_small t k ▸ .pure

theorem respells_atName : atName.Respells atName :=
  respells_token.bind fun t => isName_small t ▸ .pure

theorem respells_eat (m : Mark) : (eat m).Respells (eat m) :=
  (respells_atMark m).bind fun _ => .ite .rfl (respells_bump.bind fun _ => .pure) .pure

theorem respells_eatKeyword (k : Keyword) : (eatKeyword k).Respells (eatKeyword k) :=
  (respells_atKeyword k).bind fun _ => .ite .rfl (respells_bump.bind fun _ => .pure) .pure

theorem respells_expect (m : Mark) : (expect m).Respells (expect m) :=
  (respells_atMark m).bind fun _ => .ite .rfl (respells_bump.bind fun _ => .pure) .unexpected

theorem respells_keyword (k : Keyword) : (keyword k).Respells (keyword k) :=
  (respells_atKeyword k).bind fun _ => .ite .rfl (respells_bump.bind fun _ => .pure) .unexpected

theorem respells_identifier : identifier.Respells identifier := by
  refine respells_token.bind fun t => ?_
  cases t with
  | name n => exact respells_bump.bind fun _ => .pure
  | _ => exact .unexpected

theorem respells_separatedBy {p q : Parser α} (m : Mark) (h : p.Respells q) :
    (separatedBy m p).Respells (separatedBy m q) := by
  refine h.bind fun _ => (Respells.many ?_).bind fun _ => .pure
  exact (respells_eat m).bind fun _ => .ite .rfl (h.bind fun _ => .pure) .pure

theorem respells_whileNames {p q : Parser α} (h : p.Respells q) :
    (whileNames p).Respells (whileNames q) := by
  refine h.bind fun _ => (Respells.many ?_).bind fun _ => .pure
  exact respells_atName.bind fun _ => .ite .rfl (h.bind fun _ => .pure) .pure

theorem respells_identifiers : identifiers.Respells identifiers :=
  respells_separatedBy .comma respells_identifier

end Tokens

section Symbols

theorem respells_node (span : Span) (type : Ty) : (node span type).Respells (node span (small type)) :=
  Respells.get.bind fun _ => Respells.set.bind fun _ => .pure

theorem lookup_small (s : Scopes) (name : Name) : (small s).lookup (small name) = small (s.lookup name) := by
  rw [Scopes.lookup, Scopes.lookup, lookup?_small]
  cases s.lookup? name <;> rfl

theorem respells_lookup (name : Located Name) : (lookup name).Respells (lookup (small name)) := by
  refine Respells.get.bind fun s => ?_
  have same : (small s).scopes.lookup (small name).value = small (s.scopes.lookup name.value) :=
    lookup_small s.scopes name.value
  rw [same]
  exact .locate _

theorem respells_declare {d d' : Declaring α} (name : Located Name) (h : d.Respells d') :
    (declare name d).Respells (declare (small name) d') := by
  refine Respells.get.bind fun s => ?_
  have same : d'.runOn (small s).scopes.current = small (d.runOn s.scopes.current) := (h _).symm
  simp only [Scopes.declare, same]
  exact Respells.set.bind fun _ => .locate _

theorem respells_pushScope (t : Table) : (pushScope t).Respells (pushScope (small t)) :=
  .modify fun _ => rfl

theorem respells_popScope : popScope.Respells popScope := by
  refine Respells.get.bind fun s => ?_
  have same : (small s).scopes.pop? = small s.scopes.pop? := pop?_small s.scopes
  rw [same]
  cases s.scopes.pop? with
  | none => exact .pure
  | some r => exact Respells.set.bind fun _ => .pure

theorem respells_constantNode (span : Span) (type : Ty) (value : Value) :
    (constantNode span type value).Respells (constantNode span (small type) value) := by
  refine (respells_node span type).bind fun info => ?_
  rw [isScalar_small]
  cases type.isScalar <;> exact .pure

end Symbols

end Parser

end PascalX86
