import PascalX86.Proofs.Folding.Conversion
import PascalX86.Proofs.Folding.Number
import PascalX86.Proofs.Phrase.Reading

/-!
# Phrases over constants

A phrase of literals and named constants is evaluated as it is read. What it is worth and which
divisions it makes are functions of the phrase, and parsing answers the one constant or fails at the
first division that has no quotient.
-/

set_option autoImplicit false

namespace PascalX86

/-- Characters count as their codes. -/
def Value.number : Value → Int
  | .integer n => n.toInt
  | .char code => code.toNat
  | _ => 0

/-- The type of integers and of characters. -/
def Value.plainType : Value → Ty
  | .char _ => .char
  | _ => .integer

inductive Value.Plain : Value → Prop where
  | integer (n : Int32) : Plain (.integer n)
  | char (code : UInt8) : Plain (.char code)

def Sign.onNumber (sign : Sign) (z : Int) : Int :=
  match sign with
  | .plus => z
  | .minus => -z
  | .not => -z - 1

/-- Tokens with a value of their own, or that name a constant in scope. -/
inductive Denotes (σ : Scopes) : Token → Value → Prop where
  | integer (n : Int32) : Denotes σ (.integer n) (.integer n)
  | char (code : UInt8) : Denotes σ (.char code) (.char code)
  | name {name : Name} {symbol : Symbol} {v : Value} {slot : Option Slot}
      (found : σ.lookup? name = some symbol) (role : symbol.role = .constant v slot)
      (plain : v.Plain) (type : symbol.type = v.plainType) : Denotes σ (.name name) v

theorem Denotes.plain {σ : Scopes} {t : Token} {v : Value} (h : Denotes σ t v) : v.Plain := by
  cases h with
  | integer n => exact .integer n
  | char code => exact .char code
  | name _ _ plain => exact plain

namespace Value

variable {v : Value}

theorem Plain.integer? (h : v.Plain) : ∃ w, v.integer? = some w ∧ w.toInt = v.number := by
  cases h with
  | integer n => exact ⟨n, rfl, rfl⟩
  | char code => exact ⟨_, rfl, toInt_ofCode code⟩

theorem Plain.cast? (h : v.Plain) : v.cast? .integer = v.integer?.map .integer := by
  cases h <;> rfl

theorem Plain.isIntegerLike (h : v.Plain) : v.plainType.isIntegerLike = true := by
  cases h <;> rfl

end Value

namespace Parser

variable {s : ParserState} {c : Cursor} {n : Nat} {i i' : NodeInfo} {l r v : Value}

/-- Two known operands are replaced by their result, unless one of them is a divisor of zero. -/
theorem operation_plain (op : Operator) (sign : Span) (hl : l.Plain) (hr : r.Plain)
    (typel : i.type = l.plainType) (typer : i'.type = r.plainType) :
    operation op sign (.const i l) (.const i' r) (s.moved c n) =
      if op.divides = true ∧ r.number = 0 then .error (.semantic ⟨.divisionByZero, sign⟩)
      else .ok (.const ⟨n, i.span.join i'.span, .integer⟩
        (.integer (Int32.ofInt (op.onNumbers l.number r.number))), s.moved c (n + 1)) := by
  obtain ⟨w, wordl, numberl⟩ := hl.integer?
  obtain ⟨w', wordr, numberr⟩ := hr.integer?
  have typed : op.type (Expr.const i l).type (Expr.const i' r).type = .ok ⟨.integer, .integer⟩ := by
    show op.type i.type i'.type = _
    rw [typel, typer, Operator.type_of_isIntegerLike hl.isIntegerLike hr.isIntegerLike]
  have folded : foldable? (.const i l) (.const i' r) .integer = some (.integer w, .integer w') := by
    simp [foldable?, Expr.value?, Ty.category, hl.cast?, hr.cast?, wordl, wordr]
  have zero : w' = 0 ↔ r.number = 0 := by
    rw [← numberr, ← Int32.toInt_inj]
    rfl
  rw [operation, typed]
  dsimp only [locate]
  rw [pure_bind]
  dsimp only
  rw [folded]
  dsimp only
  rw [Operator.eval_integers, Operator.onIntegers?_eq, numberl, numberr]
  by_cases fails : op.divides = true ∧ w' = 0
  · rw [if_pos fails, if_pos ⟨fails.1, zero.mp fails.2⟩]
    rfl
  · rw [if_neg fails, if_neg fun h => fails ⟨h.1, zero.mpr h.2⟩]
    rfl

theorem plus_plain (span : Span) (plain : v.Plain) (type : i.type = v.plainType) :
    ∃ info w n', info.type = .integer ∧ w.toInt = v.number ∧
      plus span (.const i v) (s.moved c n) = .ok (.const info (.integer w), s.moved c n') := by
  obtain ⟨id, place, t⟩ := i
  obtain rfl : t = v.plainType := type
  cases plain with
  | integer m => exact ⟨_, m, n, rfl, rfl, rfl⟩
  | char code => exact ⟨_, _, n + 1, rfl, toInt_ofCode code, rfl⟩

theorem apply_plain (sign : Sign) (span : Span) (plain : v.Plain) (type : i.type = v.plainType) :
    ∃ info n', info.type = .integer ∧ sign.apply span (.const i v) (s.moved c n) =
      .ok (.const info (.integer (Int32.ofInt (sign.onNumber v.number))), s.moved c n') := by
  obtain ⟨info, w, n', integer, number, run⟩ := @plus_plain s c n i v span plain type
  rw [← number]
  cases sign with
  | plus =>
      rw [Sign.onNumber, Int32.ofInt_toInt]
      exact ⟨info, n', integer, run⟩
  | minus =>
      rw [Sign.onNumber, Int32.ofInt_neg, Int32.ofInt_toInt]
      refine ⟨⟨n', span.join info.span, info.type⟩, n' + 1, integer, ?_⟩
      exact bind_of_ok run
  | not =>
      rw [Sign.onNumber, (Int32.ofInt_eq_iff_bmod_eq_toInt _ _).mpr (Int32.toInt_not w).symm]
      refine ⟨⟨n', span.join info.span, .integer⟩, n' + 1, rfl, ?_⟩
      exact bind_of_ok run

/-- The node of a leaf whose value is known. -/
def constantLeaf (known : Located Token → Value) (t : Located Token) : Parser Expr :=
  return .const (← node t.span (known t).plainType) (known t)

theorem leaf_of_denotes {known : Located Token → Value} {t : Located Token}
    (h : Denotes s.scopes t.value (known t)) : Leaf s (fun _ => True) (constantLeaf known) t := by
  refine ⟨(still_node _ _).bind fun _ => .pure _, fun inner c n _ => ?_⟩
  obtain ⟨token, span⟩ := t
  rw [factorOver, bind_of_ok token_push, constantLeaf]
  generalize known ⟨token, span⟩ = v at h
  cases h with
  | integer m => exact bind_of_ok (bump_push rfl)
  | char code => exact bind_of_ok (bump_push rfl)
  | @name name symbol v slot found role plain type =>
      have scalar : symbol.type.isScalar = true := by
        rw [type]
        cases plain <;> rfl
      show designator _ _ = _
      rw [designator, bind_of_ok identifier_push, bind_of_ok (lookup_run found), role]
      dsimp only
      rw [if_pos scalar, type]

end Parser

namespace Phrase

open PascalX86.Parser

/-- What a phrase is worth. Every sign and every operator brings its result back into 32 bits. -/
def value (known : Located Token → Value) : Phrase → Value
  | atom t => known t
  | group _ inner _ => inner.value known
  | signed sign _ operand => .integer (Int32.ofInt (sign.onNumber (operand.value known).number))
  | binary op _ left right =>
      .integer (Int32.ofInt (op.onNumbers (left.value known).number (right.value known).number))

/-- The divisions of a phrase in the order in which they are made, each with its divisor. -/
def divisions (known : Located Token → Value) : Phrase → List (Span × Int)
  | atom _ => []
  | group _ operand _ | signed _ _ operand => operand.divisions known
  | binary op sign left right =>
      left.divisions known ++ right.divisions known ++
        if op.divides then [(sign, (right.value known).number)] else []

variable {s : ParserState} {c : Cursor} {n : Nat} {known : Located Token → Value} {p : Phrase}

theorem plain_value (plain : ∀ t ∈ p.leaves, (known t).Plain) : (p.value known).Plain := by
  induction p with
  | atom t => exact plain t List.mem_cons_self
  | group _ _ _ ih => exact ih plain
  | signed | binary => exact .integer _

/-- A phrase whose divisions all have a quotient becomes the constant that it is worth. -/
theorem build_of_divisions (plain : ∀ t ∈ p.leaves, (known t).Plain)
    (quotients : ∀ d ∈ p.divisions known, d.2 ≠ 0) (n : Nat) :
    ∃ info n', info.type = (p.value known).plainType ∧
      p.build (constantLeaf known) (s.moved c n) =
        .ok (.const info (p.value known), s.moved c n') := by
  induction p generalizing n with
  | atom t => exact ⟨_, n + 1, rfl, rfl⟩
  | group _ _ _ ih => exact ih plain quotients n
  | signed sign span operand ih =>
      obtain ⟨info, n', type, run⟩ := ih plain quotients n
      have value : (operand.value known).Plain := plain_value plain
      obtain ⟨info', n'', integer, applied⟩ := @apply_plain s c n' info _ sign span value type
      exact ⟨info', n'', integer, (bind_of_ok run).trans applied⟩
  | binary op sign left right ihl ihr =>
      simp only [leaves, List.forall_mem_append] at plain
      simp only [divisions, List.forall_mem_append] at quotients
      obtain ⟨i, n₁, typel, runl⟩ := ihl plain.1 quotients.1.1 n
      obtain ⟨i', n₂, typer, runr⟩ := ihr plain.2 quotients.1.2 n₁
      have defined : ¬(op.divides = true ∧ (right.value known).number = 0) := by
        rintro ⟨divides, zero⟩
        have own := quotients.2
        simp [divides, zero] at own
      have operated := @operation_plain s c n₂ i i' _ _ op sign (plain_value plain.1)
        (plain_value plain.2) typel typer
      rw [if_neg defined] at operated
      exact ⟨_, _, rfl, (bind_of_ok runl).trans ((bind_of_ok runr).trans operated)⟩

theorem quotients_of_find? {ds : List (Span × Int)}
    (none : ds.find? (fun d => d.2 == 0) = none) : ∀ d ∈ ds, d.2 ≠ 0 := by
  simpa using none

/-- A phrase fails at the first of its divisions that has no quotient. -/
theorem build_of_division (plain : ∀ t ∈ p.leaves, (known t).Plain) {d : Span × Int}
    (first : (p.divisions known).find? (fun d => d.2 == 0) = some d) (n : Nat) :
    p.build (constantLeaf known) (s.moved c n) = .error (.semantic ⟨.divisionByZero, d.1⟩) := by
  induction p generalizing n with
  | atom t => cases first
  | group _ _ _ ih => exact ih plain first n
  | signed sign span operand ih => exact bind_of_error (ih plain first n)
  | binary op sign left right ihl ihr =>
      simp only [leaves, List.forall_mem_append] at plain
      -- The divisions of the left operand are made first, then those of the right one, and then the
      -- one of the operator itself.
      rw [divisions, List.find?_append, List.find?_append] at first
      cases firstl : (left.divisions known).find? (fun d => d.2 == 0) with
      | some d' =>
          obtain rfl : d' = d := by simpa [firstl] using first
          exact bind_of_error (ihl plain.1 firstl n)
      | none =>
          have quotients := quotients_of_find? firstl
          obtain ⟨i, n₁, typel, runl⟩ := @build_of_divisions s c known left plain.1 quotients n
          refine (bind_of_ok runl).trans ?_
          cases firstr : (right.divisions known).find? (fun d => d.2 == 0) with
          | some d' =>
              obtain rfl : d' = d := by simpa [firstl, firstr] using first
              exact bind_of_error (ihr plain.2 firstr n₁)
          | none =>
              have quotients := quotients_of_find? firstr
              obtain ⟨i', n₂, typer, runr⟩ := @build_of_divisions s c known right plain.2 quotients n₁
              refine (bind_of_ok runr).trans ?_
              have fails : op.divides = true ∧ (right.value known).number = 0 ∧
                  (sign, (right.value known).number) = d := by
                by_cases divides : op.divides = true <;> simp [firstl, firstr, divides] at first
                exact ⟨divides, first⟩
              have operated := @operation_plain s c n₂ i i' _ _ op sign (plain_value plain.1)
                (plain_value plain.2) typel typer
              rw [if_pos ⟨fails.1, fails.2.1⟩] at operated
              rw [← fails.2.2]
              exact operated

/-- A constant expression in front of a token that is no operator: if all its divisions have a
quotient, it is parsed as the one constant that the phrase is worth, and otherwise parsing fails at the
first division that has none. -/
theorem constant_expression (ranked : p.Ranked)
    (denotes : ∀ t ∈ p.leaves, Denotes s.scopes t.value (known t))
    (ahead : s.cursor = c.pushAll p.tokens) (ends : Operator.ofToken? c.current.value = none) :
    ((∀ d ∈ p.divisions known, d.2 ≠ 0) → ∃ info n, info.type = (p.value known).plainType ∧
      expression s = .ok (.const info (p.value known), s.moved c n)) ∧
    ∀ before d after, p.divisions known = before ++ d :: after → (∀ d ∈ before, d.2 ≠ 0) → d.2 = 0 →
      expression s = .error (.semantic ⟨.divisionByZero, d.1⟩) := by
  have plain : ∀ t ∈ p.leaves, (known t).Plain := fun t mem => (denotes t mem).plain
  have read : p.IsReadBy s (constantLeaf known) expression c :=
    ranked.expression (fun t mem => leaf_of_denotes (denotes t mem)) (fun _ => trivial) trivial
      ⟨trivial, fun op found => by simp [ends] at found⟩
  have parsed : expression s = p.build (constantLeaf known) (s.moved c s.nodes) := by
    rw [← read s.nodes, ← ahead]
    rfl
  constructor
  · intro quotients
    rw [parsed]
    exact build_of_divisions plain quotients s.nodes
  · intro before d after divisions earlier zero
    rw [parsed]
    apply build_of_division plain
    rw [divisions, List.find?_append]
    have none : before.find? (fun d => d.2 == 0) = none := by simpa using earlier
    simp [none, zero]

section Sample

def place (column : Nat) : Span := .single ⟨1, column⟩

/-- What is written as `('a' + k) shl 33 - 7 mod n`. -/
def sample (n : Int32) : Phrase :=
  let letter := atom ⟨.char 97, place 2⟩
  let name := atom ⟨.name (.ofSpelling "k"), place 8⟩
  let sum := group (place 1) (binary .add (place 6) letter name) (place 9)
  let shifted := binary .shl (place 11) sum (atom ⟨.integer 33, place 15⟩)
  let rest := binary .mod (place 22) (atom ⟨.integer 7, place 20⟩) (atom ⟨.integer n, place 26⟩)
  binary .sub (place 18) shifted rest

/-- In front of the phrase and the end of the text, where the constant `k` is 3. -/
def sampleState (n : Int32) : ParserState :=
  let k : Symbol := ⟨⟨.ofSpelling "k", .first⟩, .integer, .constant (.integer 3) none⟩
  let ahead := (Cursor.atEnd (place 27)).pushAll (sample n).tokens
  { initialState ahead with scopes := .start { Table.empty .locals 0 with symbols := [k] } }

def sampleValue (t : Located Token) : Value :=
  match t.value with
  | .char code => .char code
  | .integer n => .integer n
  | _ => .integer 3

theorem denotes_sample (n : Int32) :
    ∀ t ∈ (sample n).leaves, Denotes (sampleState n).scopes t.value (sampleValue t) := by
  simp only [sample, leaves, List.cons_append, List.nil_append, List.forall_mem_cons]
  exact ⟨.char 97, .name rfl rfl (.integer 3) rfl, .integer 33, .integer 7, .integer n, by simp⟩

theorem ranked_sample (n : Int32) : (sample n).Ranked := by
  simp [sample, Ranked, rank, Operator.rank, Operator.precedence, Precedence.rank]

theorem sample_evaluates :
    (∃ info n, info.type = .integer ∧
      expression (sampleState 2) =
        .ok (.const info (.integer 199), (sampleState 2).moved (.atEnd (place 27)) n)) ∧
    expression (sampleState 0) = .error (.semantic ⟨.divisionByZero, place 22⟩) := by
  constructor
  · have divisions : (sample 2).divisions sampleValue = [(place 22, 2)] := rfl
    refine (constant_expression (ranked_sample 2) (denotes_sample 2) rfl rfl).1 ?_
    rw [divisions]
    decide
  · have fails := (constant_expression (ranked_sample 0) (denotes_sample 0) rfl rfl).2
    exact fails [] (place 22, 0) [] rfl (by simp) rfl

end Sample

end Phrase

end PascalX86
