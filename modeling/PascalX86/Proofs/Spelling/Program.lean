import PascalX86.Proofs.Lowering.Jump
import PascalX86.Proofs.Spelling.Declaration
import PascalX86.Proofs.Spelling.Lowering
import PascalX86.Proofs.Spelling.Scanning

/-!
# Sources without case

Sources that differ only in the case of letters outside of quoted literals are compiled alike, from
the first error or the tokens down to the listing, where only labels of functions show the case.
-/

set_option autoImplicit false

namespace PascalX86

open Spelled (small)

section Acceptance

variable {s s' : Source} {items items' : List Scanned}

theorem small_mapM_id (items : List Scanned) : small (items.mapM id) = (small items).mapM id := by
  induction items with
  | nil => rfl
  | cons item items ih =>
      rw [small_cons, List.mapM_cons, List.mapM_cons, ← ih]
      cases item with
      | error e => rfl
      | ok t => cases items.mapM id <;> rfl

theorem cursor_ext {c c' : Cursor} (current : c.current = c'.current) (coming : c.coming = c'.coming)
    (remaining : c.remaining = c'.remaining) : c = c' := by
  obtain ⟨current, coming, remaining, eq⟩ := c
  cases current
  cases coming
  cases remaining
  rfl

theorem small_ofItems (same : small items = small items') :
    small (Program.ofItems items) = small (Program.ofItems items') := by
  obtain ⟨q, respells⟩ := Parser.respells_program
  have program (items : List Scanned) : small (Program.ofItems items) =
      (small (Cursor.ofItems items) |>.mapError CompileError.lexical) >>= fun cursor =>
        Prod.fst <$> q.run (Parser.initialState cursor) := by
    unfold Program.ofItems
    cases Cursor.ofItems items with
    | error e => rfl
    | ok cursor =>
        have parsed := respells (Parser.initialState cursor)
        change small (Prod.fst <$> Parser.program (Parser.initialState cursor)) =
          Prod.fst <$> q (small (Parser.initialState cursor))
        rw [← parsed]
        cases Parser.program (Parser.initialState cursor) <;> rfl
  have cursor (items : List Scanned) : small (Cursor.ofItems items) = Cursor.ofItems (small items) := by
    rcases items with _ | ⟨_ | t, items⟩
    · rfl
    · rfl
    · exact congrArg Except.ok (cursor_ext rfl rfl (length_small items).symm)
  rw [program, program, cursor, cursor, same]

end Acceptance

section Listings

variable {p p' : Program} {listing listing' : Listing}

/-- The label that a command places or calls. -/
def Command.named? : Command → Option String
  | .label name => some name
  | .instruction .call [.raw name] => some name
  | _ => none

theorem Command.cases_named (c : Command) :
    (∃ name, c = .label name) ∨ (∃ name, c = .instruction .call [.raw name]) ∨
      c.named? = none ∧ ∀ φ, c.relabel φ = c := by
  unfold Command.named?
  split
  · exact .inl ⟨_, rfl⟩
  · exact .inr (.inl ⟨_, rfl⟩)
  · next label call =>
    refine .inr (.inr ⟨rfl, fun φ => ?_⟩)
    unfold Command.relabel
    split
    · exact (label _ rfl).elim
    · exact (call _ rfl).elim
    · rfl

/-- Commands that are alike in small letters differ at most in the label that they name. -/
theorem Command.alike_cases {c c' : Command} (alike : small c = small c') :
    c = c' ∧ c.named? = none ∨ ∃ name name', small name = small name' ∧
      c.named? = some name ∧ c'.named? = some name' ∧ ∀ φ, φ name = name' → c.relabel φ = c' := by
  have small_plain {c : Command} (plain : ∀ φ, c.relabel φ = c) : small c = c := plain _
  rcases c.cases_named with ⟨name, rfl⟩ | ⟨name, rfl⟩ | ⟨none, plain⟩
  · rcases c'.cases_named with ⟨name', rfl⟩ | ⟨name', rfl⟩ | ⟨none, plain⟩
    · exact .inr ⟨name, name', Command.label.inj alike, rfl, rfl, fun φ eq => congrArg Command.label eq⟩
    · cases alike
    · rw [small_plain plain] at alike
      rw [← alike] at none
      cases none
  · rcases c'.cases_named with ⟨name', rfl⟩ | ⟨name', rfl⟩ | ⟨none, plain⟩
    · cases alike
    · have same : small name = small name' := by
        have operands := (Command.instruction.inj alike).2
        exact Operand.raw.inj (List.cons.inj operands).1
      exact .inr ⟨name, name', same, rfl, rfl, fun φ eq => by rw [← eq]; rfl⟩
    · rw [small_plain plain] at alike
      rw [← alike] at none
      cases none
  · rw [small_plain plain] at alike
    rcases c'.cases_named with ⟨name', rfl⟩ | ⟨name', rfl⟩ | ⟨-, plain'⟩
    · rw [alike] at none
      cases none
    · rw [alike] at none
      cases none
    · exact .inl ⟨alike.trans (small_plain plain'), none⟩

/-- What a command of a listing can name. -/
inductive Program.Mentions (p : Program) : String → Prop where
  | start : p.Mentions startLabel
  | inside {word : String} (known : word ∈ labelWords) (n : Nat) : p.Mentions (numbered word n)
  | function {g : Function} (listed : g ∈ p.functions) : p.Mentions g.signature.label

theorem Laid.named {label : Nat} {functions : List Function} {whole : Code}
    (laid : Laid label functions whole) (sound : ∀ g ∈ functions, ∃ σ bound, g.body.Sound σ bound)
    {c : Command} (mem : c ∈ whole) {name : String} (named : c.named? = some name) :
    name ∈ entries functions ∨ (∃ word ∈ labelWords, ∃ n, name = numbered word n) ∨
      ∃ g ∈ functions, ∃ f ∈ g.body.callees, name = f.label := by
  induction laid with
  | nil => cases mem
  | @cons label g later inner rest framed _ ih =>
      rw [List.forall_mem_cons] at sound
      obtain ⟨⟨σ, bound, tree⟩, others⟩ := sound
      simp only [List.cons_append, List.append_assoc, List.mem_cons, List.mem_append, List.not_mem_nil,
        false_or] at mem
      rcases mem with rfl | mem | rfl | mem
      · cases named
        exact .inl List.mem_cons_self
      · rcases c.cases_named with ⟨label, rfl⟩ | ⟨label, rfl⟩ | ⟨none, -⟩
        · cases named
          have inside : name ∈ Code.labels inner := List.mem_filterMap.mpr ⟨_, mem, rfl⟩
          rw [framed.labels tree] at inside
          exact .inr (.inl (Stmt.exists_numbered inside))
        · cases named
          have called : [Operand.raw name] ∈ Code.calls inner := List.mem_filterMap.mpr ⟨_, mem, rfl⟩
          rw [framed.calls tree] at called
          obtain ⟨f, callee, same⟩ := List.mem_map.mp called
          exact .inr (.inr ⟨g, List.mem_cons_self, f, callee, (Operand.raw.inj (List.cons.inj same).1).symm⟩)
        · rw [none] at named
          cases named
      · unfold Function.exit at named
        split at named <;> cases named
      · rcases ih others mem with known | known | ⟨g, listed, called⟩
        · exact .inl (List.mem_cons_of_mem _ known)
        · exact .inr (.inl known)
        · exact .inr (.inr ⟨g, List.mem_cons_of_mem _ listed, called⟩)

theorem Program.Nested.mentions (nested : p.Nested) (lowered : p.lower = .ok listing) {c : Command}
    (mem : c ∈ listing.code) {name : String} (named : c.named? = some name) : p.Mentions name := by
  rcases (nested.laid lowered).named nested.bodies_sound mem named with entry | ⟨word, known, n, rfl⟩ | ⟨g, listed, f, callee, rfl⟩
  · rw [Program.bodies, entries_append_main, List.mem_append, List.mem_singleton] at entry
    rcases entry with entry | rfl
    · obtain ⟨g, listed, rfl⟩ := List.mem_map.mp entry
      exact .function listed
    · exact .start
  · exact .inside known n
  · obtain ⟨before, later, split⟩ := List.append_of_mem listed
    obtain ⟨h, names⟩ := nested.callee split f callee
    exact names.same ▸ .function names.listed

/-- The labels of the functions of one program in place of those of another one. -/
def Program.respelling (p p' : Program) (name : String) : String :=
  ((p.functions.zip p'.functions).find? fun pair => pair.1.signature.label == name).elim name fun pair =>
    pair.2.signature.label

theorem zip_small {α : Type} [Spelled α] {as bs : List α} (same : small as = small bs) :
    (∀ pair ∈ as.zip bs, small pair.1 = small pair.2) ∧ ∀ a ∈ as, ∃ b, (a, b) ∈ as.zip bs := by
  induction as generalizing bs with
  | nil => simp
  | cons a as ih =>
      cases bs with
      | nil => cases same
      | cons b bs =>
          obtain ⟨first, rest⟩ := List.cons.inj same
          obtain ⟨alike, paired⟩ := ih rest
          refine ⟨List.forall_mem_cons.mpr ⟨first, alike⟩, List.forall_mem_cons.mpr ⟨⟨b, ?_⟩, ?_⟩⟩
          · exact List.mem_cons_self
          · intro x mem
            obtain ⟨y, pair⟩ := paired x mem
            exact ⟨y, List.mem_cons_of_mem _ pair⟩

theorem Signature.id_eq_of_small_label {f f' : Signature} (same : small f.label = small f'.label) :
    f.id = f'.id := by
  rw [← small_label, ← small_label, Signature.label_eq, Signature.label_eq] at same
  have numbers := congrArg labelNumber same
  rwa [labelNumber_numbered, labelNumber_numbered] at numbers

/-- What no function is called is in small letters, and no label of a function is the same then. -/
theorem Program.Mentions.cases {name : String} (mentioned : p.Mentions name) :
    (∃ g ∈ p.functions, name = g.signature.label) ∨
      small name = name ∧ ∀ f : Signature, small f.label ≠ name := by
  cases mentioned with
  | start =>
      refine .inr ⟨rfl, fun f => ?_⟩
      rw [← small_label, Signature.label_eq]
      exact numbered_ne_startLabel _ _
  | @inside word known n =>
      refine .inr ⟨Command.label.inj (small_mark known n), fun f => ?_⟩
      rw [← small_label]
      exact Signature.label_ne_numbered _ known n
  | function listed => exact .inl ⟨_, listed, rfl⟩

/-- Names that are alike are those of one statement, or of functions in the same place. -/
theorem Program.respelling_eq (nested : p'.Nested)
    (functions : small p.functions = small p'.functions) {name name' : String}
    (mentioned : p.Mentions name) (mentioned' : p'.Mentions name')
    (same : small name = small name') : p.respelling p' name = name' := by
  obtain ⟨alike, paired⟩ := zip_small functions
  rw [Program.respelling]
  rcases mentioned.cases with ⟨g, listed, rfl⟩ | ⟨fixed, other⟩
  · rcases mentioned'.cases with ⟨g', listed', rfl⟩ | ⟨fixed', other'⟩
    · cases found : (p.functions.zip p'.functions).find? fun pair =>
          pair.1.signature.label == g.signature.label with
      | none =>
          obtain ⟨h, pair⟩ := paired g listed
          simpa using List.find?_eq_none.mp found _ pair
      | some pair =>
          have mem := List.mem_of_find?_eq_some found
          have label : pair.1.signature.label = g.signature.label := by simpa using List.find?_some found
          have number : pair.1.signature.id = pair.2.signature.id :=
            congrArg (fun h => h.signature.id) (show small pair.1 = small pair.2 from alike pair mem)
          have ids : pair.2.signature.id = g'.signature.id := by
            rw [← number, ← Signature.id_eq_of_small_label same]
            exact Signature.id_eq_of_small_label (congrArg small label)
          have distinct : (p'.functions.map fun g => g.signature.id).Nodup :=
            List.pairwise_map.mpr (List.pairwise_append.mp nested.distinct).1
          have same : pair.2 = g' :=
            List.inj_on_of_nodup_map distinct (List.of_mem_zip mem).2 listed' ids
          exact congrArg (fun h : Function => h.signature.label) same
    · exact (other' g.signature (same.trans fixed')).elim
  · have none : (p.functions.zip p'.functions).find? (fun pair => pair.1.signature.label == name) = none := by
      refine List.find?_eq_none.mpr fun pair mem eq => other pair.1.signature ?_
      rw [beq_iff_eq.mp eq, fixed]
    rw [none]
    rcases mentioned'.cases with ⟨g', listed', rfl⟩ | ⟨fixed', -⟩
    · exact (other g'.signature (same.symm.trans fixed)).elim
    · exact fixed.symm.trans (same.trans fixed')

/-- No other label gets another name, and names change in case only. -/
theorem Program.small_respelling (functions : small p.functions = small p'.functions)
    (name : String) : small (p.respelling p' name) = small name := by
  rw [Program.respelling]
  cases found : (p.functions.zip p'.functions).find? fun pair => pair.1.signature.label == name with
  | none => rfl
  | some pair =>
      have alike := (zip_small functions).1 pair (List.mem_of_find?_eq_some found)
      have label : pair.1.signature.label = name := by simpa using List.find?_some found
      have labels := congrArg (fun g : Function => g.signature.label) alike
      change (small pair.1.signature).label = (small pair.2.signature).label at labels
      rw [small_label, small_label, label] at labels
      exact labels.symm

theorem map_eq_of_alike {α β : Type} {f : α → β} {g : α → α} {as bs : List α} (same : as.map f = bs.map f)
    (each : ∀ a ∈ as, ∀ b ∈ bs, f a = f b → g a = b) : as.map g = bs := by
  induction as generalizing bs with
  | nil =>
      cases bs with
      | nil => rfl
      | cons b bs => cases same
  | cons a as ih =>
      cases bs with
      | nil => cases same
      | cons b bs =>
          obtain ⟨first, rest⟩ := List.cons.inj same
          rw [List.map_cons, each a List.mem_cons_self b List.mem_cons_self first]
          exact congrArg (b :: ·)
            (ih rest fun a mem b mem' => each a (List.mem_cons_of_mem _ mem) b (List.mem_cons_of_mem _ mem'))

theorem Program.Nested.relabel (nested : p.Nested) (nested' : p'.Nested) (lowered : p.lower = .ok listing)
    (lowered' : p'.lower = .ok listing') (functions : small p.functions = small p'.functions)
    (same : small listing = small listing') : listing' = listing.relabel (p.respelling p') := by
  obtain ⟨levels, code⟩ := listing
  obtain ⟨levels', code'⟩ := listing'
  obtain ⟨rfl, codes⟩ := Listing.mk.inj same
  refine congrArg (Listing.mk levels) (map_eq_of_alike codes fun c mem c' mem' alike => ?_).symm
  rcases Command.alike_cases alike with ⟨rfl, none⟩ | ⟨name, name', same, named, named', relabel⟩
  · rcases c.cases_named with ⟨name, rfl⟩ | ⟨name, rfl⟩ | ⟨-, plain⟩
    · cases none
    · cases none
    · exact plain _
  · exact relabel _ (respelling_eq nested' functions (nested.mentions lowered mem named)
      (nested'.mentions lowered' mem' named') same)

end Listings

section Sources

variable {s s' : Source}

/-- Sources that differ only in the case of letters outside of quoted literals have the same tokens, and
are both rejected with the same error or both accepted with the same trees, up to the spelling of
names. There is then no code for both, or the listings differ at most in the labels of functions. -/
theorem Source.case_insensitive (ending : s.ending = s'.ending)
    (alike : Scan.uncased .code s.characters = Scan.uncased .code s'.characters) :
    small s.tokens = small s'.tokens ∧
    small s.program = small s'.program ∧
    ∀ p p', s.program = .ok p → s'.program = .ok p' →
      (∃ e e', p.lower = .error e ∧ p'.lower = .error e' ∧ small e = small e') ∨
      ∃ listing, p.lower = .ok listing ∧ p'.lower = .ok (listing.relabel (p.respelling p')) ∧
        ∀ name, small (p.respelling p' name) = small name := by
  have items : small s.scan = small s'.scan := by
    rw [Source.small_scan, Source.small_scan, ending, alike]
  have programs : small s.program = small s'.program := small_ofItems items
  refine ⟨?_, programs, fun p p' accepted accepted' => ?_⟩
  · rw [Source.tokens, small_mapM_id, items, ← small_mapM_id]
    rfl
  rw [accepted, accepted'] at programs
  have same : small p = small p' := Except.ok.inj programs
  have functions : small p.functions = small p'.functions := congrArg Program.functions same
  have lowered := Program.small_lower p
  rw [same, ← Program.small_lower p'] at lowered
  cases code : p.lower with
  | error e =>
      cases code' : p'.lower with
      | error e' =>
          rw [code, code'] at lowered
          exact .inl ⟨e, e', rfl, rfl, Except.error.inj lowered⟩
      | ok listing' =>
          rw [code, code'] at lowered
          cases lowered
  | ok listing =>
      cases code' : p'.lower with
      | error e' =>
          rw [code, code'] at lowered
          cases lowered
      | ok listing' =>
          rw [code, code'] at lowered
          have nested := Program.nested (Source.derives accepted)
          have nested' := Program.nested (Source.derives accepted')
          have relabeled := nested.relabel nested' code code' functions (Except.ok.inj lowered)
          exact .inr ⟨listing, rfl, congrArg Except.ok relabeled, Program.small_respelling functions⟩

def Source.quiet : Source := ⟨"quiet.pas", [
  "function f(n: integer): integer;",
  "begin result := n + $a end;",
  "begin writeln('F', F(1)) end."], .endOfFile⟩

def Source.loud : Source := ⟨"loud.pas", [
  "FUNCTION F(N: Integer): INTEGER;",
  "BEGIN RESULT := n + $A END;",
  "BEGIN WriteLn('F', f(1)) END."], .endOfFile⟩

theorem Source.quiet_lowers :
    (Source.quiet.program.toOption.bind fun p => p.lower.toOption).isSome = true := by
  decide +kernel

theorem Source.loud_lowers :
    (Source.loud.program.toOption.bind fun p => p.lower.toOption).isSome = true := by
  decide +kernel

theorem Source.quiet_loud : Source.quiet.ending = Source.loud.ending ∧
    Scan.uncased .code Source.quiet.characters = Scan.uncased .code Source.loud.characters ∧
    ∃ p p' listing, Source.quiet.program = .ok p ∧ Source.loud.program = .ok p' ∧
      small p = small p' ∧ p.lower = .ok listing ∧
      p'.lower = .ok (listing.relabel (p.respelling p')) := by
  have alike : Scan.uncased .code Source.quiet.characters = Scan.uncased .code Source.loud.characters := by
    decide +kernel
  obtain ⟨p, accepted, listing, lowered⟩ := exists_of_bind_toOption Source.quiet_lowers
  obtain ⟨p', accepted', -⟩ := exists_of_bind_toOption Source.loud_lowers
  obtain ⟨-, programs, listings⟩ := @Source.case_insensitive .quiet .loud rfl alike
  rw [accepted, accepted'] at programs
  refine ⟨rfl, alike, p, p', listing, accepted, accepted', Except.ok.inj programs, lowered, ?_⟩
  rcases listings p p' accepted accepted' with ⟨e, -, failed, -⟩ | ⟨listing', found, relabeled, -⟩
  · rw [lowered] at failed
    cases failed
  · rw [lowered] at found
    cases found
    exact relabeled

end Sources

end PascalX86
