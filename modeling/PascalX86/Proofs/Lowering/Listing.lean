import PascalX86.Proofs.Checking.Call
import PascalX86.Proofs.Lowering.Call

/-!
# Functions in the listing

The listing is the code of all functions, one after the other, the main program last. Each stands
between its own label and its last instruction, and all labels of the listing are distinct.
-/

set_option autoImplicit false

namespace PascalX86

open Register

namespace Function

theorem frames_append_main {main : Function} (level : main.signature.level = 0)
    (block : main.signature.block = 0) (g : Function) (later : List Function) :
    g.frames (later ++ [main]) = g.frames later := by
  rw [frames, outerBlocks_append_main level block, frames]

theorem frames_main {main : Function} (level : main.signature.level = 0)
    (block : main.signature.block = 0) : main.frames [] = mainFrames := by
  rw [frames, level, block]
  rfl

/-- The instructions that make the frame of a function, after its label. The main program, after
which no function is listed, has no caller's entry of the display to keep. -/
def enter (g : Function) (later : List Function) : Code :=
  let entry := displayEntry g.signature.level
  let make :=
    [.instruction .push [ebp], .instruction .mov [ebp, esp], .instruction .mov [entry, ebp],
     .instruction .sub [esp, .ofNat (g.frameSize (g.frames later))]]
  if later = [] then make else .instruction .push [entry] :: make

/-- The instructions that leave the frame of a function, apart from the last one. -/
def leave (g : Function) (later : List Function) : Code :=
  let restore := [.instruction .mov [esp, ebp], .instruction .pop [ebp]]
  if later = [] then restore else restore ++ [.instruction .pop [displayEntry g.signature.level]]

def entry (g : Function) (later : List Function) : String :=
  if later = [] then startLabel else g.signature.label

def exit (later : List Function) : Command :=
  if later = [] then .instruction .exit [] else .instruction .ret []

/-- The code of a function between its label and its last instruction. -/
structure Framed (g : Function) (later : List Function) (label : Nat) (inner : Code) : Prop where
  parts : ∃ body result : Code, g.bodyCode (g.frames later) label = .ok body ∧
    (result = [] ∨ later ≠ [] ∧ g.returnCode = .ok result) ∧
    inner = g.enter later ++ body ++ (result ++ g.leave later)

end Function

/-- The code of functions one after the other, from the first free label on. -/
inductive Laid : Nat → List Function → Code → Prop where
  | nil (label : Nat) : Laid label [] []
  | cons {label : Nat} {g : Function} {later : List Function} {inner rest : Code}
      (framed : g.Framed later label inner) (after : Laid (label + g.body.labels) later rest) :
      Laid label (g :: later)
        ((.label (g.entry later) :: inner ++ [Function.exit later]) ++ rest)

theorem Laid.of_functionsCode {main : Function} {final : Code} (level : main.signature.level = 0)
    (block : main.signature.block = 0) {functions : List Function} {label : Nat} {code : Code}
    (lowered : functionsCode label functions = .ok code)
    (last : Laid (label + bodyLabels functions) [main] final) :
    Laid label (functions ++ [main]) (code ++ final) := by
  induction functions generalizing label code with
  | nil =>
      cases lowered
      exact last
  | cons g later ih =>
      simp only [functionsCode, bind_eq_ok] at lowered
      obtain ⟨own, lowered, rest, others, eq⟩ := lowered
      cases eq
      rw [bodyLabels, ← Nat.add_assoc] at last
      have after := ih others last
      simp only [Function.code, bind_eq_ok] at lowered
      obtain ⟨result, answered, body, lowered, eq⟩ := lowered
      cases eq
      have framed : g.Framed (later ++ [main]) label
          (g.enter (later ++ [main]) ++ body ++ (result ++ g.leave (later ++ [main]))) := by
        refine ⟨body, result, ?_, .inr ⟨by simp, answered⟩, rfl⟩
        rw [Function.frames_append_main level block]
        exact lowered
      have laid := Laid.cons framed after
      simpa [Function.enter, Function.leave, Function.entry, Function.exit,
        Function.frames_append_main level block] using laid

theorem Program.Nested.laid {p : Program} (nested : p.Nested) {listing : Listing}
    (lowered : p.lower = .ok listing) : Laid 0 p.bodies listing.code := by
  obtain ⟨level, block⟩ := nested.main
  simp only [Program.lower, bind_eq_ok] at lowered
  obtain ⟨functions, lowered, main, final, eq⟩ := lowered
  cases eq
  simp only [Function.mainCode, bind_eq_ok] at final
  obtain ⟨body, final, eq⟩ := final
  cases eq
  refine Laid.of_functionsCode level block lowered ?_
  have framed : p.main.Framed [] (0 + bodyLabels p.functions)
      (p.main.enter [] ++ body ++ ([] ++ p.main.leave [])) := by
    refine ⟨body, [], ?_, .inl rfl, rfl⟩
    rw [Function.frames_main level block, Nat.zero_add]
    exact final
  have laid := Laid.cons framed (.nil _)
  simpa [Function.enter, Function.leave, Function.entry, Function.exit,
    Function.frames_main level block, level] using laid

/-- Where a function stands in the listing, with the code of the functions after it. -/
theorem Laid.around {before later : List Function} {g : Function} {label : Nat} {whole : Code}
    (laid : Laid label (before ++ g :: later) whole) : ∃ front inner back,
      whole = front ++ (.label (g.entry later) :: inner ++ [Function.exit later]) ++ back ∧
      g.Framed later (label + bodyLabels before) inner ∧
      Laid (label + bodyLabels before + g.body.labels) later back := by
  induction before generalizing label whole with
  | nil =>
      cases laid with
      | @cons _ _ _ inner rest framed after => exact ⟨[], inner, rest, rfl, framed, after⟩
  | cons h before ih =>
      cases laid with
      | @cons _ _ _ inner rest framed after =>
          obtain ⟨front, own, back, rfl, placed, laid⟩ := ih after
          have count : label + h.body.labels + bodyLabels before = label + bodyLabels (h :: before) :=
            Nat.add_assoc _ _ _
          rw [count] at placed laid
          exact ⟨(.label (h.entry (before ++ g :: later)) :: inner ++
            [Function.exit (before ++ g :: later)]) ++ front, own, back, by simp, placed, laid⟩

theorem Laid.at {before later : List Function} {g : Function} {label : Nat} {whole : Code}
    (laid : Laid label (before ++ g :: later) whole) : ∃ front inner back,
      whole = front ++ (.label (g.entry later) :: inner ++ [Function.exit later]) ++ back ∧
      g.Framed later (label + bodyLabels before) inner := by
  obtain ⟨front, inner, back, whole, framed, -⟩ := laid.around
  exact ⟨front, inner, back, whole, framed⟩

theorem Source.nested_lowers :
    (Source.nested.program.toOption.bind fun p => p.lower.toOption).isSome = true := by
  decide +kernel

section Labels

variable {p : Program} {g : Function} {later : List Function}

theorem Function.labels_returnCode {result : Code} (answered : g.returnCode = .ok result) :
    Code.labels result = [] := by
  unfold returnCode at answered
  split at answered <;> cases answered <;> rfl

/-- All labels inside the code of a function are those of its body. -/
theorem Function.Framed.labels {label : Nat} {inner : Code} (framed : g.Framed later label inner)
    {σ : Scopes} {bound : Nat} (sound : g.body.Sound σ bound) :
    Code.labels inner = g.body.names label := by
  obtain ⟨body, result, lowered, answered, rfl⟩ := framed.parts
  have names := (Stmt.lowers_labels none g.locals.size label sound).result body lowered
  have enter : Code.labels (g.enter later) = [] := by
    unfold Function.enter
    dsimp only
    split <;> rfl
  have leave : Code.labels (g.leave later) = [] := by
    unfold Function.leave
    dsimp only
    split <;> rfl
  have result : Code.labels result = [] := by
    rcases answered with rfl | ⟨-, answered⟩
    · rfl
    · exact Function.labels_returnCode answered
  simp [names, enter, leave, result]

def entries : List Function → List String
  | [] => []
  | g :: later => g.entry later :: entries later

/-- The labels of the statements of all bodies. -/
def bodyNames (label : Nat) : List Function → List String
  | [] => []
  | g :: later => g.body.names label ++ bodyNames (label + g.body.labels) later

theorem Laid.labels {label : Nat} {functions : List Function} {whole : Code}
    (laid : Laid label functions whole)
    (sound : ∀ g ∈ functions, ∃ σ bound, g.body.Sound σ bound) :
    (Code.labels whole).Perm (entries functions ++ bodyNames label functions) := by
  induction laid with
  | nil => exact .refl []
  | @cons label g later inner rest framed _ ih =>
      rw [List.forall_mem_cons] at sound
      obtain ⟨⟨σ, bound, tree⟩, others⟩ := sound
      have exit : Code.labels [Function.exit later] = [] := by
        unfold Function.exit
        split <;> rfl
      rw [List.cons_append, List.cons_append, Code.labels_label, Code.labels_append,
        Code.labels_append, framed.labels tree, exit, List.append_nil]
      refine List.Perm.cons _ ?_
      exact ((ih others).append_left _).trans (List.perm_append_comm_assoc _ _ _)

theorem bodyNames_numbers (label : Nat) (functions : List Function) :
    ((bodyNames label functions).map labelNumber).Perm
      (List.range' label (bodyLabels functions)) := by
  induction functions generalizing label with
  | nil => exact .refl []
  | cons g later ih =>
      rw [bodyNames, bodyLabels, List.map_append, ← List.range'_append_1]
      exact (g.body.numbers_perm label).append (ih (label + g.body.labels))

theorem bodyNames_nodup (label : Nat) (functions : List Function) :
    (bodyNames label functions).Nodup := by
  apply List.Nodup.of_map labelNumber
  rw [(bodyNames_numbers label functions).nodup_iff]
  exact List.nodup_range'

theorem exists_numbered_of_mem_bodyNames {label : Nat} {functions : List Function} {name : String}
    (mem : name ∈ bodyNames label functions) : ∃ word ∈ labelWords, ∃ n, name = numbered word n := by
  induction functions generalizing label with
  | nil => simp [bodyNames] at mem
  | cons g later ih =>
      rcases List.mem_append.mp mem with mem | mem
      · exact Stmt.exists_numbered mem
      · exact ih mem

theorem Signature.label_eq (f : Signature) :
    f.label = numbered ("fn_" ++ f.name.value.spelling) f.id := by
  simp [Signature.label, numbered, toString]

/-- The words of statements are longer than the start of the labels of functions, and differ from it. -/
theorem Signature.label_ne_numbered (f : Signature) {word : String} (mem : word ∈ labelWords) (n : Nat) :
    f.label ≠ numbered word n := by
  intro same
  have heads := congrArg (fun name => name.toList.take 3) same
  have words : ∀ word ∈ labelWords, 3 ≤ word.toList.length ∧ word.toList.take 3 ≠ ['f', 'n', '_'] := by
    decide
  obtain ⟨long, other⟩ := words word mem
  simp only [f.label_eq, toList_numbered, String.toList_append, List.append_assoc] at heads
  rw [List.take_append_of_le_length (by decide), List.take_append_of_le_length long] at heads
  exact other heads.symm

theorem entries_append_main (functions : List Function) (main : Function) :
    entries (functions ++ [main]) = functions.map (fun g => g.signature.label) ++ [startLabel] := by
  induction functions with
  | nil => rfl
  | cons g later ih => simp [entries, ih, Function.entry]

theorem Program.Nested.entries_nodup (nested : p.Nested) : (entries p.bodies).Nodup := by
  have distinct := (List.pairwise_append.mp nested.distinct).1
  rw [Program.bodies, entries_append_main, List.nodup_append]
  refine ⟨?_, List.nodup_singleton _, fun name mem start last => ?_⟩
  · refine List.pairwise_map.mpr (distinct.imp fun {a b} differ same => differ ?_)
    have numbers := congrArg labelNumber same
    simpa [Signature.label_eq, labelNumber_numbered] using numbers
  · obtain ⟨g, -, rfl⟩ := List.mem_map.mp mem
    rw [List.mem_singleton] at last
    rw [last, Signature.label_eq]
    exact numbered_ne_startLabel _ _

theorem Program.Nested.bodies_sound (nested : p.Nested) :
    ∀ g ∈ p.bodies, ∃ σ bound, g.body.Sound σ bound := by
  intro g mem
  obtain ⟨σ, completes⟩ := nested.completes g mem
  obtain ⟨bound, tree, -⟩ := completes.sound
  exact ⟨σ, bound, tree⟩

/-- No two labels of a listing are the same. -/
theorem Program.Nested.labels_nodup (nested : p.Nested) {listing : Listing}
    (lowered : p.lower = .ok listing) : (Code.labels listing.code).Nodup := by
  rw [((nested.laid lowered).labels nested.bodies_sound).nodup_iff, List.nodup_append]
  refine ⟨nested.entries_nodup, bodyNames_nodup 0 p.bodies, fun name mem other mem' => ?_⟩
  obtain ⟨word, known, n, rfl⟩ := exists_numbered_of_mem_bodyNames mem'
  rw [Program.bodies, entries_append_main, List.mem_append, List.mem_singleton] at mem
  rcases mem with mem | rfl
  · obtain ⟨g, -, rfl⟩ := List.mem_map.mp mem
    exact Signature.label_ne_numbered _ known n
  · exact (numbered_ne_startLabel word n).symm

end Labels

end PascalX86
