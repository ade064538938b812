import Mathlib.Data.List.Pairwise
import PascalX86.Proofs.Lowering.Program
import PascalX86.Proofs.Simulation.Statement

/-!
# Programs at run time

The code of an integer program does what its tree means.
-/

set_option autoImplicit false

namespace PascalX86

open Register

/-- A machine in the frame of the main program, with the values of the variables in their slots. -/
structure Function.Shows (g : Function) (values : Store) (m : Machine) : Prop where
  bottom : m.esp = below m.ebp (g.frameSize mainFrames)
  slots : ∀ s ∈ g.locals.symbols, ∀ x, s.role = .variable x →
    m.bytes.dword (below m.ebp (x.offset + s.storage)) = (values s.key).toBitVec

section Variables

variable {t : Table} {s s' : Symbol}

theorem pairwise_cases {α : Type} {R : α → α → Prop} {l : List α} {a b : α} (h : l.Pairwise R)
    (left : a ∈ l) (right : b ∈ l) (differs : a ≠ b) : R a b ∨ R b a := by
  have either : l.Pairwise fun a b => R a b ∨ R b a := h.imp fun holds => .inl holds
  have : Std.Symm fun a b => R a b ∨ R b a := ⟨fun _ _ => Or.symm⟩
  exact either.forall left right differs

theorem Table.Sound.eq_of_key (sound : t.Sound) (mem : s ∈ t.symbols) (mem' : s' ∈ t.symbols)
    (same : s.key = s'.key) : s = s' := by
  by_contra differs
  rcases pairwise_cases sound.distinct mem mem' differs with differs | differs
  · simp [Name.same, Symbol.key] at same differs
    exact absurd same differs
  · simp [Name.same, Symbol.key] at same differs
    exact absurd same.symm differs

theorem Symbol.storage_of_isPlain {x : Slot} (plain : s.isPlain = true) (role : s.role = .variable x) :
    s.storage = 4 := by
  simp only [Symbol.isPlain, role, Ty.isInteger_iff] at plain
  simp [Symbol.storage, role, plain, Ty.size]

theorem Table.Sound.spread (sound : t.Sound) (integers : ∀ s ∈ t.symbols, s.isPlain = true)
    {size : Nat} (room : t.size ≤ size) : t.Spread size := by
  have found {s : Symbol} {x : Slot} (role : s.role = .variable x) : s.slot? = some x := by
    simp [Symbol.slot?, role]
  constructor
  · intro s mem x role
    have inside := (sound.within s mem x (found role)).2.2
    rw [Symbol.storage_of_isPlain (integers s mem) role] at inside
    omega
  · intro s mem s' mem' x y role role' same
    obtain rfl := sound.eq_of_key mem mem' same
    rw [role] at role'
    exact Role.variable.inj role'
  · intro s mem s' mem' x y role role' differs
    have apart : s ≠ s' := fun same => differs (congrArg _ same)
    rcases pairwise_cases sound.ordered mem mem' apart with before | after
    · have offsets := before x y (found role) (found role')
      rw [Symbol.storage_of_isPlain (integers s mem) role] at offsets
      exact .inl offsets
    · have offsets := after y x (found role') (found role)
      rw [Symbol.storage_of_isPlain (integers s' mem') role'] at offsets
      exact .inr offsets

end Variables

section Scopes

structure Scopes.Plain (σ : Scopes) : Prop where
  sound : σ.Sound 0
  outer : σ.outer = []
  area : σ.current.area = .locals
  integers : ∀ s ∈ σ.current.symbols, s.isPlain = true

variable {σ : Scopes} {bound : Nat}

theorem Scopes.Plain.table (h : σ.Plain) : σ.current.Reachable 0 :=
  h.sound σ.current List.mem_cons_self

theorem Scopes.Plain.stored (h : σ.Plain) {s : Symbol} (holds : σ.Holds s)
    (referable : s.IsReferable) (integer : s.type = .integer) : s.Stored σ.current := by
  obtain ⟨t, mem, inside⟩ := holds
  rw [Scopes.tables, h.outer, List.mem_singleton] at mem
  subst mem
  have fulfilled := h.table.sound.fulfilled s inside
  have within := h.table.sound.within s inside
  cases role : s.role with
  | «variable» x =>
      obtain ⟨level, area, -⟩ := within x (by simp [Symbol.slot?, role])
      have outermost := h.table.level
      exact ⟨inside, integer, x, role, by omega, area.trans h.area⟩
  | parameter mode default slot =>
      obtain ⟨-, area, -⟩ := within slot (by simp [Symbol.slot?, role])
      simp only [Symbol.Fulfilled, role] at fulfilled
      -- The main program has no parameters, for its table counts locals.
      rw [h.area, fulfilled.2.1] at area
      cases area
  | constant value slot => simp [Symbol.IsReferable, role, integer, Ty.isScalar] at referable
  | typeName | function => simp [Symbol.IsReferable, role] at referable

theorem Expr.Checked.runnable {e : Expr} (checked : e.Checked σ bound) (h : σ.Plain)
    (plain : e.isPlain = true) : e.Runnable σ.current := by
  cases e with
  | var info s =>
      have integer := Ty.isInteger_iff.mp plain
      obtain ⟨type, referable⟩ := checked.obeys
      exact ⟨integer, h.stored checked.grounded referable (type.symm.trans integer)⟩
  | const info value =>
      have integer : info.type = .integer := Ty.isInteger_iff.mp plain
      obtain ⟨-, fits⟩ := checked.obeys
      rw [integer] at fits
      refine ⟨integer, ?_⟩
      obtain ⟨n, rfl, -⟩ := Value.integer?_of_fits fits
      exact ⟨n, rfl⟩
  | negate | complement | binary => exact ⟨Ty.isInteger_iff.mp plain, trivial⟩
  | index | field | aggregate | cast | call => cases plain

theorem Stmt.Sound.runnable {s : Stmt} (sound : s.Sound σ bound) (h : σ.Plain) {a : Activation}
    (table : a.table = σ.current)
    (plain : ∀ x ∈ s.nodes, x.isPlain = true ∧ ∀ e ∈ x.operands, ∀ y ∈ e.nodes, y.isPlain = true)
    (room : ∀ x ∈ s.nodes, ∀ e ∈ x.operands, a.size + 4 * e.height ≤ 2 ^ 32) :
    s.All (Expr.Runnable a.table) (Stmt.Runnable a) := by
  intro x mem
  obtain ⟨checked, expressions⟩ := sound x mem
  refine ⟨⟨(plain x mem).1, ?_, room x mem⟩, ?_⟩
  · intro info target value eq
    have obeys := checked.obeys
    rw [eq] at obeys
    exact obeys.1
  · intro e operand y part
    rw [table]
    exact (expressions e operand y part).runnable h ((plain x mem).2 e operand y part)

end Scopes

section Bodies

def enterMain (size : Nat) : Code :=
  [.label startLabel, .instruction .push [ebp], .instruction .mov [ebp, esp],
   .instruction .mov [displayEntry 0, ebp], .instruction .sub [esp, .ofNat size]]

def leaveMain : Code :=
  [.instruction .mov [esp, ebp], .instruction .pop [ebp], .instruction .exit []]

theorem runs_enterMain (m : Machine) (size : Nat) :
    ∃ m', m.run? (enterMain size) = some m' ∧ m'.esp = below m'.ebp size :=
  ⟨_, rfl, rfl⟩

/-- The frame and the operands of every expression below it fit into the memory; otherwise pushes
would come around to the variables. -/
def Program.fits (p : Program) : Bool :=
  p.main.body.nodes.all fun s => s.operands.all fun e =>
    p.main.frameSize Function.mainFrames + 4 * e.height ≤ 2 ^ 32

variable {p : Program} {σ : Scopes} {bound : Nat}

theorem Program.isPlain_iff : p.isPlain = true ↔
    (p.functions = [] ∧ ∀ s ∈ p.main.locals.symbols, s.isPlain = true) ∧
      ∀ x ∈ p.main.body.nodes, x.isPlain = true ∧
        ∀ e ∈ x.operands, ∀ y ∈ e.nodes, y.isPlain = true := by
  simp [Program.isPlain]

theorem Program.fits_iff : p.fits = true ↔ ∀ x ∈ p.main.body.nodes, ∀ e ∈ x.operands,
    p.main.frameSize Function.mainFrames + 4 * e.height ≤ 2 ^ 32 := by
  simp [Program.fits]

def Scopes.Plain.activation (h : σ.Plain) {g : Function} (locals : g.locals = σ.current)
    (base : Word) : Activation where
  base := base
  size := g.frameSize Function.mainFrames
  table := σ.current
  spread := h.table.sound.spread h.integers (locals ▸ Nat.le_add_right _ _)

theorem Scopes.Plain.holds_iff (h : σ.Plain) {g : Function} (locals : g.locals = σ.current)
    {base : Word} {values : Store} {m : Machine} :
    (h.activation locals base).Holds values [] m ↔ m.ebp = base ∧ g.Shows values m := by
  have storage {s : Symbol} {x : Slot} (mem : s ∈ σ.current.symbols) (role : s.role = .variable x) :
      s.storage = 4 := Symbol.storage_of_isPlain (h.integers s mem) role
  constructor
  · intro holds
    have base := holds.base
    refine ⟨base, ?_, ?_⟩
    · rw [base]
      exact holds.top
    · intro s mem x role
      rw [locals] at mem
      rw [storage mem role, base]
      exact holds.values s mem x role
  · rintro ⟨rfl, shows⟩
    refine ⟨rfl, shows.bottom, ?_, trivial⟩
    intro s mem x role
    have kept := shows.slots s (locals ▸ mem) x role
    rwa [storage mem role] at kept

theorem labels_main {s : Stmt} {f : Frames} {label used : Nat} {body enter leave : Code}
    (sound : s.Sound σ bound) (lowered : s.code f none used label = .ok body)
    (first : Code.labels enter = [startLabel]) (last : Code.labels leave = []) :
    (Code.labels (enter ++ body ++ leave)).Nodup := by
  have names : Code.labels body = s.names label :=
    (Stmt.lowers_labels none used label sound).result body lowered
  rw [Code.labels_append, Code.labels_append, first, last, names, List.append_nil,
    List.singleton_append, List.nodup_cons]
  refine ⟨?_, s.names_nodup label⟩
  intro mem
  obtain ⟨word, -, n, eq⟩ := Stmt.exists_numbered mem
  exact numbered_ne_startLabel word n eq.symm

theorem Program.lower_main {body : Code} (functions : p.functions = [])
    (lowered : p.main.bodyCode Function.mainFrames 0 = .ok body) :
    p.lower = .ok ⟨p.levels, enterMain (p.main.frameSize Function.mainFrames) ++ body ++ leaveMain⟩ := by
  simp only [Program.lower, functions, functionsCode, bodyLabels, Function.mainCode, lowered]
  rfl

section Room

/-- No more operands are on the stack at a time than there are nodes up to the expression's own. -/
theorem Expr.Sound.height_le : ∀ {e : Expr}, e.Sound σ bound → e.height ≤ e.info.id + 1
  | .negate info operand, sound => by
      obtain ⟨checked, inner⟩ := Expr.all_negate.mp sound
      have earlier := checked.ordered operand List.mem_cons_self
      have height := Expr.Sound.height_le inner
      exact Nat.le_succ_of_le (Nat.le_trans height earlier)
  | .complement info operand, sound => by
      obtain ⟨checked, inner⟩ := Expr.all_complement.mp sound
      have earlier := checked.ordered operand List.mem_cons_self
      have height := Expr.Sound.height_le inner
      exact Nat.le_succ_of_le (Nat.le_trans height earlier)
  | .binary info op left right, sound => by
      obtain ⟨checked, first, second⟩ := Expr.all_binary.mp sound
      have earlier := checked.ordered left List.mem_cons_self
      have earlier' := checked.ordered right (List.mem_cons_of_mem _ List.mem_cons_self)
      have height := Nat.le_trans (Expr.Sound.height_le first) earlier
      have height' := Nat.le_trans (Expr.Sound.height_le second) earlier'
      exact Nat.max_le.mpr ⟨Nat.le_succ_of_le height, Nat.succ_le_succ height'⟩
  | .var .., _ | .const .., _ | .aggregate .., _ | .index .., _ | .field .., _ | .cast .., _
  | .call .., _ => Nat.succ_le_succ (Nat.zero_le _)

mutual

theorem Stmt.temporaries_eq_zero (f : Frames) : ∀ {s : Stmt},
    (∀ x ∈ s.nodes, x.isPlain = true) → s.temporaries f = 0
  | .ifThen _ _ body, plain | .while _ _ body, plain =>
      Stmt.temporaries_eq_zero f (s := body) (List.forall_mem_cons.mp plain).2
  | .ifElse _ _ body otherwise, plain => by
      obtain ⟨-, inner⟩ := List.forall_mem_cons.mp plain
      obtain ⟨first, second⟩ := List.forall_mem_append.mp inner
      rw [Stmt.temporaries, Stmt.temporaries_eq_zero f first, Stmt.temporaries_eq_zero f second]
      rfl
  | .block _ statements, plain =>
      temporariesOf_eq_zero f (List.forall_mem_cons.mp plain).2
  | .assign .., _ | .continue _, _ | .break _, _ => rfl
  | .for .., plain | .read .., plain | .write .., plain | .call .., plain => by
      have first := plain _ List.mem_cons_self
      cases first

theorem temporariesOf_eq_zero (f : Frames) : ∀ {statements : List Stmt},
    (∀ x ∈ Stmt.nodesOf statements, x.isPlain = true) → temporariesOf f statements = 0
  | [], _ => rfl
  | s :: statements, plain => by
      obtain ⟨first, rest⟩ := List.forall_mem_append.mp plain
      rw [temporariesOf, Stmt.temporaries_eq_zero f first, temporariesOf_eq_zero f rest]
      rfl

end

/-- There is room for every program of fewer than some hundred million nodes. -/
theorem Source.fits_of_nodes {source : Source} (h : source.program = .ok p) (plain : p.isPlain = true)
    (few : 4 * p.nodes ≤ 2 ^ 32 - maxSize) : p.fits = true := by
  have checked := Source.checked h
  obtain ⟨σ, scopes, current, outer, sound⟩ := checked.main
  have table := (scopes σ.current List.mem_cons_self).sound.room
  rw [current] at table
  have temporaries := Stmt.temporaries_eq_zero Function.mainFrames fun x mem =>
    ((Program.isPlain_iff.mp plain).2 x mem).1
  rw [Program.fits_iff, Function.frameSize, temporaries]
  intro x mem e operand
  have tree := (sound x mem).2 e operand
  have height := Nat.le_trans (Expr.Sound.height_le tree) tree.self.numbered
  rw [maxSize] at table few
  omega

end Room

/-- A part of code does what a statement means when it starts and ends in the frame. -/
def Function.Carries (g : Function) (whole : Code) (i j : Nat) (s : Stmt) : Prop :=
  ∀ values exit values', s.Runs values exit values' → ∀ m, g.Shows values m →
    ∃ m', whole.Reaches ⟨i, m⟩ ⟨j, m'⟩ ∧ m'.ebp = m.ebp ∧ g.Shows values' m'

theorem Scopes.Plain.carries (h : σ.Plain) {g : Function} (locals : g.locals = σ.current)
    {s : Stmt} {used label : Nat} {before body after : Code}
    (runnable : ∀ base, s.All (Expr.Runnable σ.current) (Stmt.Runnable (h.activation locals base)))
    (lowered : s.code Function.mainFrames none used label = .ok body)
    (distinct : (Code.labels (before ++ body ++ after)).Nodup) :
    g.Carries (before ++ body ++ after) before.length (before.length + body.length) s := by
  intro values exit values' run m shows
  have placed : Loop.Placed (before ++ body ++ after) none := by
    intro loop inside
    cases inside
  have here := Code.has_middle before body after
  have holds := (h.holds_iff locals).mpr ⟨rfl, shows⟩
  have simulated := run.simulated distinct (a := h.activation locals m.ebp)
  obtain ⟨j, m', reaches, holds', lands⟩ := simulated.arrives (runnable m.ebp) lowered here placed holds
  obtain ⟨base, shows'⟩ := (h.holds_iff locals).mp holds'
  -- Without a loop around it the body has no other exit than the normal one.
  cases exit with
  | normal =>
      cases lands
      exact ⟨m', reaches, base, shows'⟩
  | continued =>
      obtain ⟨loop, inside, -⟩ := lands
      cases inside
  | broken =>
      obtain ⟨loop, inside, -⟩ := lands
      cases inside

end Bodies

/-- The code of an integer program simulates its tree. Behind the code that enters the main program
the machine stands in the frame, and for every terminating run of the tree from the values in the
slots it comes to the end of the body, with the final values in the slots and nothing left below
the frame. -/
theorem Source.code_simulates_tree {source : Source} {p : Program} (h : source.program = .ok p)
    (plain : p.isPlain = true) (fits : p.fits = true) :
    ∃ body, p.main.bodyCode Function.mainFrames 0 = .ok body ∧
      ∃ listing enter leave, p.lower = .ok listing ∧ listing.code = enter ++ body ++ leave ∧
        (∀ m, ∃ m', listing.code.Reaches ⟨0, m⟩ ⟨enter.length, m'⟩ ∧
          m'.esp = below m'.ebp (p.main.frameSize Function.mainFrames)) ∧
        p.main.Carries listing.code enter.length (enter.length + body.length) p.main.body := by
  have checked := Source.checked h
  obtain ⟨σ, scopes, current, outer, sound⟩ := checked.main
  obtain ⟨⟨functions, integers⟩, nodes⟩ := Program.isPlain_iff.mp plain
  rw [← current] at integers
  have declared : σ.Plain := ⟨scopes, outer, current ▸ checked.area, integers⟩
  -- Nothing here depends on where the frame lies.
  have runnable (base : Word) := sound.runnable declared
    (a := declared.activation current.symm base) rfl nodes (Program.fits_iff.mp fits)
  obtain ⟨body, lowered⟩ := Stmt.code_ok none p.main.locals.size 0 (runnable 0) fun jumps => by
    simp [checked.jumps] at jumps
  refine ⟨body, lowered, _, _, leaveMain, Program.lower_main functions lowered, rfl, ?_, ?_⟩
  · intro m
    obtain ⟨m', run, bottom⟩ := runs_enterMain m (p.main.frameSize Function.mainFrames)
    have here : Code.Has (enterMain (p.main.frameSize Function.mainFrames) ++ body ++ leaveMain) 0
        (enterMain (p.main.frameSize Function.mainFrames)) :=
      (List.prefix_append _ body).trans (List.prefix_append _ leaveMain)
    exact ⟨m', by simpa using Code.reaches_run here run, bottom⟩
  · exact declared.carries current.symm runnable lowered (labels_main sound lowered rfl rfl)

def Source.odds : Source := ⟨"odds.pas", [
  "var x, y: integer;",
  "begin while 1 do begin",
  "x := x + 1;",
  "if x mod 2 = 0 then continue;",
  "if x > 6 then break else y := y - -x",
  "end end."], .endOfFile⟩

theorem Source.odds_run : Source.odds.program.toOption.map (fun p => ((p.isPlain, p.fits),
    (p.main.body.run? (fun _ => 0) 40).map fun run => (run.2 ['x'], run.2 ['y']))) =
      some ((true, true), some (7, 9)) := by
  decide +kernel

def Machine.zero (size : Nat) : Machine :=
  ⟨0, 0, 0, 0, 0, 0, below 0 size, none, fun _ => 0, 0⟩

theorem Source.odds_simulated : ∃ p body values m,
    Source.odds.program = .ok p ∧ p.isPlain = true ∧ p.fits = true ∧
    p.main.bodyCode Function.mainFrames 0 = .ok body ∧ values ['x'] = 7 ∧ values ['y'] = 9 ∧
    ∃ listing enter leave, p.lower = .ok listing ∧ listing.code = enter ++ body ++ leave ∧
      listing.code.Reaches
        ⟨enter.length, .zero (p.main.frameSize Function.mainFrames)⟩ ⟨enter.length + body.length, m⟩ ∧
      p.main.Shows values m := by
  obtain ⟨p, accepted, facts⟩ := exists_of_map_toOption Source.odds_run
  simp only [Prod.mk.injEq, Option.map_eq_some_iff] at facts
  obtain ⟨⟨plain, fits⟩, run, ended, x, y⟩ := facts
  have runs : p.main.body.Runs (fun _ => 0) run.1 run.2 := Stmt.runs_of_run? ended
  obtain ⟨body, lowered, listing, enter, leave, listed, parts, -, carries⟩ :=
    Source.code_simulates_tree accepted plain fits
  have shows : p.main.Shows (fun _ => 0) (.zero (p.main.frameSize Function.mainFrames)) := by
    refine ⟨rfl, ?_⟩
    intro s mem slot role
    simp [Machine.zero, Bytes.dword]
  obtain ⟨m, reaches, -, shows'⟩ := carries _ _ _ runs _ shows
  exact ⟨p, body, run.2, m, accepted, plain, fits, lowered, x, y, listing, enter, leave, listed, parts,
    reaches, shows'⟩

end PascalX86
