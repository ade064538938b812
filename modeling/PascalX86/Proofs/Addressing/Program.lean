import PascalX86.Proofs.Addressing.Designator

/-!
# Static and dynamic addresses

In every accepted program, the code of a designator finds the object that lies as far from its
variable as its fields and indices say, whichever of the indices are folded into displacements and
whichever are added at run time.
-/

set_option autoImplicit false

namespace PascalX86

open Register

/-- How the code of a designator finds its object, on every stack with room enough. -/
structure Expr.Addressed (functions : List Function) (f : Frames) (owner : Function) (symbol : Symbol)
    (slot : Slot) (e : Expr) (r : Reference) : Prop where
  runs : ∀ top room m m',
    m.Runs functions top room r.code m' ↔ ∃ path, e.Follows functions top room f m path m'
  address : ∀ top room m path m', room < 2 ^ 31 → m.depth top ≤ room →
    e.Follows functions top room f m path m' →
    m'.addressOf r.place = some (m.home f owner symbol slot + .ofInt 32 (Selector.total path))
  operand : ∀ top room m m', room < 2 ^ 31 → m.depth top ≤ room →
    m.Runs functions top room r.resolve.1 m' → ∃ path s, e.Follows functions top room f m path s ∧
      m'.address? r.resolve.2 = some (m.home f owner symbol slot + .ofInt 32 (Selector.total path))
  pushed : ∀ top room m m', room < 2 ^ 31 → m.depth top ≤ room →
    m.Runs functions top room r.address m' → ∃ path s, e.Follows functions top room f m path s ∧
      m'.bytes.dword m'.esp = m.home f owner symbol slot + .ofInt 32 (Selector.total path)
  exact : ∀ top room m path m', e.Follows functions top room f m path m' →
    (∀ x ∈ path, x.Inside) → Selector.Fits path symbol.type e.type ∧
      ∀ x, r.place = .memory x → x.displacement.toInt = owner.start symbol slot + Selector.total path

section Variables

variable {owner : Function} {σ : Scopes} {bound : Nat} {f : Frames} {symbol : Symbol} {slot : Slot}
  {functions : List Function}

theorem Symbol.Designated.addressed {e : Expr} {r : Reference}
    (designated : symbol.Designated functions f e) (agrees : f.Agrees owner symbol slot)
    (lowered : e.reference f = .ok r) : e.Addressed functions f owner symbol slot r := by
  have address (top : Word) (room : Nat) (m : Machine) (path : List Selector) (m' : Machine)
      (small : room < 2 ^ 31) (le : m.depth top ≤ room)
      (follows : e.Follows functions top room f m path m') :=
    (follows.locates designated agrees small le lowered).addressOf
  refine ⟨fun top room m m' => Expr.runs_iff_follows lowered, address, ?_, ?_, ?_⟩
  · intro top room m m' small le runs
    obtain ⟨s, a, ran, found, same, -⟩ := Machine.runs_resolve runs (Expr.anchored lowered)
    obtain ⟨path, follows⟩ := (Expr.runs_iff_follows lowered).mp ran
    refine ⟨path, s, follows, ?_⟩
    rw [same, ← found, address top room m path s small le follows]
  · intro top room m m' small le runs
    obtain ⟨s, ran, found⟩ := Machine.runs_address runs (Expr.anchored lowered)
    obtain ⟨path, follows⟩ := (Expr.runs_iff_follows lowered).mp ran
    refine ⟨path, s, follows, ?_⟩
    rw [address top room m path s small le follows] at found
    exact (Option.some.inj found).symm
  · intro top room m path m' follows inside
    exact ⟨follows.fits designated inside,
      fun x place => follows.displacement_eq designated agrees inside lowered place⟩

/-- Checked designators start from a variable in scope. -/
theorem Expr.Sound.designated (agree : ∀ s, σ.Names s → s.Agrees functions) : ∀ {e : Expr},
    e.Sound σ bound → e.All (Expr.Calls σ) → e.isReference = true →
    ∃ symbol, e.root? = some symbol ∧ σ.Holds symbol ∧ symbol.IsReferable ∧ symbol.type.Proper ∧
      symbol.Designated functions f e
  | .var info symbol, sound, _, _ => by
      have checked := sound.self
      obtain ⟨type, referable⟩ := checked.obeys
      have proper : info.type.Proper := checked.proper
      rw [type] at proper
      exact ⟨symbol, rfl, checked.grounded, referable, proper, .var type⟩
  | .field info record part, sound, calls, _ => by
      obtain ⟨checked, base⟩ := Expr.all_field.mp sound
      obtain ⟨reference, same, fields, type, mem⟩ := checked.obeys
      obtain ⟨symbol, root, holds, referable, proper, designated⟩ :=
        Expr.Sound.designated agree base (Expr.all_field.mp calls).2 reference
      exact ⟨symbol, root, holds, referable, proper, .field designated type base.self.proper mem same⟩
  | .index info array subscript, sound, calls, _ => by
      obtain ⟨checked, base, inner⟩ := Expr.all_index.mp sound
      obtain ⟨-, inBase, inIndex⟩ := Expr.all_index.mp calls
      obtain ⟨reference, integer, low, high, type, -⟩ := checked.obeys
      obtain ⟨symbol, root, holds, referable, proper, designated⟩ :=
        Expr.Sound.designated agree base inBase reference
      have piles := Expr.lowers_piles (f := f) agree inner inIndex
      rw [integer] at piles
      exact ⟨symbol, root, holds, referable, proper,
        .index designated type base.self.proper fun _ => piles.result⟩

/-- Variables are found where the functions that own them keep them. -/
theorem Function.Owns.agrees (owns : owner.Owns symbol slot) (tabled : owner.Tabled)
    (found : symbol.slot? = some slot) (known : f.blocks[slot.level]? = some owner.signature.block)
    (proper : symbol.type.Proper) : f.Agrees owner symbol slot := by
  have small := proper.size_le
  have block : owner.signature.block ≤ maxSize := tabled.arguments.room
  unfold maxSize at small block
  refine ⟨found, fun span d displaced => ?_, ?_⟩
  · have same := (owns.places tabled found known).mp ⟨slot, span, d, found, displaced, rfl⟩
    exact congrArg Region.start same
  · unfold Function.start
    split
    · omega
    · next kind =>
      have storage := symbol.storage_of_kind
      rw [if_neg kind] at storage
      have size : (owner.region symbol slot).size = symbol.storage := by
        unfold Function.region
        split <;> rfl
      rcases owns.region_within tabled found with within | within
      · unfold Region.Within Region.below at within
        dsimp only at within
        omega
      · unfold Region.Within Region.arguments linkSize at within
        dsimp only at within
        omega

end Variables

section Programs

/-- The expressions in the body of a function, at any depth. -/
def Function.HasExpr (g : Function) (e : Expr) : Prop :=
  ∃ s ∈ g.body.nodes, ∃ x ∈ s.operands, e ∈ x.nodes

/-- The variable that a designator starts from, with the function whose frame it lies in. -/
structure Function.Roots (g : Function) (later : List Function) (e : Expr) (owner : Function)
    (symbol : Symbol) (slot : Slot) : Prop where
  root : e.root? = some symbol
  found : symbol.slot? = some slot
  around : owner ∈ g :: enclosing later g.signature.level
  level : slot.level = owner.signature.level
  owns : owner.Owns symbol slot

/-- Static and dynamic addressing agree. The code of a designator computes the address of its variable
and, further on, as many bytes as fields and indices say, without overflow where it is folded and
inside the variable as long as all indices are in bounds. Constants in place of indices of the same
values do not change the address, not even where all of it is folded. -/
theorem Source.addresses_agree {source : Source} {p : Program} (h : source.program = .ok p) :
    ∀ before g later, p.bodies = before ++ g :: later → ∀ e, g.HasExpr e → e.isReference = true →
      ∀ r, e.reference (g.frames later) = .ok r →
      ∃ owner symbol slot, g.Roots later e owner symbol slot ∧
        e.Addressed p.functions (g.frames later) owner symbol slot r ∧
        ∀ top room m path s, room < 2 ^ 31 → m.depth top ≤ room →
          e.Follows p.functions top room (g.frames later) m path s →
          (∀ e', e.Fixes path e' → ∃ r', e'.reference (g.frames later) = .ok r' ∧
            e'.Addressed p.functions (g.frames later) owner symbol slot r' ∧
            ∀ s', e'.Follows p.functions top room (g.frames later) m path s' →
              s'.addressOf r'.place = s.addressOf r.place) ∧
          ∃ e' r' x s', e.Fixes path e' ∧ e'.reference (g.frames later) = .ok r' ∧
            r'.place = .memory x ∧ e'.Follows p.functions top room (g.frames later) m path s' ∧
            s'.address? x = s.addressOf r.place := by
  have nested := Program.nested (Source.derives h)
  intro before g later split e ⟨s, mem, x, operand, inside⟩ reference r lowered
  obtain ⟨σ, completes, scopes, owned, named⟩ := nested.scopes split
  obtain ⟨bound, sound, -⟩ := completes.sound
  have agree := nested.agree named
  have checked := ((sound s mem).2 x operand).of_mem inside
  have calls := ((completes.calls s mem).2 x operand).of_mem inside
  obtain ⟨symbol, root, holds, referable, proper, designated⟩ :=
    Expr.Sound.designated agree checked calls reference
  obtain ⟨slot, found⟩ := exists_slot (scopes.fulfilled symbol holds) referable
  obtain ⟨owner, around, level, owns⟩ := owned symbol slot holds found
  obtain ⟨σ', completes'⟩ := nested.completes owner (Program.Nested.mem_bodies split around)
  have known := Function.blocks_frames_of_mem around
  rw [← level] at known
  have agrees := owns.agrees completes'.tabled found known proper
  have addressed := designated.addressed agrees lowered
  refine ⟨owner, symbol, slot, ⟨root, found, around, level, owns⟩, addressed, ?_⟩
  intro top room m path s small le follows
  -- The same path from the same machine leads to the same address.
  have same {e' : Expr} {r' : Reference} {s' : Machine}
      (addressed' : e'.Addressed p.functions (g.frames later) owner symbol slot r')
      (follows' : e'.Follows p.functions top room (g.frames later) m path s') :
      s'.addressOf r'.place = s.addressOf r.place := by
    rw [addressed.address top room m path s small le follows,
      addressed'.address top room m path s' small le follows']
  constructor
  · intro e' fixes
    obtain ⟨r', lowered'⟩ := fixes.lowered lowered
    have addressed' := (fixes.designated designated).addressed agrees lowered'
    exact ⟨r', lowered', addressed', fun s' => same addressed'⟩
  · obtain ⟨e', r', x, s', fixes, lowered', place, follows'⟩ := follows.folded
    have folded := same ((fixes.designated designated).addressed agrees lowered') follows'
    rw [place] at folded
    exact ⟨e', r', x, s', fixes, lowered', place, follows', folded⟩

/-- Elements of records in an array, found by an index that is computed and one that is not. -/
def Source.grid : Source := ⟨"input.pas", [
  "var a: array[-1..2] of record x: integer; b: array[1..3] of integer end; i: integer;",
  "begin i := 2; a[i].b[2] := 7 end."], .endOfFile⟩

def Stmt.element? : Stmt → Option Expr
  | .assign _ (.index info array index) _ => some (.index info array index)
  | _ => none

def Source.gridCode : Code := [
  .instruction .lea [eax, Memory.dword ebp (-64)], .instruction .push [eax],
  .instruction .push [Memory.dword ebp (-68)], .instruction .pop [ebx],
  .instruction .sub [ebx, .immediate (-1)], .instruction .imul [ebx, .immediate 16],
  .instruction .add [stackTop 0, ebx], .instruction .add [stackTop 0, .immediate 4],
  .instruction .add [stackTop 0, .immediate 4]]

theorem Source.grid_element : (Source.grid.program.toOption.bind fun p =>
    (p.main.body.nodes.findSome? Stmt.element?).bind fun e =>
      (e.reference (p.main.frames [])).toOption.map fun r => (r.code, r.held, e.isReference)) =
    some (gridCode, 4, true) := by
  decide +kernel

/-- Two is in the cell of the index. -/
def Source.gridMachine : Machine :=
  ⟨0, 0, 0, 0, 0, 8192, 4096, none, fun a => if a = 8192 - 68 then 2 else 0, 12288⟩

theorem Source.gridMachine_runs (functions : List Function) : ∃ m,
    gridMachine.Runs functions 4096 64 gridCode m ∧ m.bytes.dword m.esp = 8192 - 64 + 56 := by
  refine ⟨_, .cons (.exact rfl) ?_ (.cons (.exact rfl) ?_ (.cons (.exact rfl) ?_ (.cons (.exact rfl) ?_
    (.cons (.exact rfl) ?_ (.cons (.exact rfl) ?_ (.cons (.exact rfl) ?_ (.cons (.exact rfl) ?_
    (.cons (.exact rfl) ?_ (.nil _))))))))), ?_⟩
  all_goals decide

-- The element is 56 bytes into the array, by its computed index and by the constant of its value.
theorem Source.grid_addresses_agree : ∃ p e r owner symbol slot path m,
    Source.grid.program = .ok p ∧ p.main.HasExpr e ∧ e.reference (p.main.frames []) = .ok r ∧
    p.main.Roots [] e owner symbol slot ∧
    e.Follows p.functions 4096 64 (p.main.frames []) gridMachine path m ∧
    m.addressOf r.place =
      some (gridMachine.home (p.main.frames []) owner symbol slot + .ofInt 32 (Selector.total path)) ∧
    m.addressOf r.place = some (8192 - 64 + 56) ∧
    ∃ e' r' x s, e.Fixes path e' ∧ e'.reference (p.main.frames []) = .ok r' ∧ r'.place = .memory x ∧
      e'.Follows p.functions 4096 64 (p.main.frames []) gridMachine path s ∧
      s.address? x = some (8192 - 64 + 56) := by
  have known := Source.grid_element
  obtain ⟨p, accepted, known⟩ := Option.bind_eq_some_iff.mp known
  obtain ⟨e, element, known⟩ := Option.bind_eq_some_iff.mp known
  obtain ⟨r, lowered, shape⟩ := Option.map_eq_some_iff.mp known
  have accepted := toOption_eq_some.mp accepted
  have lowered := toOption_eq_some.mp lowered
  obtain ⟨code, held, reference⟩ : r.code = gridCode ∧ r.held = 4 ∧ e.isReference = true := by
    simpa using shape
  have has : p.main.HasExpr e := by
    obtain ⟨s, mem, own⟩ := List.exists_of_findSome?_eq_some element
    refine ⟨s, mem, ?_⟩
    unfold Stmt.element? at own
    split at own
    · cases own
      exact ⟨_, List.mem_cons_self, List.mem_cons_self⟩
    · cases own
  obtain ⟨owner, symbol, slot, roots, addressed, agrees⟩ :=
    Source.addresses_agree accepted p.functions p.main [] rfl e has reference r lowered
  obtain ⟨m, runs, value⟩ := gridMachine_runs p.functions
  rw [← code] at runs
  have shallow : gridMachine.depth 4096 ≤ 64 := by decide
  obtain ⟨path, follows⟩ := (addressed.runs 4096 64 gridMachine m).mp runs
  have place : m.addressOf r.place = some (8192 - 64 + 56) := by
    unfold Reference.held at held
    split at held
    · cases held
    · next stack =>
      rw [stack]
      exact congrArg some value
  obtain ⟨-, e', r', x, s', fixes, lowered', folded, follows', same⟩ :=
    agrees 4096 64 gridMachine path m (by decide) shallow follows
  exact ⟨p, e, r, owner, symbol, slot, path, m, accepted, has, lowered, roots, follows,
    addressed.address 4096 64 gridMachine path m (by decide) shallow follows, place,
    e', r', x, s', fixes, lowered', folded, follows', same.trans place⟩

end Programs

end PascalX86
