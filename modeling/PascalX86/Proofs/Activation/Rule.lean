import PascalX86.Proofs.Activation.Command

/-!
# One command of a body

Whatever is known of a process before a command of a body, apart from jumps and calls, the process
has it after the command as well, with what the command changes.
-/

set_option autoImplicit false

namespace PascalX86

open Register

variable {env : Environment} {l : Ground} {levels : Nat} {a : env.Call} {outer : List env.Call}
  {f : Frames} {σ : Scopes} {φ φ' : Flow} {m m' : Machine} {w : Word} {op : Opcode} {x : Memory}
  {operands : List Operand} {item : Item} {items rest : List Item} {n : Nat} {ranges : List Range}

theorem Function.locals_le_frameSize (g : Function) (f : Frames) : g.locals.size ≤ g.frameSize f :=
  Nat.le_add_right _ _

theorem Machine.address?_of_register {r : Register} (base : x.base = .register r)
    (address : m.address? x = some w) :
    ∃ v, m.register? r = some v ∧ w = v + x.displacement.toBitVec := by
  unfold address? at address
  rw [base] at address
  obtain ⟨v, known, rfl⟩ := Option.map_eq_some_iff.mp address
  exact ⟨v, known, rfl⟩

theorem Machine.instruction?_add_top {y : Operand} {v : Word} (value : m.value? y = some v) :
    m.instruction? .add [stackTop 0, y] =
      some { m with
        bytes := m.bytes.set m.esp (m.bytes.dword m.esp + v)
        flags := some (.ofAdd (m.bytes.dword m.esp) v) } := by
  have zero : m.esp + (stackTop 0).displacement.toBitVec = m.esp := BitVec.add_zero _
  have top : m.value? (stackTop 0) = some (m.bytes.dword m.esp) := by
    rw [← zero]
    rfl
  have assigned (w : Word) : m.assign? w (stackTop 0) = some { m with bytes := m.bytes.set m.esp w } := by
    show some (m.store (m.esp + (stackTop 0).displacement.toBitVec) w) = _
    rw [zero]
    rfl
  simp only [instruction?, binary?, value, top, assigned, arithmetic?, bind, Option.bind]
  rfl

/-- An instruction on the double on top of the stack writes to no byte but its own. -/
theorem Environment.Does.double_top {operands : List Operand} (behaves : env.Behaves l levels)
    (does : env.Does m op (.memory ((stackTop 0).sized .qword) :: operands) m')
    (double : op.isDouble = true) :
    ∃ flags bytes, m' = { m with flags := flags, bytes := bytes } ∧
      ∀ c, 8 ≤ (c - m.esp).toNat → bytes c = m.bytes c := by
  obtain ⟨s, s', performed⟩ := does.performed (by simp [Opcode.isOutside, double])
  obtain ⟨flags, bytes, eq, outside⟩ := behaves.double double performed
  refine ⟨flags, bytes, eq, fun c far => outside c fun x w first address => ?_⟩
  cases first
  obtain ⟨v, known, rfl⟩ := Machine.address?_of_register rfl address
  cases known
  have zero : m.esp + ((stackTop 0).sized .qword).displacement.toBitVec = m.esp := BitVec.add_zero _
  rw [zero]
  exact far

theorem Environment.Does.stays (behaves : env.Behaves l levels) (does : env.Does m op operands m')
    (computes : (Command.instruction op operands).computes = true) : m.Stays m' := by
  unfold Command.computes at computes
  split at computes
  · next same =>
    cases same
    have eq := does.executed rfl
    cases eq
    exact ⟨rfl, rfl, rfl, rfl, rfl⟩
  · next same =>
    cases same
    rw [Bool.and_eq_true, decide_eq_true_eq] at computes
    obtain ⟨computes, other⟩ := computes
    by_cases outside : op.isOutside = true
    · have double : op.isDouble = true := by
        cases op <;> first | rfl | exact absurd outside (by decide) | exact absurd computes (by decide)
      obtain ⟨s, s', performed⟩ := does.performed outside
      obtain ⟨flags, bytes, rfl, same⟩ := behaves.double double performed
      have whole : bytes = m.bytes := by
        funext c
        refine same c fun x w first => ?_
        cases first
      exact ⟨whole, rfl, rfl, rfl, rfl⟩
    · exact .of_computes computes other (does.executed (by simpa using outside))
  · cases computes

namespace Flow

variable (sound : l.Sound levels) (nests : l.Nests (a :: outer)) (sees : a.Sees outer f σ)
  (holds : φ.Holds l levels a outer (a.function.frameSize f) m)

section Writing

include nests sees holds

theorem Holds.points (opens : φ.Opens f σ x n) (address : m.address? x = some w) :
    l.Points (a :: outer) w n := by
  have fits := holds.fits
  have locals := a.function.locals_le_frameSize f
  exact opens.points nests sees (by omega) holds address

omit nests sees in
/-- What code writes to a temporary stays between the locals and the operands. -/
theorem Holds.own_cell {i : Nat} (base : x.base = .register ebp)
    (within : (x.reaching 4).Within (a.function.hidden f)) (address : m.address? x = some w) (lt : i < 4) :
    ∃ d : Nat, d = (a.base l : Int) - x.displacement.toInt - i ∧ a.base l + a.function.locals.size < d ∧
      d ≤ a.base l + a.function.frameSize f ∧ w + .ofNat 32 i = below l.top d := by
  obtain ⟨v, known, rfl⟩ := Machine.address?_of_register base address
  cases known
  unfold Memory.reaching Region.Within Function.hidden Region.below at within
  dsimp only at within
  unfold Function.frameSize
  obtain ⟨d, value⟩ := Int.eq_ofNat_of_zero_le
    (show 0 ≤ (a.base l : Int) - x.displacement.toInt - i by omega)
  refine ⟨d, value.symm, by omega, by omega, ?_⟩
  rw [holds.active.frame, a.frame_eq l,
    below_displaced (show ((d + i : Nat) : Int) = a.base l - x.displacement.toInt by omega), below_add]

theorem Holds.cells (writes : φ.Writes f σ (a.function.hidden f) x 4)
    (address : m.address? x = some w) :
    ∀ i < 4, ∃ d, 0 < d ∧ d ≤ l.room ∧ w + .ofNat 32 i = below l.top d ∧
      (l.Data (a :: outer) d ∨ a.base l + a.function.locals.size < d ∧
        d ≤ a.base l + a.function.frameSize f) := by
  intro i lt
  rcases writes with opens | ⟨base, within⟩
  · obtain ⟨d, pos, near, same, data⟩ := holds.points nests sees opens address i lt
    exact ⟨d, pos, near, same, .inl data⟩
  · obtain ⟨d, -, above, inside, same⟩ := holds.own_cell base within address lt
    have fits := holds.fits
    exact ⟨d, by omega, by omega, same, .inr ⟨above, inside⟩⟩

include sound

theorem Holds.replaced (does : env.Does m op (.memory x :: operands) m') (replaces : op.replaces = true)
    (writes : φ.Writes f σ (a.function.hidden f) x 4) :
    φ.Holds l levels a outer (a.function.frameSize f) m' := by
  obtain ⟨w, v, flags, address, rfl⟩ := does.replaced replaces
  exact holds.written sound nests (a.function.locals_le_frameSize f)
    (holds.cells nests sees writes address)

end Writing

section Stack

include sound nests holds

theorem Holds.popped (stacked : φ.stack = item :: rest) :
    Holds l levels a outer (a.function.frameSize f) ⟨rest, φ.address, φ.level⟩ m.pop.2 :=
  holds.drop sound nests (a.function.locals_le_frameSize f) [item] stacked rfl rfl rfl rfl rfl
    holds.address

omit sound nests in
/-- What is taken from the stack is what was known to be there. -/
theorem Holds.suits (stacked : φ.stack = item :: rest) :
    item.Suits l (a :: outer) (m.bytes.dword m.esp) := by
  have operands := holds.operands
  have esp := holds.esp
  rw [stacked] at operands esp
  rw [esp, List.length_cons]
  exact operands.1

theorem Holds.stays (stays : m.Stays m') :
    Holds l levels a outer (a.function.frameSize f) { φ with address := .plain } m' := by
  refine holds.drop sound nests (a.function.locals_le_frameSize f) [] rfl stays.bytes ?_
    stays.ebp stays.display stays.esi ?_
  · rw [stays.esp]
    exact (BitVec.add_zero _).symm
  · rintro n ⟨⟩

theorem Holds.loads (item : Item) (suits : item.Suits l (a :: outer) w) :
    Holds l levels a outer (a.function.frameSize f) { φ with address := item } { m with eax := w } := by
  refine holds.drop sound nests (a.function.locals_le_frameSize f) [] rfl rfl
    (BitVec.add_zero _).symm rfl rfl rfl ?_
  rintro n rfl
  exact suits

/-- Operands of which nothing is known. -/
theorem Holds.operand {i : Nat} (does : env.Does m op (.memory x :: operands) m')
    (replaces : op.replaces = true) (base : x.base = .register Register.esp)
    (place : x.displacement.toInt = i * dwordSize) (plain : φ.stack[i]? = some .plain) :
    φ.Holds l levels a outer (a.function.frameSize f) m' := by
  obtain ⟨w, v, flags, address, rfl⟩ := does.replaced replaces
  obtain ⟨v, known, rfl⟩ := Machine.address?_of_register base address
  cases known
  refine holds.plain sound nests (a.function.locals_le_frameSize f) fun c differs => ?_
  obtain ⟨k, lt, rfl⟩ := exists_of_set_ne differs
  refine ⟨4 * i + k, ?_, ?_⟩
  · rw [show (4 * i + k) / 4 = i by omega]
    exact plain
  · unfold dwordSize at place
    have low : x.displacement.toInt = x.displacement.toBitVec.toNat :=
      Machine.toNat_of_toInt (by omega)
    bv_omega

theorem Holds.reserve {n : Int32} {k : Nat} {flags : Option Flags} (size : n.toInt = k * dwordSize)
    (near : (l.top - (m.esp - n.toBitVec)).toNat ≤ l.room) :
    Holds l levels a outer (a.function.frameSize f)
      { φ with stack := .replicate k .plain ++ φ.stack }
      { m with esp := m.esp - n.toBitVec, flags := flags } := by
  have fits := holds.fits
  have small := sound.room
  have bound := n.toInt_lt
  unfold dwordSize at size
  have value : n.toInt = n.toBitVec.toNat := Machine.toNat_of_toInt (by omega)
  have esp : m.esp - n.toBitVec = below l.top
      (a.base l + a.function.frameSize f + 4 * (List.replicate k Item.plain ++ φ.stack).length) := by
    rw [holds.esp, List.length_append, List.length_replicate]
    unfold below
    bv_omega
  have deep : a.base l + a.function.frameSize f +
      4 * (List.replicate k Item.plain ++ φ.stack).length ≤ l.room := by
    rw [esp] at near
    have length : (List.replicate k Item.plain ++ φ.stack).length = k + φ.stack.length := by simp
    unfold below at near
    bv_omega
  refine holds.change sound nests (a.function.locals_le_frameSize f) rfl rfl ?_ esp deep ?_
    holds.address holds.pointer
  · intro c differs
    exact absurd rfl differs
  · rw [Ground.operands_append]
    exact ⟨Ground.operands_replicate k, holds.operands⟩

omit sound nests in
/-- What is read from outside goes to data, if anything is read. -/
theorem Holds.scanned {k size : Nat} (known : k = 0 ∨ φ.address = .ref size) (reads : k ≤ size) :
    l.Points (a :: outer) m.eax k := by
  rcases known with rfl | known
  · rintro i ⟨⟩
  · exact (holds.address size known).narrow reads

/-- What is around the machine leaves the stack alone, apart from data that it reads into. -/
theorem Holds.outside {k : Nat} (frame : m'.ebp = m.ebp) (esp : m'.esp = m.esp)
    (display : m'.display = m.display) (entry : ∀ n < levels, m'.entry n = m.entry n)
    (bytes : ∀ d, 0 < d → d ≤ m.depth l.top → (∀ i < k, m.eax + .ofNat 32 i ≠ below l.top d) →
      m'.bytes (below l.top d) = m.bytes (below l.top d))
    (points : l.Points (a :: outer) m.eax k) :
    Holds l levels a outer (a.function.frameSize f) ⟨φ.stack, .plain, none⟩ m' := by
  have fits := holds.fits
  have small := sound.room
  have locals := a.function.locals_le_frameSize f
  have depth := Machine.depth_of_esp holds.esp (by omega)
  have same : ∀ d, 0 < d → d ≤ a.base l + a.function.frameSize f + 4 * φ.stack.length →
      ¬ l.Data (a :: outer) d → m'.bytes (below l.top d) = m.bytes (below l.top d) := by
    intro d pos le other
    refine bytes d pos (by omega) fun i lt eq => ?_
    obtain ⟨d', pos', near, place, data⟩ := points i lt
    rw [place] at eq
    obtain rfl := below_inj eq (by omega) (by omega)
    exact other data
  have keeps : a.Keeps l levels outer m m' :=
    ⟨frame, display, entry, fun d pos le other => same d pos (by omega) other⟩
  refine ⟨holds.active.keeps nests keeps, esp.trans holds.esp, fits, ?_, ?_, ?_⟩
  · refine holds.operands.congr fun d above le => same d (by omega) le ?_
    exact nests.not_data_below (by omega)
  · rintro n ⟨⟩
  · rintro n ⟨⟩

end Stack

section Addresses

include nests sees holds

/-- A parameter by reference keeps the address of data of the calls before. -/
theorem Holds.reference {symbol : Symbol} {slot : Slot} {r : Region} (named : σ.Holds symbol)
    (found : symbol.slot? = some slot) (kind : symbol.kind = .varParameter) (places : f.Places symbol r)
    (start : x.displacement.toInt = r.start)
    (base : x.base = .register ebp ∧ slot.level = f.level ∨
      x.base = .register esi ∧ φ.level = some slot.level) (address : m.address? x = some w) :
    l.Points (a :: outer) (m.bytes.dword w) symbol.type.size := by
  obtain ⟨b, mem, proper, -, owns, region, rfl⟩ := holds.owner nests sees (by
    have fits := holds.fits
    have locals := a.function.locals_le_frameSize f
    omega) named found base address
  obtain ⟨q, listed, rfl, mode⟩ := owns.exists_parameter proper.tabled found kind
  cases found
  obtain ⟨-, fits, cell⟩ := proper.tabled.cell listed mode
  have block := proper.block
  rw [region _ places, cell] at start
  obtain ⟨first, rest, split⟩ := List.append_of_mem mem
  have points := holds.active.cells first b rest split q listed mode
  have place : b.frame + x.displacement.toBitVec = below l.top (b.limit l + q.slot.offset + 4) := by
    rw [b.frame_eq l]
    apply below_displaced
    rw [start]
    unfold Region.argument linkSize Environment.Call.base Environment.Call.limit
    dsimp only
    rcases b.link_cases with ⟨outermost, -⟩ | ⟨-, link⟩
    · have none := proper.outer outermost
      omega
    · omega
  rw [place, split]
  have deeper := points.append (first ++ [b])
  rwa [List.append_assoc] at deeper

end Addresses

end Flow

section Commands

theorem offset_toBitVec {n : Int32} {k : Nat} (size : n.toInt = k) : n.toBitVec = .ofNat 32 k := by
  have value := Machine.toNat_of_toInt (show 0 ≤ n.toInt by omega)
  rw [size, Int.natCast_inj] at value
  rw [value, BitVec.ofNat_toNat, BitVec.setWidth_eq]

/-- The frame pointers on the display are those of the calls that it shows. -/
def Machine.Displays (m : Machine) (levels : Nat) (calls : List env.Call) : Prop :=
  ∀ n < levels, ∀ b, shown calls n = some b → m.entry n = b.frame

variable (sound : l.Sound levels) (nests : l.Nests (a :: outer)) (sees : a.Sees outer f σ)
  (behaves : env.Behaves l levels) (displays : m.Displays levels (a :: outer))
  (level : a.level < levels) (holds : φ.Holds l levels a outer (a.function.frameSize f) m)

include sound nests sees behaves displays level holds

theorem Flow.Holds.performs
    (flows : (Command.instruction op operands).Flows f σ (a.function.hidden f) φ ranges φ')
    (plain : op.isJump = false) (other : op ≠ .call) (does : env.Does m op operands m')
    (admits : ∀ r ∈ ranges, r.Admits m.ebx) (room : m'.depth l.top ≤ l.room) :
    φ'.Holds l levels a outer (a.function.frameSize f) m' := by
  have locals := a.function.locals_le_frameSize f
  cases flows with
  | mark mark =>
      rw [Command.isMark, plain] at mark
      cases mark
  | push x =>
      obtain ⟨v, -, eq⟩ := Option.bind_eq_some_iff.mp (does.executed rfl)
      cases eq
      exact holds.push sound nests locals room trivial
  | pushAddress =>
      have eq := does.executed rfl
      cases eq
      refine holds.push sound nests locals room ?_
      cases known : φ.address with
      | plain => trivial
      | ref n => exact holds.address n known
  | @popEax item rest stack =>
      have eq := does.executed rfl
      cases eq
      refine holds.drop sound nests locals [item] stack rfl rfl rfl rfl rfl ?_
      rintro n rfl
      exact holds.suits stack
  | popEbx stack =>
      have eq := does.executed rfl
      cases eq
      exact holds.drop sound nests locals [_] stack rfl rfl rfl rfl rfl holds.address
  | @popMemory item rest x stack writes =>
      have popped := holds.popped sound nests stack
      obtain ⟨w, address, rfl⟩ := Machine.assign?_memory (does.executed rfl)
      exact popped.written sound nests locals (popped.cells nests sees (writes.congr rfl rfl) address)
  | replace replaces writes => exact holds.replaced sound nests sees does replaces writes
  | operand replaces _ place plain => exact holds.operand sound nests does replaces rfl place plain
  | double stack =>
      obtain ⟨flags, bytes, rfl, outside⟩ := does.double_top behaves rfl
      refine holds.plain sound nests locals fun c differs => ⟨(c - m.esp).toNat, ?_, ?_⟩
      · have near : (c - m.esp).toNat < 8 := Nat.lt_of_not_le fun far => differs (outside c far)
        rw [stack]
        have place : (c - m.esp).toNat / 4 = 0 ∨ (c - m.esp).toNat / 4 = 1 := by omega
        rcases place with place | place <;> rw [place] <;> rfl
      · rw [BitVec.ofNat_toNat, BitVec.setWidth_eq]
        bv_omega
  | @displace size part bytes rest stack low high =>
      have eq := does.executed rfl
      rw [Machine.instruction?_add_top rfl] at eq
      cases eq
      refine holds.top sound nests locals (.ref part) stack ?_
      rw [offset_toBitVec (Int.toNat_of_nonneg low).symm]
      exact (holds.suits stack).shift (by omega)
  | @index low high element rest stack proper =>
      have eq := does.executed rfl
      rw [Machine.instruction?_add_top rfl] at eq
      cases eq
      refine holds.top sound nests locals (.ref element.size) stack ?_
      obtain ⟨n, first, last, offset⟩ := admits _ List.mem_cons_self
      obtain ⟨low', inside⟩ := element_inside proper first last
      rw [offset, offset_toBitVec (Int.toNat_of_nonneg low').symm]
      exact (holds.suits stack).shift (by omega)
  | compute computes => exact holds.stays sound nests (does.stays behaves computes)
  | cell named found kind places start base =>
      obtain ⟨v, value, eq⟩ := Option.bind_eq_some_iff.mp (does.executed rfl)
      cases eq
      simp only [Machine.value?] at value
      split at value
      · obtain ⟨w, address, rfl⟩ := Option.map_eq_some_iff.mp value
        exact holds.loads sound nests (.ref _)
          (holds.reference nests sees named found kind places start base address)
      · cases value
  | @address x size opens =>
      obtain ⟨w, address, eq⟩ := Option.bind_eq_some_iff.mp (does.executed rfl)
      cases eq
      exact holds.loads sound nests (.ref size) (holds.points nests sees opens address)
  | @pointer n le =>
      have eq := does.executed rfl
      cases eq
      rw [sees.level] at le
      obtain ⟨b, visible⟩ := sees.around n le
      refine holds.change sound nests locals rfl rfl ?_ holds.esp holds.fits holds.operands
        holds.address ?_
      · intro c differs
        exact absurd rfl differs
      · rintro n ⟨⟩
        exact ⟨b, visible, displays n (by omega) b visible⟩
  | reserve size =>
      have eq := does.executed rfl
      cases eq
      exact holds.reserve sound nests size room
  | @release n items rest stack size =>
      have eq := does.executed rfl
      cases eq
      refine holds.drop sound nests locals items stack rfl ?_ rfl rfl rfl holds.address
      have value : n.toInt = (4 * items.length : Nat) := by
        unfold dwordSize at size
        omega
      show m.esp + n.toBitVec = _
      rw [offset_toBitVec value]
  | call named stack => exact absurd rfl other
  | output =>
      obtain ⟨s, s', performed⟩ := does.performed rfl
      obtain ⟨frame, esp, display, entry, bytes⟩ := behaves.routine (.inl rfl) performed
      have none : (Command.instruction .printf operands).scanned = 0 := by
        simp [Command.scanned, scan]
      exact holds.outside sound nests frame esp display entry bytes
        (holds.scanned (.inl none) (Nat.le_of_eq none))
  | @input operands size known reads =>
      obtain ⟨s, s', performed⟩ := does.performed rfl
      obtain ⟨frame, esp, display, entry, bytes⟩ := behaves.routine (.inr rfl) performed
      exact holds.outside sound nests frame esp display entry bytes (holds.scanned known reads)

end Commands

end PascalX86
