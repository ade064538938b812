import PascalX86.Proofs.Frame.Program
import PascalX86.Proofs.Loop.Counted
import PascalX86.Proofs.Simulation.Expression

/-!
# Counted loops of programs

Each `for` statement whose counter is a local variable of its own function stands in the listing as a
counted loop, with its counter and its bound apart in the frame.
-/

set_option autoImplicit false

namespace PascalX86

open Register

variable {p : Program} {g : Function} {before later : List Function} {σ : Scopes} {f : Frames}
  {symbol : Symbol} {slot : Slot} {x : Site} {info node : NodeInfo} {first last : Expr}
  {direction : Direction} {body : Stmt} {code : Code}

/-- Variables are declared among the locals. -/
theorem Function.Owns.variable {h : Function} (owns : h.Owns symbol slot)
    (role : symbol.role = .variable slot) : symbol ∈ h.locals.symbols ∧ slot.area = .locals := by
  cases owns with
  | locals mem area => exact ⟨mem, area⟩
  | argument mem =>
      obtain ⟨parameter, -, rfl⟩ := List.mem_map.mp mem
      cases role

theorem Function.Stands.variable (stands : g.Stands p later σ) (holds : σ.Holds symbol)
    (role : symbol.role = .variable slot) (level : slot.level = g.signature.level) :
    slot.area = .locals ∧ slot.offset + symbol.storage ≤ g.locals.size := by
  have found : symbol.slot? = some slot := by rw [Symbol.slot?, role]
  obtain ⟨h, mem, level', owns⟩ := stands.owned symbol slot holds found
  rcases List.mem_cons.mp mem with rfl | around
  · obtain ⟨inside, area⟩ := owns.variable role
    exact ⟨area, ((stands.tabled h mem).locals.within symbol inside slot found).2.2⟩
  · have outside := (mem_of_mem_enclosing around).2
    omega

/-- Code finds an integer variable of its own function in the frame. -/
theorem Frames.reference_own (span : Span) (role : symbol.role = .variable slot)
    (type : symbol.type = .integer) (area : slot.area = .locals) (level : slot.level = f.level) :
    f.reference span symbol = .ok ⟨[], .memory (frameSlot (slot.offset + 4))⟩ := by
  have size : symbol.storage = 4 := by simp [Symbol.storage, role, type, Ty.size]
  have kind : symbol.kind = .var := by simp [Symbol.kind, role]
  simp [Frames.reference, Symbol.slot?, role, kind, level, Frames.pointer, Frames.displacement, area,
    size, frameSlot]
  rfl

/-- The parts of the loop are the code of the parts of the statement. -/
structure CountedLoop.Lowers (l : CountedLoop) (f : Frames) (x : Site) (first last : Expr)
    (body : Stmt) : Prop where
  first : first.code f = .ok l.first
  last : last.code f = .ok l.last
  body : body.code f
    (some ⟨numbered "for_next" (x.label + 2), numbered "for_end" (x.label + 3)⟩)
    (x.used + dwordSize) (x.label + 4) = .ok l.body
  whole : x.code f = .ok l.code

theorem Site.exists_countedLoop (loop : x.stmt = .for info (.var node symbol) first last direction body)
    (found : f.reference node.span symbol = .ok ⟨[], .memory (frameSlot (slot.offset + 4))⟩)
    (type : node.type = .integer) (lowered : x.code f = .ok code) (position : Nat) :
    ∃ l : CountedLoop, l.Lowers f x first last body ∧ l.code = code ∧ l.direction = direction ∧
      l.counter = slot.offset + 4 ∧ l.bound = x.used + 4 ∧ l.position = position := by
  obtain ⟨loop?, used, label, stmt⟩ := x
  cases loop
  have parts := id lowered
  simp only [Site.code, Stmt.code, bind_eq_ok] at parts
  obtain ⟨first', starts, target, counts, last', stops, body', runs, eq⟩ := parts
  rw [Expr.reference, found] at counts
  cases counts
  cases eq
  have size : (Expr.var node symbol).type.size = 4 := by
    rw [Expr.type, Expr.info, type, Ty.size]
  have popped : Reference.store ⟨[], .memory (frameSlot (slot.offset + 4))⟩
      (Expr.var node symbol).type.size = [.instruction .pop [frameSlot (slot.offset + 4)]] := by
    rw [size]
    exact popMemory_cell _ rfl
  let l : CountedLoop := ⟨direction, first', last', body', label, slot.offset + 4, used + 4, position⟩
  have same : l.code = first' ++ Reference.store ⟨[], .memory (frameSlot (slot.offset + 4))⟩
      (Expr.var node symbol).type.size ++ last' ++
        [.instruction .pop [frameSlot (used + dwordSize)], jump .jmp (numbered "for_cond" label),
          .label (numbered "for_body" (label + 1))] ++ body' ++ l.again := by
    rw [popped]
    simp [CountedLoop.code, l, CountedLoop.enter, dwordSize]
  refine ⟨l, ⟨starts, stops, runs, ?_⟩, ?_, rfl, rfl, rfl, rfl⟩
  · rw [lowered, same]
    simp [CountedLoop.again, l, Reference.resolve, dwordSize]
  · rw [same]
    simp [CountedLoop.again, l, Reference.resolve, dwordSize]

/-- The code of every statement of a function stands in the listing. -/
theorem Program.Nested.has_site (nested : p.Nested) {listing : Listing}
    (lowered : p.lower = .ok listing) (split : p.bodies = before ++ g :: later)
    (inside : (g.site (bodyLabels before)).Contains x) :
    ∃ position code, x.code (g.frames later) = .ok code ∧ Code.Has listing.code position code := by
  have laid := nested.laid lowered
  rw [split] at laid
  obtain ⟨front, inner, back, eq, framed⟩ := laid.at
  obtain ⟨body, result, lowered, -, rfl⟩ := framed.parts
  rw [Nat.zero_add] at lowered
  obtain ⟨code, found, first, last, rfl⟩ := inside.code lowered
  refine ⟨(front ++ .label (g.entry later) :: g.enter later ++ first).length, code, found, ?_⟩
  have place := Code.has_middle (front ++ .label (g.entry later) :: g.enter later ++ first) code
    (last ++ (result ++ g.leave later) ++ [Function.exit later] ++ back)
  rw [eq]
  simpa using place

theorem Program.Nested.exists_countedLoop (nested : p.Nested) {listing : Listing}
    (lowered : p.lower = .ok listing) (split : p.bodies = before ++ g :: later)
    (inside : (g.site (bodyLabels before)).Contains x)
    (loop : x.stmt = .for info (.var node symbol) first last direction body)
    (type : symbol.type = .integer) (role : symbol.role = .variable slot)
    (level : slot.level = g.signature.level) (room : g.frameSize (g.frames later) ≤ 2 ^ 32) :
    ∃ l : CountedLoop, l.Lowers (g.frames later) x first last body ∧ l.Stands listing.code ∧
      l.direction = direction ∧ l.counter = slot.offset + 4 ∧ l.bound = x.used + 4 := by
  obtain ⟨σ, completes, stands⟩ := nested.stands split
  obtain ⟨bound, sound, -⟩ := completes.sound
  have tree := sound.of_mem inside.mem_nodes
  rw [loop, Stmt.all_for] at tree
  have checked := tree.1.2.1.self
  have typed : node.type = .integer := checked.obeys.1.trans type
  obtain ⟨area, fits⟩ := stands.variable checked.grounded role level
  have found := Frames.reference_own (f := g.frames later) node.span role type area level
  obtain ⟨position, code, own, has⟩ := nested.has_site lowered split inside
  obtain ⟨l, lowers, rfl, way, counter, kept, rfl⟩ :=
    Site.exists_countedLoop loop found typed own position
  refine ⟨l, lowers, ⟨has, nested.labels_nodup lowered, ?_, ?_, ?_⟩, way, counter, kept⟩
  · omega
  -- The counter is one of the locals, and the bound lies below them, inside the frame.
  all_goals
    obtain ⟨after, within⟩ := inside.temporaries (f := g.frames later)
    have size : symbol.storage = 4 := by simp [Symbol.storage, role, type, Ty.size]
    unfold Function.site at after within
    unfold Function.frameSize at room
    rw [loop, Stmt.temporaries, dwordSize] at within
    dsimp only at after within
    omega

/-- A `for` statement whose counter is an integer variable of its own function, when its values have
been evaluated and each execution of its body ends after the body with the same counter and bound. -/
theorem Source.loops_counted {source : Source} {p : Program} {listing : Listing}
    (h : source.program = .ok p) (lowered : p.lower = .ok listing) {before later : List Function}
    {g : Function} (split : p.bodies = before ++ g :: later) {x : Site}
    (inside : (g.site (bodyLabels before)).Contains x) {info node : NodeInfo} {symbol : Symbol}
    {first last : Expr} {direction : Direction} {body : Stmt}
    (loop : x.stmt = .for info (.var node symbol) first last direction body) {slot : Slot}
    (type : symbol.type = .integer) (role : symbol.role = .variable slot)
    (level : slot.level = g.signature.level) (room : g.frameSize (g.frames later) ≤ 2 ^ 32) :
    ∃ l : CountedLoop, l.Lowers (g.frames later) x first last body ∧
      Code.Has listing.code l.position l.code ∧ l.direction = direction ∧
      l.counter = slot.offset + 4 ∧ l.bound = x.used + 4 ∧
      ∀ (env : Environment) (base : Word) (a b i : Int32) (c c₁ c₂ c₃ : env.Process),
        l.Completes listing.code base c → l.Evaluates listing.code base l.store a c c₁ →
        env.step? listing.code c₁ = some c₂ → l.Evaluates listing.code base l.keep b c₂ c₃ →
        c₃.machine.bytes.dword (below base l.counter) = i.toBitVec →
        c₂.machine.bytes.dword (below base l.counter) = a.toBitVec ∧
        (b ≠ direction.extreme → ∃ c',
          env.Visits listing.code (l.watch base) c (direction.values i (direction.turns i b)) c' ∧
            c'.position = l.stop ∧ c'.machine.ebp = base) ∧
        (b = direction.extreme → ∀ n, ∃ c',
          env.Visits listing.code (l.watch base) c (direction.values i n) c') := by
  have nested := Program.nested (Source.derives h)
  obtain ⟨l, lowers, stands, rfl, counter, bound⟩ :=
    nested.exists_countedLoop lowered split inside loop type role level room
  refine ⟨l, lowers, stands.has, rfl, counter, bound, ?_⟩
  intro env base a b i c c₁ c₂ c₃ completes first stored last value
  exact ⟨(stands.stores first stored).2, stands.counts completes first stored last value⟩

def Source.counting : Source :=
  ⟨"input.pas", ["var i: integer; begin for i := 1 to 3 do; end."], .endOfFile⟩

/-- The values of a program that is one loop over its first variable, without a body. -/
def Program.bounds? (p : Program) : Option (Int32 × Int32) :=
  match p.functions, p.main.body with
  | [], .block _ [.for _ (.var _ ⟨_, .integer, .variable ⟨0, 0, .locals⟩⟩)
      (.const ⟨_, _, .integer⟩ (.integer a)) (.const ⟨_, _, .integer⟩ (.integer b)) .up
      (.block _ [])] => some (a, b)
  | _, _ => none

theorem Source.counting_bounds : Source.counting.program.toOption.map (fun p =>
    (p.lower.toOption.isSome, p.bounds?, p.main.frameSize (p.main.frames []))) =
      some (true, some (1, 3), 8) := by
  decide +kernel

/-- Surroundings in which nothing but the machine works. -/
def Environment.still : Environment := ⟨Unit, fun _ _ _ _ => none⟩

def countingMachine : Machine := ⟨0, 0, 0, 0, 0, 4096, 4088, none, fun _ => 0, 8192⟩

theorem Program.exists_of_bounds {a b : Int32} (h : p.bounds? = some (a, b)) :
    p.functions = [] ∧ ∃ around info node name i first j last inner,
      p.main.body = .block around [.for info (.var node ⟨name, .integer, .variable ⟨0, 0, .locals⟩⟩)
        (.const ⟨i, first, .integer⟩ (.integer a)) (.const ⟨j, last, .integer⟩ (.integer b)) .up
        (.block inner [])] := by
  unfold Program.bounds? at h
  split at h
  · next alone body =>
    cases h
    exact ⟨alone, _, _, _, _, _, _, _, _, _, body⟩
  · cases h

theorem Source.counting_counts : ∃ p listing, Source.counting.program = .ok p ∧
    p.lower = .ok listing ∧ ∃ (l : CountedLoop) (c' : Environment.still.Process),
      Environment.still.Visits listing.code (l.watch 4096) ⟨l.position, countingMachine, ()⟩
        [1, 2, 3] c' ∧ c'.position = l.stop := by
  obtain ⟨p, accepted, known⟩ := exists_of_map_toOption Source.counting_bounds
  obtain ⟨lowers, bounds, size⟩ : p.lower.toOption.isSome = true ∧ p.bounds? = some (1, 3) ∧
      p.main.frameSize (p.main.frames []) = 8 := by simpa using known
  obtain ⟨listing, lowered⟩ : ∃ listing, p.lower = .ok listing := by
    cases answer : p.lower with
    | error e => simp [answer, Except.toOption] at lowers
    | ok listing => exact ⟨listing, rfl⟩
  obtain ⟨alone, around, info, node, name, i, first, j, last, inner, body⟩ :=
    Program.exists_of_bounds bounds
  have split : p.bodies = [] ++ p.main :: [] := by rw [Program.bodies, alone]
  have inside : (p.main.site (bodyLabels [])).Contains ⟨none, p.main.locals.size, 0,
      .for info (.var node ⟨name, .integer, .variable ⟨0, 0, .locals⟩⟩) (.const ⟨i, first, .integer⟩ (.integer 1))
        (.const ⟨j, last, .integer⟩ (.integer 3)) .up (.block inner [])⟩ := by
    rw [Function.site, body]
    exact .single (.inl (.block none _ _ around [] [] _))
  have level := (Source.checked accepted).signature.1
  obtain ⟨l, parts, has, -, counter, -, counts⟩ := Source.loops_counted accepted lowered split
    inside rfl rfl rfl level.symm (by rw [size]; decide)
  have pushed : l.first = [.instruction .push [.immediate 1]] := (Except.ok.inj parts.first).symm
  have pushed' : l.last = [.instruction .push [.immediate 3]] := (Except.ok.inj parts.last).symm
  have empty : l.body = [] := (Except.ok.inj parts.body).symm
  have store : l.store = l.position + 1 := by rw [CountedLoop.store, pushed]; rfl
  have keep : l.keep = l.position + 3 := by rw [CountedLoop.keep, store, pushed']; rfl
  have start : l.start = l.position + 5 := by rw [CountedLoop.start, keep]
  have next : l.next = l.start + 1 := by rw [CountedLoop.next, empty]; rfl
  rw [CountedLoop.code, pushed, pushed'] at has
  have value : (((countingMachine.push 1).pop.2.store (below 4096 4) 1).push 3).bytes.dword
      (below 4096 4) = 1 := by decide
  let m := (countingMachine.push 1).pop.2.store (below 4096 4) 1
  let c : Environment.still.Process := ⟨l.position, countingMachine, ()⟩
  let c₁ : Environment.still.Process := ⟨l.position + 1, countingMachine.push 1, ()⟩
  let c₂ : Environment.still.Process := ⟨l.position + 2, m, ()⟩
  let c₃ : Environment.still.Process := ⟨l.position + 3, m.push 3, ()⟩
  have first : l.Evaluates listing.code 4096 l.store 1 c c₁ := by
    rw [store]
    exact CountedLoop.evaluates_push has rfl (by omega)
  have stored : Environment.still.step? listing.code c₁ = some c₂ := by
    rw [counter] at has
    exact Environment.step_instruction has.tail (instruction?_pop_frameSlot _ 4)
  have last : l.Evaluates listing.code 4096 l.keep 3 c₂ c₃ := by
    rw [keep]
    exact CountedLoop.evaluates_push has.tail.tail rfl (by omega)
  have completes : l.Completes listing.code 4096 c := by
    intro seen c _ position frame
    exact ⟨c, .refl c, position.trans next.symm, frame, fun _ _ => rfl⟩
  obtain ⟨-, ends, -⟩ := counts .still 4096 1 3 1 c c₁ c₂ c₃ completes first stored last
    (by rw [counter]; exact value)
  obtain ⟨c', visits, stop, -⟩ := ends (by decide)
  exact ⟨p, listing, accepted, lowered, l, c', visits, stop⟩

/-- What a watch shows within so many steps. -/
def Environment.shown {α : Type} (env : Environment) (code : Code) (watch : env.Process → Option α) :
    Nat → env.Process → List α
  | 0, _ => []
  | steps + 1, c => (watch c).toList ++
      match env.step? code c with
      | some c' => shown env code watch steps c'
      | none => []

def Source.endless : Source :=
  ⟨"input.pas", ["var i: integer; begin for i := 2147483647 to 2147483647 do; end."], .endOfFile⟩

/-- The first variable, each time when the body of the first loop begins. -/
def Listing.firstLoop (l : Listing) (c : Environment.still.Process) : Option Word :=
  if l.code.target? "for_body_1" = some c.position then
    some (c.machine.bytes.dword (below c.machine.ebp 4))
  else none

-- The only value of the counter is the last integer, and it is followed by the first one.
theorem Source.endless_repeats : Direction.up.turns 2147483647 2147483647 = 1 ∧
    ((Source.endless.program.toOption.bind fun p => p.lower.toOption).map fun l =>
      Environment.still.shown l.code l.firstLoop 22 ⟨0, countingMachine, ()⟩) =
        some [2147483647, 2147483648] := by
  decide +kernel

end PascalX86
