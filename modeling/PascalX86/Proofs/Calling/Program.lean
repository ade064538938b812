import PascalX86.Proofs.Calling.Argument
import PascalX86.Proofs.Calling.Node
import PascalX86.Proofs.Frame.Program
import PascalX86.Proofs.Lowering.Jump

/-!
# Calls and their callees

The bytes that a caller pushes for an argument are those that the callee finds at the place of its
parameter, and the caller releases all of them after the call.
-/

set_option autoImplicit false

namespace PascalX86

open Register

section Addresses

variable {base : Word} {n k : Nat}

theorem below_add_of_le (le : k ≤ n) : below base n + .ofNat 32 k = below base (n - k) := by
  have whole := below_add base (n - k) k
  rwa [Nat.sub_add_cancel le] at whole

theorem below_below (base : Word) (n k : Nat) : below (below base n) k = below base (n + k) :=
  below_sub base n k

theorem below_inj (same : below base n = below base k) (small : n < 2 ^ 32) (small' : k < 2 ^ 32) :
    n = k := by
  unfold below at same
  bv_omega

theorem Machine.esp_push {m : Machine} (esp : m.esp = below base n) (v : Word) :
    (m.push v).esp = below base (n + 4) := by
  show m.esp - 4 = _
  rw [esp]
  exact below_sub base n 4

end Addresses

section Frames

variable {h : Function} {later : List Function} {m : Machine}

/-- A cell lies outside the topmost bytes of the stack. -/
def Machine.Spares (m : Machine) (x : Memory) (size : Nat) : Prop :=
  ∀ a, m.address? x = some a → ∀ i < size, 4 ≤ (m.esp + .ofNat 32 i - a).toNat

/-- A function that is entered keeps two dwords below the return address: the entry of the display,
which it takes over, and the frame pointer of its caller. -/
theorem Function.run_enter (h : Function) (inner : later ≠ []) (m : Machine) :
    ∃ m', m.run? (h.enter later) = some m' ∧ m'.ebp = below m.esp 8 ∧
      ∀ c, (∀ j < 8, c ≠ below m.esp (j + 1)) →
        (∀ a, m.address? (displayEntry h.signature.level) = some a → 4 ≤ (c - a).toNat) →
        m'.bytes c = m.bytes c := by
  let cell := displayEntry h.signature.level
  let size := h.frameSize (h.frames later)
  let entry := m.display + cell.displacement.toBitVec
  let s := (m.push (m.bytes.dword entry)).push m.ebp
  have code : h.enter later = [.instruction .push [cell], .instruction .push [ebp]] ++
      ([.instruction .mov [ebp, esp], .instruction .mov [cell, ebp]] ++
        [.instruction .sub [esp, .ofNat size]]) := by
    unfold enter
    exact if_neg inner
  have pushed : m.Pushed 2 s := (Machine.Pushed.zero s).before.before
  have saves : m.run? [.instruction .push [cell], .instruction .push [ebp]] = some s := rfl
  let t : Machine := { s with ebp := s.esp, bytes := s.bytes.set entry s.esp }
  have takes : s.run? [.instruction .mov [ebp, esp], .instruction .mov [cell, ebp]] = some t := rfl
  have executed : t.run? [.instruction .sub [esp, .ofNat size]] =
      some { t with
        esp := t.esp - (Int32.ofNat size).toBitVec
        flags := some (.ofSub t.esp (Int32.ofNat size).toBitVec) } := rfl
  rw [← Machine.run?_append_of_eq takes, ← Machine.run?_append_of_eq saves, ← code] at executed
  refine ⟨_, executed, ?_, ?_⟩
  · show s.esp = below m.esp 8
    rw [pushed.eq]
    rfl
  · intro c outside spared
    have other : ¬ (c - entry).toNat < 4 := Nat.not_lt.mpr (spared entry rfl)
    show s.bytes.set entry s.esp c = m.bytes c
    rw [Bytes.set, if_neg other]
    exact pushed.bytes c outside

theorem Function.run_leave (h : Function) (inner : later ≠ []) (m : Machine) :
    ∃ m', m.run? (h.leave later) = some m' ∧ m'.esp = m.ebp + 8 := by
  unfold leave
  rw [if_neg inner]
  refine ⟨_, rfl, ?_⟩
  show m.ebp + 4 + 4 = m.ebp + 8
  bv_omega

end Frames

/-- How a function refers to its parameter, given where the argument lies from the frame pointer. -/
def Parameter.referenceAt (p : Parameter) (displacement : Int32) : Reference :=
  match p.mode with
  | .byReference =>
      ⟨[.instruction .mov [eax, Memory.dword ebp displacement]], .memory (.dword eax 0)⟩
  | .byValue | .constant => ⟨[], .memory (.dword ebp displacement)⟩

theorem Parameter.reference_eq {p : Parameter} {f : Frames} {block : Nat} (span : Span)
    (own : p.slot.level = f.level) (area : p.slot.area = .parameters)
    (known : f.blocks[f.level]? = some block) :
    f.reference span p.symbol =
      .ok (p.referenceAt (.ofNat (linkSize + block - p.slot.offset - p.mode.size p.type))) := by
  have found : p.symbol.slot? = some p.slot := rfl
  unfold Frames.reference
  simp only [found, Frames.displacement, area, own, known, Frames.pointer, if_true]
  cases mode : p.mode <;> simp [Symbol.kind, symbol, mode, referenceAt, Symbol.storage] <;> rfl

namespace Passing

variable {function : Signature} {arguments : List Expr}

/-- The bytes that were pushed for a parameter are those at its place in the frame, between the
arguments after it and those before it. Parameters by reference are followed to what is there. -/
structure Finds (x : Passing function arguments) (h : Function) (later : List Function)
    (m₂ m₃ m₄ : Machine) (displacement : Int32) : Prop where
  value : displacement.toInt = linkSize + function.block - x.offset - x.size
  refers : ∀ span, (h.frames later).reference span x.parameter.symbol =
    .ok (x.parameter.referenceAt displacement)
  cell : m₄.ebp + displacement.toBitVec = m₂.esp
  same : m₃.Spares (displayEntry function.level) function.block → ∀ i < x.size,
    m₄.bytes (m₂.esp + .ofNat 32 i) = m₂.bytes (m₂.esp + .ofNat 32 i)
  place : m₃.Spares (displayEntry function.level) function.block →
    ∃ s, m₄.run? (x.parameter.referenceAt displacement).code = some s ∧
      s.addressOf (x.parameter.referenceAt displacement).place =
        some (if x.parameter.mode = .byReference then m₂.bytes.dword m₂.esp else m₂.esp)

variable {h : Function} {functions : List Function} {f : Frames} {top ret : Word} {room : Nat}
  {m₀ m₁ m₂ m₃ m₄ : Machine}

/-- What a function does before its body leaves the arguments alone. -/
theorem Pushes.same {x : Passing function arguments} {level : Nat}
    (pushes : x.Pushes functions f top room m₀ m₁ m₂ m₃) (inside : x.offset + x.size ≤ function.block)
    (small : function.block ≤ maxSize) (full : m₃.esp = below top function.block)
    (kept : ∀ c, (∀ j < 8, c ≠ below (m₃.push ret).esp (j + 1)) →
      (∀ a, (m₃.push ret).address? (displayEntry level) = some a → 4 ≤ (c - a).toNat) →
      m₄.bytes c = (m₃.push ret).bytes c)
    (spares : m₃.Spares (displayEntry level) function.block) {i : Nat} (own : i < x.size) :
    m₄.bytes (m₂.esp + .ofNat 32 i) = m₂.bytes (m₂.esp + .ofNat 32 i) := by
  unfold maxSize at small
  -- The same byte, counted from the top of the stack and from the last argument.
  have cell : m₂.esp + .ofNat 32 i = below top (x.offset + x.size - i) := by
    rw [pushes.stop]
    exact below_add_of_le (by omega)
  have cell' : m₃.esp + .ofNat 32 (function.block - (x.offset + x.size) + i) = m₂.esp + .ofNat 32 i := by
    rw [cell, full, below_add_of_le (by omega)]
    congr 1
    omega
  have pushed : m₃.Pushed 1 (m₃.push ret) := (Machine.Pushed.zero _).before
  have above (n : Nat) (later : function.block < n) (near : n < function.block + 16) :
      m₂.esp + .ofNat 32 i ≠ below top n := by
    intro same
    rw [cell] at same
    have := below_inj same (by omega) (by omega)
    omega
  rw [kept, pushed.bytes, cell]
  · exact pushes.kept _ (by omega)
  · intro j lt
    rw [full, below_below]
    exact above _ (by omega) (by unfold dwordSize at lt; omega)
  · intro j lt
    rw [Machine.esp_push full, below_below]
    exact above _ (by omega) (by omega)
  · intro a address
    rw [← cell']
    exact spares a address _ (by omega)

theorem Pushes.finds {x : Passing h.signature arguments}
    (pushes : x.Pushes functions f top room m₀ m₁ m₂ m₃) (later : List Function) (formed : h.signature.Formed)
    (full : m₃.esp = below top h.signature.block) (base : m₄.ebp = below (m₃.push ret).esp 8)
    (kept : ∀ c, (∀ j < 8, c ≠ below (m₃.push ret).esp (j + 1)) →
      (∀ a, (m₃.push ret).address? (displayEntry h.signature.level) = some a → 4 ≤ (c - a).toNat) →
      m₄.bytes c = (m₃.push ret).bytes c) :
    ∃ d, x.Finds h later m₂ m₃ m₄ d := by
  have block := x.block formed
  have slot := x.slot formed
  have small := formed.sound.room
  have inside : x.offset + x.size ≤ h.signature.block := by omega
  have cell : m₄.ebp + .ofNat 32 (linkSize + h.signature.block - x.offset - x.size) = m₂.esp := by
    have frame : m₄.ebp = below top (h.signature.block + linkSize) := by
      rw [base, Machine.esp_push full, below_below]
      rfl
    rw [frame, pushes.stop, below_add_of_le (by omega)]
    congr 1
    unfold linkSize
    omega
  have same (spares : m₃.Spares (displayEntry h.signature.level) h.signature.block) (i : Nat)
      (own : i < x.size) : m₄.bytes (m₂.esp + .ofNat 32 i) = m₂.bytes (m₂.esp + .ofNat 32 i) :=
    pushes.same inside small full kept spares own
  refine ⟨.ofNat (linkSize + h.signature.block - x.offset - x.size), ?_, ?_, cell, same, ?_⟩
  · rw [Int32.toInt_ofNat_of_lt]
    · omega
    · unfold linkSize maxSize at *
      omega
  · intro span
    have level : x.parameter.slot.level = (h.frames later).level := by
      rw [slot]
      rfl
    have area : x.parameter.slot.area = .parameters := by rw [slot]
    exact Parameter.reference_eq span level area (h.blocks_frames later)
  · intro spares
    by_cases mode : x.parameter.mode = .byReference
    · have dword : m₄.bytes.dword m₂.esp = m₂.bytes.dword m₂.esp := by
        apply Bytes.dword_congr
        intro i lt
        apply same spares
        rw [Passing.size, mode]
        exact lt
      simp only [Parameter.referenceAt, mode, if_true]
      refine ⟨_, rfl, ?_⟩
      show some (m₄.bytes.dword (m₄.ebp + .ofNat 32 _) + 0) = some (m₂.bytes.dword m₂.esp)
      rw [cell, dword]
      exact congrArg some (BitVec.add_zero _)
    · rw [if_neg mode]
      have plain : x.parameter.referenceAt (.ofNat (linkSize + h.signature.block - x.offset - x.size)) =
          ⟨[], .memory (.dword ebp (.ofNat (linkSize + h.signature.block - x.offset - x.size)))⟩ := by
        unfold Parameter.referenceAt
        split
        · next reference => exact absurd reference mode
        · rfl
        · rfl
      rw [plain]
      exact ⟨m₄, rfl, congrArg some cell⟩

end Passing

/-- What comes of the arguments that are on the stack: the function that is called finds each of them
in its frame and leaves them there, and the caller releases all of them. -/
structure Function.Receives (h : Function) (later functions : List Function) (f : Frames)
    (arguments : List Expr) (top : Word) (room : Nat) (m₀ m₃ : Machine) : Prop where
  full : m₃.esp = below top h.signature.block
  entered : ∀ ret, ∃ m₄, (m₃.push ret).run? (h.enter later) = some m₄ ∧
    (∀ x : Passing h.signature arguments, ∃ m₁ m₂ displacement,
      x.Pushes functions f top room m₀ m₁ m₂ m₃ ∧ x.Finds h later m₂ m₃ m₄ displacement) ∧
    ∀ s : Machine, s.ebp = m₄.ebp → ∃ s', s.run? (h.leave later) = some s' ∧ s'.esp = (m₃.push ret).esp
  released : ∀ s : Machine, s.esp = m₃.esp →
    ∃ s', s.run? (discard h.signature.block) = some s' ∧ s'.esp = top

section Programs

variable {p : Program} {g h : Function} {before later functions : List Function} {f : Frames}
  {info : NodeInfo} {function : Signature} {arguments : List Expr} {σ : Scopes} {bound : Nat}

/-- What checking leaves of a call. -/
structure Signature.CalledWith (function : Signature) (σ : Scopes) (bound : Nat)
    (arguments : List Expr) : Prop where
  named : σ.Names function
  takes : List.Forall₂ Parameter.Takes function.parameters arguments
  sound : ∀ e ∈ arguments, e.Sound σ bound
  calls : ∀ e ∈ arguments, e.All (Expr.Calls σ)

theorem Function.HasCall.calls (has : g.HasCall info function arguments)
    (calls : g.body.All (Expr.Calls σ) (Stmt.Calls σ)) (sound : g.body.Sound σ bound) :
    function.CalledWith σ bound arguments := by
  obtain ⟨s, mem, rfl | ⟨e, operand, inside⟩⟩ := has
  · obtain ⟨named, inEach⟩ := Stmt.all_call.mp (calls.of_mem mem)
    obtain ⟨checked, each⟩ := Stmt.all_call.mp (sound.of_mem mem)
    exact ⟨named, checked.obeys.2, each, inEach⟩
  · obtain ⟨named, inEach⟩ := Expr.all_call.mp (((calls s mem).2 e operand).of_mem inside)
    obtain ⟨checked, each⟩ := Expr.all_call.mp (((sound s mem).2 e operand).of_mem inside)
    exact ⟨named, checked.obeys.2.2, each, inEach⟩

theorem run_discard {m : Machine} {top : Word} {size : Nat} (esp : m.esp = below top size) :
    ∃ m', m.run? (discard size) = some m' ∧ m'.esp = top := by
  have whole : below top size + .ofNat 32 size = top := by
    unfold below
    exact BitVec.sub_add_cancel top _
  unfold discard
  by_cases none : size = 0
  · rw [if_pos none]
    refine ⟨m, rfl, ?_⟩
    rw [esp, none]
    exact BitVec.sub_zero top
  · rw [if_neg none]
    refine ⟨_, rfl, ?_⟩
    show m.esp + .ofNat 32 size = top
    rw [esp]
    exact whole

theorem Signature.CalledWith.receives {top : Word} {room : Nat} {m₀ m₃ : Machine} {pushes : Code}
    (call : h.signature.CalledWith σ bound arguments) (agree : ∀ s, σ.Names s → s.Agrees functions)
    (formed : h.signature.Formed) (inner : later ≠ [])
    (lowered : argumentsCode f h.signature.parameters arguments = .ok pushes) (small : room < 2 ^ 31)
    (esp : m₀.esp = top) (runs : m₀.Runs functions top room pushes m₃) :
    h.Receives later functions f arguments top room m₀ m₃ := by
  have piles := (lowers_argumentsPiles agree call.sound call.calls call.takes).result pushes lowered
  rw [← formed.sound.block] at piles
  have start : m₀.esp = below top (0 + 0) := by
    rw [esp]
    exact (BitVec.sub_zero top).symm
  obtain ⟨moved, -⟩ := Machine.Moved.of_runs runs small piles.depth piles.keeps start (by omega)
  have full := moved.esp
  rw [Nat.zero_add] at full
  refine ⟨full, fun ret => ?_, fun s same => run_discard (same.trans full)⟩
  obtain ⟨m₄, entered, base, kept⟩ := h.run_enter inner (m₃.push ret)
  refine ⟨m₄, entered, fun x => ?_, fun s same => ?_⟩
  · obtain ⟨m₁, m₂, passed⟩ := x.exists_pushes formed agree call.sound call.calls call.takes lowered runs
      small esp
    obtain ⟨d, finds⟩ := passed.finds later formed full base kept
    exact ⟨m₁, m₂, d, passed, finds⟩
  · obtain ⟨s', left, back⟩ := h.run_leave inner s
    refine ⟨s', left, ?_⟩
    rw [back, same, base]
    exact BitVec.sub_add_cancel _ _

/-- Labels stand for one function each. -/
theorem Program.Nested.agree (nested : p.Nested)
    (named : ∀ symbol f, σ.Holds symbol → symbol.role = .function f → ∃ h ∈ p.functions, h.signature = f) :
    ∀ s, σ.Names s → s.Agrees p.functions := by
  rintro s ⟨symbol, holds, role⟩ other listed' same
  obtain ⟨only, listed, rfl⟩ := named symbol s holds role
  rw [(nested.names listed).only other listed' same]

/-- The code of a call pushes the arguments, calls the function, which receives them, and releases as
many bytes as the arguments of that function take. What is left is the result. -/
structure Function.Answers (h : Function) (later functions : List Function) (f : Frames)
    (info : NodeInfo) (arguments : List Expr) (code : Code) : Prop where
  parts : ∃ pushes result : Code, argumentsCode f h.signature.parameters arguments = .ok pushes ∧
    resultCode info.span h.signature.result = .ok result ∧
    code = pushes ++ .instruction .call [.raw h.signature.label] :: discard h.signature.block ++ result ∧
    ∀ top room m₀ m₃, room < 2 ^ 31 → m₀.esp = top → m₀.Runs functions top room pushes m₃ →
      h.Receives later functions f arguments top room m₀ m₃

/-- Callers and callees agree. The bytes that are pushed for an argument, the first argument at the
highest address, are those at the place of its parameter in the frame of the function that the call
goes to. In code that there is for a program, every call of the program has its own. -/
theorem Source.calls_agree {source : Source} {p : Program} (h : source.program = .ok p) :
    ∀ before g later, p.bodies = before ++ g :: later → ∀ info function arguments,
      g.HasCall info function arguments → ∃ callee inner outer, p.Names function callee ∧
        p.bodies = inner ++ callee :: outer ∧
        (∀ q ∈ function.parameters, ∃ x : Passing function arguments, x.parameter = q) ∧
        (∀ code, callCode info function (argumentsCode (g.frames later) function.parameters arguments) =
          .ok code → callee.Answers outer p.functions (g.frames later) info arguments code) ∧
        ∀ listing, p.lower = .ok listing → ∃ code, callCode info function
          (argumentsCode (g.frames later) function.parameters arguments) = .ok code ∧
          code <:+: listing.code := by
  have nested := Program.nested (Source.derives h)
  intro before g later split info function arguments has
  obtain ⟨σ, completes, -, -, named⟩ := nested.scopes split
  obtain ⟨bound, sound, -⟩ := completes.sound
  have call := has.calls completes.calls sound
  obtain ⟨symbol, holds, role⟩ := call.named
  obtain ⟨callee, listed, rfl⟩ := named symbol function holds role
  obtain ⟨inner, after, position⟩ := List.append_of_mem listed
  have bodies : p.bodies = inner ++ callee :: (after ++ [p.main]) := by
    rw [Program.bodies, position, List.append_assoc, List.cons_append]
  obtain ⟨-, formed, -⟩ := nested.completes callee (by simp [bodies])
  have agree := nested.agree named
  refine ⟨callee, inner, after ++ [p.main], nested.names listed, bodies,
    Passing.exists_of_mem call.takes.length_eq.symm, ?_, ?_⟩
  · intro code lowered
    obtain ⟨pushes, passed, lowered⟩ := bind_eq_ok.mp lowered
    obtain ⟨result, answered, eq⟩ := bind_eq_ok.mp lowered
    cases eq
    refine ⟨pushes, result, passed, answered, rfl, ?_⟩
    intro top room m₀ m₃ small esp runs
    exact call.receives agree formed (by simp) passed small esp runs
  · intro listing lowered
    have laid := nested.laid lowered
    rw [split] at laid
    obtain ⟨front, whole, back, placed, framed⟩ := laid.at
    obtain ⟨body, result, found, -, eq⟩ := framed.parts
    obtain ⟨code, own, part⟩ := has.emitted sound found
    refine ⟨code, own, part.trans ?_⟩
    rw [placed, eq]
    exact ⟨front ++ .label (g.entry later) :: g.enter later,
      result ++ g.leave later ++ [Function.exit later] ++ back, by simp⟩

/-- The code of the arguments of a statement that is a call. -/
def Stmt.pushes? (f : Frames) : Stmt → Option Code
  | .call _ function arguments => (argumentsCode f function.parameters arguments).toOption
  | _ => none

/-- The call in the block of the program passes a variable, the address of another one and the two
dwords of a double, the higher one first. -/
theorem Source.nested_pushes : (Source.nested.program.toOption.bind fun p =>
    p.main.body.nodes.findSome? (Stmt.pushes? Function.mainFrames)) =
      some [.instruction .push [Memory.dword ebp (-28)],
        .instruction .lea [eax, Memory.dword ebp (-24)], .instruction .push [eax],
        .instruction .push [.immediate 1073217536], .instruction .push [.immediate 0]] := by
  decide +kernel

/-- The arguments of the call in that program are received on a stack of 64 bytes. -/
theorem Source.nested_calls_agree : ∃ p before g later info function arguments callee outer m₀ m₃,
    Source.nested.program = .ok p ∧ p.bodies = before ++ g :: later ∧
      g.HasCall info function arguments ∧ p.Names function callee ∧
      callee.Receives outer p.functions (g.frames later) arguments 4096 64 m₀ m₃ := by
  obtain ⟨p, accepted, listing, lowered⟩ := exists_of_bind_toOption Source.nested_lowers
  have found := Source.nested_pushes
  rw [accepted, Except.toOption, Option.bind_some] at found
  obtain ⟨s, mem, passed⟩ := List.exists_of_findSome?_eq_some found
  cases s with
  | call info function arguments =>
      have nested := Program.nested (Source.derives accepted)
      have has : p.main.HasCall info function arguments := ⟨_, mem, .inl rfl⟩
      obtain ⟨callee, inner, outer, names, -, -, answers, emitted⟩ :=
        Source.calls_agree accepted p.functions p.main [] rfl info function arguments has
      obtain ⟨code, own, -⟩ := emitted listing lowered
      obtain ⟨pushes, result, pushed, -, -, receives⟩ := answers code own
      have frames : p.main.frames [] = Function.mainFrames :=
        Function.frames_main nested.main.1 nested.main.2
      obtain rfl := names.same
      rw [Stmt.pushes?, ← frames, pushed] at passed
      cases passed
      let m₀ : Machine := ⟨0, 0, 0, 0, 0, 8192, 4096, none, fun _ => 0, 12288⟩
      have runs : ∃ m₃, m₀.Runs p.functions 4096 64 [.instruction .push [Memory.dword ebp (-28)],
          .instruction .lea [eax, Memory.dword ebp (-24)], .instruction .push [eax],
          .instruction .push [.immediate 1073217536], .instruction .push [.immediate 0]] m₃ := by
        refine ⟨_, .cons (.exact rfl) ?_ (.cons (.exact rfl) ?_ (.cons (.exact rfl) ?_
          (.cons (.exact rfl) ?_ (.cons (.exact rfl) ?_ (.nil _)))))⟩
        all_goals decide
      obtain ⟨m₃, runs⟩ := runs
      exact ⟨p, p.functions, p.main, [], info, _, arguments, callee, outer, m₀, m₃, accepted, rfl, has,
        names, receives 4096 64 m₀ m₃ (by decide) rfl runs⟩
  | _ => cases passed

end Programs

end PascalX86
