import Mathlib.Logic.Relation
import PascalX86.Proofs.Answer
import PascalX86.Proofs.Lowering.Label

/-!
# Statements at their places

A statement together with what its code depends on: the loop around it, the bytes of the frame that
are taken, and the first free label. The code of each part stands in the code of the whole.
-/

set_option autoImplicit false

namespace PascalX86

theorem Stmt.mem_nodes (s : Stmt) : s ∈ s.nodes := by
  cases s <;> simp

structure Site where
  loop? : Option Loop
  used : Nat
  label : Nat
  stmt : Stmt

def Function.site (g : Function) (label : Nat) : Site := ⟨none, g.locals.size, label, g.body⟩

namespace Site

def code (f : Frames) (s : Site) : Lowered Code := s.stmt.code f s.loop? s.used s.label

/-- The statements right inside an `if` or a block. -/
inductive Part : Site → Site → Prop where
  | ifThen (loop? : Option Loop) (used label : Nat) (info : NodeInfo) (condition : Expr) (body : Stmt) :
      Part ⟨loop?, used, label, .ifThen info condition body⟩ ⟨loop?, used, label + 2, body⟩
  | first (loop? : Option Loop) (used label : Nat) (info : NodeInfo) (condition : Expr)
      (body otherwise : Stmt) :
      Part ⟨loop?, used, label, .ifElse info condition body otherwise⟩ ⟨loop?, used, label + 2, body⟩
  | second (loop? : Option Loop) (used label : Nat) (info : NodeInfo) (condition : Expr)
      (body otherwise : Stmt) :
      Part ⟨loop?, used, label, .ifElse info condition body otherwise⟩
        ⟨loop?, used, label + 2 + body.labels, otherwise⟩
  | block (loop? : Option Loop) (used label : Nat) (info : NodeInfo) (before after : List Stmt)
      (s : Stmt) :
      Part ⟨loop?, used, label, .block info (before ++ s :: after)⟩
        ⟨loop?, used, label + labelsOf before, s⟩

/-- The body of a loop, with the labels that its jumps go to. -/
inductive Turn : Site → Loop → Site → Prop where
  | while (loop? : Option Loop) (used label : Nat) (info : NodeInfo) (condition : Expr) (body : Stmt) :
      Turn ⟨loop?, used, label, .while info condition body⟩
        ⟨numbered "while_cond" label, numbered "while_end" (label + 2)⟩
        ⟨some ⟨numbered "while_cond" label, numbered "while_end" (label + 2)⟩, used, label + 3, body⟩
  | for (loop? : Option Loop) (used label : Nat) (info : NodeInfo) (counter first last : Expr)
      (direction : Direction) (body : Stmt) :
      Turn ⟨loop?, used, label, .for info counter first last direction body⟩
        ⟨numbered "for_next" (label + 2), numbered "for_end" (label + 3)⟩
        ⟨some ⟨numbered "for_next" (label + 2), numbered "for_end" (label + 3)⟩, used + dwordSize,
          label + 4, body⟩

/-- Inside without a loop in between. -/
def Within : Site → Site → Prop := Relation.ReflTransGen Part

def Contains : Site → Site → Prop := Relation.ReflTransGen fun s t => Part s t ∨ ∃ loop, Turn s loop t

variable {s t u : Site} {l : Loop} {f : Frames} {whole : Code}

theorem Turn.loop (turn : Turn s l t) : t.loop? = some l := by
  cases turn <;> rfl

theorem Part.loop (part : Part s t) : t.loop? = s.loop? := by
  cases part <;> rfl

theorem Part.used (part : Part s t) : t.used = s.used := by
  cases part <;> rfl

section Code

theorem infix_blockCode {loop? : Option Loop} {used label : Nat} {before after : List Stmt} {x : Stmt}
    (lowered : blockCode f loop? used label (before ++ x :: after) = .ok whole) :
    ∃ inner, x.code f loop? used (label + labelsOf before) = .ok inner ∧ inner <:+: whole := by
  induction before generalizing label whole with
  | nil =>
      simp only [List.nil_append, blockCode, bind_eq_ok] at lowered
      obtain ⟨inner, lowered, rest, -, eq⟩ := lowered
      cases eq
      exact ⟨inner, lowered, (List.prefix_append inner rest).isInfix⟩
  | cons y before ih =>
      simp only [List.cons_append, blockCode, bind_eq_ok] at lowered
      obtain ⟨head, -, tail, lowered, eq⟩ := lowered
      cases eq
      obtain ⟨inner, found, part⟩ := ih lowered
      refine ⟨inner, ?_, part.trans (List.suffix_append head tail).isInfix⟩
      rw [labelsOf, ← Nat.add_assoc]
      exact found

theorem Part.code (part : Part s t) (lowered : s.code f = .ok whole) :
    ∃ inner, t.code f = .ok inner ∧ inner <:+: whole := by
  cases part with
  | ifThen loop? used label info condition body =>
      simp only [Site.code, Stmt.code, bind_eq_ok] at lowered
      obtain ⟨test, -, inner, lowered, eq⟩ := lowered
      cases eq
      refine ⟨inner, lowered, test ++ [jump .jz (numbered "else" label)],
        [.label (numbered "else" label), .label (numbered "endif" (label + 1))], by simp⟩
  | first loop? used label info condition body otherwise =>
      simp only [Site.code, Stmt.code, bind_eq_ok] at lowered
      obtain ⟨test, -, inner, lowered, other, -, eq⟩ := lowered
      cases eq
      refine ⟨inner, lowered, test ++ [jump .jz (numbered "else" label)],
        [jump .jmp (numbered "endif" (label + 1)), .label (numbered "else" label)] ++ other ++
          [.label (numbered "endif" (label + 1))], by simp⟩
  | second loop? used label info condition body otherwise =>
      simp only [Site.code, Stmt.code, bind_eq_ok] at lowered
      obtain ⟨test, -, other, -, inner, lowered, eq⟩ := lowered
      cases eq
      refine ⟨inner, lowered, test ++ jump .jz (numbered "else" label) :: other ++
        [jump .jmp (numbered "endif" (label + 1)), .label (numbered "else" label)],
        [.label (numbered "endif" (label + 1))], by simp⟩
  | block => exact infix_blockCode lowered

/-- The code of a loop goes on at its first label after each turn, and ends with its second one. -/
theorem Turn.code (turn : Turn s l t) (lowered : s.code f = .ok whole) :
    ∃ enter inner again, t.code f = .ok inner ∧
      whole = enter ++ inner ++ .label l.next :: again ++ [.label l.stop] := by
  cases turn with
  | «while» loop? used label info condition body =>
      simp only [Site.code, Stmt.code, bind_eq_ok] at lowered
      obtain ⟨inner, lowered, test, -, eq⟩ := lowered
      cases eq
      refine ⟨[jump .jmp (numbered "while_cond" label), .label (numbered "while_body" (label + 1))],
        inner, test ++ [jump .jnz (numbered "while_body" (label + 1))], lowered, by simp⟩
  | «for» loop? used label info counter first last direction body =>
      simp only [Site.code, Stmt.code, bind_eq_ok] at lowered
      obtain ⟨start, -, target, -, stop, -, inner, lowered, eq⟩ := lowered
      cases eq
      refine ⟨start ++ target.store counter.type.size ++ stop ++
        [.instruction .pop [frameSlot (used + dwordSize)], jump .jmp (numbered "for_cond" label),
          .label (numbered "for_body" (label + 1))], inner, target.resolve.1 ++
        [.instruction direction.step [target.resolve.2, .immediate 1],
          .label (numbered "for_cond" label)] ++ target.resolve.1 ++
        [.instruction .mov [Register.eax, target.resolve.2],
          .instruction .cmp [Register.eax, frameSlot (used + dwordSize)],
          jump direction.again (numbered "for_body" (label + 1))], lowered, by simp⟩

theorem Contains.code (contains : Contains s t) (lowered : s.code f = .ok whole) :
    ∃ inner, t.code f = .ok inner ∧ inner <:+: whole := by
  induction contains with
  | refl => exact ⟨whole, lowered, List.infix_refl whole⟩
  | tail _ step ih =>
      obtain ⟨outer, around, part⟩ := ih
      rcases step with step | ⟨loop, turn⟩
      · obtain ⟨inner, found, part'⟩ := step.code around
        exact ⟨inner, found, part'.trans part⟩
      · obtain ⟨enter, inner, again, found, rfl⟩ := turn.code around
        have inside : inner <:+: enter ++ inner ++ .label loop.next :: again ++ [.label loop.stop] :=
          ⟨enter, .label loop.next :: again ++ [.label loop.stop], by simp⟩
        exact ⟨inner, found, inside.trans part⟩

end Code

section Trees

theorem Part.mem_nodes (part : Part s t) : t.stmt ∈ s.stmt.nodes := by
  cases part with
  | block loop? used label info before after x =>
      have mem : x ∈ Stmt.nodesOf (before ++ x :: after) :=
        Stmt.mem_nodesOf.mpr ⟨x, by simp, x.mem_nodes⟩
      exact List.mem_cons_of_mem _ mem
  | _ => simp [Stmt.mem_nodes]

theorem Turn.mem_nodes (turn : Turn s l t) : t.stmt ∈ s.stmt.nodes := by
  cases turn <;> simp [Stmt.mem_nodes]

theorem Contains.mem_nodes (contains : Contains s t) : t.stmt ∈ s.stmt.nodes := by
  induction contains with
  | refl => exact s.stmt.mem_nodes
  | tail _ step ih =>
      rcases step with step | ⟨loop, turn⟩
      · exact Stmt.mem_nodes_trans step.mem_nodes ih
      · exact Stmt.mem_nodes_trans turn.mem_nodes ih

theorem Contains.head (step : Part s t ∨ ∃ l, Turn s l t) (rest : Contains t u) : Contains s u :=
  Relation.ReflTransGen.head step rest

mutual

/-- Every statement of a tree stands at some place in it. -/
theorem exists_place : ∀ (x : Stmt) (loop? : Option Loop) (used label : Nat), ∀ y ∈ x.nodes,
    ∃ t, Contains ⟨loop?, used, label, x⟩ t ∧ t.stmt = y
  | .assign .., _, _, _, y, mem | .continue _, _, _, _, y, mem | .break _, _, _, _, y, mem
  | .read .., _, _, _, y, mem | .write .., _, _, _, y, mem | .call .., _, _, _, y, mem =>
      ⟨_, .refl, (List.mem_singleton.mp mem).symm⟩
  | .ifThen info condition body, loop?, used, label, y, mem => by
      rcases List.mem_cons.mp mem with rfl | mem
      · exact ⟨_, .refl, rfl⟩
      · obtain ⟨t, contains, eq⟩ := exists_place body loop? used (label + 2) y mem
        exact ⟨t, contains.head (.inl (.ifThen ..)), eq⟩
  | .ifElse info condition body otherwise, loop?, used, label, y, mem => by
      rcases List.mem_cons.mp mem with rfl | mem
      · exact ⟨_, .refl, rfl⟩
      rcases List.mem_append.mp mem with mem | mem
      · obtain ⟨t, contains, eq⟩ := exists_place body loop? used (label + 2) y mem
        exact ⟨t, contains.head (.inl (.first ..)), eq⟩
      · obtain ⟨t, contains, eq⟩ :=
          exists_place otherwise loop? used (label + 2 + body.labels) y mem
        exact ⟨t, contains.head (.inl (.second ..)), eq⟩
  | .while info condition body, loop?, used, label, y, mem => by
      rcases List.mem_cons.mp mem with rfl | mem
      · exact ⟨_, .refl, rfl⟩
      · obtain ⟨t, contains, eq⟩ := exists_place body _ used (label + 3) y mem
        exact ⟨t, contains.head (.inr ⟨_, .while ..⟩), eq⟩
  | .for info counter first last direction body, loop?, used, label, y, mem => by
      rcases List.mem_cons.mp mem with rfl | mem
      · exact ⟨_, .refl, rfl⟩
      · obtain ⟨t, contains, eq⟩ := exists_place body _ (used + dwordSize) (label + 4) y mem
        exact ⟨t, contains.head (.inr ⟨_, .for ..⟩), eq⟩
  | .block info statements, loop?, used, label, y, mem => by
      rcases List.mem_cons.mp mem with rfl | mem
      · exact ⟨_, .refl, rfl⟩
      · obtain ⟨before, x, after, t, rfl, contains, eq⟩ :=
          exists_place_of_mem_nodesOf statements loop? used label y mem
        exact ⟨t, contains.head (.inl (.block ..)), eq⟩

theorem exists_place_of_mem_nodesOf : ∀ (statements : List Stmt) (loop? : Option Loop)
    (used label : Nat), ∀ y ∈ Stmt.nodesOf statements, ∃ before x after t,
      statements = before ++ x :: after ∧
      Contains ⟨loop?, used, label + labelsOf before, x⟩ t ∧ t.stmt = y
  | x :: statements, loop?, used, label, y, mem => by
      rcases List.mem_append.mp mem with mem | mem
      · obtain ⟨t, contains, eq⟩ := exists_place x loop? used label y mem
        exact ⟨[], x, statements, t, rfl, contains, eq⟩
      · obtain ⟨before, z, after, t, rfl, contains, eq⟩ :=
          exists_place_of_mem_nodesOf statements loop? used (label + x.labels) y mem
        refine ⟨x :: before, z, after, t, rfl, ?_, eq⟩
        rw [labelsOf, ← Nat.add_assoc]
        exact contains

end

end Trees

section Loops

theorem Within.contains (within : Within s t) : Contains s t :=
  Relation.ReflTransGen.mono (fun _ _ => Or.inl) _ _ within

theorem Within.loop (within : Within s t) : t.loop? = s.loop? := by
  induction within with
  | refl => rfl
  | tail _ part ih => rw [part.loop, ih]

theorem Part.jumps (part : Part s t) (jumps : t.stmt.jumps = true) : s.stmt.jumps = true := by
  cases part with
  | ifThen => exact jumps
  | first | second => simp_all [Stmt.jumps]
  | block loop? used label info before after x =>
      by_contra free
      rw [Bool.not_eq_true, Stmt.jumps, Stmt.jumpsOf_eq_false] at free
      have := free x (by simp)
      simp [this] at jumps

theorem Within.jumps (within : Within s t) (jumps : t.stmt.jumps = true) : s.stmt.jumps = true := by
  induction within with
  | refl => exact jumps
  | tail _ part ih => exact ih (part.jumps jumps)

/-- What stands inside a statement is in no loop there, or one of the loops around it is innermost. -/
theorem Contains.innermost (contains : Contains s t) :
    Within s t ∨ ∃ outer l turn, Contains s outer ∧ Turn outer l turn ∧ Within turn t := by
  induction contains with
  | refl => exact .inl .refl
  | @tail b c around step ih =>
      rcases step with part | ⟨l, turn⟩
      · rcases ih with within | ⟨outer, l, turn, contains, turns, within⟩
        · exact .inl (within.tail part)
        · exact .inr ⟨outer, l, turn, contains, turns, within.tail part⟩
      · exact .inr ⟨b, l, c, around, turn, .refl⟩

end Loops

end Site

end PascalX86
