import PascalX86.Proofs.Frame.Reference
import PascalX86.Proofs.Frame.Temporary
import PascalX86.Proofs.Lowering.Listing

/-!
# Storage of symbols

The symbols of a function lie among its locals or its arguments, wherever in the nesting they are
named, and no two of them share a byte.
-/

set_option autoImplicit false

namespace PascalX86

/-- The bytes of an argument. Arguments lie above the linkage, the first one highest. -/
def Region.argument (block offset size : Nat) : Region :=
  ⟨(linkSize + block - offset - size : Nat), size⟩

def Region.arguments (block : Nat) : Region := ⟨linkSize, block⟩

theorem Region.argument_within {block offset size : Nat} (inside : offset + size ≤ block) :
    (Region.argument block offset size).Within (.arguments block) := by
  unfold Region.Within Region.argument Region.arguments
  dsimp only
  omega

theorem Region.argument_apart {block offset size offset' size' : Nat} (after : offset + size ≤ offset')
    (inside : offset' + size' ≤ block) :
    (Region.argument block offset size).Apart (.argument block offset' size') := by
  unfold Region.Apart Region.argument
  dsimp only
  omega

/-- Locals lie below the frame pointer, arguments above it. -/
theorem Region.apart_of_within {r s : Region} {size block : Nat} (below : r.Within (.below 0 size))
    (above : s.Within (.arguments block)) : r.Apart s := by
  unfold Region.Within Region.below Region.arguments at *
  unfold Region.Apart
  dsimp only at *
  omega

/-- What the declarations of a function leave in its two tables. -/
structure Function.Tabled (g : Function) : Prop where
  locals : g.locals.Sound
  area : g.locals.area = .locals
  level : g.locals.level = g.signature.level
  arguments : g.signature.table.Sound
  result : Checking.ResultFirst g.signature g.locals.symbols

theorem Checking.Completes.tabled {σ : Scopes} {g : Function} (h : Completes σ g) : g.Tabled := by
  obtain ⟨level, area, sound, result⟩ := h.locals
  obtain ⟨formed, -⟩ := h
  exact ⟨sound, area, level, formed.table, result⟩

namespace Function

variable {g h : Function} {f : Frames} {symbol : Symbol} {slot : Slot} {r : Region}

def symbols (g : Function) : List Symbol := g.signature.table.symbols ++ g.locals.symbols

/-- Where a symbol of a function lies in its frame. -/
def region (h : Function) (symbol : Symbol) (slot : Slot) : Region :=
  match slot.area with
  | .locals => .below slot.offset symbol.storage
  | _ => .argument h.signature.block slot.offset symbol.storage

theorem Tabled.owns (tabled : g.Tabled) (mem : symbol ∈ g.symbols) (found : symbol.slot? = some slot) :
    g.Owns symbol slot ∧ slot.level = g.signature.level := by
  rcases List.mem_append.mp mem with mem | mem
  · obtain ⟨level, area, -⟩ := tabled.arguments.within symbol mem slot found
    exact ⟨.argument mem area, level⟩
  · obtain ⟨level, area, -⟩ := tabled.locals.within symbol mem slot found
    exact ⟨.locals mem (area.trans tabled.area), level.trans tabled.level⟩

theorem Owns.mem (owns : h.Owns symbol slot) : symbol ∈ h.symbols := by
  cases owns with
  | locals mem => exact List.mem_append_right _ mem
  | argument mem => exact List.mem_append_left _ mem

theorem Owns.within (owns : h.Owns symbol slot) (tabled : h.Tabled) (found : symbol.slot? = some slot) :
    slot.area = .locals ∧ slot.offset + symbol.storage ≤ h.locals.size ∨
      slot.area = .parameters ∧ slot.offset + symbol.storage ≤ h.signature.block := by
  cases owns with
  | locals mem area => exact .inl ⟨area, (tabled.locals.within symbol mem slot found).2.2⟩
  | argument mem area => exact .inr ⟨area, (tabled.arguments.within symbol mem slot found).2.2⟩

theorem Owns.region_within (owns : h.Owns symbol slot) (tabled : h.Tabled)
    (found : symbol.slot? = some slot) :
    (h.region symbol slot).Within (.below 0 h.locals.size) ∨
      (h.region symbol slot).Within (.arguments h.signature.block) := by
  rcases owns.within tabled found with ⟨area, inside⟩ | ⟨area, inside⟩
  · left
    rw [region, area]
    apply Region.below_within <;> omega
  · right
    rw [region, area]
    exact Region.argument_within inside

/-- Code that knows how many bytes of arguments a function has finds the symbols of that function. -/
theorem Owns.places (owns : h.Owns symbol slot) (tabled : h.Tabled) (found : symbol.slot? = some slot)
    (known : f.blocks[slot.level]? = some h.signature.block) :
    f.Places symbol r ↔ r = h.region symbol slot := by
  have localRoom := tabled.locals.room
  have argumentRoom : h.signature.block ≤ maxSize := tabled.arguments.room
  unfold maxSize at localRoom argumentRoom
  have answer (span : Span) : ∃ d, f.displacement span symbol slot = .ok d ∧
      (⟨d.toInt, symbol.storage⟩ : Region) = h.region symbol slot := by
    rcases owns.within tabled found with ⟨area, inside⟩ | ⟨area, inside⟩
    · refine ⟨-Int32.ofNat (slot.offset + symbol.storage), ?_, ?_⟩
      · rw [Frames.displacement, area]
        rfl
      · rw [region, area, toInt_neg_ofNat (by omega)]
        rfl
    · refine ⟨Int32.ofNat (linkSize + h.signature.block - slot.offset - symbol.storage), ?_, ?_⟩
      · rw [Frames.displacement, area, known]
        rfl
      · rw [region, area, Int32.toInt_ofNat_of_lt (by unfold linkSize; omega)]
        rfl
  constructor
  · rintro ⟨slot', span, d, found', displaced, rfl⟩
    obtain rfl : slot = slot' := Option.some.inj (found.symm.trans found')
    obtain ⟨d', answered, same⟩ := answer span
    obtain rfl : d = d' := Except.ok.inj (displaced.symm.trans answered)
    exact same
  · rintro rfl
    obtain ⟨d, answered, same⟩ := answer symbol.name.span
    exact ⟨slot, symbol.name.span, d, found, answered, same.symm⟩

section Apart

variable (tabled : g.Tabled) (known : f.blocks[g.signature.level]? = some g.signature.block)

include tabled known

theorem places_argument (mem : symbol ∈ g.signature.table.symbols) (places : f.Places symbol r) :
    ∃ slot, symbol.slot? = some slot ∧ slot.offset + symbol.storage ≤ g.signature.block ∧
      r = .argument g.signature.block slot.offset symbol.storage := by
  obtain ⟨slot, -, -, found, -⟩ := id places
  obtain ⟨level, area, inside⟩ := tabled.arguments.within symbol mem slot found
  have level : slot.level = g.signature.level := level
  have owns : g.Owns symbol slot := .argument mem area
  have same := (owns.places tabled found (level ▸ known)).mp places
  have area : slot.area = .parameters := area
  rw [region, area] at same
  exact ⟨slot, found, inside, same⟩

theorem places_local (mem : symbol ∈ g.locals.symbols) (places : f.Places symbol r) :
    ∃ slot, symbol.slot? = some slot ∧ slot.offset + symbol.storage ≤ g.locals.size ∧
      r = .below slot.offset symbol.storage := by
  obtain ⟨slot, -, -, found, -⟩ := id places
  obtain ⟨level, area, inside⟩ := tabled.locals.within symbol mem slot found
  have area := area.trans tabled.area
  have level := level.trans tabled.level
  have owns : g.Owns symbol slot := .locals mem area
  have same := (owns.places tabled found (level ▸ known)).mp places
  rw [region, area] at same
  exact ⟨slot, found, inside, same⟩

/-- No two symbols of a function share a byte. -/
theorem symbols_apart :
    g.symbols.Pairwise fun a b => ∀ r s, f.Places a r → f.Places b s → r.Apart s := by
  rw [symbols, List.pairwise_append]
  refine ⟨?_, ?_, ?_⟩
  · refine tabled.arguments.ordered.imp_of_mem fun {a b} mem mem' ordered r s places places' => ?_
    obtain ⟨x, found, -, rfl⟩ := places_argument tabled known mem places
    obtain ⟨y, found', inside, rfl⟩ := places_argument tabled known mem' places'
    exact Region.argument_apart (ordered x y found found') inside
  · refine tabled.locals.ordered.imp_of_mem fun {a b} mem mem' ordered r s places places' => ?_
    obtain ⟨x, found, -, rfl⟩ := places_local tabled known mem places
    obtain ⟨y, found', -, rfl⟩ := places_local tabled known mem' places'
    exact Region.below_apart (ordered x y found found')
  · intro a mem b mem' r s places places'
    obtain ⟨x, -, inside, rfl⟩ := places_argument tabled known mem places
    obtain ⟨y, -, inside', rfl⟩ := places_local tabled known mem' places'
    apply Region.Apart.symm
    apply Region.apart_of_within (Region.below_within (Nat.zero_le _) _) (Region.argument_within inside)
    · exact g.locals.size
    · omega

/-- What lies below the locals is apart from all symbols of the function. -/
theorem symbols_apart_below {size : Nat} (mem : symbol ∈ g.symbols) (places : f.Places symbol r)
    {s : Region} (below : s.Within (.below g.locals.size size)) : r.Apart s := by
  rcases List.mem_append.mp mem with mem | mem
  · obtain ⟨slot, -, inside, rfl⟩ := places_argument tabled known mem places
    apply Region.Apart.symm
    apply Region.apart_of_within (below.trans _) (Region.argument_within inside)
    · exact g.locals.size + size
    · apply Region.below_within <;> omega
  · obtain ⟨slot, -, inside, rfl⟩ := places_local tabled known mem places
    unfold Region.Within Region.below at below
    unfold Region.Apart Region.below
    dsimp only at below ⊢
    omega

end Apart

end Function

end PascalX86
