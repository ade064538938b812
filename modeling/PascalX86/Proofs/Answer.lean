/-!
# Answers that may be errors

What the parts of a computation have answered once all of it has answered, and nothing has failed.
-/

set_option autoImplicit false

namespace PascalX86

variable {ε ε' α β : Type} {r : Except ε α} {a : α} {b : β}

theorem bind_eq_ok {f : α → Except ε β} : r >>= f = .ok b ↔ ∃ a, r = .ok a ∧ f a = .ok b := by
  cases r with
  | error e => exact ⟨nofun, fun ⟨a, answered, _⟩ => nomatch answered⟩
  | ok a => exact ⟨fun h => ⟨a, rfl, h⟩, fun ⟨_, same, h⟩ => Except.ok.inj same ▸ h⟩

theorem exists_of_map_eq_ok {f : α → β} (h : r.map f = .ok b) : ∃ a, r = .ok a ∧ f a = b := by
  cases r with
  | error e => cases h
  | ok a => exact ⟨a, rfl, Except.ok.inj h⟩

theorem toOption_eq_some : r.toOption = some a ↔ r = .ok a := by
  cases r <;> simp [Except.toOption]

theorem exists_of_map_toOption {f : α → β} (h : r.toOption.map f = some b) :
    ∃ a, r = .ok a ∧ f a = b := by
  obtain ⟨a, answered, eq⟩ := Option.map_eq_some_iff.mp h
  exact ⟨a, toOption_eq_some.mp answered, eq⟩

theorem exists_of_bind_toOption {f : α → Except ε' β}
    (h : (r.toOption.bind fun a => (f a).toOption).isSome = true) :
    ∃ a, r = .ok a ∧ ∃ b, f a = .ok b := by
  obtain ⟨b, answered⟩ := Option.isSome_iff_exists.mp h
  obtain ⟨a, first, second⟩ := Option.bind_eq_some_iff.mp answered
  exact ⟨a, toOption_eq_some.mp first, b, toOption_eq_some.mp second⟩

theorem map_ok_of_mapM {l : List (Except ε α)} {as : List α} (h : l.mapM id = .ok as) :
    l = as.map .ok := by
  induction l generalizing as with
  | nil =>
      cases h
      rfl
  | cons x l ih =>
      rw [List.mapM_cons] at h
      obtain ⟨a, first, later⟩ := bind_eq_ok.mp h
      obtain ⟨more, rest, answer⟩ := bind_eq_ok.mp later
      cases answer
      rw [ih rest, show x = .ok a from first]
      rfl

theorem mapM_map_ok (as : List α) : (as.map .ok : List (Except ε α)).mapM id = .ok as := by
  induction as with
  | nil => rfl
  | cons a as ih =>
      rw [List.map_cons, List.mapM_cons, ih]
      rfl

end PascalX86
