import PascalX86.Token.Scan

/-!
# Items from a point on

What scanning answers at a point of a text, by what it recognises there.
-/

set_option autoImplicit false

namespace PascalX86.Scan

variable {p q : Point} {c : Char} {rest : List Char} {ending : Ending}

theorem items_of_nil (ahead : p.ahead = []) : items ending p =
    if ending = .endOfFile then [.ok ⟨.endOfFile, p.last⟩] else [.error ⟨.unreadable, p.start⟩] := by
  obtain ⟨text, here, start, last⟩ := p
  obtain rfl : text = [] := ahead
  rw [items.eq_def]
  cases ending <;> rfl

/-- The items from a character on: those behind it if it is blank, or else what is recognised there. -/
theorem items_of_cons (ahead : p.ahead = c :: rest) : items ending p =
    if Text.isBlank c then items ending (p.move c [] rest) else
      let reading := recognise c rest
      let next := p.move c (rest.take reading.length) (rest.drop reading.length)
      if ending = .unreadable ∧ rest.drop reading.length = [] ∧ needsMore reading.meaning then
        [.error ⟨.unreadable, next.start⟩]
      else
        match reading.meaning with
        | .skipped => items ending next
        | .token t => .ok ⟨t, next.start.join next.last⟩ :: items ending next
        | .rangeFrom t =>
            .ok ⟨t, next.start⟩ ::
              .ok ⟨.mark .doubleDot, walk p.here (c :: rest.take (reading.length - 2)), next.last.stop⟩ ::
              items ending next
        | .failed e => [.error ⟨e, next.start⟩] := by
  obtain ⟨text, here, start, last⟩ := p
  obtain rfl : text = c :: rest := ahead
  exact items.eq_def ending _

theorem items_of_blank (ahead : p.ahead = c :: rest) (blank : Text.isBlank c = true) :
    items ending p = items ending (p.move c [] rest) := by
  rw [items_of_cons ahead, if_pos blank]

theorem items_of_stop {reading : Reading} (ahead : p.ahead = c :: rest) (visible : Text.isBlank c = false)
    (read : recognise c rest = reading)
    (stop : ending = .unreadable ∧ rest.drop reading.length = [] ∧ needsMore reading.meaning = true) :
    items ending p =
      [.error ⟨.unreadable, (p.move c (rest.take reading.length) (rest.drop reading.length)).start⟩] := by
  subst read
  rw [items_of_cons ahead, if_neg (by simp [visible])]
  exact if_pos stop

/-- The items that a token or comment starts, if there is no need to see more of the text. -/
theorem items_of_read {n : Nat} {meaning : Meaning} (ahead : p.ahead = c :: rest)
    (visible : Text.isBlank c = false) (read : recognise c rest = ⟨n, meaning⟩)
    (go : ¬ (ending = .unreadable ∧ rest.drop n = [] ∧ needsMore meaning = true)) :
    (meaning = .skipped → items ending p = items ending (p.move c (rest.take n) (rest.drop n))) ∧
    (∀ t, meaning = .token t → items ending p =
      .ok ⟨t, (p.move c (rest.take n) (rest.drop n)).start.join (p.move c (rest.take n) (rest.drop n)).last⟩ ::
        items ending (p.move c (rest.take n) (rest.drop n))) ∧
    (∀ t, meaning = .rangeFrom t → items ending p =
      .ok ⟨t, (p.move c (rest.take n) (rest.drop n)).start⟩ ::
        .ok ⟨.mark .doubleDot, walk p.here (c :: rest.take (n - 2)),
          (p.move c (rest.take n) (rest.drop n)).last.stop⟩ ::
        items ending (p.move c (rest.take n) (rest.drop n))) ∧
    (∀ e, meaning = .failed e → items ending p =
      [.error ⟨e, (p.move c (rest.take n) (rest.drop n)).start⟩]) := by
  rw [items_of_cons ahead, read, if_neg (by simp [visible])]
  dsimp only
  rw [if_neg go]
  exact ⟨by rintro rfl; rfl, by rintro _ rfl; rfl, by rintro _ rfl; rfl, by rintro _ rfl; rfl⟩

/-- What has been read before only matters at the end of the text. -/
theorem items_congr (ahead : p.ahead = q.ahead) (here : p.here = q.here) (some : p.ahead ≠ []) :
    items ending p = items ending q := by
  obtain ⟨text, place, start, last⟩ := p
  obtain ⟨text', place', start', last'⟩ := q
  obtain rfl : text = text' := ahead
  obtain rfl : place = place' := here
  cases text with
  | nil => exact absurd rfl some
  | cons c rest =>
      rw [items.eq_def, items.eq_def]
      rfl

end PascalX86.Scan
