/-!
# Results of readers

A reader that works in steps succeeds when each of its steps does.
-/

namespace ResolverLog

namespace Results

variable {ε α β : Type} {first : Except ε α} {b : β}

theorem map_eq_ok_iff {change : α → β} :
    first.map change = .ok b ↔ ∃ a, first = .ok a ∧ change a = b := by
  cases first with
  | error e => simp [Except.map]
  | ok a => simp [Except.map]

theorem bind_eq_ok_iff {rest : α → Except ε β} :
    (first >>= rest) = .ok b ↔ ∃ a, first = .ok a ∧ rest a = .ok b := by
  constructor
  · intro h
    cases first with
    | error cause => cases h
    | ok a => exact ⟨a, rfl, h⟩
  · rintro ⟨a, rfl, h⟩
    exact h

end Results

end ResolverLog
