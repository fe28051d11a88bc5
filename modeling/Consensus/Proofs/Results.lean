import Mathlib.Tactic.Common

/-! # Results that are no errors

Checks and calls that can fail are put together in a few ways. Each of these gives a
value only when all of its parts do.
-/

namespace Consensus

variable {ε ε' α β : Type} {result : Except ε α}

theorem map_eq_ok {change : α → β} {value : β} :
    result.map change = .ok value ↔ ∃ given, result = .ok given ∧ change given = value := by
  cases result <;> simp [Except.map]

theorem mapError_eq_ok {change : ε → ε'} {value : α} :
    result.mapError change = .ok value ↔ result = .ok value := by
  cases result <;> simp [Except.mapError]

theorem map_eq_error {change : α → β} {cause : ε} :
    result.map change = .error cause ↔ result = .error cause := by
  cases result <;> simp [Except.map]

theorem mapError_eq_error {change : ε → ε'} {cause : ε'} :
    result.mapError change = .error cause ↔
      ∃ given, result = .error given ∧ change given = cause := by
  cases result <;> simp [Except.mapError]

theorem exists_of_mapError_eq_error {change : ε → ε'} {cause : ε'}
    (h : result.mapError change = .error cause) : ∃ given, result = .error given :=
  (mapError_eq_error.mp h).imp fun _ hgiven => hgiven.1

/-- The value that is known to be there is the one that is given. -/
theorem of_exists_ok {property : α → Prop} {value : α}
    (h : ∃ given, result = .ok given ∧ property given) (hok : result = .ok value) :
    property value := by
  obtain ⟨given, hgiven, hproperty⟩ := h
  obtain rfl := Except.ok.inj (hok.symm.trans hgiven)
  exact hproperty

theorem ne_error_of_exists_ok {property : α → Prop} (cause : ε)
    (h : ∃ given, result = .ok given ∧ property given) : result ≠ .error cause := by
  obtain ⟨given, hgiven, _⟩ := h
  simp [hgiven]

theorem bind_eq_ok {rest : α → Except ε β} {value : β} :
    result >>= rest = .ok value ↔ ∃ given, result = .ok given ∧ rest given = .ok value := by
  cases result <;> simp [bind, Except.bind]

end Consensus
