import Mathlib.Logic.Basic

/-!
# Checked computations

A C function that could leave an array, or read what was never written, is modelled in
`Except ε`: the faults are the errors. These are the inversion rules that take a
sequence of such steps apart.

Nothing is said about what a fault means: the rules take a successful computation apart into
successful steps, and a failed one into the first step that fails.
-/

namespace SystemsProjects

universe u v

variable {ε : Type u} {α β : Type v}

theorem ok_bind (a : α) (k : α → Except ε β) : ((.ok a : Except ε α) >>= k) = k a := rfl

theorem error_bind (e : ε) (k : α → Except ε β) :
    ((.error e : Except ε α) >>= k) = .error e := rfl

/-- A sequence succeeds exactly when both of its parts do. -/
theorem bind_eq_ok {r : Except ε α} {k : α → Except ε β} {b : β} :
    (r >>= k) = .ok b ↔ ∃ a, r = .ok a ∧ k a = .ok b := by
  cases r with
  | ok a =>
    rw [ok_bind]
    constructor
    · intro h
      exact ⟨a, rfl, h⟩
    · rintro ⟨a', h, hk⟩
      cases h
      exact hk
  | error e =>
    rw [error_bind]
    constructor
    · intro h
      cases h
    · rintro ⟨a, h, _⟩
      cases h

end SystemsProjects
