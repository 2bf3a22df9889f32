import Mathlib.Tactic.Common

/-!
# Computations that may throw
-/

namespace Js

variable {ε α β : Type}

/-- A computation that returns has returned from each of its steps. -/
theorem bind_ok {x : Except ε α} {f : α → Except ε β} {b : β} :
    (x >>= f) = .ok b ↔ ∃ a, x = .ok a ∧ f a = .ok b := by
  cases x <;> simp [bind, Except.bind]

theorem andThen_ok {x y : Except ε Unit} : (do x; y) = .ok () ↔ x = .ok () ∧ y = .ok () := by
  cases x <;> simp [bind, Except.bind]

theorem map_ok {x : Except ε α} {f : α → β} {b : β} :
    x.map f = .ok b ↔ ∃ a, x = .ok a ∧ f a = b := by
  cases x <;> simp [Except.map]

theorem mapError_ok {ε' : Type} {x : Except ε α} {f : ε → ε'} {a : α} :
    x.mapError f = .ok a ↔ x = .ok a := by
  cases x <;> simp [Except.mapError]

theorem bind_error {x : Except ε α} {f : α → Except ε β} {e : ε} :
    (x >>= f) = .error e ↔ x = .error e ∨ ∃ a, x = .ok a ∧ f a = .error e := by
  cases x <;> simp [bind, Except.bind]

/-- What a computation over a list throws, one of its elements throws. -/
theorem mapM_error {f : α → Except ε β} {xs : List α} {e : ε} (h : xs.mapM f = .error e) :
    ∃ x ∈ xs, f x = .error e := by
  induction xs with
  | nil => cases h
  | cons x xs ih =>
    rw [List.mapM_cons] at h
    rcases bind_error.mp h with h | ⟨y, -, h⟩
    · exact ⟨x, List.mem_cons_self, h⟩
    · rcases bind_error.mp h with h | ⟨ys, -, h⟩
      · obtain ⟨x', hx', h⟩ := ih h
        exact ⟨x', List.mem_cons_of_mem _ hx', h⟩
      · cases h

end Js
