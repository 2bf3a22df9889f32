import Mathlib.Logic.Relation

/-!
# Runs of a system

A system has initial states and a step relation. What holds initially and is kept by every step
holds of every state that a run reaches.
-/

namespace Transition

variable {σ : Type}

/-- A system: the states it starts in and its steps. -/
structure System (σ : Type) where
  init : σ → Prop
  step : σ → σ → Prop

namespace System

variable (S : System σ)

/-- The states that a run reaches. -/
inductive Reach : σ → Prop
  | init {s : σ} : S.init s → Reach s
  | step {s s' : σ} : Reach s → S.step s s' → Reach s'

/-- What holds initially and is kept by every step. -/
structure Inductive (I : σ → Prop) : Prop where
  init : ∀ s, S.init s → I s
  step : ∀ s s', I s → S.step s s' → I s'

variable {S}

/-- An inductive invariant holds of every state that a run reaches. -/
theorem Inductive.reach {I : σ → Prop} (h : S.Inductive I) {s : σ} (hs : S.Reach s) : I s := by
  induction hs with
  | init hi => exact h.init _ hi
  | step _ hst ih => exact h.step _ _ ih hst

end System

end Transition
