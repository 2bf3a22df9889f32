import Mathlib.Tactic.Common

/-!
# Settled parts of a growing list

A function that treats the parts of a list apart, where each later part starts at a boundary, can be
computed as the list grows: its value on what stands before the last boundary is settled, and only the
rest is kept open.

* `Segmented`: the functions that this holds of.
* `Settles`: a settled value and an open rest of a list.
* `Settles.total`, `Settles.extend`: their value is that of the list, and they follow its growth.
-/

namespace Sequences

variable {α β : Type}

/-- The parts of a list are treated apart where the later one starts at a boundary. -/
def Segmented (f : List α → List β) (starts : α → Bool) : Prop :=
  ∀ xs ys : List α, (∀ y ∈ ys.head?, starts y = true) → f (xs ++ ys) = f xs ++ f ys

/-- The position of the last element that passes a test. -/
def findLastIndex? (p : α → Bool) : List α → Option Nat
  | [] => none
  | x :: xs =>
    match findLastIndex? p xs with
    | some i => some (i + 1)
    | none => if p x then some 0 else none

/-- Settle what stands before the last boundary of the open rest. -/
def settle (f : List α → List β) (starts : α → Bool) (settled : List β) (rest : List α) :
    List β × List α :=
  match findLastIndex? starts rest with
  | some (i + 1) => (settled ++ f (rest.take (i + 1)), rest.drop (i + 1))
  | _ => (settled, rest)

/-- A list in two parts: the value of the first is settled, and the second starts at a boundary unless
the first is empty. -/
def Settles (f : List α → List β) (starts : α → Bool) (all : List α) (settled : List β)
    (rest : List α) : Prop :=
  ∃ before, all = before ++ rest ∧ settled = f before ∧
    (before = [] ∨ ∃ y, rest.head? = some y ∧ starts y = true)

variable {f : List α → List β} {starts : α → Bool}

theorem findLastIndex?_head {p : α → Bool} {xs : List α} {i : Nat} (h : findLastIndex? p xs = some i) :
    ∃ y, (xs.drop i).head? = some y ∧ p y = true := by
  induction xs generalizing i with
  | nil => cases h
  | cons x xs ih =>
    rw [findLastIndex?] at h
    cases hlast : findLastIndex? p xs with
    | some j =>
      rw [hlast] at h
      obtain rfl := Option.some.inj h
      exact ih hlast
    | none =>
      rw [hlast] at h
      dsimp only at h
      split_ifs at h with hp
      obtain rfl := Option.some.inj h
      exact ⟨x, rfl, hp⟩

theorem Segmented.nil (h : Segmented f starts) : f [] = [] := by
  have hnil := h [] [] (by simp)
  rw [List.append_nil] at hnil
  exact List.self_eq_append_left.mp hnil

namespace Settles

variable {all rest : List α} {settled : List β}

/-- Nothing is settled of the empty list. -/
theorem nil (h : Segmented f starts) : Settles f starts [] [] [] := ⟨[], rfl, h.nil.symm, .inl rfl⟩

theorem total (hf : Segmented f starts) (h : Settles f starts all settled rest) :
    settled ++ f rest = f all := by
  obtain ⟨before, rfl, rfl, hbefore⟩ := h
  rcases hbefore with rfl | ⟨y, hy, hstart⟩
  · rw [hf.nil, List.nil_append, List.nil_append]
  · refine (hf before rest fun z hz => ?_).symm
    obtain rfl := Option.some.inj (hy.symm.trans hz)
    exact hstart

/-- A boundary inside the rest settles what stands before it. -/
theorem settle (hf : Segmented f starts) (h : Settles f starts all settled rest) :
    Settles f starts all (settle f starts settled rest).1 (settle f starts settled rest).2 := by
  unfold Sequences.settle
  split
  · rename_i i hlast
    obtain ⟨before, rfl, rfl, hbefore⟩ := h
    refine ⟨before ++ rest.take (i + 1), ?_, ?_, .inr (findLastIndex?_head hlast)⟩
    · rw [List.append_assoc, List.take_append_drop]
    · rcases hbefore with rfl | ⟨y, hy, hstart⟩
      · rw [hf.nil, List.nil_append, List.nil_append]
      · refine (hf before _ fun z hz => ?_).symm
        rw [List.head?_take, if_neg (Nat.succ_ne_zero i)] at hz
        obtain rfl := Option.some.inj (hy.symm.trans hz)
        exact hstart
  · exact h

/-- The list grows behind the rest. -/
theorem append (h : Settles f starts all settled rest) (more : List α) :
    Settles f starts (all ++ more) settled (rest ++ more) := by
  obtain ⟨before, rfl, rfl, hbefore⟩ := h
  refine ⟨before, List.append_assoc .., rfl, ?_⟩
  rcases hbefore with rfl | ⟨y, hy, hstart⟩
  · exact .inl rfl
  · refine .inr ⟨y, ?_, hstart⟩
    rw [List.head?_append, hy]
    rfl

end Settles

end Sequences
