import Mathlib.Data.List.Basic
import Mathlib.Data.List.Infix

/-!
# The first best suffix

* `firstMost`: a value of the head of the first suffix that scores most.
* `firstMost_spec`: where a suffix scores at all, the one that is found scores as much as any, and more than the
  longer ones.
-/

namespace Sequences

variable {α β : Type} {score : List α → Nat} {value : α → β}

/-- What an ordered list starts with, and what it holds. -/
theorem takeWhile_eq_filter {p : α → Bool} {l : List α} (h : l.Pairwise fun a b => p b = true → p a = true) :
    l.takeWhile p = l.filter p := by
  induction l with
  | nil => rfl
  | cons a l ih =>
    obtain ⟨hlater, h⟩ := List.pairwise_cons.mp h
    by_cases ha : p a = true
    · rw [List.takeWhile_cons_of_pos ha, List.filter_cons_of_pos ha, ih h]
    · rw [List.takeWhile_cons_of_neg ha, List.filter_cons_of_neg ha]
      exact (List.filter_eq_nil_iff.mpr fun b hb hpb => ha (hlater b hb hpb)).symm

/-- The value of the head of the first suffix that scores more than all before. -/
def firstMost (score : List α → Nat) (value : α → β) : List α → β → Nat → β
  | [], best, _ => best
  | x :: xs, best, most =>
    if most < score (x :: xs) then firstMost score value xs (value x) (score (x :: xs))
    else firstMost score value xs best most

/-- The head of a suffix that scores as much as any suffix, and more than each longer one. -/
structure IsFirstMost (score : List α → Nat) (l before : List α) (x : α) (xs : List α) : Prop where
  split : l = before ++ x :: xs
  most : ∀ front y ys, l = front ++ y :: ys → score (y :: ys) ≤ score (x :: xs)
  first : ∀ front y ys, l = front ++ y :: ys → front.length < before.length →
    score (y :: ys) < score (x :: xs)

/-- The first best suffix of a tail stays so when the whole list scores less. -/
theorem IsFirstMost.cons {l before xs : List α} {x z : α} (h : IsFirstMost score l before x xs)
    (hz : score (z :: l) < score (x :: xs)) : IsFirstMost score (z :: l) (z :: before) x xs where
  split := by rw [h.split]; rfl
  most := by
    intro front y ys hl
    cases front with
    | nil =>
      obtain ⟨rfl, rfl⟩ := List.cons.inj hl
      exact Nat.le_of_lt hz
    | cons w front => exact h.most front y ys (List.cons.inj hl).2
  first := by
    intro front y ys hl hlt
    cases front with
    | nil =>
      obtain ⟨rfl, rfl⟩ := List.cons.inj hl
      exact hz
    | cons w front => exact h.first front y ys (List.cons.inj hl).2 (Nat.lt_of_succ_lt_succ hlt)

/-- Either no suffix scores more than what was best, or the first that scores most is found. -/
theorem firstMost_cases (l : List α) (best : β) (most : Nat) :
    (firstMost score value l best most = best ∧ ∀ front y ys, l = front ++ y :: ys → score (y :: ys) ≤ most) ∨
      ∃ before x xs, IsFirstMost score l before x xs ∧ most < score (x :: xs) ∧
        firstMost score value l best most = value x := by
  induction l generalizing best most with
  | nil => exact .inl ⟨rfl, fun front y ys h => absurd h (by simp)⟩
  | cons z l ih =>
    rw [firstMost]
    by_cases hz : most < score (z :: l)
    · rw [if_pos hz]
      right
      rcases ih (value z) (score (z :: l)) with ⟨hbest, hall⟩ | ⟨before, x, xs, hfirst, hlt, hvalue⟩
      · refine ⟨[], z, l, ⟨rfl, fun front y ys hl => ?_, fun front y ys _ hlt => ?_⟩, hz, hbest⟩
        · cases front with
          | nil =>
            obtain ⟨rfl, rfl⟩ := List.cons.inj hl
            exact Nat.le_refl _
          | cons w front => exact hall front y ys (List.cons.inj hl).2
        · exact absurd hlt (Nat.not_lt_zero _)
      · exact ⟨z :: before, x, xs, hfirst.cons hlt, Nat.lt_trans hz hlt, hvalue⟩
    · rw [if_neg hz]
      rcases ih best most with ⟨hbest, hall⟩ | ⟨before, x, xs, hfirst, hlt, hvalue⟩
      · refine .inl ⟨hbest, fun front y ys hl => ?_⟩
        cases front with
        | nil =>
          obtain ⟨rfl, rfl⟩ := List.cons.inj hl
          exact Nat.not_lt.mp hz
        | cons w front => exact hall front y ys (List.cons.inj hl).2
      · exact .inr ⟨z :: before, x, xs, hfirst.cons (Nat.lt_of_le_of_lt (Nat.not_lt.mp hz) hlt), hlt, hvalue⟩

/-- Where every suffix scores, the first that scores most is found. -/
theorem firstMost_spec {l : List α} (hne : l ≠ []) (hscore : ∀ y ys, 0 < score (y :: ys)) (best : β) :
    ∃ before x xs, IsFirstMost score l before x xs ∧ firstMost score value l best 0 = value x := by
  rcases firstMost_cases l best 0 with ⟨-, hall⟩ | ⟨before, x, xs, hfirst, -, hvalue⟩
  · obtain ⟨y, ys, rfl⟩ := List.exists_cons_of_ne_nil hne
    exact absurd (hall [] y ys rfl) (Nat.not_le.mpr (hscore y ys))
  · exact ⟨before, x, xs, hfirst, hvalue⟩

end Sequences
