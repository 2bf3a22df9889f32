import Mathlib.Tactic.Common

/-!
# Bisection

The search for the last point of an interval that satisfies a predicate, when the predicate need not
hold for every point before it. A gap misleads the search if it is probed before a point behind it that
satisfies the predicate.

* `bisect_lt_of_seen`: a gap that is probed first stops the search before it.
* `le_bisect_of_hidden`: if every gap before a point is hidden, the search reaches the point.
-/

namespace Sequences

variable (p : Nat → Bool)

/-- `rounds` rounds of the search in `(low, high]`; `low` counts as satisfying the predicate. -/
def bisect : Nat → Nat → Nat → Nat
  | 0, low, _ => low
  | rounds + 1, low, high =>
    if low < high then
      if p ((low + high + 1) / 2) then bisect rounds ((low + high + 1) / 2) high
      else bisect rounds low ((low + high + 1) / 2 - 1)
    else low

/-- How many points the search for `n` probes before it. -/
def probesBefore : Nat → Nat → Nat → Nat → Nat
  | 0, _, _, _ => 0
  | rounds + 1, low, high, n =>
    if n = (low + high + 1) / 2 then 0
    else if n < (low + high + 1) / 2 then
      probesBefore rounds low ((low + high + 1) / 2 - 1) n + 1
    else probesBefore rounds ((low + high + 1) / 2) high n + 1

/-- A point behind `n`, up to `last`, that satisfies the predicate is probed before `n`. -/
def HiddenBy (rounds low high last n : Nat) : Prop :=
  ∃ m, n < m ∧ m ≤ last ∧ p m = true ∧ probesBefore rounds low high m < probesBefore rounds low high n

variable {p} {rounds low high : Nat}

theorem bisect_bounds (h : low ≤ high) :
    low ≤ bisect p rounds low high ∧ bisect p rounds low high ≤ high := by
  induction rounds generalizing low high with
  | zero => exact ⟨Nat.le_refl low, h⟩
  | succ rounds ih =>
    rw [bisect]
    split_ifs with hlt hp
    · have hmiddle : (low + high + 1) / 2 ≤ high := by omega
      have := ih hmiddle
      omega
    · have hmiddle : low ≤ (low + high + 1) / 2 - 1 := by omega
      have := ih hmiddle
      omega
    · omega

/-- The search ends where it started or at a point that satisfies the predicate. -/
theorem bisect_sat {first : Nat} (h : low = first ∨ p low = true) :
    bisect p rounds low high = first ∨ p (bisect p rounds low high) = true := by
  induction rounds generalizing low high with
  | zero => exact h
  | succ rounds ih =>
    rw [bisect]
    split_ifs with hlt hp
    · exact ih (.inr hp)
    · exact ih h
    · exact h

section Probes

variable {n : Nat}

theorem probesBefore_middle (h : n = (low + high + 1) / 2) : probesBefore (rounds + 1) low high n = 0 := by
  rw [probesBefore, if_pos h]

theorem probesBefore_left (h : n < (low + high + 1) / 2) :
    probesBefore (rounds + 1) low high n =
      probesBefore rounds low ((low + high + 1) / 2 - 1) n + 1 := by
  rw [probesBefore, if_neg (Nat.ne_of_lt h), if_pos h]

theorem probesBefore_right (h : (low + high + 1) / 2 < n) :
    probesBefore (rounds + 1) low high n = probesBefore rounds ((low + high + 1) / 2) high n + 1 := by
  rw [probesBefore, if_neg (Nat.ne_of_gt h), if_neg (Nat.lt_asymm h)]

end Probes

/-- A gap that no point behind it hides is probed, and the search ends before it. -/
theorem bisect_lt_of_seen {n : Nat} (hrounds : high - low ≤ rounds) (hlow : low < n) (hhigh : n ≤ high)
    (hgap : p n = false) (hseen : ¬ HiddenBy p rounds low high high n) : bisect p rounds low high < n := by
  induction rounds generalizing low high with
  | zero => omega
  | succ rounds ih =>
    have hlt : low < high := by omega
    rw [bisect, if_pos hlt]
    rcases Nat.lt_trichotomy n ((low + high + 1) / 2) with hn | hn | hn
    · -- The middle lies behind the gap, so it is another gap.
      have hmiddle : p ((low + high + 1) / 2) = false := by
        by_contra hp
        refine hseen ⟨_, hn, by omega, by simpa using hp, ?_⟩
        rw [probesBefore_middle rfl, probesBefore_left hn]
        omega
      rw [hmiddle, if_neg (by decide)]
      refine ih (by omega) hlow (by omega) fun ⟨m, hnm, hm, hp, hprobes⟩ => hseen ⟨m, hnm, by omega, hp, ?_⟩
      rw [probesBefore_left hn, probesBefore_left (by omega)]
      omega
    · rw [← hn, hgap, if_neg (by decide)]
      have hle : bisect p rounds low (n - 1) ≤ n - 1 := (bisect_bounds (by omega)).2
      omega
    · by_cases hp : p ((low + high + 1) / 2) = true
      · rw [if_pos hp]
        refine ih (by omega) hn hhigh fun ⟨m, hnm, hm, hp', hprobes⟩ => hseen ⟨m, hnm, hm, hp', ?_⟩
        rw [probesBefore_right hn, probesBefore_right (by omega)]
        omega
      · rw [if_neg hp]
        have hle : bisect p rounds low ((low + high + 1) / 2 - 1) ≤ (low + high + 1) / 2 - 1 :=
          (bisect_bounds (by omega)).2
        omega

/-- Where every gap before a point is hidden by a point up to it, the search reaches the point. -/
theorem le_bisect_of_hidden {last : Nat} (hrounds : high - low ≤ rounds) (hlow : low ≤ last)
    (hhigh : last ≤ high) (hlast : last = low ∨ p last = true)
    (hgaps : ∀ n, low < n → n < last → p n = false → HiddenBy p rounds low high last n) :
    last ≤ bisect p rounds low high := by
  induction rounds generalizing low high with
  | zero =>
    rw [bisect]
    omega
  | succ rounds ih =>
    rw [bisect]
    split_ifs with hlt hp
    · by_cases hle : last ≤ (low + high + 1) / 2
      · have hbound : (low + high + 1) / 2 ≤ high := by omega
        exact Nat.le_trans hle (bisect_bounds hbound).1
      · refine ih (by omega) (by omega) hhigh (.inr (hlast.resolve_left (by omega))) fun n hn hnl hpn => ?_
        obtain ⟨m, hnm, hm, hpm, hprobes⟩ := hgaps n (by omega) hnl hpn
        refine ⟨m, hnm, hm, hpm, ?_⟩
        rw [probesBefore_right hn, probesBefore_right (by omega)] at hprobes
        omega
    · -- Nothing hides a gap in the middle.
      have hbefore : last < (low + high + 1) / 2 := by
        by_contra hno
        rcases Nat.eq_or_lt_of_le (Nat.not_lt.mp hno) with heq | hgt
        · rw [heq] at hp
          exact hp (hlast.resolve_left (by omega))
        · obtain ⟨m, -, -, -, hprobes⟩ := hgaps _ (by omega) hgt (by simpa using hp)
          rw [probesBefore_middle rfl] at hprobes
          omega
      refine ih (by omega) hlow (by omega) hlast fun n hn hnl hpn => ?_
      obtain ⟨m, hnm, hm, hpm, hprobes⟩ := hgaps n hn hnl hpn
      refine ⟨m, hnm, hm, hpm, ?_⟩
      rw [probesBefore_left (by omega), probesBefore_left (by omega)] at hprobes
      omega
    · omega

/-- A predicate without gaps is searched to its end. -/
theorem le_bisect {last : Nat} (hrounds : high - low ≤ rounds) (hlow : low ≤ high) (hhigh : last ≤ high)
    (hall : ∀ n, low < n → n ≤ last → p n = true) : last ≤ bisect p rounds low high := by
  by_cases hle : last ≤ low
  · exact Nat.le_trans hle (bisect_bounds hlow).1
  · have hlt := Nat.not_le.mp hle
    refine le_bisect_of_hidden hrounds (Nat.le_of_lt hlt) hhigh (.inr (hall last hlt (Nat.le_refl _)))
      fun n hn hnl hpn => ?_
    rw [hall n hn (Nat.le_of_lt hnl)] at hpn
    cases hpn

end Sequences
