import Mathlib.Data.List.TakeWhile

/-!
# Replacing ranges of a list

A splice puts a text in place of a range. Positions are those of a list of which the rest from an offset
on is at hand.

* `splice`: the ranges replaced from the first one on, `spliceBack`: from the last one on.
* `spliceBack_eq`: for ranges that are in order and apart both give the same.
* `splice_append`, `Fits.split`: ranges before a position and behind it are replaced apart.
-/

namespace Sequences

variable {α : Type}

structure Splice (α : Type) where
  start : Nat
  length : Nat
  text : List α

/-- Where the range ends. -/
def Splice.stop (r : Splice α) : Nat := r.start + r.length

/-- The ranges are in order, apart, and between two positions. -/
def Fits : Nat → Nat → List (Splice α) → Prop
  | low, high, [] => low ≤ high
  | low, high, r :: rs => low ≤ r.start ∧ Fits r.stop high rs

/-- The rest from an offset on, with the ranges replaced. -/
def splice : Nat → List α → List (Splice α) → List α
  | _, rest, [] => rest
  | offset, rest, r :: rs =>
    rest.take (r.start - offset) ++ r.text ++ splice r.stop (rest.drop (r.stop - offset)) rs

/-- The ranges are replaced from the last one on, so that the positions of the others stay. -/
def spliceBack (offset : Nat) (rest : List α) (rs : List (Splice α)) : List α :=
  rs.foldr (fun r result =>
    result.take (r.start - offset) ++ r.text ++ result.drop (r.start - offset + r.length)) rest

variable {low mid high offset : Nat} {rest : List α} {rs rs' : List (Splice α)}

theorem Fits.le (h : Fits low high rs) : low ≤ high := by
  induction rs generalizing low with
  | nil => exact h
  | cons r rs ih =>
    have hstop : r.stop ≤ high := ih h.2
    have hlow := h.1
    unfold Splice.stop at hstop
    omega

theorem Fits.mono {low' : Nat} (h : Fits low high rs) (hle : low' ≤ low) : Fits low' high rs := by
  cases rs with
  | nil => exact Nat.le_trans hle h
  | cons r rs => exact ⟨Nat.le_trans hle h.1, h.2⟩

/-- Ranges that are apart and in order lie between two positions if each does. -/
theorem fits_of_pairwise (hle : low ≤ high) (hrs : rs.Pairwise fun r r' => r.stop ≤ r'.start)
    (hin : ∀ r ∈ rs, low ≤ r.start ∧ r.stop ≤ high) : Fits low high rs := by
  induction rs generalizing low with
  | nil => exact hle
  | cons r rs ih =>
    obtain ⟨hlater, hrs⟩ := List.pairwise_cons.mp hrs
    obtain ⟨hr, hin⟩ := List.forall_mem_cons.mp hin
    exact ⟨hr.1, ih hr.2 hrs fun r' hr' => ⟨hlater r' hr', (hin r' hr').2⟩⟩

theorem Fits.le_start (h : Fits low high rs) {r : Splice α} (hr : r ∈ rs) : low ≤ r.start := by
  induction rs generalizing low with
  | nil => exact absurd hr List.not_mem_nil
  | cons r' rs ih =>
    obtain rfl | hr := List.mem_cons.mp hr
    · exact h.1
    · exact Nat.le_trans h.1 (Nat.le_trans (Nat.le_add_right _ _) (ih h.2 hr))

theorem Fits.pairwise (h : Fits low high rs) : rs.Pairwise fun r r' => r.stop ≤ r'.start := by
  induction rs generalizing low with
  | nil => exact .nil
  | cons r rs ih => exact List.pairwise_cons.mpr ⟨fun r' hr' => h.2.le_start hr', ih h.2⟩

theorem Fits.append (h : Fits low mid rs) (h' : Fits mid high rs') : Fits low high (rs ++ rs') := by
  induction rs generalizing low with
  | nil => exact h'.mono h
  | cons r rs ih => exact ⟨h.1, ih h.2⟩

theorem Fits.concat {r : Splice α} (h : Fits low high (rs ++ [r])) : Fits low r.start rs ∧ r.stop ≤ high := by
  induction rs generalizing low with
  | nil => exact h
  | cons r' rs ih => exact ⟨⟨h.1, (ih h.2).1⟩, (ih h.2).2⟩

/-- Some of the ranges. -/
theorem Fits.filter (h : Fits low high rs) (p : Splice α → Bool) : Fits low high (rs.filter p) := by
  induction rs generalizing low with
  | nil => exact h
  | cons r rs ih =>
    rw [List.filter_cons]
    split
    · exact ⟨h.1, ih h.2⟩
    · exact (ih h.2).mono (Nat.le_trans h.1 (Nat.le_add_right _ _))

/-! ## From either end -/

theorem spliceBack_cons {r : Splice α} : spliceBack offset rest (r :: rs) =
    (spliceBack offset rest rs).take (r.start - offset) ++ r.text ++
      (spliceBack offset rest rs).drop (r.start - offset + r.length) := rfl

/-- What stands before the ranges stays. -/
theorem spliceBack_take (hle : offset ≤ mid) (hlength : mid - offset ≤ rest.length)
    (h : Fits mid (offset + rest.length) rs) :
    spliceBack offset rest rs =
      rest.take (mid - offset) ++ spliceBack mid (rest.drop (mid - offset)) rs := by
  induction rs generalizing mid with
  | nil => exact (List.take_append_drop _ _).symm
  | cons r rs ih =>
    obtain ⟨hstart, hfits⟩ := h
    have hback := ih hle hlength (hfits.mono (Nat.le_trans hstart (Nat.le_add_right _ _)))
    have hlen : (rest.take (mid - offset)).length = mid - offset := by
      rw [List.length_take]
      omega
    have hdrop : (rest.take (mid - offset)).drop (r.start - offset + r.length) = [] :=
      List.drop_eq_nil_of_le (by omega)
    rw [spliceBack_cons, spliceBack_cons, hback, List.take_append, List.drop_append, hdrop, hlen,
      List.take_of_length_le (by omega), List.nil_append,
      show r.start - offset - (mid - offset) = r.start - mid by omega,
      show r.start - offset + r.length - (mid - offset) = r.start - mid + r.length by omega]
    simp only [List.append_assoc]

/-- From the last range on as from the first one on. -/
theorem spliceBack_eq (h : Fits offset (offset + rest.length) rs) :
    spliceBack offset rest rs = splice offset rest rs := by
  induction rs generalizing offset rest with
  | nil => rfl
  | cons r rs ih =>
    obtain ⟨hstart, hfits⟩ := h
    have hstop := hfits.le
    have hdef : r.stop = r.start + r.length := rfl
    have hback := @spliceBack_take α r.stop offset rest rs (by omega) (by omega) hfits
    have hlen : (rest.take (r.stop - offset)).length = r.stop - offset := by
      rw [List.length_take]
      omega
    have hrest := @ih r.stop (rest.drop (r.stop - offset)) (by
      rw [List.length_drop]
      exact Eq.mp (by congr 1; omega) hfits)
    rw [spliceBack_cons, hback, splice, hrest, List.take_append_of_le_length (by omega), List.take_take,
      show min (r.start - offset) (r.stop - offset) = r.start - offset by omega,
      show r.start - offset + r.length = (rest.take (r.stop - offset)).length by omega,
      List.drop_append_length]

/-! ## What stays -/

/-- Ranges up to a position and ranges behind it are replaced apart. -/
theorem splice_append (h : Fits offset mid rs) (h' : Fits mid high rs') :
    splice offset rest (rs ++ rs') =
      splice offset (rest.take (mid - offset)) rs ++ splice mid (rest.drop (mid - offset)) rs' := by
  induction rs generalizing offset rest with
  | nil =>
    have hle : offset ≤ mid := h
    cases rs' with
    | nil => exact (List.take_append_drop _ _).symm
    | cons r rs' =>
      have hstart := h'.1
      have hdef : r.stop = r.start + r.length := rfl
      rw [List.nil_append, splice, splice, splice, List.drop_drop,
        show r.start - offset = (mid - offset) + (r.start - mid) by omega, List.take_add,
        show mid - offset + (r.stop - mid) = r.stop - offset by omega]
      simp only [List.append_assoc]
  | cons r rs ih =>
    obtain ⟨hstart, hfits⟩ := h
    have hstop := hfits.le
    have hdef : r.stop = r.start + r.length := rfl
    rw [List.cons_append, splice, splice, ih hfits, List.take_take, List.drop_take, List.drop_drop,
      show min (r.start - offset) (mid - offset) = r.start - offset by omega,
      show mid - offset - (r.stop - offset) = mid - r.stop by omega,
      show r.stop - offset + (mid - r.stop) = mid - offset by omega]
    simp only [List.append_assoc]

/-- Ranges that keep off two positions lie before the first one or behind the second one. -/
theorem Fits.split {a b : Nat} (h : Fits low high rs) (hlow : low ≤ a) (hhigh : b ≤ high)
    (hapart : ∀ r ∈ rs, r.stop ≤ a ∨ b ≤ r.start) :
    rs = (rs.filter fun r => decide (r.stop ≤ a)) ++ (rs.filter fun r => decide (a < r.stop)) ∧
      Fits low a (rs.filter fun r => decide (r.stop ≤ a)) ∧
      Fits b high (rs.filter fun r => decide (a < r.stop)) := by
  induction rs generalizing low with
  | nil => exact ⟨rfl, hlow, hhigh⟩
  | cons r rs ih =>
    obtain ⟨hstart, hfits⟩ := h
    obtain ⟨hr, hrest⟩ := List.forall_mem_cons.mp hapart
    by_cases hstop : r.stop ≤ a
    · obtain ⟨heq, hbefore, hbehind⟩ := ih hfits hstop hrest
      have hkeep : (r :: rs).filter (fun r => decide (r.stop ≤ a)) =
          r :: rs.filter fun r => decide (r.stop ≤ a) := List.filter_cons_of_pos (decide_eq_true hstop)
      have hdrop : (r :: rs).filter (fun r => decide (a < r.stop)) =
          rs.filter fun r => decide (a < r.stop) := List.filter_cons_of_neg (by simpa using hstop)
      rw [hkeep, hdrop, List.cons_append, ← heq]
      exact ⟨rfl, ⟨hstart, hbefore⟩, hbehind⟩
    · -- the later ranges are behind this one
      have hb := hr.resolve_left hstop
      have hlater : ∀ r' ∈ r :: rs, a < r'.stop := by
        intro r' hr'
        obtain rfl | hr' := List.mem_cons.mp hr'
        · exact Nat.not_le.mp hstop
        · have := hfits.le_start hr'
          have hdef : r'.stop = r'.start + r'.length := rfl
          omega
      have hnone : (r :: rs).filter (fun r => decide (r.stop ≤ a)) = [] :=
        List.filter_eq_nil_iff.mpr fun r' hr' => by simpa using hlater r' hr'
      have hall : (r :: rs).filter (fun r => decide (a < r.stop)) = r :: rs :=
        List.filter_eq_self.mpr fun r' hr' => decide_eq_true (hlater r' hr')
      rw [hnone, hall]
      exact ⟨rfl, hlow, hb, hfits⟩

end Sequences
