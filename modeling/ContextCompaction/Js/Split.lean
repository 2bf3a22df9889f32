import ContextCompaction.Js.Text

/-!
# Splitting at a separator

* `split`: `String.prototype.split` with a separator that is a string.
* `three_le_split`: occurrences of the separator that lie apart are all split at, so there are more pieces than
  occurrences.
-/

namespace Js

/-- The pieces of the rest, of which the first units may still belong to a separator. -/
def splitRest (separator : Str) : Nat → Str → Str → List Str
  | _, piece, [] => [piece]
  | k + 1, piece, _ :: rest => splitRest separator k piece rest
  | 0, piece, u :: rest =>
    if separator.isPrefixOf (u :: rest) then piece :: splitRest separator (separator.length - 1) [] rest
    else splitRest separator 0 (piece ++ [u]) rest

/-- `s.split(separator)`. -/
def split (separator s : Str) : List Str :=
  if separator = [] then s.map fun u => [u] else splitRest separator 0 [] s

variable {separator piece s : Str} {k i j : Nat}

theorem one_le_splitRest : 1 ≤ (splitRest separator k piece s).length := by
  induction s generalizing k piece with
  | nil => exact Nat.le_refl 1
  | cons u s ih =>
    cases k with
    | zero =>
      rw [splitRest]
      split
      · exact Nat.le_add_left 1 _
      · exact ih
    | succ k => exact ih

/-- The text is split at an occurrence of the separator. -/
theorem two_le_splitRest (hne : separator ≠ []) (hk : k ≤ i) (h : separator <+: s.drop i) :
    2 ≤ (splitRest separator k piece s).length := by
  induction s generalizing k piece i with
  | nil => exact absurd (List.prefix_nil.mp (List.drop_nil ▸ h)) hne
  | cons u s ih =>
    cases k with
    | zero =>
      rw [splitRest]
      split
      · exact Nat.add_le_add_right one_le_splitRest 1
      · next hstart =>
        cases i with
        | zero => exact absurd (List.isPrefixOf_iff_prefix.mpr h) hstart
        | succ i => exact ih (Nat.zero_le i) h
    | succ k =>
      obtain ⟨i, rfl⟩ := Nat.exists_eq_add_of_le' (Nat.le_trans (Nat.succ_le_succ (Nat.zero_le k)) hk)
      exact ih (Nat.succ_le_succ_iff.mp hk) h

theorem three_le_splitRest (hne : separator ≠ []) (hk : k ≤ i) (hij : i + separator.length ≤ j)
    (h : separator <+: s.drop i) (h' : separator <+: s.drop j) :
    3 ≤ (splitRest separator k piece s).length := by
  have hpos := List.length_pos_iff.mpr hne
  induction s generalizing k piece i j with
  | nil => exact absurd (List.prefix_nil.mp (List.drop_nil ▸ h)) hne
  | cons u s ih =>
    obtain ⟨j, rfl⟩ : ∃ j', j = j' + 1 := ⟨j - 1, by omega⟩
    cases k with
    | zero =>
      rw [splitRest]
      split
      · have h' : separator <+: s.drop j := h'
        have hlater : separator.length - 1 ≤ j := by omega
        exact Nat.add_le_add_right (two_le_splitRest hne hlater h') 1
      · next hstart =>
        cases i with
        | zero => exact absurd (List.isPrefixOf_iff_prefix.mpr h) hstart
        | succ i => exact ih (Nat.zero_le i) (by omega) h h'
    | succ k =>
      obtain ⟨i, rfl⟩ : ∃ i', i = i' + 1 := ⟨i - 1, by omega⟩
      exact ih (Nat.succ_le_succ_iff.mp hk) (by omega) h h'

/-- Two occurrences of the separator that lie apart leave three pieces. -/
theorem three_le_split (hne : separator ≠ []) (hij : i + separator.length ≤ j)
    (h : separator <+: s.drop i) (h' : separator <+: s.drop j) : 3 ≤ (split separator s).length := by
  rw [split, if_neg hne]
  exact three_le_splitRest hne (Nat.zero_le i) hij h h'

end Js
