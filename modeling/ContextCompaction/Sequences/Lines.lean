import Mathlib.Data.List.Basic
import Mathlib.Tactic.Common

/-!
# Lines of a sequence

A separator ends a line; what follows the last separator is a line too, unless nothing follows it.

* `nextIndex`, `prevIndex`, `nthPrev`: searches for a separator.
* `lineCount_append`: lines add up where no line is cut.
* `le_afterLines`, `linesBefore_le`: the longest start and the longest end with a number of lines.
* `afterLines_append`, `linesBefore_append`: what they are in a longer sequence.
-/

namespace Sequences

variable {α : Type} [DecidableEq α] {x : α} {l a b : List α} {i j k n : Nat}

/-- The first index from `i` on that holds `x`. -/
def nextIndex (x : α) (l : List α) (i : Nat) : Option Nat :=
  ((l.drop i).findIdx? (· == x)).map (i + ·)

/-- The last index before `i` that holds `x`. -/
def prevIndex (x : α) (l : List α) : Nat → Option Nat
  | 0 => none
  | i + 1 => if l[i]? = some x then some i else prevIndex x l i

/-- The index before `i` that holds `x` and has `n` later ones before `i`. -/
def nthPrev (x : α) (l : List α) : Nat → Nat → Option Nat
  | 0, i => prevIndex x l i
  | n + 1, i => (prevIndex x l i).bind (nthPrev x l n)

/-- The lines of a sequence. -/
def lineCount (x : α) (l : List α) : Nat :=
  l.count x + if l = [] ∨ l.getLast? = some x then 0 else 1

/-- No line is cut at `k`. -/
def LineCut (x : α) (l : List α) (k : Nat) : Prop :=
  k = 0 ∨ k = l.length ∨ ∃ j, k = j + 1 ∧ l[j]? = some x

/-- Where `n` lines from `i` on end. -/
def afterLines (x : α) (l : List α) : Nat → Nat → Nat
  | 0, i => i
  | n + 1, i =>
    match nextIndex x l i with
    | none => l.length
    | some j => afterLines x l n (j + 1)

/-- The end of the last line without its separator. -/
def lastContent (x : α) (l : List α) : Nat :=
  if l.getLast? = some x then l.length - 1 else l.length

/-- Where the last `n + 1` lines start. -/
def linesBefore (x : α) (l : List α) (n : Nat) : Nat :=
  ((nthPrev x l n (lastContent x l)).map (· + 1)).getD 0

/-! ## Searches -/

theorem nextIndex_eq_none :
    nextIndex x l i = none ↔ ∀ k, i ≤ k → l[k]? ≠ some x := by
  simp only [nextIndex, Option.map_eq_none_iff, List.findIdx?_eq_none_iff, beq_eq_false_iff_ne]
  constructor
  · intro h k hk heq
    refine h x ?_ rfl
    have : (l.drop i)[k - i]? = some x := by
      rw [List.getElem?_drop, Nat.add_sub_cancel' hk, heq]
    exact List.mem_of_getElem? this
  · intro h y hy hyx
    obtain ⟨k, hk⟩ := List.getElem?_of_mem hy
    rw [List.getElem?_drop, hyx] at hk
    exact h (i + k) (Nat.le_add_right i k) hk

/-- The next index is the first from `i` on. -/
theorem nextIndex_eq_some : nextIndex x l i = some j ↔
    i ≤ j ∧ l[j]? = some x ∧ ∀ k, i ≤ k → k < j → l[k]? ≠ some x := by
  simp only [nextIndex, Option.map_eq_some_iff, List.findIdx?_eq_some_iff_getElem, beq_iff_eq]
  constructor
  · rintro ⟨m, ⟨hm, hx, hbefore⟩, rfl⟩
    refine ⟨Nat.le_add_right i m, ?_, fun k hik hk heq => ?_⟩
    · rw [← List.getElem?_drop, List.getElem?_eq_getElem hm, hx]
    · have hlt : k - i < m := by omega
      refine hbefore (k - i) hlt ?_
      have : (l.drop i)[k - i]? = some x := by rw [List.getElem?_drop, Nat.add_sub_cancel' hik, heq]
      exact (List.getElem?_eq_some_iff.mp this).2
  · rintro ⟨hij, hx, hbefore⟩
    have hdrop : (l.drop i)[j - i]? = some x := by
      rw [List.getElem?_drop, Nat.add_sub_cancel' hij, hx]
    obtain ⟨hlt, heq⟩ := List.getElem?_eq_some_iff.mp hdrop
    refine ⟨j - i, ⟨hlt, heq, fun k hk heq => ?_⟩, Nat.add_sub_cancel' hij⟩
    refine hbefore (i + k) (Nat.le_add_right i k) (by omega) ?_
    rw [← List.getElem?_drop, List.getElem?_eq_getElem (by omega), heq]

theorem prevIndex_eq_none : prevIndex x l i = none ↔ ∀ k, k < i → l[k]? ≠ some x := by
  induction i with
  | zero => simp [prevIndex]
  | succ i ih =>
    rw [prevIndex, Nat.forall_lt_succ_right, ← ih]
    by_cases h : l[i]? = some x
    · simp [h]
    · simp [h]

/-- The previous index is the last before `i`. -/
theorem prevIndex_eq_some : prevIndex x l i = some j ↔
    j < i ∧ l[j]? = some x ∧ ∀ k, j < k → k < i → l[k]? ≠ some x := by
  induction i with
  | zero => simp [prevIndex]
  | succ i ih =>
    rw [prevIndex]
    by_cases h : l[i]? = some x
    · rw [if_pos h, Option.some_inj]
      constructor
      · rintro rfl
        exact ⟨Nat.lt_succ_self i, h, fun k h1 h2 => by omega⟩
      · rintro ⟨hj, -, hlast⟩
        by_contra hne
        exact hlast i (by omega) (Nat.lt_succ_self i) h
    · rw [if_neg h, ih]
      constructor
      · rintro ⟨hj, hx, hlast⟩
        refine ⟨by omega, hx, fun k h1 h2 heq => ?_⟩
        obtain hk | rfl := Nat.lt_succ_iff_lt_or_eq.mp h2
        · exact hlast k h1 hk heq
        · exact h heq
      · rintro ⟨hj, hx, hlast⟩
        obtain hj | rfl := Nat.lt_succ_iff_lt_or_eq.mp hj
        · exact ⟨hj, hx, fun k h1 h2 => hlast k h1 (by omega)⟩
        · exact absurd hx h

/-! ## Separators before an index -/

theorem count_take_succ :
    (l.take (k + 1)).count x = (l.take k).count x + if l[k]? = some x then 1 else 0 := by
  rw [List.take_add_one, List.count_append]
  cases h : l[k]? with
  | none => simp
  | some y =>
    by_cases hy : y = x
    · simp [hy]
    · simp [hy]

/-- Where `x` does not occur, none is counted. -/
theorem count_take_eq (h : i ≤ j) (hnone : ∀ k, i ≤ k → k < j → l[k]? ≠ some x) :
    (l.take j).count x = (l.take i).count x := by
  induction h with
  | refl => rfl
  | @step j hij ih =>
    rw [count_take_succ, if_neg (hnone j hij (Nat.lt_succ_self j)), Nat.add_zero,
      ih fun k h1 h2 => hnone k h1 (by omega)]

theorem count_drop : (l.take k).count x + (l.drop k).count x = l.count x := by
  rw [← List.count_append, List.take_append_drop]

theorem count_prevIndex (h : prevIndex x l i = some j) :
    (l.take i).count x = (l.take j).count x + 1 := by
  obtain ⟨hj, hx, hlast⟩ := prevIndex_eq_some.mp h
  rw [count_take_eq (i := j + 1) hj fun k h1 h2 => hlast k h1 h2, count_take_succ, if_pos hx]

theorem count_nextIndex (h : nextIndex x l i = some j) :
    (l.take (j + 1)).count x = (l.take i).count x + 1 := by
  obtain ⟨hij, hx, hnone⟩ := nextIndex_eq_some.mp h
  rw [count_take_succ, if_pos hx, count_take_eq hij hnone]

theorem nthPrev_eq_some (h : nthPrev x l n i = some j) :
    j < i ∧ l[j]? = some x ∧ (l.take i).count x = (l.take j).count x + (n + 1) := by
  induction n generalizing i with
  | zero =>
    obtain ⟨hj, hx, -⟩ := prevIndex_eq_some.mp h
    exact ⟨hj, hx, count_prevIndex h⟩
  | succ n ih =>
    obtain ⟨m, hm, h⟩ := Option.bind_eq_some_iff.mp h
    obtain ⟨hj, hx, hcount⟩ := ih h
    have hmi := (prevIndex_eq_some.mp hm).1
    exact ⟨by omega, hx, by rw [count_prevIndex hm, hcount]; omega⟩

theorem nthPrev_eq_none (h : nthPrev x l n i = none) : (l.take i).count x ≤ n := by
  have hzero : ∀ {i}, prevIndex x l i = none → (l.take i).count x = 0 := fun h => by
    rw [count_take_eq (Nat.zero_le _) fun k _ hk => prevIndex_eq_none.mp h k hk]
    simp
  induction n generalizing i with
  | zero => exact Nat.le_of_eq (hzero h)
  | succ n ih =>
    rw [nthPrev] at h
    cases hm : prevIndex x l i with
    | none => exact Nat.le_trans (Nat.le_of_eq (hzero hm)) (Nat.zero_le _)
    | some m =>
      rw [hm, Option.bind_some] at h
      rw [count_prevIndex hm]
      exact Nat.succ_le_succ (ih h)

/-! ## Counting lines -/

@[simp] theorem lineCount_nil : lineCount x ([] : List α) = 0 := by simp [lineCount]

@[simp] theorem lineCount_singleton (y : α) : lineCount x [y] = 1 := by
  by_cases hy : y = x
  · simp [lineCount, hy]
  · simp [lineCount, hy]

theorem lineCount_pos (h : l ≠ []) : 0 < lineCount x l := by
  unfold lineCount
  split_ifs with hend
  · have hmem : x ∈ l := List.mem_of_getLast? (hend.resolve_left h)
    have := List.count_pos_iff.mpr hmem
    omega
  · omega

/-- Lines add up where none is cut. -/
theorem lineCount_append (h : a = [] ∨ b = [] ∨ a.getLast? = some x) :
    lineCount x (a ++ b) = lineCount x a + lineCount x b := by
  rcases h with rfl | rfl | h
  · simp
  · simp
  · by_cases hb : b = []
    · simp [hb]
    · have hlast : (a ++ b).getLast? = b.getLast? := List.getLast?_append_of_ne_nil a hb
      simp only [lineCount, List.count_append, hlast, h, hb, List.append_eq_nil_iff, and_false,
        false_or, or_true, if_true]
      omega

theorem lineCount_le_append_right : lineCount x b ≤ lineCount x (a ++ b) := by
  by_cases hb : b = []
  · simp [hb]
  · have hlast : (a ++ b).getLast? = b.getLast? := List.getLast?_append_of_ne_nil a hb
    simp only [lineCount, List.count_append, hlast, hb, List.append_eq_nil_iff, and_false, false_or]
    omega

theorem lineCount_le_append_left : lineCount x a ≤ lineCount x (a ++ b) := by
  by_cases hb : b = []
  · simp [hb]
  · have hpos := lineCount_pos (x := x) hb
    by_cases ha : a = [] ∨ a.getLast? = some x
    · have := lineCount_append (x := x) (a := a) (b := b) (by tauto)
      omega
    · have hlast : (a ++ b).getLast? = b.getLast? := List.getLast?_append_of_ne_nil a hb
      simp only [lineCount, List.count_append, hlast, hb, List.append_eq_nil_iff, and_false, false_or,
        if_neg ha] at hpos ⊢
      omega

omit [DecidableEq α] in
theorem LineCut.le (h : LineCut x l k) : k ≤ l.length := by
  rcases h with rfl | rfl | ⟨j, rfl, hj⟩
  · exact Nat.zero_le _
  · exact Nat.le_refl _
  · exact (List.getElem?_eq_some_iff.mp hj).1

/-- At a cut, the lines before and the lines after are those of the whole. -/
theorem LineCut.lineCount (h : LineCut x l k) :
    Sequences.lineCount x (l.take k) + Sequences.lineCount x (l.drop k) =
      Sequences.lineCount x l := by
  rw [← lineCount_append, List.take_append_drop]
  rcases h with rfl | rfl | ⟨j, rfl, hj⟩
  · exact .inl List.take_zero
  · exact .inr (.inl List.drop_length)
  · refine .inr (.inr ?_)
    rw [List.take_add_one, hj]
    simp

theorem lineCount_take_mono (h : i ≤ j) :
    lineCount x (l.take i) ≤ lineCount x (l.take j) := by
  rw [← List.take_append_drop i (l.take j), List.take_take, Nat.min_eq_left h]
  exact lineCount_le_append_left

theorem lineCount_drop_mono (h : i ≤ j) :
    lineCount x (l.drop j) ≤ lineCount x (l.drop i) := by
  rw [← List.take_append_drop (j - i) (l.drop i), List.drop_drop, Nat.add_sub_cancel' h]
  exact lineCount_le_append_right

/-- Behind a cut another line begins. -/
theorem LineCut.lt_take (h : LineCut x l i) (hij : i < j) (hj : j ≤ l.length) :
    Sequences.lineCount x (l.take i) < Sequences.lineCount x (l.take j) := by
  have hcut : LineCut x (l.take j) i := by
    rcases h with rfl | rfl | ⟨m, rfl, hm⟩
    · exact .inl rfl
    · omega
    · exact .inr (.inr ⟨m, rfl, by rw [List.getElem?_take_of_lt (by omega), hm]⟩)
  have hsum := hcut.lineCount
  rw [List.take_take, Nat.min_eq_left (Nat.le_of_lt hij)] at hsum
  have hpos := lineCount_pos (x := x) (l := (l.take j).drop i) (by
    intro hnil
    have := congrArg List.length hnil
    simp only [List.length_drop, List.length_take, List.length_nil] at this
    omega)
  omega

/-- Before a cut another line ends. -/
theorem LineCut.lt_drop (h : LineCut x l j) (hij : i < j) :
    Sequences.lineCount x (l.drop j) < Sequences.lineCount x (l.drop i) := by
  have hj := h.le
  have hcut : LineCut x (l.drop i) (j - i) := by
    rcases h with rfl | rfl | ⟨m, rfl, hm⟩
    · omega
    · exact .inr (.inl (List.length_drop).symm)
    · exact .inr (.inr ⟨m - i, by omega, by rw [List.getElem?_drop, ← hm]; congr 1; omega⟩)
  have hsum := hcut.lineCount
  rw [List.drop_drop, Nat.add_sub_cancel' (Nat.le_of_lt hij)] at hsum
  have hpos := lineCount_pos (x := x) (l := (l.drop i).take (j - i)) (by
    intro hnil
    have := congrArg List.length hnil
    simp only [List.length_drop, List.length_take, List.length_nil] at this
    omega)
  omega

/-! ## The longest start with a number of lines -/

private theorem afterLines_count (hi : i ≤ l.length) :
    i ≤ afterLines x l n i ∧ afterLines x l n i ≤ l.length ∧
      ((afterLines x l n i = l.length ∧ l.count x < (l.take i).count x + n) ∨
        ((l.take (afterLines x l n i)).count x = (l.take i).count x + n ∧
          (afterLines x l n i = i ∨
            ∃ j, afterLines x l n i = j + 1 ∧ l[j]? = some x))) := by
  induction n generalizing i with
  | zero => exact ⟨Nat.le_refl i, hi, .inr ⟨rfl, .inl rfl⟩⟩
  | succ n ih =>
    rw [afterLines]
    cases h : nextIndex x l i with
    | none =>
      have hnone := nextIndex_eq_none.mp h
      have hcount := count_take_eq hi fun k hk _ => hnone k hk
      rw [List.take_length] at hcount
      exact ⟨hi, Nat.le_refl _, .inl ⟨rfl, by omega⟩⟩
    | some j =>
      obtain ⟨hij, hj, -⟩ := nextIndex_eq_some.mp h
      have hcount := count_nextIndex h
      obtain ⟨hle, hlen, hcase⟩ := ih (i := j + 1) (List.getElem?_eq_some_iff.mp hj).1
      simp only
      refine ⟨by omega, hlen, ?_⟩
      rcases hcase with ⟨hend, hlt⟩ | ⟨heq, hcut⟩
      · exact .inl ⟨hend, by omega⟩
      · refine .inr ⟨by omega, .inr ?_⟩
        rcases hcut with hsame | hsep
        · exact ⟨j, hsame, hj⟩
        · exact hsep

theorem afterLines_le : afterLines x l n 0 ≤ l.length := (afterLines_count (Nat.zero_le _)).2.1

theorem lineCut_afterLines : LineCut x l (afterLines x l n 0) := by
  obtain ⟨-, -, ⟨hend, -⟩ | ⟨-, hzero | hsep⟩⟩ :=
    afterLines_count (x := x) (n := n) (Nat.zero_le l.length)
  · exact .inr (.inl hend)
  · exact .inl hzero
  · exact .inr (.inr hsep)

/-- A separator before `k` leaves no line unfinished. -/
private theorem lineCount_take (h : k = 0 ∨ ∃ j, k = j + 1 ∧ l[j]? = some x) :
    lineCount x (l.take k) = (l.take k).count x := by
  rcases h with rfl | ⟨j, rfl, hj⟩
  · simp
  · have hlast : (l.take (j + 1)).getLast? = some x := by
      rw [List.take_add_one, hj]
      simp
    rw [lineCount, if_pos (.inr hlast), Nat.add_zero]

private theorem lineCount_afterLines : lineCount x (l.take (afterLines x l n 0)) ≤ n ∧
    (afterLines x l n 0 = l.length ∨ lineCount x (l.take (afterLines x l n 0)) = n) := by
  obtain ⟨-, -, ⟨hend, hlt⟩ | ⟨heq, hcut⟩⟩ :=
    afterLines_count (x := x) (n := n) (Nat.zero_le l.length)
  · refine ⟨?_, .inl hend⟩
    rw [List.take_zero, List.count_nil] at hlt
    rw [hend, List.take_length, lineCount]
    split_ifs <;> omega
  · rw [List.take_zero, List.count_nil, Nat.zero_add] at heq
    rw [lineCount_take hcut, heq]
    exact ⟨Nat.le_refl n, .inr rfl⟩

/-- The first `n` lines end at the last place up to which there are no more than `n`. -/
theorem le_afterLines (hk : k ≤ l.length) :
    k ≤ afterLines x l n 0 ↔ lineCount x (l.take k) ≤ n := by
  obtain ⟨hle, hfull⟩ := lineCount_afterLines (x := x) (l := l) (n := n)
  constructor
  · intro h
    exact Nat.le_trans (lineCount_take_mono h) hle
  · intro h
    by_contra hlt
    have hmore := lineCut_afterLines.lt_take (Nat.not_le.mp hlt) hk
    omega

/-- As many separators end the first lines. -/
theorem afterLines_le_of_count (h : n ≤ a.count x) : afterLines x (a ++ b) n 0 ≤ a.length := by
  by_contra hlt
  have hle := afterLines_le (x := x) (l := a ++ b) (n := n)
  have hone := (le_afterLines (x := x) (n := n) (show a.length + 1 ≤ (a ++ b).length by omega)).mp
    (by omega)
  rw [List.take_length_add_append] at hone
  obtain ⟨y, rest, rfl⟩ := List.exists_cons_of_ne_nil (l := b) (by
    rintro rfl
    rw [List.append_nil] at hle hlt
    exact hlt hle)
  have hmore : a.count x < lineCount x (a ++ [y]) := by
    rw [lineCount, List.count_append]
    by_cases hy : y = x
    · simp [hy]
    · simp [hy]
  exact absurd (Nat.lt_of_le_of_lt h hmore) (Nat.not_lt.mpr hone)

/-- The first lines of a sequence are those of a longer one, as far as it goes. -/
theorem afterLines_append : afterLines x a n 0 = min (afterLines x (a ++ b) n 0) a.length := by
  have hlen : a.length ≤ (a ++ b).length := by simp
  have hsame : ∀ k, k ≤ a.length →
      (k ≤ afterLines x a n 0 ↔ k ≤ afterLines x (a ++ b) n 0) := fun k hk => by
    rw [le_afterLines hk, le_afterLines (Nat.le_trans hk hlen), List.take_append_of_le_length hk]
  have hle := afterLines_le (x := x) (l := a) (n := n)
  have h1 := (hsame _ hle).mp (Nat.le_refl _)
  have h2 := (hsame (min (afterLines x (a ++ b) n 0) a.length) (Nat.min_le_right _ _)).mpr
    (Nat.min_le_left _ _)
  omega

/-! ## The longest end with a number of lines -/

private theorem count_lastContent (h : l ≠ []) :
    lineCount x l = (l.take (lastContent x l)).count x + 1 := by
  have hlen : l.length - 1 + 1 = l.length := Nat.sub_add_cancel (List.length_pos_iff.mpr h)
  unfold lineCount lastContent
  by_cases hlast : l.getLast? = some x
  · have hsplit := count_take_succ (l := l) (k := l.length - 1) (x := x)
    rw [hlen, List.take_length, ← List.getLast?_eq_getElem?, if_pos hlast] at hsplit
    rw [if_pos (.inr hlast), if_pos hlast, hsplit]
  · rw [if_neg (by tauto), if_neg hlast, List.take_length]

private theorem linesBefore_cases (x : α) (l : List α) (n : Nat) :
    (linesBefore x l n = 0 ∧ (l.take (lastContent x l)).count x ≤ n) ∨
      ∃ j, linesBefore x l n = j + 1 ∧ j < lastContent x l ∧ l[j]? = some x ∧
        (l.take (lastContent x l)).count x = (l.take j).count x + (n + 1) := by
  unfold linesBefore
  cases h : nthPrev x l n (lastContent x l) with
  | none => exact .inl ⟨rfl, nthPrev_eq_none h⟩
  | some j => exact .inr ⟨j, rfl, nthPrev_eq_some h⟩

theorem lineCut_linesBefore : LineCut x l (linesBefore x l n) := by
  obtain ⟨hzero, -⟩ | ⟨j, hj, -, hsep, -⟩ := linesBefore_cases x l n
  · exact .inl hzero
  · exact .inr (.inr ⟨j, hj, hsep⟩)

private theorem lineCount_linesBefore : lineCount x (l.drop (linesBefore x l n)) ≤ n + 1 ∧
    (linesBefore x l n = 0 ∨ lineCount x (l.drop (linesBefore x l n)) = n + 1) := by
  obtain ⟨hzero, hle⟩ | ⟨j, hj, hlt, hsep, hcount⟩ := linesBefore_cases x l n
  · refine ⟨?_, .inl hzero⟩
    rw [hzero, List.drop_zero]
    by_cases hnil : l = []
    · simp [hnil]
    · rw [count_lastContent hnil]
      omega
  · have hne : l ≠ [] := by
      rintro rfl
      simp at hsep
    have hsum := (lineCut_linesBefore (x := x) (l := l) (n := n)).lineCount
    rw [lineCount_take (.inr ⟨j, hj, hsep⟩), count_lastContent hne, hj, count_take_succ, if_pos hsep]
      at hsum
    rw [hj]
    exact ⟨by omega, .inr (by omega)⟩

/-- The last `n + 1` lines start at the first place behind which there are no more than `n + 1`. -/
theorem linesBefore_le :
    linesBefore x l n ≤ k ↔ lineCount x (l.drop k) ≤ n + 1 := by
  obtain ⟨hle, hfull⟩ := lineCount_linesBefore (x := x) (l := l) (n := n)
  constructor
  · intro h
    exact Nat.le_trans (lineCount_drop_mono h) hle
  · intro h
    by_contra hlt
    have hmore := (lineCut_linesBefore (x := x) (l := l) (n := n)).lt_drop (Nat.not_le.mp hlt)
    omega

/-- More separators begin the last lines. -/
theorem le_linesBefore_of_count (h : n + 1 < b.count x) :
    a.length ≤ linesBefore x (a ++ b) n := by
  by_contra hlt
  have hle := (linesBefore_le (k := a.length)).mp (Nat.le_of_lt (Nat.not_le.mp hlt))
  rw [List.drop_left, lineCount] at hle
  omega

/-- The last lines of a sequence are those of a longer one, as far as it goes. -/
theorem linesBefore_append :
    linesBefore x b n = linesBefore x (a ++ b) n - a.length := by
  have hsame : ∀ k,
      linesBefore x b n ≤ k ↔ linesBefore x (a ++ b) n ≤ a.length + k := fun k => by
    rw [linesBefore_le, linesBefore_le, List.drop_append, Nat.add_sub_cancel_left,
      List.drop_of_length_le (Nat.le_add_right a.length k), List.nil_append]
  have h1 := (hsame (linesBefore x b n)).mp (Nat.le_refl _)
  have h2 := (hsame (linesBefore x (a ++ b) n - a.length)).mpr (by omega)
  omega

/-! ## Cuts beside an index -/

/-- The last cut up to `i` is behind the separator before it. -/
theorem LineCut.le_prevIndex (h : LineCut x l k) (hk : k ≤ i) (hi : i < l.length) :
    k ≤ ((prevIndex x l i).map (· + 1)).getD 0 := by
  rcases h with rfl | rfl | ⟨j, rfl, hj⟩
  · exact Nat.zero_le _
  · omega
  · cases hp : prevIndex x l i with
    | none => exact absurd hj (prevIndex_eq_none.mp hp j hk)
    | some m =>
      refine Nat.succ_le_succ (Nat.not_lt.mp fun hm => ?_)
      exact (prevIndex_eq_some.mp hp).2.2 j hm hk hj

/-- The first cut from `i` on is behind the separator at `i - 1` or after it. -/
theorem LineCut.nextIndex_lt (h : LineCut x l k) (hi : 0 < i) (hk : i ≤ k) (hlen : k < l.length) :
    ∃ j, nextIndex x l (i - 1) = some j ∧ j + 1 ≤ k := by
  rcases h with rfl | rfl | ⟨m, rfl, hm⟩
  · omega
  · omega
  · cases hn : nextIndex x l (i - 1) with
    | none => exact absurd hm (nextIndex_eq_none.mp hn m (by omega))
    | some j =>
      refine ⟨j, rfl, Nat.succ_le_succ (Nat.not_lt.mp fun hj => ?_)⟩
      exact (nextIndex_eq_some.mp hn).2.2 m (by omega) hj hm

theorem prevIndex_append (hi : i ≤ a.length) : prevIndex x (a ++ b) i = prevIndex x a i := by
  induction i with
  | zero => rfl
  | succ i ih => rw [prevIndex, prevIndex, List.getElem?_append_left hi, ih (Nat.le_of_succ_le hi)]

theorem nextIndex_append :
    nextIndex x (a ++ b) (a.length + i) = (nextIndex x b i).map (a.length + ·) := by
  simp only [nextIndex, List.drop_append, Nat.add_sub_cancel_left,
    List.drop_of_length_le (Nat.le_add_right a.length i), List.nil_append, Option.map_map]
  congr 1
  funext j
  exact Nat.add_assoc a.length i j

end Sequences
