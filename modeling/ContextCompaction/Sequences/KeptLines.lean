import Mathlib.Data.List.Forall2
import ContextCompaction.Sequences.Splices

/-!
# Lines that are kept

* `lines`: a list cut behind each line feed, and `lineStart`: where a line starts.
* `Ended`: a text behind which a line starts. `lines_append`: it can be cut off.
* `kept_lines`: a line that keeps off the ranges that are replaced is a line of the result again, unless what
  stands before it is not ended.
-/

namespace Sequences

variable {α : Type}

/-- The list cut behind each `nl`. -/
def lines [DecidableEq α] (nl : α) : List α → List (List α)
  | [] => []
  | c :: rest =>
    if c = nl then [c] :: lines nl rest
    else match lines nl rest with
      | [] => [[c]]
      | l :: ls => (c :: l) :: ls

theorem flatten_lines [DecidableEq α] (nl : α) (l : List α) : (lines nl l).flatten = l := by
  induction l with
  | nil => rfl
  | cons c rest ih =>
    rw [lines]
    split
    · rw [List.flatten_cons, ih, List.singleton_append]
    · split
      · next h => rw [← ih, h]; rfl
      · next l ls h => rw [← ih, h]; rfl

/-- Where a line starts. -/
def lineStart (ls : List (List α)) (i : Nat) : Nat := (ls.take i).flatten.length

/-- The lines from one to before another. -/
def between (ls : List (List α)) (i j : Nat) : List α := ((ls.drop i).take (j - i)).flatten

section Starts

variable {ls : List (List α)} {i j : Nat}

@[simp] theorem lineStart_zero : lineStart ls 0 = 0 := rfl

theorem lineStart_mono (h : i ≤ j) : lineStart ls i ≤ lineStart ls j := by
  obtain ⟨k, rfl⟩ := Nat.exists_eq_add_of_le h
  unfold lineStart
  rw [List.take_add, List.flatten_append, List.length_append]
  exact Nat.le_add_right _ _

theorem flatten_split (ls : List (List α)) (i : Nat) :
    (ls.take i).flatten ++ (ls.drop i).flatten = ls.flatten := by
  rw [← List.flatten_append, List.take_append_drop]

theorem lineStart_le (i : Nat) : lineStart ls i ≤ ls.flatten.length := by
  rw [← flatten_split ls i, List.length_append]
  exact Nat.le_add_right _ _

theorem lineStart_of_le (h : ls.length ≤ i) : lineStart ls i = ls.flatten.length := by
  unfold lineStart
  rw [List.take_of_length_le h]

theorem drop_lineStart (i : Nat) : ls.flatten.drop (lineStart ls i) = (ls.drop i).flatten := by
  rw [← flatten_split ls i]
  exact List.drop_left

theorem length_between (h : i ≤ j) : (between ls i j).length = lineStart ls j - lineStart ls i := by
  obtain ⟨k, rfl⟩ := Nat.exists_eq_add_of_le h
  unfold lineStart between
  rw [List.take_add, List.flatten_append, List.length_append, Nat.add_sub_cancel_left, Nat.add_sub_cancel_left]

/-- The lines between two are the text between their starts. -/
theorem take_between (h : i ≤ j) :
    (ls.flatten.drop (lineStart ls i)).take (lineStart ls j - lineStart ls i) = between ls i j := by
  rw [drop_lineStart, ← length_between h, ← flatten_split (ls.drop i) (j - i)]
  exact List.take_left

theorem between_succ (h : i < ls.length) : between ls i (i + 1) = ls[i] := by
  unfold between
  rw [Nat.add_sub_cancel_left, List.drop_eq_getElem_cons h, List.take_succ_cons, List.take_zero,
    List.flatten_cons, List.flatten_nil, List.append_nil]

end Starts

/-! ## Line ends -/

/-- The text is empty or ends with a line end. -/
def Ended (nl : α) (l : List α) : Prop := l = [] ∨ l.getLast? = some nl

instance [DecidableEq α] (nl : α) (l : List α) : Decidable (Ended nl l) :=
  inferInstanceAs (Decidable (_ ∨ _))

section Ends

variable {nl : α} {a b : List α}

theorem Ended.of_append (h : Ended nl (a ++ b)) : Ended nl b := by
  rcases List.eq_nil_or_concat b with rfl | ⟨front, u, rfl⟩
  · exact .inl rfl
  · rcases h with h | h
    · simp at h
    · right
      simpa using h

theorem ended_append (h : b.getLast? = some nl) : Ended nl (a ++ b) := by
  right
  rw [List.getLast?_append, h, Option.some_or]

theorem ended_congr (h : a.getLast? = b.getLast?) : Ended nl a ↔ Ended nl b := by
  unfold Ended
  rw [← List.getLast?_eq_none_iff, ← List.getLast?_eq_none_iff, h]

variable [DecidableEq α]

/-- Behind a line end the lines are those of the rest. -/
theorem lines_append (h : Ended nl a) : lines nl (a ++ b) = lines nl a ++ lines nl b := by
  induction a with
  | nil => rfl
  | cons c a ih =>
    have hrest := ih (h.of_append (a := [c]))
    rw [List.cons_append, lines, lines, hrest]
    by_cases hc : c = nl
    · rw [if_pos hc, if_pos hc, List.cons_append]
    · rw [if_neg hc, if_neg hc]
      cases hlines : lines nl a with
      | nil =>
        -- one unit that ends no line is not ended
        have hnil : a = [] := by rw [← flatten_lines nl a, hlines, List.flatten_nil]
        rw [hnil] at h
        rcases h with h | h
        · cases h
        · exact absurd (Option.some.inj h) hc
      | cons l ls => rfl

/-- A line behind a text is a line again, or the end of one. -/
theorem lines_append_line {line : List α} (hline : lines nl line = [line]) (a : List α) :
    ∃ init tail, lines nl (a ++ line) = init ++ [tail ++ line] ∧ (Ended nl a → tail = []) := by
  induction a with
  | nil => exact ⟨[], [], hline, fun _ => rfl⟩
  | cons c a ih =>
    obtain ⟨init, tail, hlines, htail⟩ := ih
    rw [List.cons_append, lines, hlines]
    by_cases hc : c = nl
    · rw [if_pos hc]
      exact ⟨[c] :: init, tail, rfl, fun h => htail (h.of_append (a := [c]))⟩
    · rw [if_neg hc]
      cases init with
      | nil =>
        refine ⟨[], c :: tail, rfl, fun h => ?_⟩
        -- an ended text would be followed by the line alone
        have hnil := htail (h.of_append (a := [c]))
        rw [hnil] at hlines
        have hflat := flatten_lines nl (a ++ line)
        rw [hlines] at hflat
        have ha : a = [] := by simpa using hflat.symm
        rw [ha] at h
        rcases h with h | h
        · cases h
        · exact absurd (Option.some.inj h) hc
      | cons l ls => exact ⟨(c :: l) :: ls, tail, rfl, fun h => htail (h.of_append (a := [c]))⟩

/-- A line has no lines but itself. -/
theorem lines_of_mem {l : List α} (h : a ∈ lines nl l) : lines nl a = [a] := by
  induction l generalizing a with
  | nil => cases h
  | cons c rest ih =>
    rw [lines] at h
    split at h
    · next hc =>
      obtain rfl | h := List.mem_cons.mp h
      · rw [lines, if_pos hc, lines]
      · exact ih h
    · next hc =>
      split at h
      · rw [List.mem_singleton.mp h, lines, if_neg hc, lines]
      · next first ls hl =>
        obtain rfl | h := List.mem_cons.mp h
        · rw [lines, if_neg hc, ih (hl ▸ List.mem_cons_self)]
        · exact ih (hl ▸ List.mem_cons_of_mem _ h)

/-- Every line but the last one has its line end. -/
theorem getLast?_lines {l : List α} {i : Nat} (h : i + 1 < (lines nl l).length) :
    ((lines nl l).getD i []).getLast? = some nl := by
  induction l generalizing i with
  | nil => cases h
  | cons c rest ih =>
    rw [lines] at h ⊢
    split at h
    · next hc =>
      rw [if_pos hc]
      cases i with
      | zero => rw [hc]; rfl
      | succ i => exact ih (Nat.lt_of_succ_lt_succ h)
    · next hc =>
      rw [if_neg hc]
      split at h
      · exact absurd h (by simp)
      · next first ls hl =>
        cases i with
        | zero =>
          have hfirst := ih (i := 0) (by rw [hl]; exact h)
          rw [hl] at hfirst
          show (c :: first).getLast? = some nl
          rw [List.getLast?_cons, show first.getLast? = some nl from hfirst]
          rfl
        | succ i =>
          have hlater := ih (i := i + 1) (by rw [hl]; exact h)
          rw [hl] at hlater
          exact hlater

/-- Lines as a text is cut into them: each is one line, and all but the last have their line end. -/
structure Lined (nl : α) (ls : List (List α)) : Prop where
  line : ∀ l ∈ ls, lines nl l = [l]
  ended : ∀ i, i + 1 < ls.length → (ls.getD i []).getLast? = some nl

theorem lined_lines (l : List α) : Lined nl (lines nl l) :=
  ⟨fun _ => lines_of_mem, fun _ => getLast?_lines⟩

end Ends

/-! ## Lines that stay -/

section Kept

variable {ls : List (List α)} {rs before behind : List (Splice α)} {i j k high : Nat}

theorem getD_mem (h : i < ls.length) : ls.getD i [] ∈ ls := by
  rw [List.getD_eq_getElem?_getD, List.getElem?_eq_getElem h]
  exact List.getElem_mem h

theorem between_append (hki : k ≤ i) (hij : i ≤ j) : between ls k j = between ls k i ++ between ls i j := by
  unfold between
  rw [show j - k = (i - k) + (j - i) by omega, List.take_add, List.flatten_append, List.drop_drop,
    show k + (i - k) = i by omega]

theorem between_take (hki : k ≤ i) (hij : i ≤ j) :
    (between ls k j).take (lineStart ls i - lineStart ls k) = between ls k i := by
  rw [between_append hki hij, ← length_between hki, List.take_left]

theorem between_drop (hki : k ≤ i) (hij : i ≤ j) :
    (between ls k j).drop (lineStart ls i - lineStart ls k) = between ls i j := by
  rw [between_append hki hij, ← length_between hki, List.drop_left]

theorem between_self : between ls i i = [] := by
  unfold between
  rw [Nat.sub_self, List.take_zero, List.flatten_nil]

theorem between_all : between ls 0 ls.length = ls.flatten := by
  rw [between, List.drop_zero, Nat.sub_zero, List.take_length]

/-- The lines from one to before another, with the ranges up to there replaced. -/
def betweenWith (ls : List (List α)) (rs : List (Splice α)) (i j : Nat) : List α :=
  splice (lineStart ls i) (between ls i j) (rs.filter fun r => decide (r.stop ≤ lineStart ls j))

/-- Ranges in the lines up to a position and behind it are replaced apart. -/
theorem splice_between (hki : k ≤ i) (hij : i ≤ j) (hbefore : Fits (lineStart ls k) (lineStart ls i) before)
    (hbehind : Fits (lineStart ls i) high behind) :
    splice (lineStart ls k) (between ls k j) (before ++ behind) =
      splice (lineStart ls k) (between ls k i) before ++ splice (lineStart ls i) (between ls i j) behind := by
  rw [splice_append hbefore hbehind, between_take hki hij, between_drop hki hij]

/-- A line between the ranges stays. -/
theorem splice_line (hki : k ≤ i) (hij : i < j) (hi : i < ls.length)
    (hbefore : Fits (lineStart ls k) (lineStart ls i) before)
    (hbehind : Fits (lineStart ls (i + 1)) high behind) :
    splice (lineStart ls k) (between ls k j) (before ++ behind) =
      splice (lineStart ls k) (between ls k i) before ++
        (ls.getD i [] ++ splice (lineStart ls (i + 1)) (between ls (i + 1) j) behind) := by
  have hmono : lineStart ls i ≤ lineStart ls (i + 1) := lineStart_mono (Nat.le_succ i)
  have hline : between ls i (i + 1) = ls.getD i [] := by
    rw [between_succ hi, List.getD_eq_getElem?_getD, List.getElem?_eq_getElem hi, Option.getD_some]
  rw [splice_between hki (Nat.le_of_lt hij) hbefore (hbehind.mono hmono)]
  have hnext := @splice_between α ls [] behind (i + 1) j i high (Nat.le_succ i) hij hmono hbehind
  rw [List.nil_append] at hnext
  rw [hnext, hline]
  rfl

variable [DecidableEq α] {nl : α}

theorem Lined.lt (h : Lined nl ls) (hi : i < ls.length) : lineStart ls i < lineStart ls (i + 1) := by
  have hline := h.line _ (getD_mem hi)
  have hne : ls.getD i [] ≠ [] := by
    intro hnil
    rw [hnil] at hline
    cases hline
  have hlength : (between ls i (i + 1)).length = _ := length_between (Nat.le_succ i)
  rw [between_succ hi] at hlength
  rw [List.getD_eq_getElem?_getD, List.getElem?_eq_getElem hi, Option.getD_some] at hne
  have := List.length_pos_iff.mpr hne
  omega

/-- The lines between two of a text end it, if there are any. -/
theorem getLast?_between (hls : Lined nl ls) (hki : k ≤ i) (hi : i < ls.length) :
    (between ls k i).getLast? = if k = i then none else some nl := by
  split
  · next heq =>
    rw [heq, between_self]
    rfl
  · next hne =>
    obtain ⟨j, rfl⟩ : ∃ j, i = j + 1 := ⟨i - 1, by omega⟩
    rw [between_append (show k ≤ j by omega) (Nat.le_succ j), between_succ (by omega), List.getLast?_append]
    have hended := hls.ended j hi
    rw [List.getD_eq_getElem?_getD, List.getElem?_eq_getElem (by omega), Option.getD_some] at hended
    rw [hended, Option.some_or]

/-- What stands before a line is ended, unless the range before the line takes its line end away. -/
theorem ended_betweenWith (hls : Lined nl ls) (hki : k ≤ i) (hi : i < ls.length)
    (hfits : Fits (lineStart ls k) high rs)
    (h : ∀ r ∈ rs, r.stop = lineStart ls i → r.text.getLast? = some nl) : Ended nl (betweenWith ls rs k i) := by
  unfold betweenWith
  have hbetween := getLast?_between hls hki hi
  have hlength : (between ls k i).length = lineStart ls i - lineStart ls k := length_between hki
  have hbefore := hfits.filter fun r => decide (r.stop ≤ lineStart ls i)
  have hstops : ∀ r ∈ rs.filter (fun r => decide (r.stop ≤ lineStart ls i)), r ∈ rs ∧ r.stop ≤ lineStart ls i :=
    fun r hr => ⟨(List.mem_filter.mp hr).1, of_decide_eq_true (List.mem_filter.mp hr).2⟩
  generalize rs.filter (fun r => decide (r.stop ≤ lineStart ls i)) = before at hbefore hstops
  rcases List.eq_nil_or_concat before with rfl | ⟨init, r, hconcat⟩
  · show Ended nl (between ls k i)
    split at hbetween
    · exact .inl (List.getLast?_eq_none_iff.mp hbetween)
    · exact .inr hbetween
  · rw [List.concat_eq_append] at hconcat
    subst hconcat
    obtain ⟨hmem, hstop⟩ := hstops r (by simp)
    have hinit := hbefore.concat.1
    have hle := hinit.le
    have hdef : r.stop = r.start + r.length := rfl
    rw [splice_append hinit (show Fits r.start r.stop [r] from ⟨Nat.le_refl _, Nat.le_refl _⟩), splice, splice,
      List.drop_drop, show r.start - lineStart ls k + (r.stop - r.start) = r.stop - lineStart ls k by omega,
      ← List.append_assoc]
    by_cases hlast : r.stop = lineStart ls i
    · -- the new text stands at the end
      have hnone : (between ls k i).drop (r.stop - lineStart ls k) = [] :=
        List.drop_eq_nil_of_le (by rw [hlength]; omega)
      rw [hnone, List.append_nil, ← List.append_assoc]
      exact ended_append (h r hmem hlast)
    · refine ended_append ?_
      rw [List.getLast?_drop, if_neg (by rw [hlength]; omega), hbetween, if_neg (by rintro rfl; omega)]

/-- Lines that keep off the ranges stand in the result in their order: each at the end of a line, and alone
in it where what stands before it is ended. -/
theorem kept_lines {idxs : List Nat} (hls : Lined nl ls) (hsorted : idxs.Pairwise (· < ·))
    (hidxs : ∀ i ∈ idxs, k ≤ i ∧ i < ls.length) (hfits : Fits (lineStart ls k) ls.flatten.length rs)
    (hin : ∀ r ∈ rs, r.start < ls.flatten.length)
    (hapart : ∀ i ∈ idxs, ∀ r ∈ rs, r.stop ≤ lineStart ls i ∨ lineStart ls (i + 1) ≤ r.start) :
    ∃ outs, outs.Sublist (lines nl (splice (lineStart ls k) (between ls k ls.length) rs)) ∧
      List.Forall₂ (fun i out => ls.getD i [] <:+ out ∧
        (Ended nl (betweenWith ls rs k i) → out = ls.getD i [])) idxs outs := by
  induction idxs generalizing k rs with
  | nil => exact ⟨[], List.nil_sublist _, .nil⟩
  | cons i idxs ih =>
    obtain ⟨hlater, hsorted⟩ := List.pairwise_cons.mp hsorted
    obtain ⟨⟨hki, hi⟩, hidxs⟩ := List.forall_mem_cons.mp hidxs
    obtain ⟨hapartI, hapart⟩ := List.forall_mem_cons.mp hapart
    obtain ⟨heq, hbefore, hbehind⟩ := hfits.split (lineStart_mono hki) (lineStart_le (i + 1)) hapartI
    set before := rs.filter fun r => decide (r.stop ≤ lineStart ls i) with hbeforeDef
    set behind := rs.filter fun r => decide (lineStart ls i < r.stop) with hbehindDef
    have hsub : behind ⊆ rs := List.filter_sublist.subset
    obtain ⟨outs, houts, hall⟩ := ih hsorted (fun j hj => ⟨hlater j hj, (hidxs j hj).2⟩) hbehind
      (fun r hr => hin r (hsub hr)) fun j hj r hr => hapart j hj r (hsub hr)
    have hsplit : ∀ j, i < j →
        betweenWith ls rs k j = betweenWith ls rs k i ++ (ls.getD i [] ++ betweenWith ls behind (i + 1) j) := by
      intro j hij
      have hmono : lineStart ls i ≤ lineStart ls j := lineStart_mono (Nat.le_of_lt hij)
      have hself : before.filter (fun r => decide (r.stop ≤ lineStart ls j)) = before :=
        List.filter_eq_self.mpr fun r hr =>
          decide_eq_true (Nat.le_trans (of_decide_eq_true (List.mem_filter.mp hr).2) hmono)
      unfold betweenWith
      conv_lhs => rw [heq, List.filter_append, hself]
      exact splice_line hki hij hi hbefore (hbehind.filter _)
    have hline := hls.line _ (getD_mem hi)
    obtain ⟨init, tail, hlines, htail⟩ := lines_append_line hline (betweenWith ls rs k i)
    have hwhole : lines nl (splice (lineStart ls k) (between ls k ls.length) rs) =
        init ++ [tail ++ ls.getD i []] ++
          lines nl (splice (lineStart ls (i + 1)) (between ls (i + 1) ls.length) behind) := by
      conv_lhs => rw [heq, splice_line hki hi hi hbefore hbehind, ← List.append_assoc]
      rw [← hlines]
      by_cases hlast : i + 1 < ls.length
      · exact lines_append (ended_append (hls.ended i hlast))
      · -- nothing stands behind the last line
        have hend : i + 1 = ls.length := by omega
        have hnone : behind = [] := by
          refine List.eq_nil_iff_forall_not_mem.mpr fun r hr => ?_
          have hstart := hbehind.le_start hr
          rw [hend, lineStart_of_le (Nat.le_refl _)] at hstart
          exact absurd (hin r (hsub hr)) (Nat.not_lt.mpr hstart)
        rw [hnone, hend, between_self]
        simp only [splice, List.append_nil, lines]
        rfl
    refine ⟨(tail ++ ls.getD i []) :: outs, ?_, .cons ?_ ?_⟩
    · rw [hwhole, List.append_assoc]
      exact (List.Sublist.cons_cons _ houts).trans (List.sublist_append_right _ _)
    · refine ⟨List.suffix_append _ _, fun h => ?_⟩
      rw [htail h, List.nil_append]
    · refine ((List.forall₂_and_left _ _).mpr ⟨hlater, hall⟩).imp fun j out hout => ⟨hout.2.1, fun h => hout.2.2 ?_⟩
      rw [hsplit j hout.1, ← List.append_assoc] at h
      exact h.of_append

end Kept

end Sequences
