import ContextCompaction.Edits.Diff

/-!
# Replacements by groups of lines

* `getReplacementLineRange_covers`: the lines of a replacement, all of which it touches.
* `grouped_foldlM`: the groups that the loop builds.
* `assemble_eq`: what is put together of them.
* `preserving_eq`: the overlay of the original lines with the groups.
-/

namespace Edits

open Js Sequences

variable {content base : Str} {r : TextReplacement} {rs : List TextReplacement}

/-! ## Spans -/

theorem length_spansFrom (offset : Nat) (ls : List Str) : (spansFrom offset ls).length = ls.length := by
  induction ls generalizing offset with
  | nil => rfl
  | cons line rest ih => rw [spansFrom, List.length_cons, List.length_cons, ih]

theorem getElem?_spansFrom (offset : Nat) (ls : List Str) {i : Nat} (hi : i < ls.length) :
    (spansFrom offset ls)[i]? = some ⟨offset + lineStart ls i, offset + lineStart ls (i + 1)⟩ := by
  induction ls generalizing offset i with
  | nil => exact absurd hi (Nat.not_lt_zero _)
  | cons line rest ih =>
    cases i with
    | zero =>
      simp [spansFrom, lineStart]
    | succ i =>
      rw [spansFrom, List.getElem?_cons_succ, ih _ (Nat.lt_of_succ_lt_succ hi)]
      simp only [lineStart, List.take_succ_cons, List.flatten_cons, List.length_append, Nat.add_assoc]

theorem length_getLineSpans (base : Str) : (getLineSpans base).length = (lines lf base).length :=
  length_spansFrom 0 _

theorem getElem?_getLineSpans {i : Nat} (hi : i < (lines lf base).length) :
    (getLineSpans base)[i]? = some ⟨lineStart (lines lf base) i, lineStart (lines lf base) (i + 1)⟩ := by
  have h := getElem?_spansFrom 0 (lines lf base) hi
  rwa [Nat.zero_add, Nat.zero_add] at h

theorem getElem_getLineSpans {i : Nat} (hi : i < (getLineSpans base).length) :
    (getLineSpans base)[i] = ⟨lineStart (lines lf base) i, lineStart (lines lf base) (i + 1)⟩ := by
  have h := getElem?_getLineSpans (length_getLineSpans base ▸ hi)
  rw [List.getElem?_eq_getElem hi] at h
  exact Option.some_inj.mp h

/-! ## Groups -/

/-- A replacement touches each of the lines it is given. -/
theorem getReplacementLineRange_covers {startLine endLine : Nat}
    (h : getReplacementLineRange (getLineSpans base) r = .ok (startLine, endLine)) :
    LineGroup.Covers (lines lf base) ⟨startLine, endLine, [r]⟩ := by
  unfold getReplacementLineRange at h
  split at h
  · cases h
  · next s hs =>
    dsimp only at h
    split at h
    · cases h
    · next hend =>
      obtain ⟨rfl, rfl⟩ : s = startLine ∧ _ = endLine := by simpa using h
      obtain ⟨hlt, hstart, -⟩ := List.findIdx?_eq_some_iff_getElem.mp hs
      rw [decide_eq_true_iff, getElem_getLineSpans hlt] at hstart
      set k := ((getLineSpans base).drop s).findIdx fun line => !decide (line.stop < r.stop) with hk
      have hklt : k < ((getLineSpans base).drop s).length := by
        rw [List.length_drop]
        omega
      have hlast : r.stop ≤ lineStart (lines lf base) (s + k + 1) := by
        have hfound := List.findIdx_getElem (w := hklt)
        rw [List.getElem_drop, getElem_getLineSpans] at hfound
        simpa using hfound
      refine ⟨Nat.lt_succ_of_le (Nat.le_add_right s k), ?_, fun r' hr' => ?_,
        fun i hi hik => ⟨r, List.mem_singleton.mpr rfl, ?_, ?_⟩⟩
      · rw [length_getLineSpans] at hend
        exact Nat.succ_le_of_lt (Nat.not_le.mp hend)
      · rw [List.mem_singleton.mp hr']
        exact ⟨hstart.1, hlast⟩
      · exact Nat.lt_of_lt_of_le hstart.2 (lineStart_mono (Nat.succ_le_succ hi))
      · obtain rfl | hlater := Nat.eq_or_lt_of_le hi
        · exact .inr hstart.1
        · -- the line before ends before the replacement does
          left
          have hik : i < s + k + 1 := hik
          have hlater : s < i := hlater
          have hbefore := List.not_of_lt_findIdx (show i - 1 - s < k by omega)
          rw [List.getElem_drop, getElem_getLineSpans] at hbefore
          have hi' : s + (i - 1 - s) + 1 = i := by omega
          simpa [hi'] using hbefore

/-- A replacement behind the others joins the group it touches or starts its own. -/
theorem addReplacement_grouped {groups groups' : List (LineGroup UInt16)}
    (h : addReplacement (getLineSpans base) groups r = .ok groups')
    (hgroups : Grouped (lines lf base) groups rs) (hrs : ∀ r' ∈ rs, r'.stop ≤ r.start) :
    Grouped (lines lf base) groups' (rs ++ [r]) := by
  unfold addReplacement at h
  obtain ⟨⟨startLine, endLine⟩, hrange, h⟩ := bind_ok.mp h
  have hcovers := getReplacementLineRange_covers hrange
  dsimp only at h
  split at h
  · next current hcurrent =>
    split at h
    · next hlt =>
      obtain rfl := Except.ok.inj h
      rw [← List.dropLast_append_getLast? current hcurrent] at hgroups
      exact hgroups.merge hcovers hlt hrs
    · next hle =>
      obtain rfl := Except.ok.inj h
      refine hgroups.push hcovers fun g hg => ?_
      rw [hcurrent] at hg
      exact Option.some_inj.mp hg ▸ Nat.not_lt.mp hle
  · next hnone =>
    obtain rfl := Except.ok.inj h
    refine hgroups.push hcovers fun g hg => ?_
    rw [hnone] at hg
    cases hg

/-- Replacements in their order, added to groups of those before them, are grouped. -/
theorem grouped_foldlM {groups groups' : List (LineGroup UInt16)} {rs' : List TextReplacement}
    (h : rs'.foldlM (addReplacement (getLineSpans base)) groups = .ok groups')
    (hgroups : Grouped (lines lf base) groups rs)
    (hrs : (rs ++ rs').Pairwise fun r r' => r.stop ≤ r'.start) :
    Grouped (lines lf base) groups' (rs ++ rs') := by
  induction rs' generalizing groups rs with
  | nil =>
    obtain rfl := Except.ok.inj h
    rwa [List.append_nil]
  | cons r rs' ih =>
    rw [List.foldlM_cons] at h
    obtain ⟨groups₁, hadd, h⟩ := bind_ok.mp h
    have hbefore := (List.pairwise_append.mp hrs).2.2
    have hadded := addReplacement_grouped hadd hgroups fun r' hr' => hbefore r' hr' r List.mem_cons_self
    rw [List.append_cons] at hrs ⊢
    exact ih h hadded hrs

/-! ## Putting together -/

theorem applyReplacements_eq {offset : Nat} (h : Fits offset (offset + content.length) rs) :
    applyReplacements content rs offset = splice offset content rs :=
  spliceBack_eq h

/-- The text of a group, with its ranges replaced. -/
theorem applyReplacements_group {g : LineGroup UInt16} (hg : g.Covers (lines lf base))
    (hrs : g.replacements.Pairwise fun r r' => r.stop ≤ r'.start) :
    applyReplacements
        (slice base (((getLineSpans base)[g.startLine]?.map LineSpan.start).getD 0)
          (((getLineSpans base)[g.endLine - 1]?.map LineSpan.stop).getD 0))
        g.replacements (((getLineSpans base)[g.startLine]?.map LineSpan.start).getD 0) =
      splice (lineStart (lines lf base) g.startLine) (between (lines lf base) g.startLine g.endLine)
        g.replacements := by
  have hlt := hg.lt
  have hle := hg.le
  rw [getElem?_getLineSpans (by omega), getElem?_getLineSpans (by omega), Nat.sub_add_cancel (by omega)]
  have hslice : slice base (lineStart (lines lf base) g.startLine) (lineStart (lines lf base) g.endLine) =
      between (lines lf base) g.startLine g.endLine := by
    rw [← take_between (Nat.le_of_lt hlt), flatten_lines, slice]
  have hmono := @lineStart_mono _ (lines lf base) _ _ (Nat.le_of_lt hlt)
  simp only [Option.map_some, Option.getD_some]
  rw [hslice]
  refine applyReplacements_eq (fits_of_pairwise (Nat.le_add_right _ _) hrs fun r hr => ?_)
  rw [length_between (Nat.le_of_lt hlt), Nat.add_sub_cancel' hmono]
  exact hg.inside r hr

/-- The assembled text keeps the original lines outside the groups and splices those in them. -/
theorem assemble_eq {original : List Str} {groups : List (LineGroup UInt16)} {index : Nat} (result : Str)
    (happart : groups.Pairwise fun g g' => g.endLine ≤ g'.startLine)
    (hcovers : ∀ g ∈ groups, g.Covers (lines lf base))
    (hrs : ∀ g ∈ groups, g.replacements.Pairwise fun r r' => r.stop ≤ r'.start)
    (hindex : ∀ g ∈ groups, index ≤ g.startLine) :
    assemble original (getLineSpans base) base index result groups =
      result ++ splice (lineStart original index) (original.drop index).flatten
        (groups.map (LineGroup.over original (lines lf base))) := by
  induction groups generalizing index result with
  | nil => rfl
  | cons g groups ih =>
    obtain ⟨hlater, happart⟩ := List.pairwise_cons.mp happart
    obtain ⟨hg, hcovers⟩ := List.forall_mem_cons.mp hcovers
    obtain ⟨hgrs, hrs⟩ := List.forall_mem_cons.mp hrs
    have hle := hindex g List.mem_cons_self
    have hlt := hg.lt
    have hstart := @lineStart_mono _ original _ _ hle
    have hstop := @lineStart_mono _ original _ _ (Nat.le_trans hle (Nat.le_of_lt hlt))
    rw [assemble, ih _ happart hcovers hrs hlater, List.map_cons, splice, applyReplacements_group hg hgrs,
      LineGroup.stop_over (Nat.le_of_lt hlt)]
    have hfront : (original.drop index).flatten.take (lineStart original g.startLine - lineStart original index) =
        between original index g.startLine := by
      rw [← drop_lineStart, take_between hle]
    have hback : (original.drop index).flatten.drop (lineStart original g.endLine - lineStart original index) =
        (original.drop g.endLine).flatten := by
      rw [← drop_lineStart, List.drop_drop, Nat.add_sub_cancel' hstop, drop_lineStart]
    rw [hback]
    show _ = result ++ ((original.drop index).flatten.take
      (lineStart original g.startLine - lineStart original index) ++ _ ++ _)
    rw [hfront]
    simp only [List.append_assoc]
    rfl

/-- The original lines, those that a replacement touches taken from the base with the replacements made. -/
theorem preserving_eq {new : Str} (h : applyReplacementsPreservingUnchangedLines content base rs = .ok new)
    (hrs : rs.Pairwise fun r r' => r.stop ≤ r'.start) :
    (lines lf content).length = (lines lf base).length ∧
      ∃ groups, Grouped (lines lf base) groups rs ∧ new = overlay (lines lf content) (lines lf base) groups := by
  unfold applyReplacementsPreservingUnchangedLines at h
  dsimp only at h
  split at h
  · cases h
  · next hlength =>
    rw [not_not, length_getLineSpans] at hlength
    have hsorted : rs.insertionSort (fun a b => a.start ≤ b.start) = rs :=
      (hrs.imp fun {a b} hab => Nat.le_trans (Nat.le_add_right a.start a.length) hab).insertionSort_eq
    rw [hsorted] at h
    obtain ⟨groups, hfold, h⟩ := bind_ok.mp h
    have hgrouped := grouped_foldlM hfold grouped_nil hrs
    rw [List.nil_append] at hgrouped
    refine ⟨hlength, groups, hgrouped, ?_⟩
    have hgroups : ∀ g ∈ groups, g.replacements.Pairwise fun r r' => r.stop ≤ r'.start := by
      rw [← hgrouped.all] at hrs
      exact (List.pairwise_flatMap.mp hrs).1
    rw [← Except.ok.inj h, assemble_eq [] hgrouped.apart hgrouped.covers hgroups fun g _ => Nat.zero_le _]
    rfl

end Edits
