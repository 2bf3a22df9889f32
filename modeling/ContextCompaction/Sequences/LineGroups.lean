import ContextCompaction.Sequences.KeptLines

/-!
# Ranges and the lines they touch

* `Touches`: a range reaches into a line. A range of no length reaches into the line it lies in.
* `Grouped`: consecutive lines that ranges touch, with these ranges. `Grouped.push` and `Grouped.merge` add the
  next range, in a group of its own or in the last one.
* `overlay`: the lines of one list, those of a group taken from a second list with the ranges replaced there.
* `kept_overlay`, `kept_splice`: the lines that no range touches stay, in their order.
-/

namespace Sequences

variable {α : Type}

/-! ## Ranges -/

/-- The range reaches into the line. -/
def Touches (ls : List (List α)) (i : Nat) (r : Splice α) : Prop :=
  r.start < lineStart ls (i + 1) ∧ (lineStart ls i < r.stop ∨ lineStart ls i ≤ r.start)

instance (ls : List (List α)) (i : Nat) (r : Splice α) : Decidable (Touches ls i r) :=
  inferInstanceAs (Decidable (_ ∧ _))

/-- Consecutive lines and ranges in them. -/
structure LineGroup (α : Type) where
  startLine : Nat
  endLine : Nat
  replacements : List (Splice α)

/-- The ranges lie in the lines, and touch each of them. -/
structure LineGroup.Covers (ls : List (List α)) (g : LineGroup α) : Prop where
  lt : g.startLine < g.endLine
  le : g.endLine ≤ ls.length
  inside : ∀ r ∈ g.replacements, lineStart ls g.startLine ≤ r.start ∧ r.stop ≤ lineStart ls g.endLine
  touched : ∀ i, g.startLine ≤ i → i < g.endLine → ∃ r ∈ g.replacements, Touches ls i r

/-- The ranges, grouped by the lines they touch. -/
structure Grouped (ls : List (List α)) (groups : List (LineGroup α)) (rs : List (Splice α)) : Prop where
  all : groups.flatMap (·.replacements) = rs
  apart : groups.Pairwise fun g g' => g.endLine ≤ g'.startLine
  covers : ∀ g ∈ groups, g.Covers ls

section Groups

variable {ls : List (List α)} {groups : List (LineGroup α)} {g : LineGroup α} {rs : List (Splice α)} {r : Splice α}
  {startLine endLine : Nat}

theorem grouped_nil : Grouped ls [] ([] : List (Splice α)) :=
  ⟨rfl, .nil, fun _ h => absurd h List.not_mem_nil⟩

/-- The next range begins behind the last group. -/
theorem Grouped.push (h : Grouped ls groups rs) (hr : LineGroup.Covers ls ⟨startLine, endLine, [r]⟩)
    (hlast : ∀ g ∈ groups.getLast?, g.endLine ≤ startLine) :
    Grouped ls (groups ++ [⟨startLine, endLine, [r]⟩]) (rs ++ [r]) where
  all := by rw [List.flatMap_append, h.all, List.flatMap_singleton]
  apart := by
    refine List.pairwise_append.mpr ⟨h.apart, List.pairwise_singleton _ _, fun g hg g' hg' => ?_⟩
    rw [List.mem_singleton.mp hg']
    obtain ⟨front, last, hgroups⟩ := (List.eq_nil_or_concat groups).resolve_left (List.ne_nil_of_mem hg)
    rw [List.concat_eq_append] at hgroups
    subst hgroups
    have hle : last.endLine ≤ startLine := hlast last (by simp)
    obtain hg | hg := List.mem_append.mp hg
    · have hg := (List.pairwise_append.mp h.apart).2.2 g hg last (List.mem_singleton.mpr rfl)
      have hlt := (h.covers last (by simp)).lt
      exact Nat.le_trans hg (Nat.le_trans (Nat.le_of_lt hlt) hle)
    · rwa [List.mem_singleton.mp hg]
  covers := List.forall_mem_append.mpr ⟨h.covers, fun g hg => List.mem_singleton.mp hg ▸ hr⟩

/-- The next range begins in the last group. -/
theorem Grouped.merge (h : Grouped ls (groups ++ [g]) rs)
    (hr : LineGroup.Covers ls ⟨startLine, endLine, [r]⟩) (hlt : startLine < g.endLine)
    (hrs : ∀ r' ∈ rs, r'.stop ≤ r.start) :
    Grouped ls (groups ++ [⟨g.startLine, max g.endLine endLine, g.replacements ++ [r]⟩]) (rs ++ [r]) := by
  have hg := h.covers g (by simp)
  obtain ⟨hin, hstop⟩ := hr.inside r (List.mem_singleton.mpr rfl)
  -- the group's first line is touched by a range that ends before this one
  have hfirst : lineStart ls g.startLine ≤ r.start := by
    obtain ⟨r', hr', -⟩ := hg.touched g.startLine (Nat.le_refl _) hg.lt
    have hend := hrs r' (h.all ▸ List.mem_flatMap.mpr ⟨g, by simp, hr'⟩)
    have hdef : r'.stop = r'.start + r'.length := rfl
    have hstart := (hg.inside r' hr').1
    omega
  have hcovers : LineGroup.Covers ls ⟨g.startLine, max g.endLine endLine, g.replacements ++ [r]⟩ := by
    refine ⟨lt_of_lt_of_le hg.lt (Nat.le_max_left _ _), max_le hg.le hr.le, fun r' hr' => ?_, fun i hi hlti => ?_⟩
    · obtain hr' | hr' := List.mem_append.mp hr'
      · exact ⟨(hg.inside r' hr').1, Nat.le_trans (hg.inside r' hr').2 (lineStart_mono (Nat.le_max_left _ _))⟩
      · rw [List.mem_singleton.mp hr']
        exact ⟨hfirst, Nat.le_trans hstop (lineStart_mono (Nat.le_max_right _ _))⟩
    · by_cases hend : i < g.endLine
      · obtain ⟨r', hr', htouch⟩ := hg.touched i hi hend
        exact ⟨r', List.mem_append_left _ hr', htouch⟩
      · have hlti : i < max g.endLine endLine := hlti
        have hlti : i < endLine := by omega
        obtain ⟨r', hr', htouch⟩ := hr.touched i (by show startLine ≤ i; omega) hlti
        exact ⟨r', List.mem_append_right _ hr', htouch⟩
  refine ⟨?_, ?_, List.forall_mem_append.mpr ⟨fun g' hg' => h.covers g' (List.mem_append_left _ hg'), fun g' hg' =>
    List.mem_singleton.mp hg' ▸ hcovers⟩⟩
  · have hall := h.all
    simp only [List.flatMap_append, List.flatMap_singleton] at hall ⊢
    rw [← List.append_assoc, hall]
  · obtain ⟨hpairs, -, hlast⟩ := List.pairwise_append.mp h.apart
    refine List.pairwise_append.mpr ⟨hpairs, List.pairwise_singleton _ _, fun g' hg' last hmem => ?_⟩
    rw [List.mem_singleton.mp hmem]
    exact hlast g' hg' g (List.mem_singleton.mpr rfl)

end Groups

/-! ## Overlay -/

/-- The lines of a group as a range of the first list, with the text of the second one. -/
def LineGroup.over (original base : List (List α)) (g : LineGroup α) : Splice α where
  start := lineStart original g.startLine
  length := lineStart original g.endLine - lineStart original g.startLine
  text := splice (lineStart base g.startLine) (between base g.startLine g.endLine) g.replacements

/-- The lines of the first list, those of the groups from the second one with the ranges replaced. -/
def overlay (original base : List (List α)) (groups : List (LineGroup α)) : List α :=
  splice 0 original.flatten (groups.map (LineGroup.over original base))

/-- The lines that no range touches. -/
def untouched (ls : List (List α)) (rs : List (Splice α)) : List Nat :=
  (List.range ls.length).filter fun i => decide (∀ r ∈ rs, ¬ Touches ls i r)

section Lines

variable {original base ls : List (List α)} {groups : List (LineGroup α)} {g : LineGroup α} {rs : List (Splice α)}

theorem LineGroup.stop_over (h : g.startLine ≤ g.endLine) :
    (g.over original base).stop = lineStart original g.endLine := by
  have := @lineStart_mono α original _ _ h
  show lineStart original g.startLine + (lineStart original g.endLine - lineStart original g.startLine) = _
  omega

theorem Grouped.fits (h : Grouped base groups rs) :
    Fits 0 original.flatten.length (groups.map (LineGroup.over original base)) := by
  refine fits_of_pairwise (Nat.zero_le _) ?_ ?_
  · refine List.pairwise_map.mpr (h.apart.imp_of_mem fun {g g'} hg _ hle => ?_)
    rw [LineGroup.stop_over (Nat.le_of_lt (h.covers g hg).lt)]
    exact lineStart_mono hle
  · intro r hr
    obtain ⟨g, hg, rfl⟩ := List.mem_map.mp hr
    rw [LineGroup.stop_over (Nat.le_of_lt (h.covers g hg).lt)]
    exact ⟨Nat.zero_le _, lineStart_le _⟩

theorem untouched_sorted : (untouched ls rs).Pairwise (· < ·) :=
  List.pairwise_lt_range.filter _

theorem mem_untouched {i : Nat} : i ∈ untouched ls rs ↔ i < ls.length ∧ ∀ r ∈ rs, ¬ Touches ls i r := by
  rw [untouched, List.mem_filter, List.mem_range, decide_eq_true_iff]

/-- Touched lines keep the others off the ranges. -/
theorem apart_of_untouched {i : Nat} (h : i ∈ untouched ls rs) {r : Splice α} (hr : r ∈ rs) :
    r.stop ≤ lineStart ls i ∨ lineStart ls (i + 1) ≤ r.start := by
  have := (mem_untouched.mp h).2 r hr
  unfold Touches at this
  omega

/-- A line that no range touches stands in no group. -/
theorem Grouped.apart_of_untouched (h : Grouped base groups rs) {i : Nat} (hi : i ∈ untouched base rs)
    (hg : g ∈ groups) : g.endLine ≤ i ∨ i < g.startLine := by
  by_contra hin
  rw [not_or, Nat.not_le, Nat.not_lt] at hin
  obtain ⟨r, hr, htouch⟩ := (h.covers g hg).touched i hin.2 hin.1
  exact (mem_untouched.mp hi).2 r (h.all ▸ List.mem_flatMap.mpr ⟨g, hg, hr⟩) htouch

variable [DecidableEq α] {nl : α}

/-- The lines that no range touches stay. -/
theorem kept_splice (hls : Lined nl ls) (h : Fits 0 ls.flatten.length rs)
    (hin : ∀ r ∈ rs, r.start < ls.flatten.length) :
    ∃ outs, outs.Sublist (lines nl (splice 0 ls.flatten rs)) ∧
      List.Forall₂ (fun i out => ls.getD i [] <:+ out ∧
        (Ended nl (betweenWith ls rs 0 i) → out = ls.getD i [])) (untouched ls rs) outs := by
  have hkept := kept_lines (k := 0) hls untouched_sorted (fun i hi => ⟨Nat.zero_le i, (mem_untouched.mp hi).1⟩) h
    hin fun i hi r hr => apart_of_untouched hi hr
  rwa [between_all] at hkept

/-- What the overlay and the second list have before a line ends alike. -/
theorem getLast?_overlay {i k : Nat} (horiginal : Lined nl original) (hbase : Lined nl base)
    (hlength : original.length = base.length) (hi : i < base.length) (hki : k ≤ i)
    (happart : groups.Pairwise fun g g' => g.endLine ≤ g'.startLine) (hcovers : ∀ g ∈ groups, g.Covers base)
    (hrs : (groups.flatMap (·.replacements)).Pairwise fun r r' => r.stop ≤ r'.start)
    (hin : ∀ g ∈ groups, k ≤ g.startLine ∧ g.endLine ≤ i) :
    (splice (lineStart original k) (between original k i) (groups.map (LineGroup.over original base))).getLast? =
      (splice (lineStart base k) (between base k i) (groups.flatMap (·.replacements))).getLast? := by
  induction groups generalizing k with
  | nil =>
    show (between original k i).getLast? = (between base k i).getLast?
    rw [getLast?_between horiginal hki (hlength ▸ hi), getLast?_between hbase hki hi]
  | cons g groups ih =>
    obtain ⟨hlater, happart⟩ := List.pairwise_cons.mp happart
    obtain ⟨hg, hcovers⟩ := List.forall_mem_cons.mp hcovers
    obtain ⟨⟨hstart, hend⟩, hin⟩ := List.forall_mem_cons.mp hin
    have hlt := hg.lt
    rw [List.flatMap_cons] at hrs ⊢
    obtain ⟨hown, hothers, -⟩ := List.pairwise_append.mp hrs
    have hfits : Fits (lineStart base g.startLine) (lineStart base g.endLine) g.replacements :=
      fits_of_pairwise (lineStart_mono (Nat.le_of_lt hlt)) hown hg.inside
    have hrest : Fits (lineStart base g.endLine) (lineStart base i) (groups.flatMap (·.replacements)) := by
      refine fits_of_pairwise (lineStart_mono hend) hothers fun r hr => ?_
      obtain ⟨g', hg', hr⟩ := List.mem_flatMap.mp hr
      have hinside := (hcovers g' hg').inside r hr
      exact ⟨Nat.le_trans (lineStart_mono (hlater g' hg')) hinside.1,
        Nat.le_trans hinside.2 (lineStart_mono (hin g' hg').2)⟩
    have hsecond : splice (lineStart base k) (between base k i)
          (g.replacements ++ groups.flatMap (·.replacements)) =
        between base k g.startLine ++ ((g.over original base).text ++
          splice (lineStart base g.endLine) (between base g.endLine i) (groups.flatMap (·.replacements))) := by
      have hempty : Fits (lineStart base k) (lineStart base g.startLine) ([] : List (Splice α)) :=
        lineStart_mono hstart
      have hfront := splice_between (j := i) hstart (by omega) hempty (hfits.append hrest)
      rw [List.nil_append] at hfront
      rw [hfront, splice_between (Nat.le_of_lt hlt) hend hfits hrest]
      rfl
    have hfirst : splice (lineStart original k) (between original k i)
          ((g :: groups).map (LineGroup.over original base)) =
        between original k g.startLine ++ ((g.over original base).text ++
          splice (lineStart original g.endLine) (between original g.endLine i)
            (groups.map (LineGroup.over original base))) := by
      have hbetween : (between original k i).take ((g.over original base).start - lineStart original k) =
          between original k g.startLine := between_take hstart (by omega)
      rw [List.map_cons, splice, LineGroup.stop_over (Nat.le_of_lt hlt), hbetween,
        between_drop (by omega) hend, List.append_assoc]
    have hboth := ih hend happart hcovers hothers fun g' hg' => ⟨hlater g' hg', (hin g' hg').2⟩
    rw [hfirst, hsecond]
    simp only [List.getLast?_append]
    rw [hboth, getLast?_between horiginal hstart (by omega), getLast?_between hbase hstart (by omega)]

/-- The groups before an untouched line hold the ranges before it. -/
theorem Grouped.before (h : Grouped base groups rs) {i : Nat} (hbase : Lined nl base)
    (hi : i ∈ untouched base rs) :
    rs.filter (fun r => decide (r.stop ≤ lineStart base i)) =
      (groups.filter fun g => decide (g.endLine ≤ i)).flatMap (·.replacements) := by
  have happart : ∀ g ∈ groups, g.endLine ≤ i ∨ i < g.startLine := fun g hg => h.apart_of_untouched hi hg
  have hlt := hbase.lt (mem_untouched.mp hi).1
  have hcovers := h.covers
  rw [← h.all]
  clear h hi
  induction groups with
  | nil => rfl
  | cons g groups ih =>
    obtain ⟨hg, happart⟩ := List.forall_mem_cons.mp happart
    obtain ⟨hinside, hcovers⟩ := List.forall_mem_cons.mp hcovers
    rw [List.flatMap_cons, List.filter_append, ih happart hcovers, List.filter_cons]
    rcases hg with hend | hstart
    · rw [if_pos (decide_eq_true hend), List.flatMap_cons]
      congr 1
      refine List.filter_eq_self.mpr fun r hr => decide_eq_true ?_
      exact Nat.le_trans (hinside.inside r hr).2 (lineStart_mono hend)
    · have hnone : g.replacements.filter (fun r => decide (r.stop ≤ lineStart base i)) = [] := by
        refine List.filter_eq_nil_iff.mpr fun r hr hle => ?_
        have hfirst := (hinside.inside r hr).1
        have hmono : lineStart base (i + 1) ≤ lineStart base g.startLine := lineStart_mono hstart
        have hle := of_decide_eq_true hle
        have hdef : r.stop = r.start + r.length := rfl
        omega
      have hend : ¬ g.endLine ≤ i := by
        have := hinside.lt
        omega
      rw [hnone, List.nil_append, if_neg (by simpa using hend)]

/-- The lines that no range touches stay as they are in the first list. -/
theorem kept_overlay (horiginal : Lined nl original) (hbase : Lined nl base)
    (hlength : original.length = base.length) (h : Grouped base groups rs)
    (hrs : rs.Pairwise fun r r' => r.stop ≤ r'.start) :
    ∃ outs, outs.Sublist (lines nl (overlay original base groups)) ∧
      List.Forall₂ (fun i out => original.getD i [] <:+ out ∧
        (Ended nl (betweenWith base rs 0 i) → out = original.getD i [])) (untouched base rs) outs := by
  have hmem : ∀ i ∈ untouched base rs, i < original.length := fun i hi => hlength ▸ (mem_untouched.mp hi).1
  have hstop : ∀ g ∈ groups, (g.over original base).stop = lineStart original g.endLine := fun g hg =>
    LineGroup.stop_over (Nat.le_of_lt (h.covers g hg).lt)
  have hkept := kept_lines (k := 0) horiginal
    (@untouched_sorted _ base rs) (fun i hi => ⟨Nat.zero_le i, hmem i hi⟩) h.fits (fun r hr => ?_)
    fun i hi r hr => ?_
  · rw [between_all] at hkept
    obtain ⟨outs, houts, hall⟩ := hkept
    refine ⟨outs, houts, ((List.forall₂_and_left _ _).mpr ⟨fun i hi => hi, hall⟩).imp ?_⟩
    rintro i out ⟨hi, hsuffix, hwhole⟩
    refine ⟨hsuffix, fun hended => hwhole ?_⟩
    -- the groups before the line are the same in both lists
    have hbefore : (groups.map (LineGroup.over original base)).filter
          (fun r => decide (r.stop ≤ lineStart original i)) =
        (groups.filter fun g => decide (g.endLine ≤ i)).map (LineGroup.over original base) := by
      rw [List.filter_map]
      congr 1
      refine List.filter_congr fun g hg => decide_eq_decide.mpr ?_
      rw [hstop g hg]
      refine ⟨fun hle => ?_, lineStart_mono⟩
      by_contra hend
      have hstart := (h.apart_of_untouched hi hg).resolve_left hend
      have hlt := (h.covers g hg).lt
      have hnext := horiginal.lt (hmem i hi)
      have hmono : lineStart original (i + 1) ≤ lineStart original g.endLine := lineStart_mono (by omega)
      omega
    rw [betweenWith, h.before hbase hi] at hended
    rw [betweenWith, hbefore, ended_congr (getLast?_overlay horiginal hbase hlength (mem_untouched.mp hi).1
      (Nat.zero_le i) (h.apart.filter _) (fun g hg => h.covers g (List.mem_filter.mp hg).1) ?_ ?_)]
    · exact hended
    · rw [← h.before hbase hi]
      exact hrs.filter _
    · exact fun g hg => ⟨Nat.zero_le _, of_decide_eq_true (List.mem_filter.mp hg).2⟩
  · obtain ⟨g, hg, rfl⟩ := List.mem_map.mp hr
    have hcovers := h.covers g hg
    have hlt := hcovers.lt
    have hle := hcovers.le
    exact Nat.lt_of_lt_of_le (horiginal.lt (i := g.startLine) (by omega)) (lineStart_le _)
  · obtain ⟨g, hg, rfl⟩ := List.mem_map.mp hr
    rw [hstop g hg]
    exact (h.apart_of_untouched hi hg).imp lineStart_mono lineStart_mono

end Lines

end Sequences
