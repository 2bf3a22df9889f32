import Mathlib.Order.Bounds.Basic
import Mathlib.Algebra.BigOperators.Group.List.Basic
import ContextCompaction.Core.CutLaws

/-!
# The budget of a cut

`tokensFrom` is what the records from one on come to. The walk of `chooseCut` stops at the last
record from which the budget is reached.

* `cutLoop_eq`: where the walk stops.
* `chooseCut_longest`: the cut keeps the longest run of complete turns that stays under the budget.
* `chooseCut_antitone`: a larger budget never keeps less.
-/

namespace Compaction

open Js

variable {μ : Type}

/-- What a record contributes to the context: the messages of the last projected record of its ID. -/
def contributed (projection : List (ProjectedRecord μ)) (entry : SessionRecord) : List μ :=
  (mapGet (projectedMessages projection) entry.id).getD []

/-- A user message that is in context, behind the last checkpoint. -/
structure IsStart (branch : List SessionRecord) (projection : List (ProjectedRecord μ))
    (index : Nat) : Prop where
  turn : ∃ entry, branch[index]? = some entry ∧ entry.isUser = true ∧
    contributed projection entry ≠ []
  behind : ∀ k entry, branch[k]? = some entry → entry.type = .compaction → k < index

theorem mem_turnStarts_iff {branch : List SessionRecord} {projection : List (ProjectedRecord μ)}
    {index : Nat} :
    index ∈ turnStarts branch (contributed projection) ↔ IsStart branch projection index := by
  simp only [turnStarts, List.mem_map, List.mem_filter, Bool.and_eq_true, Bool.not_eq_true',
    List.isEmpty_eq_false_iff, Prod.exists, exists_eq_right, List.mem_zipIdx_iff_getElem?,
    lastCompactionIndex_all]
  constructor
  · rintro ⟨entry, he, ⟨hbehind, hu⟩, hshown⟩
    exact ⟨⟨entry, he, hu, hshown⟩, hbehind⟩
  · rintro ⟨⟨entry, he, hu, hshown⟩, hbehind⟩
    exact ⟨entry, he, ⟨hbehind, hu⟩, hshown⟩

theorem pairwise_turnStarts (branch : List SessionRecord) (messages : SessionRecord → List μ) :
    (turnStarts branch messages).Pairwise (· < ·) := by
  refine List.Pairwise.sublist (List.filter_sublist.map Prod.snd) ?_
  rw [List.zipIdx_map_snd]
  exact List.pairwise_lt_range'

/-! ## Tokens -/

section

variable {ν : Type} [Zero ν] [Add ν]

/-- The estimated tokens of the messages that some records contribute, checkpoints left out, summed
from the last record on. -/
def tokensFrom (messages : SessionRecord → List μ) (estimateTokens : μ → ν) :
    List SessionRecord → ν
  | [] => 0
  | entry :: later =>
    if entry.type = .compaction then tokensFrom messages estimateTokens later
    else tokensFrom messages estimateTokens later +
      (messages entry).foldl (fun sum message => sum + estimateTokens message) 0

end

/-- Where the order of the summands does not matter, that is the sum over all messages. -/
theorem tokensFrom_eq_sum {ν : Type} [AddCommMonoid ν] (messages : SessionRecord → List μ)
    (estimateTokens : μ → ν) (records : List SessionRecord) :
    tokensFrom messages estimateTokens records =
      (((records.filter fun entry => entry.type ≠ .compaction).flatMap messages).map
        estimateTokens).sum := by
  have hfold : ∀ (sum : ν) (ms : List μ),
      ms.foldl (fun sum message => sum + estimateTokens message) sum =
        sum + (ms.map estimateTokens).sum := by
    intro sum ms
    induction ms generalizing sum with
    | nil => simp
    | cons m ms ih => rw [List.foldl_cons, ih, List.map_cons, List.sum_cons, add_assoc]
  induction records with
  | nil => rfl
  | cons entry later ih =>
    unfold tokensFrom
    by_cases hc : entry.type = .compaction
    · simp [hc, ih]
    · simp [hc, ih, hfold, add_comm]

/-! ## Where the walk stops -/

section

variable {ν : Type} [Zero ν] [Add ν] [LinearOrder ν]

/-- The budget is reached from this record on, which is no checkpoint. -/
def reaches (messages : SessionRecord → List μ) (estimateTokens : μ → ν) (keepRecentTokens : ν)
    (branch : List SessionRecord) (index : Nat) : Bool :=
  branch[index]?.any (fun entry => entry.type ≠ .compaction) &&
    decide (keepRecentTokens ≤ tokensFrom messages estimateTokens (branch.drop index))

variable {messages : SessionRecord → List μ} {estimateTokens : μ → ν} {keepRecentTokens : ν}
  {branch : List SessionRecord}

/-- The last record from which the budget is reached is the first that the walk meets. -/
theorem cutLoop_eq {starts : List Nat} {latest n : Nat} (hn : n ≤ branch.length) :
    cutLoop messages estimateTokens keepRecentTokens starts latest
        (tokensFrom messages estimateTokens (branch.drop n)) (branch.take n).zipIdx.reverse =
      match (List.range n).reverse.find? (reaches messages estimateTokens keepRecentTokens branch) with
      | some index => (starts.find? fun s => index ≤ s).getD latest
      | none => latest := by
  induction n with
  | zero => rfl
  | succ n ih =>
    have hlt : n < branch.length := hn
    have hwalk : (branch.take (n + 1)).zipIdx.reverse =
        (branch[n], n) :: (branch.take n).zipIdx.reverse := by
      rw [List.take_succ_eq_append_getElem hlt, List.zipIdx_append, List.reverse_append,
        List.length_take, Nat.min_eq_left (Nat.le_of_lt hlt), Nat.zero_add]
      rfl
    have htokens : tokensFrom messages estimateTokens (branch.drop n) =
        if branch[n].type = .compaction then
          tokensFrom messages estimateTokens (branch.drop (n + 1))
        else tokensFrom messages estimateTokens (branch.drop (n + 1)) +
          (messages branch[n]).foldl (fun sum message => sum + estimateTokens message) 0 := by
      rw [List.drop_eq_getElem_cons hlt, tokensFrom]
    have hreach : reaches messages estimateTokens keepRecentTokens branch n =
        (decide (branch[n].type ≠ .compaction) &&
          decide (keepRecentTokens ≤ tokensFrom messages estimateTokens (branch.drop n))) := by
      rw [reaches, List.getElem?_eq_getElem hlt, Option.any_some]
    rw [hwalk, List.range_succ, List.reverse_append, List.reverse_singleton, List.singleton_append,
      List.find?_cons, hreach, cutLoop]
    by_cases hc : branch[n].type = .compaction
    · rw [if_pos hc] at htokens ⊢
      rw [← htokens, ih (Nat.le_of_lt hlt)]
      simp [hc]
    · rw [if_neg hc] at htokens ⊢
      dsimp only
      rw [← htokens]
      by_cases hk : keepRecentTokens ≤ tokensFrom messages estimateTokens (branch.drop n)
      · simp [hc, hk]
      · rw [if_neg hk, ih (Nat.le_of_lt hlt)]
        simp [hc, hk]

/-! ## The cut -/

variable (estimateTokens) (branch) (projection : List (ProjectedRecord μ)) (keepRecentTokens)

/-- `T(index)`. -/
def tokensAt (index : Nat) : ν :=
  tokensFrom (contributed projection) estimateTokens (branch.drop index)

/-- Behind this record the budget is reached from no record on. -/
def StaysUnder (start : Nat) : Prop :=
  ∀ j entry, start < j → branch[j]? = some entry → entry.type ≠ .compaction →
    tokensAt estimateTokens branch projection j < keepRecentTokens

variable {estimateTokens branch projection keepRecentTokens}

/-- The cut is the first start of a turn from the place on where the budget is reached, else the last
start. -/
theorem chooseCut_eq (hkeep : 0 < keepRecentTokens) :
    chooseCut estimateTokens branch keepRecentTokens projection =
      match (turnStarts branch (contributed projection)).getLast? with
      | none => .error (.ofText "CONTEXT_NO_CUT: no source turn is available")
      | some latest => .ok (match (List.range branch.length).reverse.find?
          (reaches (contributed projection) estimateTokens keepRecentTokens branch) with
        | some index => ((turnStarts branch (contributed projection)).find? fun s => index ≤ s).getD latest
        | none => latest) := by
  have hloop := fun latest => @cutLoop_eq μ ν _ _ _ (contributed projection) estimateTokens
    keepRecentTokens branch (turnStarts branch (contributed projection)) latest _
    (Nat.le_refl branch.length)
  simp only [List.drop_length, List.take_length] at hloop
  unfold chooseCut
  rw [if_neg (not_le.mpr hkeep)]
  dsimp only
  change (match (turnStarts branch (contributed projection)).getLast? with
    | none => _
    | some latest => Except.ok (cutLoop (contributed projection) _ _ _ _ _ _)) = _
  split
  · rfl
  · rename_i latest _
    exact congrArg Except.ok (hloop latest)

/-- The last record from which the budget is reached. -/
structure LastReach (estimateTokens : μ → ν) (keepRecentTokens : ν) (branch : List SessionRecord)
    (projection : List (ProjectedRecord μ)) (index : Nat) : Prop where
  record : ∃ entry, branch[index]? = some entry ∧ entry.type ≠ .compaction
  reached : keepRecentTokens ≤ tokensAt estimateTokens branch projection index
  stays : StaysUnder estimateTokens keepRecentTokens branch projection index

theorem reaches_iff {index : Nat} :
    reaches (contributed projection) estimateTokens keepRecentTokens branch index = true ↔
      (∃ entry, branch[index]? = some entry ∧ entry.type ≠ .compaction) ∧
        keepRecentTokens ≤ tokensAt estimateTokens branch projection index := by
  rw [reaches, Bool.and_eq_true, Option.any_eq_true, decide_eq_true_eq]
  simp only [decide_eq_true_eq]
  rfl

/-- The backward search finds the last place from which the budget is reached. -/
theorem lastReach_of_find? {index : Nat} (h : (List.range branch.length).reverse.find?
    (reaches (contributed projection) estimateTokens keepRecentTokens branch) = some index) :
    LastReach estimateTokens keepRecentTokens branch projection index := by
  obtain ⟨hreach, newer, older, hsplit, hnewer⟩ := List.find?_eq_some_iff_append.mp h
  obtain ⟨hrecord, hle⟩ := reaches_iff.mp hreach
  refine ⟨hrecord, hle, fun j entry hj he hc => ?_⟩
  have hlt := (List.getElem?_eq_some_iff.mp he).1
  have hmem : j ∈ newer ++ index :: older := hsplit ▸ by simpa using hlt
  rcases List.mem_append.mp hmem with hmem | hmem
  · have hno := hnewer j hmem
    rw [Bool.not_eq_true', ← Bool.not_eq_true, reaches_iff] at hno
    exact not_le.mp fun hle => hno ⟨⟨entry, he, hc⟩, hle⟩
  · -- The indices behind `index` in the walk are smaller.
    have hsorted : (newer ++ index :: older).Pairwise (· > ·) := by
      rw [← hsplit, List.pairwise_reverse]
      exact List.pairwise_lt_range
    have hbelow := (List.pairwise_cons.mp (List.pairwise_append.mp hsorted).2.1).1
    rcases List.mem_cons.mp hmem with rfl | hmem
    · omega
    · have := hbelow j hmem
      omega

/-- A budget that no record reaches is reached nowhere. -/
theorem tokensAt_lt (hkeep : 0 < keepRecentTokens) (h : ∀ index entry, branch[index]? = some entry →
    entry.type ≠ .compaction → tokensAt estimateTokens branch projection index < keepRecentTokens)
    (index : Nat) : tokensAt estimateTokens branch projection index < keepRecentTokens := by
  by_cases hlt : index < branch.length
  · by_cases hc : branch[index].type = .compaction
    · have hskip : tokensAt estimateTokens branch projection index =
          tokensAt estimateTokens branch projection (index + 1) := by
        rw [tokensAt, List.drop_eq_getElem_cons hlt, tokensFrom, if_pos hc]
        rfl
      rw [hskip]
      exact tokensAt_lt hkeep h (index + 1)
    · exact h index branch[index] (List.getElem?_eq_getElem hlt) hc
  · rw [tokensAt, List.drop_eq_nil_of_le (Nat.not_lt.mp hlt)]
    exact hkeep
termination_by branch.length - index

theorem tokensAt_lt_of_find? (hkeep : 0 < keepRecentTokens)
    (h : (List.range branch.length).reverse.find?
      (reaches (contributed projection) estimateTokens keepRecentTokens branch) = none) (index : Nat) :
    tokensAt estimateTokens branch projection index < keepRecentTokens := by
  refine tokensAt_lt hkeep (fun j entry he hc => ?_) index
  have hno := List.find?_eq_none.mp h j (by simpa using (List.getElem?_eq_some_iff.mp he).1)
  rw [reaches_iff] at hno
  exact not_le.mp fun hle => hno ⟨⟨entry, he, hc⟩, hle⟩

/-! ## Sorted starts -/

theorem isLeast_find? {starts : List Nat} (hs : starts.Pairwise (· < ·)) {p : Nat → Bool} {s : Nat}
    (h : starts.find? p = some s) : IsLeast {s | s ∈ starts ∧ p s = true} s := by
  obtain ⟨hp, before, after, rfl, hbefore⟩ := List.find?_eq_some_iff_append.mp h
  refine ⟨⟨by simp, hp⟩, fun s' ⟨hmem, hp'⟩ => ?_⟩
  rcases List.mem_append.mp hmem with hmem | hmem
  · have := hbefore s' hmem
    simp [hp'] at this
  · rcases List.mem_cons.mp hmem with rfl | hmem
    · exact Nat.le_refl _
    · exact Nat.le_of_lt ((List.pairwise_cons.mp (List.pairwise_append.mp hs).2.1).1 s' hmem)

theorem isGreatest_getLast? {starts : List Nat} (hs : starts.Pairwise (· < ·)) {s : Nat}
    (h : starts.getLast? = some s) : IsGreatest {s | s ∈ starts} s := by
  obtain ⟨before, rfl⟩ := List.getLast?_eq_some_iff.mp h
  refine ⟨by simp, fun s' hmem => ?_⟩
  rcases List.mem_append.mp hmem with hmem | hmem
  · exact Nat.le_of_lt ((List.pairwise_append.mp hs).2.2 s' hmem s List.mem_cons_self)
  · exact Nat.le_of_eq (List.mem_singleton.mp hmem)

/-- Where the cut stands. -/
theorem chooseCut_cases (hkeep : 0 < keepRecentTokens) {cut : Nat}
    (h : chooseCut estimateTokens branch keepRecentTokens projection = .ok cut) :
    (∃ index, LastReach estimateTokens keepRecentTokens branch projection index ∧
      (IsLeast {s | IsStart branch projection s ∧ index ≤ s} cut ∨
        (∀ s, IsStart branch projection s → s < index) ∧
          IsGreatest {s | IsStart branch projection s} cut)) ∨
      (∀ index, tokensAt estimateTokens branch projection index < keepRecentTokens) ∧
        IsGreatest {s | IsStart branch projection s} cut := by
  have hsorted := pairwise_turnStarts branch (contributed projection)
  rw [chooseCut_eq hkeep] at h
  split at h
  case h_1 => cases h
  case h_2 latest hlatest =>
    have hgreatest := isGreatest_getLast? hsorted hlatest
    simp only [mem_turnStarts_iff] at hgreatest
    cases hfind : (List.range branch.length).reverse.find?
        (reaches (contributed projection) estimateTokens keepRecentTokens branch) with
    | none =>
      rw [hfind] at h
      obtain rfl := Except.ok.inj h
      exact .inr ⟨tokensAt_lt_of_find? hkeep hfind, hgreatest⟩
    | some index =>
      rw [hfind] at h
      obtain rfl := Except.ok.inj h
      refine .inl ⟨index, lastReach_of_find? hfind, ?_⟩
      dsimp only
      cases hstart : (turnStarts branch (contributed projection)).find? fun s => index ≤ s with
      | some s =>
        have hleast := isLeast_find? hsorted hstart
        simp only [mem_turnStarts_iff, decide_eq_true_eq] at hleast
        exact .inl hleast
      | none =>
        refine .inr ⟨fun s hs => ?_, hgreatest⟩
        have hno := List.find?_eq_none.mp hstart s (mem_turnStarts_iff.mpr hs)
        simpa using hno

theorem chooseCut_error (hkeep : 0 < keepRecentTokens) :
    (∃ e, chooseCut estimateTokens branch keepRecentTokens projection = .error e) ↔
      ∀ s, ¬ IsStart branch projection s := by
  rw [chooseCut_eq hkeep]
  simp only [← mem_turnStarts_iff]
  cases hlatest : (turnStarts branch (contributed projection)).getLast? with
  | none =>
    rw [List.getLast?_eq_none_iff] at hlatest
    simp [hlatest]
  | some latest =>
    refine iff_of_false ?_ fun hno => hno latest (List.mem_of_getLast? hlatest)
    rintro ⟨e, he⟩
    cases he

/-! ## The longest run of turns -/

variable (estimateTokens keepRecentTokens branch projection) in
/-- The cut keeps the longest run of complete turns that stays under the budget: from its second
record on, the budget is reached nowhere. -/
structure LongestRun (cut : Nat) : Prop where
  reached : (∃ index, keepRecentTokens ≤ tokensAt estimateTokens branch projection index) →
    IsLeast {s | IsStart branch projection s ∧
        StaysUnder estimateTokens keepRecentTokens branch projection s} cut ∨
      (∀ s, IsStart branch projection s →
        ¬ StaysUnder estimateTokens keepRecentTokens branch projection s) ∧
        IsGreatest {s | IsStart branch projection s} cut
  under : (∀ index, tokensAt estimateTokens branch projection index < keepRecentTokens) →
    IsGreatest {s | IsStart branch projection s} cut

/-- The cut keeps the longest run of complete turns that stays under the budget. -/
theorem chooseCut_longest (hkeep : 0 < keepRecentTokens) {cut : Nat}
    (h : chooseCut estimateTokens branch keepRecentTokens projection = .ok cut) :
    LongestRun estimateTokens keepRecentTokens branch projection cut := by
  rcases chooseCut_cases hkeep h with ⟨index, hlast, hcut⟩ | ⟨hunder, hgreatest⟩
  · -- A start stays under the budget exactly where it is not before `index`.
    have hstays : ∀ s, StaysUnder estimateTokens keepRecentTokens branch projection s ↔ index ≤ s := by
      intro s
      obtain ⟨entry, he, hc⟩ := hlast.record
      constructor
      · intro hs
        by_contra hlt
        exact absurd (hs index entry (Nat.not_le.mp hlt) he hc) (not_lt.mpr hlast.reached)
      · exact fun hle j entry hj => hlast.stays j entry (Nat.lt_of_le_of_lt hle hj)
    refine ⟨fun _ => ?_, fun hunder => absurd (hunder index) (not_lt.mpr hlast.reached)⟩
    simp only [hstays]
    rcases hcut with hleast | ⟨hbefore, hgreatest⟩
    · exact .inl hleast
    · exact .inr ⟨fun s hs => Nat.not_le.mpr (hbefore s hs), hgreatest⟩
  · exact ⟨fun ⟨index, hle⟩ => absurd (hunder index) (not_lt.mpr hle), fun _ => hgreatest⟩

/-- Of two budgets that are reached, the larger one is last reached no later. -/
theorem LastReach.le {keepMore : ν} (hle : keepRecentTokens ≤ keepMore) {index indexMore : Nat}
    (h : LastReach estimateTokens keepRecentTokens branch projection index)
    (hmore : LastReach estimateTokens keepMore branch projection indexMore) : indexMore ≤ index := by
  obtain ⟨entry, he, hc⟩ := hmore.record
  by_contra hlt
  have hunder := h.stays indexMore entry (Nat.not_le.mp hlt) he hc
  exact absurd hunder (not_lt.mpr (hle.trans hmore.reached))

/-- A larger budget cuts no later. -/
theorem chooseCut_antitone {keepMore : ν} (hkeep : 0 < keepRecentTokens)
    (hle : keepRecentTokens ≤ keepMore)
    (hreached : ∃ index, keepMore ≤ tokensAt estimateTokens branch projection index) {cut cutMore : Nat}
    (h : chooseCut estimateTokens branch keepRecentTokens projection = .ok cut)
    (hmore : chooseCut estimateTokens branch keepMore projection = .ok cutMore) : cutMore ≤ cut := by
  obtain ⟨reached, hreached⟩ := hreached
  have hstart : IsStart branch projection cut := by
    rcases chooseCut_cases hkeep h with ⟨_, -, hleast | ⟨-, hgreatest⟩⟩ | ⟨-, hgreatest⟩
    · exact hleast.1.1
    · exact hgreatest.1
    · exact hgreatest.1
  rcases chooseCut_cases hkeep h with ⟨index, hlast, hcut⟩ | ⟨hunder, -⟩
  · rcases chooseCut_cases (lt_of_lt_of_le hkeep hle) hmore with
      ⟨indexMore, hlastMore, hcutMore⟩ | ⟨hunder, -⟩
    · have hindex := hlast.le hle hlastMore
      rcases hcut with hleast | ⟨hbefore, hgreatest⟩
      · rcases hcutMore with hleastMore | ⟨hbeforeMore, -⟩
        · exact hleastMore.2 ⟨hstart, hindex.trans hleast.1.2⟩
        · have := hbeforeMore cut hstart
          have := hleast.1.2
          omega
      · -- The smaller budget falls back to the last start.
        rcases hcutMore with hleastMore | ⟨-, hgreatestMore⟩
        · exact hgreatest.2 hleastMore.1.1
        · exact hgreatest.2 hgreatestMore.1
    · exact absurd (hunder reached) (not_lt.mpr hreached)
  · exact absurd (hunder reached) (not_lt.mpr (hle.trans hreached))

/-- `chooseCut` refuses exactly where no turn could be kept, keeps the longest run of complete turns
under its budget, and keeps no less for a larger budget. -/
theorem chooseCut_keeps_turns (estimateTokens : μ → ν) (branch : List SessionRecord)
    (projection : List (ProjectedRecord μ)) :
    (∀ keepRecentTokens, 0 < keepRecentTokens →
      ((∃ e, chooseCut estimateTokens branch keepRecentTokens projection = .error e) ↔
        ∀ s, ¬ IsStart branch projection s) ∧
      ∀ cut, chooseCut estimateTokens branch keepRecentTokens projection = .ok cut →
        LongestRun estimateTokens keepRecentTokens branch projection cut) ∧
    ∀ keepRecentTokens keepMore, 0 < keepRecentTokens → keepRecentTokens ≤ keepMore →
      (∃ index, keepMore ≤ tokensAt estimateTokens branch projection index) →
        ∀ cut cutMore, chooseCut estimateTokens branch keepRecentTokens projection = .ok cut →
          chooseCut estimateTokens branch keepMore projection = .ok cutMore → cutMore ≤ cut :=
  ⟨fun _ hkeep => ⟨chooseCut_error hkeep, fun _ h => chooseCut_longest hkeep h⟩,
    fun _ _ hkeep hle hreached _ _ h hmore => chooseCut_antitone hkeep hle hreached h hmore⟩

/-- Three turns of one token each, kept by budgets of one and two. -/
theorem chooseCut_keeps_turns_sample :
    let branch := [messageRecord (lit "a") [] [] (lit "user") (lit "one"),
      messageRecord (lit "b") (lit "a") [] (lit "user") (lit "two"),
      messageRecord (lit "c") (lit "b") [] (lit "user") (lit "three")]
    let projection := branch.map fun entry => ⟨entry, [entry.message]⟩
    LongestRun (fun _ => 1) 2 branch projection 1 ∧ 1 ≤ 2 := by
  intro branch projection
  have hspec := chooseCut_keeps_turns (fun _ => 1) branch projection
  have hone : chooseCut (fun _ => 1) branch 1 projection = .ok 2 := by decide +kernel
  have htwo : chooseCut (fun _ => 1) branch 2 projection = .ok 1 := by decide +kernel
  exact ⟨(hspec.1 2 (by decide)).2 1 htwo,
    hspec.2 1 2 (by decide) (by decide) ⟨1, by decide +kernel⟩ 2 1 hone htwo⟩

end

end Compaction
