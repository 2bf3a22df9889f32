import ContextCompaction.Core.Cuts
import ContextCompaction.Core.Guards

/-!
# Cuts and tool units

A user message stands only where no tool call waits for its result, so a branch that passes
`assertToolPairs` may be divided before any of its user messages.

* `assertToolPairs_split`: both parts pass.
* `chooseCut_mem`, `prefixCut_mem`, `prefixCut_none`: which indices are returned.
* `cuts_keep_units`: a cut stands before a projected user message, behind the newest checkpoint.
-/

namespace Compaction

open Js

variable {μ : Type}

/-- The messages of the message records. -/
def branchMessages (branch : List SessionRecord) : List ReducibleMessage :=
  (branch.filter fun entry => entry.type = .message).map fun entry => reducible entry.message

/-! ## Tool units -/

private theorem assertToolPairs_ok {messages : List ReducibleMessage} :
    assertToolPairs messages = .ok () ↔ messages.foldlM pairStep [] = .ok [] := by
  unfold assertToolPairs
  cases h : messages.foldlM pairStep [] with
  | error e => simp [Except.bind]
  | ok pending => by_cases hp : pending = [] <;> simp [Except.bind, hp]

private theorem pairStep_user {message : ReducibleMessage} (hrole : message.role = lit "user")
    {pending next : List Str} (h : pairStep pending message = .ok next) : pending = [] := by
  by_cases hp : pending = []
  · exact hp
  · simp [pairStep, hrole, hp] at h

/-- No call waits before a user message, so both sides of it are complete. -/
theorem assertToolPairs_split {before after : List ReducibleMessage} {message : ReducibleMessage}
    (hrole : message.role = lit "user")
    (h : assertToolPairs (before ++ message :: after) = .ok ()) :
    assertToolPairs before = .ok () ∧ assertToolPairs (message :: after) = .ok () := by
  rw [assertToolPairs_ok, List.foldlM_append] at h
  obtain ⟨pending, hbefore, hafter⟩ := bind_ok.mp h
  have hstart := hafter
  rw [List.foldlM_cons] at hstart
  obtain ⟨next, hnext, -⟩ := bind_ok.mp hstart
  obtain rfl := pairStep_user hrole hnext
  exact ⟨assertToolPairs_ok.mpr hbefore, assertToolPairs_ok.mpr hafter⟩

/-- A branch may be divided before any user message. -/
theorem assertToolPairs_take_drop {branch : List SessionRecord}
    (h : assertToolPairs (branchMessages branch) = .ok ()) {index : Nat} {entry : SessionRecord}
    (he : branch[index]? = some entry) (hu : entry.isUser = true) :
    assertToolPairs (branchMessages (branch.take index)) = .ok () ∧
      assertToolPairs (branchMessages (branch.drop index)) = .ok () := by
  obtain ⟨hlt, rfl⟩ := List.getElem?_eq_some_iff.mp he
  simp only [SessionRecord.isUser, Bool.and_eq_true, decide_eq_true_eq] at hu
  have hdrop : branchMessages (branch.drop index) =
      reducible branch[index].message :: branchMessages (branch.drop (index + 1)) := by
    rw [List.drop_eq_getElem_cons hlt, branchMessages, List.filter_cons_of_pos (by simpa using hu.1)]
    rfl
  have hsplit : branchMessages branch =
      branchMessages (branch.take index) ++ branchMessages (branch.drop index) := by
    simp only [branchMessages, ← List.map_append, ← List.filter_append, List.take_append_drop]
  rw [hsplit, hdrop] at h
  rw [hdrop]
  exact assertToolPairs_split hu.2 h

/-! ## The newest checkpoint -/

/-- An index behind the newest checkpoint is behind every checkpoint. -/
theorem lastCompactionIndex_all {branch : List SessionRecord} {index : Nat} :
    (lastCompactionIndex branch).all (fun p => decide (p < index)) = true ↔
      ∀ k entry, branch[k]? = some entry → entry.type = .compaction → k < index := by
  unfold lastCompactionIndex
  cases hfind : branch.zipIdx.reverse.find? fun e => e.1.type = .compaction with
  | none =>
    have hnone := List.find?_eq_none.mp hfind
    refine iff_of_true rfl fun k entry he htype => ?_
    exact absurd (by simpa using htype)
      (hnone (entry, k) (List.mem_reverse.mpr (List.mem_zipIdx_iff_getElem?.mpr he)))
  | some found =>
    obtain ⟨last, p⟩ := found
    obtain ⟨htype, newer, older, hsplit, hnewer⟩ := List.find?_eq_some_iff_append.mp hfind
    have hmem : (last, p) ∈ branch.zipIdx :=
      List.mem_reverse.mp (hsplit ▸ List.mem_append_right _ List.mem_cons_self)
    simp only [Option.map_some, Option.all_some, decide_eq_true_eq]
    constructor
    · intro hp k entry he hcompaction
      refine Nat.lt_of_le_of_lt ?_ hp
      -- A checkpoint stands at `p` or before it: the records behind `p` are none.
      have hk : (entry, k) ∈ newer ++ (last, p) :: older :=
        hsplit ▸ List.mem_reverse.mpr (List.mem_zipIdx_iff_getElem?.mpr he)
      rcases List.mem_append.mp hk with hk | hk
      · have := hnewer _ hk
        simp [hcompaction] at this
      · rcases List.mem_cons.mp hk with heq | hk
        · rw [(Prod.mk.inj heq).2]
        · have hsorted : (branch.zipIdx.reverse.map Prod.snd).Pairwise (· > ·) := by
            rw [List.map_reverse, List.pairwise_reverse, List.zipIdx_map_snd]
            exact List.pairwise_lt_range'
          rw [hsplit, List.map_append, List.map_cons, List.pairwise_append] at hsorted
          exact Nat.le_of_lt ((List.pairwise_cons.mp hsorted.2.1).1 k (List.mem_map_of_mem hk))
    · intro h
      exact h p last (List.mem_zipIdx_iff_getElem?.mp hmem) (by simpa using htype)

/-! ## The indices that are returned -/

section

variable {ν : Type} [Zero ν] [Add ν] [LE ν] [DecidableLE ν]

/-- The walk ends at a turn start, whatever the estimates are. -/
theorem cutLoop_mem {messages : SessionRecord → List μ} {estimateTokens : μ → ν}
    {keepRecentTokens : ν} {starts : List Nat} {latest : Nat} (hlatest : latest ∈ starts)
    (accumulated : ν) (walk : List (SessionRecord × Nat)) :
    cutLoop messages estimateTokens keepRecentTokens starts latest accumulated walk ∈ starts := by
  induction walk generalizing accumulated with
  | nil => exact hlatest
  | cons e older ih =>
    obtain ⟨entry, index⟩ := e
    rw [cutLoop]
    by_cases hc : entry.type = .compaction
    · rw [if_pos hc]
      exact ih accumulated
    · rw [if_neg hc]
      dsimp only
      split
      · cases hfind : starts.find? fun s => index ≤ s with
        | none => exact hlatest
        | some s => exact List.mem_of_find?_eq_some hfind
      · exact ih _

/-- A projected user message behind every checkpoint. -/
structure TurnStart (branch : List SessionRecord) (projection : List (ProjectedRecord μ))
    (index : Nat) : Prop where
  turn : ∃ entry, branch[index]? = some entry ∧ entry.isUser = true ∧
    ∃ e ∈ projection, e.sourceEntry.id = entry.id ∧ e.messages ≠ []
  behind : ∀ k entry, branch[k]? = some entry → entry.type = .compaction → k < index

/-- Every index listed as the start of a turn is one. -/
theorem mem_turnStarts {branch : List SessionRecord} {projection : List (ProjectedRecord μ)}
    {index : Nat} (h : index ∈ turnStarts branch fun entry =>
      (mapGet (projectedMessages projection) entry.id).getD []) :
    TurnStart branch projection index := by
  obtain ⟨⟨entry, k⟩, he, rfl⟩ := List.mem_map.mp h
  obtain ⟨hz, hp⟩ := List.mem_filter.mp he
  simp only [Bool.and_eq_true, Bool.not_eq_true', List.isEmpty_eq_false_iff] at hp
  obtain ⟨⟨hlast, hu⟩, hshown⟩ := hp
  refine ⟨⟨entry, List.mem_zipIdx_iff_getElem?.mp hz, hu, ?_⟩, lastCompactionIndex_all.mp hlast⟩
  -- The map holds the messages of some projected record of this ID.
  cases hget : mapGet (projectedMessages projection) entry.id with
  | none => simp [hget] at hshown
  | some shown =>
    rw [hget] at hshown
    rw [projectedMessages, mapGet_mapOf] at hget
    obtain ⟨e, hmem, heq⟩ := List.mem_map.mp (List.mem_reverse.mp (mem_of_mapGet hget))
    obtain ⟨hid, rfl⟩ := Prod.mk.inj heq
    exact ⟨e, hmem, hid, hshown⟩

/-- A positive budget keeps a turn that is in context. -/
theorem chooseCut_mem {estimateTokens : μ → ν} {branch : List SessionRecord} {keepRecentTokens : ν}
    {projection : List (ProjectedRecord μ)} (hkeep : ¬ keepRecentTokens ≤ 0) {index : Nat}
    (h : chooseCut estimateTokens branch keepRecentTokens projection = .ok index) :
    TurnStart branch projection index := by
  unfold chooseCut at h
  rw [if_neg hkeep] at h
  dsimp only at h
  split at h
  · cases h
  · rename_i latest hlatest
    obtain rfl := Except.ok.inj h
    exact mem_turnStarts (cutLoop_mem (List.mem_of_getLast? hlatest) 0 _)

end

private theorem startsTurn_iff {projection : List (ProjectedRecord μ)} {entry : SessionRecord} :
    startsTurn projection entry = true ↔ entry.isUser = true ∧
      ∃ e ∈ projection, e.sourceEntry.id = entry.id ∧ e.messages ≠ [] := by
  simp only [startsTurn, Bool.and_eq_true, List.any_eq_true, Bool.not_eq_true',
    List.isEmpty_eq_false_iff, decide_eq_true_eq]
  constructor
  · rintro ⟨hu, e, he, hm, hid⟩
    exact ⟨hu, e, he, hid, hm⟩
  · rintro ⟨hu, e, he, hid, hm⟩
    exact ⟨hu, e, he, hm, hid⟩

/-- What the search for a prefix cut tests. -/
private theorem prefixTest_iff {branch : List SessionRecord} {projection : List (ProjectedRecord μ)}
    {index : Nat} : ((lastCompactionIndex branch).all (fun p => decide (p < index)) &&
      branch[index]?.any (startsTurn projection)) = true ↔ TurnStart branch projection index := by
  rw [Bool.and_eq_true, lastCompactionIndex_all, Option.any_eq_true]
  constructor
  · rintro ⟨hbehind, entry, he, hs⟩
    obtain ⟨hu, hshown⟩ := startsTurn_iff.mp hs
    exact ⟨⟨entry, he, hu, hshown⟩, hbehind⟩
  · rintro ⟨⟨entry, he, hu, hshown⟩, hbehind⟩
    exact ⟨hbehind, entry, he, startsTurn_iff.mpr ⟨hu, hshown⟩⟩

theorem prefixCut_mem {branch : List SessionRecord} {projection : List (ProjectedRecord μ)}
    {coveredIndex cut index : Nat} (h : prefixCut branch projection coveredIndex cut = some index) :
    TurnStart branch projection index ∧ index ≤ min cut (coveredIndex + 1) := by
  have hmem := List.mem_of_find?_eq_some h
  rw [List.mem_reverse, List.mem_range] at hmem
  have htest := List.find?_some h
  exact ⟨prefixTest_iff.mp htest, by omega⟩

theorem prefixCut_none {branch : List SessionRecord} {projection : List (ProjectedRecord μ)}
    {coveredIndex cut : Nat} (h : prefixCut branch projection coveredIndex cut = none) {index : Nat}
    (hle : index ≤ min cut (coveredIndex + 1)) : ¬ TurnStart branch projection index := by
  have hnone := List.find?_eq_none.mp h index (by rw [List.mem_reverse, List.mem_range]; omega)
  exact fun hturn => hnone (prefixTest_iff.mpr hturn)

/-! ## Safe cuts -/

/-- A turn start that divides no tool unit. -/
structure SafeCut (branch : List SessionRecord) (projection : List (ProjectedRecord μ))
    (index : Nat) : Prop extends TurnStart branch projection index where
  before : assertToolPairs (branchMessages (branch.take index)) = .ok ()
  rest : assertToolPairs (branchMessages (branch.drop index)) = .ok ()

theorem TurnStart.safe {branch : List SessionRecord} {projection : List (ProjectedRecord μ)}
    {index : Nat} (h : TurnStart branch projection index)
    (hpairs : assertToolPairs (branchMessages branch) = .ok ()) : SafeCut branch projection index := by
  obtain ⟨entry, he, hu, -⟩ := h.turn
  obtain ⟨hbefore, hrest⟩ := assertToolPairs_take_drop hpairs he hu
  exact ⟨h, hbefore, hrest⟩

/-- Neither cut splits a tool unit, and a prefix cut releases covered records only; it is missing
only where no such index exists. -/
theorem cuts_keep_units {branch : List SessionRecord}
    (hpairs : assertToolPairs (branchMessages branch) = .ok ())
    (projection : List (ProjectedRecord μ)) :
    (∀ (ν : Type) [Zero ν] [Add ν] [LE ν] [DecidableLE ν] (estimateTokens : μ → ν)
        (keepRecentTokens : ν) (index : Nat), ¬ keepRecentTokens ≤ 0 →
        chooseCut estimateTokens branch keepRecentTokens projection = .ok index →
        SafeCut branch projection index) ∧
      (∀ coveredIndex cut index, prefixCut branch projection coveredIndex cut = some index →
        SafeCut branch projection index ∧ index ≤ min cut (coveredIndex + 1)) ∧
      ∀ coveredIndex cut, prefixCut branch projection coveredIndex cut = none →
        ∀ index ≤ min cut (coveredIndex + 1), ¬ SafeCut branch projection index := by
  refine ⟨?_, ?_, ?_⟩
  · intro ν _ _ _ _ estimateTokens keepRecentTokens index hkeep h
    exact (chooseCut_mem hkeep h).safe hpairs
  · intro coveredIndex cut index h
    obtain ⟨hturn, hle⟩ := prefixCut_mem h
    exact ⟨hturn.safe hpairs, hle⟩
  · intro coveredIndex cut h index hle hsafe
    exact prefixCut_none h hle hsafe.toTurnStart

/-- A question and its answer, then another question. -/
def twoTurns : List SessionRecord :=
  [messageRecord (lit "a") [] [] (lit "user") (lit "one"),
    messageRecord (lit "b") (lit "a") [] (lit "assistant") (lit "two"),
    messageRecord (lit "c") (lit "b") [] (lit "user") (lit "three")]

theorem cuts_keep_units_twoTurns :
    SafeCut twoTurns (twoTurns.map fun entry => ⟨entry, [entry.message]⟩) 2 :=
  (cuts_keep_units (by decide +kernel) _).1 Nat List.length 1 2 (by decide) (by decide +kernel)

end Compaction
