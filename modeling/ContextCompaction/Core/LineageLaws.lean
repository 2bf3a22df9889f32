import ContextCompaction.Core.ChunkLaws
import ContextCompaction.Core.Lineage

/-!
# What the lineage lists

* `textTokens_lineageSentence`, `oneLine_lineageSentence`: an opening sentence is short, and on one line.
* `fitLineageTokens_cons`: of the lists that the shrinking passes, the first that fits.
* `Eligible`: which checkpoints are listed, and how. `lineageItem?_iff`: they are those that the code lists.
* `checkpointLineage_spec`: the list of a branch.
-/

namespace Compaction

open Js

/-! ## Sentences -/

/-- A sentence that is cut fits, with the ellipsis. -/
theorem textTokens_cutSentence (sentence : Str) :
    textTokens (cutSentence sentence ++ ELLIPSIS) ≤ LINEAGE_SENTENCE_TOKENS := by
  induction sentence using cutSentence.induct with
  | case1 sentence h ih =>
    rw [cutSentence, if_pos h]
    exact ih
  | case2 sentence h =>
    rw [cutSentence, if_neg h]
    rw [not_and_or, Nat.not_lt, Nat.not_lt] at h
    rcases h with hshort | hfits
    · -- two units are at most six bytes
      have hbytes := byteLength_le (sentence ++ ELLIPSIS)
      have hlength : (sentence ++ ELLIPSIS).length ≤ 2 := by
        rw [List.length_append]
        exact Nat.add_le_add_right hshort 1
      unfold textTokens LINEAGE_SENTENCE_TOKENS
      omega
    · exact hfits

theorem textTokens_lineageSentence (text : Str) : textTokens (lineageSentence text) ≤ LINEAGE_SENTENCE_TOKENS := by
  rw [lineageSentence]
  split_ifs with hfits
  · exact hfits
  · exact textTokens_cutSentence _

theorem oneLine_lineageSentence {text : Str} (h : 0x85 ∉ text) : OneLine (lineageSentence text) := by
  intro u hu
  rcases mem_lineageSentence hu with rfl | rfl | ⟨hmem, hspace⟩
  · rfl
  · rfl
  · by_contra hbreak
    simp only [Bool.not_eq_false, isLineBreak, Bool.or_eq_true, beq_iff_eq] at hbreak
    rcases hbreak with (((rfl | rfl) | rfl) | rfl) | rfl
    · exact absurd hspace (by decide)
    · exact absurd hspace (by decide)
    · exact h hmem
    · exact absurd hspace (by decide)
    · exact absurd hspace (by decide)

/-! ## Shrinking -/

section Shrinking

variable {oldest : CheckpointLineageItem} {rest : List CheckpointLineageItem} {maxTokens : Nat}

theorem shrinkLineage_cons_cons (oldest item : CheckpointLineageItem) (rest : List CheckpointLineageItem) :
    shrinkLineage (oldest :: item :: rest) = oldest :: rest := by
  cases rest with
  | nil => rfl
  | cons item' rest => rfl

/-- The list renders to at most the bound. -/
def LineageFits (maxTokens : Nat) (items : List CheckpointLineageItem) : Prop :=
  textTokens (renderLineage items) ≤ maxTokens

/-- The oldest with as many of the newest as fit, or nothing where it does not fit alone. -/
def LongestLineage (maxTokens : Nat) (oldest : CheckpointLineageItem) (rest items : List CheckpointLineageItem) :
    Prop :=
  (∃ k, k ≤ rest.length ∧ items = oldest :: rest.drop k ∧ LineageFits maxTokens items ∧
      ∀ j < k, ¬ LineageFits maxTokens (oldest :: rest.drop j)) ∨
    (items = [] ∧ ∀ j ≤ rest.length, ¬ LineageFits maxTokens (oldest :: rest.drop j))

/-- The lineage that fits is the longest that keeps the oldest item. -/
theorem fitLineageTokens_cons (maxTokens : Nat) (oldest : CheckpointLineageItem) (rest : List CheckpointLineageItem) :
    LongestLineage maxTokens oldest rest (fitLineageTokens maxTokens (oldest :: rest)) := by
  induction rest with
  | nil =>
    rw [fitLineageTokens]
    by_cases hfits : LineageFits maxTokens [oldest]
    · rw [if_neg fun h => absurd hfits (Nat.not_le.mpr h.2)]
      exact .inl ⟨0, Nat.le_refl 0, rfl, hfits, fun j hj => absurd hj (Nat.not_lt_zero j)⟩
    · rw [if_pos ⟨List.cons_ne_nil _ _, Nat.not_le.mp hfits⟩]
      refine .inr ⟨?_, fun j _ => by rwa [List.drop_nil]⟩
      rw [show shrinkLineage [oldest] = [] from rfl, fitLineageTokens, if_neg fun h => h.1 rfl]
  | cons item rest ih =>
    rw [fitLineageTokens]
    by_cases hfits : LineageFits maxTokens (oldest :: item :: rest)
    · rw [if_neg fun h => absurd hfits (Nat.not_le.mpr h.2)]
      exact .inl ⟨0, Nat.zero_le _, rfl, hfits, fun j hj => absurd hj (Nat.not_lt_zero j)⟩
    · rw [if_pos ⟨List.cons_ne_nil _ _, Nat.not_le.mp hfits⟩, shrinkLineage_cons_cons]
      rcases ih with ⟨k, hk, heq, hfit, hlonger⟩ | ⟨hnil, hnone⟩
      · refine .inl ⟨k + 1, Nat.succ_le_succ hk, heq, hfit, fun j hj => ?_⟩
        cases j with
        | zero => exact hfits
        | succ j => exact hlonger j (Nat.lt_of_succ_lt_succ hj)
      · refine .inr ⟨hnil, fun j hj => ?_⟩
        cases j with
        | zero => exact hfits
        | succ j => exact hnone j (Nat.le_of_succ_le_succ hj)

end Shrinking

/-! ## Anchors -/

/-- The anchor is the last record with text at or before the one that the checkpoint covers last, which is before
the checkpoint. -/
def Anchored (branch : List SessionRecord) (index : Nat) (entry : SessionRecord) (anchor : Str) : Prop :=
  ∃ details coveredThrough covered, entry.details.bind Json.obj? = some details ∧
    strField? details "coveredThrough" = some coveredThrough ∧
    branch.findIdx? (fun item => item.id = coveredThrough) = some covered ∧ covered < index ∧
    ∃ last record, last ≤ covered ∧ branch[last]? = some record ∧ record.id = anchor ∧ sourceText record ≠ [] ∧
      ∀ between record', last < between → between ≤ covered → branch[between]? = some record' →
        sourceText record' = []

/-- A record of a compaction by this method, whose note has a list of state items, with an anchor; and the item
that lists it. -/
structure Eligible (branch : List SessionRecord) (index : Nat) (entry : SessionRecord)
    (item : CheckpointLineageItem) : Prop where
  compaction : entry.type = .compaction
  anchored : Anchored branch index entry item.anchor
  id : item.checkpointId = entry.id
  listed : ∃ details note state, entry.details.bind Json.obj? = some details ∧
    strField? details "kind" = some CONTEXT_MEMORY_KIND ∧ (field details "version").bind count? = some 1 ∧
    (field details "note").bind Json.obj? = some note ∧ (field note "state").bind Json.arr? = some state ∧
    item.state = (state.filterMap fun item => (item.obj?.bind fun fields =>
      strField? fields "text").map lineageSentence).take LINEAGE_ITEMS

/-- The last of the first elements that a predicate holds of. -/
theorem find?_reverse_take {α : Type} {p : α → Bool} {l : List α} {n : Nat} {a : α} :
    (l.take n).reverse.find? p = some a ↔ ∃ i < n, l[i]? = some a ∧ p a = true ∧
      ∀ k b, i < k → k < n → l[k]? = some b → p b = false := by
  induction n with
  | zero => simp
  | succ n ih =>
    rw [List.take_add_one, List.reverse_append, List.find?_append]
    have hlater : ∀ i < n, l[i]? = some a → (∀ b, l[n]? = some b → p b = false) →
        ((∀ k b, i < k → k < n → l[k]? = some b → p b = false) ↔
          ∀ k b, i < k → k < n + 1 → l[k]? = some b → p b = false) := by
      intro i hi _ hn
      refine ⟨fun h k b hik hk hget => ?_, fun h k b hik hk => h k b hik (Nat.lt_succ_of_lt hk)⟩
      rcases Nat.lt_succ_iff_lt_or_eq.mp hk with hk | rfl
      · exact h k b hik hk hget
      · exact hn b hget
    by_cases hfound : ∃ b, l[n]? = some b ∧ p b = true
    · obtain ⟨b, hb, hpb⟩ := hfound
      rw [hb, Option.toList_some, List.reverse_singleton, List.find?_singleton, if_pos hpb, Option.some_or]
      constructor
      · rintro ⟨⟩
        exact ⟨n, Nat.lt_succ_self n, hb, hpb, fun k b hk hk' => by omega⟩
      · rintro ⟨i, hi, hget, -, hnone⟩
        rcases Nat.lt_succ_iff_lt_or_eq.mp hi with hi | rfl
        · exact absurd hpb (by rw [hnone n b hi (Nat.lt_succ_self n) hb]; simp)
        · exact hb.symm.trans hget
    · have hn : ∀ b, l[n]? = some b → p b = false := fun b hb =>
        Bool.eq_false_iff.mpr fun hpb => hfound ⟨b, hb, hpb⟩
      have hnone : l[n]?.toList.reverse.find? p = none := by
        rw [List.find?_eq_none]
        intro b hb
        rw [List.mem_reverse, Option.mem_toList] at hb
        rw [hn b hb]
        simp
      rw [hnone, Option.none_or, ih]
      constructor
      · rintro ⟨i, hi, hget, hp, hrest⟩
        exact ⟨i, Nat.lt_succ_of_lt hi, hget, hp, (hlater i hi hget hn).mp hrest⟩
      · rintro ⟨i, hi, hget, hp, hrest⟩
        rcases Nat.lt_succ_iff_lt_or_eq.mp hi with hi | rfl
        · exact ⟨i, hi, hget, hp, (hlater i hi hget hn).mpr hrest⟩
        · exact absurd hp (by rw [hn a hget]; simp)

/-- The checkpoints that are listed, each with its item. -/
theorem lineageItem?_iff {branch : List SessionRecord} {entry : SessionRecord} {index : Nat}
    {item : CheckpointLineageItem} :
    lineageItem? branch entry index = some item ↔ Eligible branch index entry item := by
  have hlast : ∀ {covered : Nat} {anchor : SessionRecord},
      (branch.take (covered + 1)).reverse.find? (fun item => sourceText item ≠ []) = some anchor ↔
        ∃ last, last ≤ covered ∧ branch[last]? = some anchor ∧ sourceText anchor ≠ [] ∧
          ∀ between record', last < between → between ≤ covered → branch[between]? = some record' →
            sourceText record' = [] := by
    intro covered anchor
    simp [find?_reverse_take]
  simp only [lineageItem?, Option.bind_eq_bind, Option.bind_eq_some_iff, Option.guard_eq_some', hlast]
  constructor
  · rintro ⟨-, hcompaction, details, hdetails, -, hkind, -, hversion, coveredThrough, hcovered, note, hnote, state,
      hstate, covered, hfound, -, hbefore, anchor, ⟨last, hle, hget, htext, hnone⟩, hitem⟩
    obtain rfl := Option.some.inj hitem
    have hdetails := Option.bind_eq_some_iff.mpr hdetails
    exact ⟨hcompaction, ⟨details, coveredThrough, covered, hdetails, hcovered, hfound, hbefore, last, anchor, hle,
      hget, rfl, htext, hnone⟩, rfl, details, note, state, hdetails, hkind, Option.bind_eq_some_iff.mpr hversion,
      Option.bind_eq_some_iff.mpr hnote, Option.bind_eq_some_iff.mpr hstate, rfl⟩
  · rintro ⟨hcompaction, ⟨details, coveredThrough, covered, hdetails, hcovered, hfound, hbefore, last, anchor, hle,
      hget, hid, htext, hnone⟩, hitem, details', note, state, hdetails', hkind, hversion, hnote, hstate, hlisted⟩
    obtain rfl := Option.some.inj (hdetails.symm.trans hdetails')
    refine ⟨(), hcompaction, details, Option.bind_eq_some_iff.mp hdetails, (), hkind, (),
      Option.bind_eq_some_iff.mp hversion, coveredThrough, hcovered, note, Option.bind_eq_some_iff.mp hnote, state,
      Option.bind_eq_some_iff.mp hstate, covered, hfound, (), hbefore, anchor, ⟨last, hle, hget, htext, hnone⟩, ?_⟩
    rw [hid, ← hitem, ← hlisted]
    rfl

/-! ## The list -/

/-- The checkpoints of this method on the branch that have an anchor, in the order of the branch. -/
def eligibleCheckpoints (branch : List SessionRecord) : List CheckpointLineageItem :=
  branch.zipIdx.filterMap fun e => lineageItem? branch e.1 e.2

theorem filterMap_sublist {α β γ : Type} (p : α → Option β) (g : α → γ) (l : List α) :
    (l.filterMap fun e => (p e).map fun _ => g e).Sublist (l.map g) := by
  induction l with
  | nil => exact .slnil
  | cons e l ih =>
    rw [List.filterMap_cons, List.map_cons]
    cases p e with
    | none => exact ih.cons _
    | some b => exact ih.cons_cons _

/-- Items of checkpoints, in the order of the branch. -/
theorem map_eligibleCheckpoints (branch : List SessionRecord) :
    ((eligibleCheckpoints branch).map CheckpointLineageItem.checkpointId).Sublist (branch.map SessionRecord.id) := by
  have hids : (eligibleCheckpoints branch).map CheckpointLineageItem.checkpointId =
      branch.zipIdx.filterMap fun e => (lineageItem? branch e.1 e.2).map fun _ => e.1.id := by
    rw [eligibleCheckpoints, List.map_filterMap]
    refine List.filterMap_congr fun e _ => ?_
    cases hitem : lineageItem? branch e.1 e.2 with
    | none => rfl
    | some item => exact congrArg some (lineageItem?_iff.mp hitem).id
  have hbranch : branch.map SessionRecord.id = branch.zipIdx.map fun e => e.1.id := by
    conv_lhs => rw [← List.zipIdx_map_fst 0 branch, List.map_map]
    rfl
  rw [hids, hbranch]
  exact filterMap_sublist _ _ _

theorem LongestLineage.sublist {maxTokens : Nat} {oldest : CheckpointLineageItem}
    {rest items : List CheckpointLineageItem} (h : LongestLineage maxTokens oldest rest items) :
    items.Sublist (oldest :: rest) := by
  rcases h with ⟨k, -, rfl, -⟩ | ⟨rfl, -⟩
  · exact (List.drop_sublist k rest).cons_cons _
  · exact List.nil_sublist _

/-- The items of the checkpoints that are listed, in the order of the branch. -/
def ListsEligible (branch : List SessionRecord) (items : List CheckpointLineageItem) : Prop :=
  ∃ places : List (Nat × CheckpointLineageItem), places.map Prod.snd = items ∧
    (places.map Prod.fst).Pairwise (· < ·) ∧
    ∀ index item, (index, item) ∈ places ↔ ∃ entry, branch[index]? = some entry ∧ Eligible branch index entry item

/-- The eligible checkpoints are listed once each, oldest first. -/
theorem listsEligible (branch : List SessionRecord) : ListsEligible branch (eligibleCheckpoints branch) := by
  refine ⟨branch.zipIdx.filterMap fun e => (lineageItem? branch e.1 e.2).map (e.2, ·), ?_, ?_, fun index item => ?_⟩
  · rw [eligibleCheckpoints, List.map_filterMap]
    exact List.filterMap_congr fun e _ => by simp
  · have hindices : (branch.zipIdx.map Prod.snd).Pairwise (· < ·) := by
      rw [List.zipIdx_map_snd]
      exact List.pairwise_lt_range'
    refine hindices.sublist ?_
    rw [List.map_filterMap]
    simp only [Option.map_map]
    exact filterMap_sublist _ _ _
  · simp only [List.mem_filterMap, Option.map_eq_some_iff, Prod.mk.injEq, ← lineageItem?_iff]
    constructor
    · rintro ⟨⟨entry, _⟩, hmem, _, hitem, rfl, rfl⟩
      exact ⟨entry, List.mem_zipIdx_iff_getElem?.mp hmem, hitem⟩
    · rintro ⟨entry, hentry, hitem⟩
      exact ⟨(entry, index), List.mem_zipIdx_iff_getElem?.mpr hentry, item, hitem, rfl, rfl⟩

/-- The lineage of a branch has checkpoints in the order of the branch, each anchored on the last readable record that
it covers, renders to at most the bound or is empty, and is the longest list of its kind of all that are listed. An opening
sentence is short and on one line. -/
theorem checkpointLineage_spec :
    (∀ branch maxTokens,
      (checkpointLineage branch maxTokens = [] ∨
        textTokens (renderLineage (checkpointLineage branch maxTokens)) ≤ maxTokens) ∧
      ((checkpointLineage branch maxTokens).map CheckpointLineageItem.checkpointId).Sublist
        (branch.map SessionRecord.id) ∧
      (∀ item ∈ checkpointLineage branch maxTokens, ∃ index entry, branch[index]? = some entry ∧
        item.checkpointId = entry.id ∧ Anchored branch index entry item.anchor) ∧
      ListsEligible branch (eligibleCheckpoints branch) ∧
      match eligibleCheckpoints branch with
      | [] => checkpointLineage branch maxTokens = []
      | oldest :: rest => LongestLineage maxTokens oldest rest (checkpointLineage branch maxTokens)) ∧
    ∀ text, textTokens (lineageSentence text) ≤ 50 ∧ (0x85 ∉ text → OneLine (lineageSentence text)) := by
  refine ⟨fun branch maxTokens => ?_, fun text => ⟨textTokens_lineageSentence text, oneLine_lineageSentence⟩⟩
  have hlineage : checkpointLineage branch maxTokens = fitLineageTokens maxTokens (eligibleCheckpoints branch) := rfl
  cases heligible : eligibleCheckpoints branch with
  | nil =>
    have hnil : checkpointLineage branch maxTokens = [] := by
      rw [hlineage, heligible, fitLineageTokens, if_neg fun h => h.1 rfl]
    rw [hnil]
    exact ⟨.inl rfl, List.nil_sublist _, fun item h => absurd h List.not_mem_nil, heligible ▸ listsEligible branch,
      rfl⟩
  | cons oldest rest =>
    have hlongest : LongestLineage maxTokens oldest rest (checkpointLineage branch maxTokens) := by
      rw [hlineage, heligible]
      exact fitLineageTokens_cons maxTokens oldest rest
    have hsublist := hlongest.sublist
    rw [← heligible] at hsublist
    refine ⟨?_, (hsublist.map _).trans (map_eligibleCheckpoints branch), fun item hitem => ?_,
      heligible ▸ listsEligible branch, hlongest⟩
    · rcases hlongest with ⟨k, -, -, hfits, -⟩ | ⟨hnil, -⟩
      · exact .inr hfits
      · exact .inl hnil
    · obtain ⟨⟨entry, index⟩, hmem, hitem⟩ := List.mem_filterMap.mp (hsublist.subset hitem)
      have hitem := lineageItem?_iff.mp hitem
      exact ⟨index, entry, List.mem_zipIdx_iff_getElem?.mp hmem, hitem.id, hitem.anchored⟩

end Compaction
