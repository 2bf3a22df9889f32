import ContextCompaction.Core.Checkpoints

/-!
# Lineage

A checkpoint's summary lists the earlier checkpoints of the branch, each as a readable record to search
from and the opening sentences of its state.

* `checkpointLineage`: the list, from the stored checkpoints.
* `checkpointLineage_flat`: no sentence of it contains a line feed.
-/

namespace Compaction

open Js

def LINEAGE_ITEMS : Nat := 3
def LINEAGE_SENTENCE_TOKENS : Nat := 50

/-- `[.!?]` -/
def isAsciiStop (u : UInt16) : Bool := u == 0x2E || u == 0x21 || u == 0x3F

/-- `[。！？]` -/
def isWideStop (u : UInt16) : Bool := u == 0x3002 || u == 0xFF01 || u == 0xFF1F

/-- `…` -/
def ELLIPSIS : Str := [0x2026]

/-- `flat.search(/[.!?]\s|[.!?]$|[。！？]/u)` -/
def sentenceEnd : Str → Option Nat
  | [] => none
  | u :: flat =>
    if isAsciiStop u && flat.head?.all isSpace || isWideStop u then some 0
    else (sentenceEnd flat).map (· + 1)

/-- Cut a sentence to four fifths until it fits. -/
def cutSentence (sentence : Str) : Str :=
  if 1 < sentence.length ∧ LINEAGE_SENTENCE_TOKENS < textTokens (sentence ++ ELLIPSIS) then
    cutSentence (sentence.take (sentence.length * 4 / 5))
  else sentence
termination_by sentence.length
decreasing_by
  rw [List.length_take]
  omega

/-- Opening sentence of a state item, whitespace-flattened and bounded by estimated tokens. -/
def lineageSentence (text : Str) : Str :=
  let flat := trim (replaceRuns isSpace (lit " ") text)
  let sentence := match sentenceEnd flat with
    | some cut => flat.take (cut + 1)
    | none => flat
  if textTokens sentence ≤ LINEAGE_SENTENCE_TOKENS then sentence else cutSentence sentence ++ ELLIPSIS

/-- The checkpoint at a position, as one item of the lineage. -/
def lineageItem? (branch : List SessionRecord) (entry : SessionRecord) (index : Nat) :
    Option CheckpointLineageItem := do
  guard (entry.type = .compaction)
  let details ← entry.details.bind Json.obj?
  guard (strField? details "kind" = some CONTEXT_MEMORY_KIND)
  guard ((field details "version").bind count? = some 1)
  let coveredThrough ← strField? details "coveredThrough"
  let note ← (field details "note").bind Json.obj?
  let state ← (field note "state").bind Json.arr?
  let anchorIndex ← branch.findIdx? fun item => item.id = coveredThrough
  guard (anchorIndex < index)
  -- A thinking or model change can be the leaf at compaction time.
  let anchor ← (branch.take (anchorIndex + 1)).reverse.find? fun item => sourceText item ≠ []
  let sentences := state.filterMap fun item =>
    (item.obj?.bind fun fields => strField? fields "text").map lineageSentence
  pure ⟨entry.id, anchor.id, sentences.take LINEAGE_ITEMS⟩

/-- Remove one item: the oldest and the newest survive longest, the newest goes last. -/
def shrinkLineage (items : List CheckpointLineageItem) : List CheckpointLineageItem :=
  if 2 < items.length then items.take 1 ++ items.drop 2 else items.dropLast

theorem length_shrinkLineage {items : List CheckpointLineageItem} (h : items ≠ []) :
    (shrinkLineage items).length < items.length := by
  have hpos := List.length_pos_iff.mpr h
  unfold shrinkLineage
  split_ifs
  · rw [List.length_append, List.length_take, List.length_drop]
    omega
  · rw [List.length_dropLast]
    omega

theorem mem_shrinkLineage {items : List CheckpointLineageItem} {item : CheckpointLineageItem}
    (h : item ∈ shrinkLineage items) : item ∈ items := by
  unfold shrinkLineage at h
  split_ifs at h
  · rcases List.mem_append.mp h with h | h
    · exact List.mem_of_mem_take h
    · exact List.mem_of_mem_drop h
  · exact List.mem_of_mem_dropLast h

def fitLineageTokens (maxTokens : Nat) (items : List CheckpointLineageItem) : List CheckpointLineageItem :=
  if items ≠ [] ∧ maxTokens < textTokens (renderLineage items) then
    fitLineageTokens maxTokens (shrinkLineage items)
  else items
termination_by items.length
decreasing_by
  exact length_shrinkLineage (And.left ‹_›)

/-- The earlier checkpoints of this method on the branch, oldest first. -/
def checkpointLineage (branch : List SessionRecord) (maxTokens : Nat) : List CheckpointLineageItem :=
  fitLineageTokens maxTokens (branch.zipIdx.filterMap fun e => lineageItem? branch e.1 e.2)

/-! ## One line each -/

theorem cutSentence_shortens (sentence : Str) : cutSentence sentence <+: sentence := by
  induction sentence using cutSentence.induct with
  | case1 sentence h ih =>
    rw [cutSentence, if_pos h]
    exact ih.trans (List.take_prefix _ _)
  | case2 sentence h =>
    rw [cutSentence, if_neg h]

/-- An opening sentence holds units of the text that are no white space, spaces and an ellipsis. -/
theorem mem_lineageSentence {text : Str} {u : UInt16} (h : u ∈ lineageSentence text) :
    u = 0x20 ∨ u = 0x2026 ∨ (u ∈ text ∧ isSpace u = false) := by
  have hflat : u ∈ trim (replaceRuns isSpace (lit " ") text) → u = 0x20 ∨ u = 0x2026 ∨ (u ∈ text ∧ isSpace u = false) := by
    intro h
    have h : u ∈ replaceRuns isSpace (lit " ") text := by
      have h := (List.dropWhile_suffix _).subset (List.mem_reverse.mp h)
      exact (List.dropWhile_suffix _).subset (List.mem_reverse.mp h)
    rcases mem_replaceRuns h with h | h
    · exact .inl (List.mem_singleton.mp h)
    · exact .inr (.inr h)
  rw [lineageSentence] at h
  generalize trim (replaceRuns isSpace (lit " ") text) = flat at h hflat
  have hsentence : u ∈ (match sentenceEnd flat with
      | some cut => flat.take (cut + 1)
      | none => flat) → u ∈ flat := by
    split
    · exact List.mem_of_mem_take
    · exact id
  generalize (match sentenceEnd flat with
      | some cut => flat.take (cut + 1)
      | none => flat) = sentence at h hsentence
  split_ifs at h
  · exact hflat (hsentence h)
  · rcases List.mem_append.mp h with h | h
    · exact hflat (hsentence ((cutSentence_shortens sentence).subset h))
    · exact .inr (.inl (List.mem_singleton.mp h))

/-- No opening sentence contains a line feed. -/
theorem lineageSentence_flat (text : Str) : 0x0A ∉ lineageSentence text := by
  intro h
  rcases mem_lineageSentence h with h | h | ⟨-, h⟩
  · exact absurd h (by decide)
  · exact absurd h (by decide)
  · exact absurd h (by decide)

theorem mem_fitLineageTokens {maxTokens : Nat} {items : List CheckpointLineageItem}
    {item : CheckpointLineageItem} (h : item ∈ fitLineageTokens maxTokens items) : item ∈ items := by
  induction items using fitLineageTokens.induct maxTokens with
  | case1 items hover ih =>
    rw [fitLineageTokens, if_pos hover] at h
    exact mem_shrinkLineage (ih h)
  | case2 items hfits =>
    rwa [fitLineageTokens, if_neg hfits] at h

theorem checkpointLineage_flat {branch : List SessionRecord} {maxTokens : Nat} {item : CheckpointLineageItem}
    (h : item ∈ checkpointLineage branch maxTokens) :
    (∃ record ∈ branch, record.id = item.anchor) ∧ ∀ sentence ∈ item.state, 0x0A ∉ sentence := by
  obtain ⟨e, -, hitem⟩ := List.mem_filterMap.mp (mem_fitLineageTokens h)
  simp only [lineageItem?, Option.bind_eq_bind, Option.bind_eq_some_iff] at hitem
  obtain ⟨-, -, details, -, -, -, -, -, coveredThrough, -, note, -, state, -, anchorIndex, -, -, -, anchor,
    hanchor, hitem⟩ := hitem
  obtain rfl := Option.some.inj hitem
  refine ⟨⟨anchor, List.mem_of_mem_take (List.mem_reverse.mp (List.mem_of_find?_eq_some hanchor)), rfl⟩,
    fun sentence hsentence => ?_⟩
  obtain ⟨value, -, hvalue⟩ := List.mem_filterMap.mp (List.mem_of_mem_take hsentence)
  obtain ⟨text, -, rfl⟩ := Option.map_eq_some_iff.mp hvalue
  exact lineageSentence_flat text

end Compaction
