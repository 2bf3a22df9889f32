import ContextCompaction.Core.Chunks

/-!
# What the chunks hold

* `nextPart_spec`: a part is not empty, follows what was read, and fits the budget.
* `chunkEntry_spec`: the rounds on one record append its parts, whatever was being filled.
* `chunks_hold_sources`: the chunks hold every record in full, each within the budget.
-/

namespace Compaction

open Js

/-- What a chunk counts for. -/
def chunkTokens (chunk : List SourcePart) : Nat := (chunk.map fun part => textTokens part.text + 100).sum

/-- Parts of a record that cover its text from an offset on, in order. -/
inductive CutUp (entry : SessionRecord) : Nat → List SourcePart → Prop where
  | finished : CutUp entry (sourceText entry).length []
  | part {offset : Nat} {text : Str} {parts : List SourcePart} (hne : text ≠ [])
      (htext : text <+: (sourceText entry).drop offset) (h : CutUp entry (offset + text.length) parts) :
      CutUp entry offset (⟨entry.id, sourceRole entry, offset, text⟩ :: parts)

/-- The chunks that are done and the one being filled fit the budget. -/
structure ChunkState.Fits (st : ChunkState) (tokenBudget : Nat) : Prop where
  chunks : ∀ chunk ∈ st.chunks, chunk ≠ [] ∧ chunkTokens chunk ≤ tokenBudget
  used : st.used = chunkTokens st.chunk
  used_le : st.used ≤ tokenBudget

/-- Every part so far. -/
def ChunkState.parts (st : ChunkState) : List SourcePart := st.chunks.flatten ++ st.chunk

@[simp] theorem ChunkState.parts_yield (st : ChunkState) : st.yield.parts = st.parts := by
  simp [ChunkState.parts, ChunkState.yield]

theorem ChunkState.Fits.yield {st : ChunkState} {tokenBudget : Nat} (h : st.Fits tokenBudget)
    (hne : st.chunk ≠ []) : st.yield.Fits tokenBudget where
  chunks chunk hc := by
    rcases List.mem_append.mp hc with hc | hc
    · exact h.chunks chunk hc
    · obtain rfl := List.mem_singleton.mp hc
      exact ⟨hne, h.used ▸ h.used_le⟩
  used := rfl
  used_le := Nat.zero_le _

section

variable {tokenBudget offset : Nat} {text : Str}

/-- The next part of a text is not empty, starts where the last one ended and fits the budget. -/
theorem nextPart_spec (hbudget : 101 ≤ tokenBudget) (used : Nat) (h : offset < text.length) :
    nextPart tokenBudget used text offset ≠ [] ∧
      nextPart tokenBudget used text offset <+: text.drop offset ∧
      textTokens (nextPart tokenBudget used text offset) + 100 ≤ tokenBudget := by
  have hbig : ∀ part : Str, part.length ≤ 1 →
      (decide (tokenBudget < textTokens part + 100) && decide (1 < part.length)) = false := by
    intro part hpart
    simp [Nat.not_lt.mpr hpart]
  refine ⟨?_, ?_, ?_⟩
  · apply shrink_ne_nil fun u => hbig [u] (Nat.le_refl 1)
    intro hnil
    have hlen := congrArg List.length hnil
    simp only [slice, List.length_take, List.length_drop, List.length_nil] at hlen
    omega
  · exact (prefix_shrink _ _).trans (List.take_prefix _ _)
  · -- A part of one unit fits every budget, so the cut ends with one that fits.
    have hfits : (decide (tokenBudget < textTokens (nextPart tokenBudget used text offset) + 100) &&
        decide (1 < (nextPart tokenBudget used text offset).length)) = false :=
      @big_shrink (fun part =>
        decide (tokenBudget < textTokens part + 100) && decide (1 < part.length))
        (hbig [] (Nat.zero_le 1)) _
    simp only [Bool.and_eq_false_iff, decide_eq_false_iff_not, Nat.not_lt] at hfits
    rcases hfits with hfits | hshort
    · exact hfits
    · have := (textTokens_le_length _).trans hshort
      omega

end

theorem chunkEntry_of_le {tokenBudget fuel offset : Nat} {entry : SessionRecord} {st : ChunkState}
    (h : (sourceText entry).length ≤ offset) : chunkEntry tokenBudget entry fuel offset st = st := by
  cases fuel with
  | zero => rfl
  | succ fuel => rw [chunkEntry, if_neg (Nat.not_lt.mpr h)]

section

variable {tokenBudget : Nat} (hbudget : 101 ≤ tokenBudget) (entry : SessionRecord)
include hbudget

/-- With two rounds for each unit that is left, and one more where a chunk is being filled, the parts
of the rest of the record are appended. -/
theorem chunkEntry_spec (fuel offset : Nat) (st : ChunkState) (hst : st.Fits tokenBudget)
    (hoffset : offset ≤ (sourceText entry).length)
    (hfuel : 2 * ((sourceText entry).length - offset) + 1 ≤ fuel + if st.chunk = [] then 1 else 0) :
    (chunkEntry tokenBudget entry fuel offset st).Fits tokenBudget ∧
      ∃ parts, CutUp entry offset parts ∧
        (chunkEntry tokenBudget entry fuel offset st).parts = st.parts ++ parts := by
  induction fuel generalizing offset st with
  | zero =>
    obtain rfl : offset = (sourceText entry).length := by
      split at hfuel <;> omega
    exact ⟨hst, [], .finished, (List.append_nil _).symm⟩
  | succ fuel ih =>
    unfold chunkEntry
    by_cases hlt : offset < (sourceText entry).length
    · obtain ⟨hne, hprefix, hfits⟩ := nextPart_spec hbudget st.used hlt
      have hle := hprefix.length_le
      rw [List.length_drop] at hle
      have hpos := List.length_pos_of_ne_nil hne
      rw [if_pos hlt]
      dsimp only
      by_cases hfull : tokenBudget < st.used +
          (textTokens (nextPart tokenBudget st.used (sourceText entry) offset) + 100) ∧ st.chunk ≠ []
      · -- The chunk is closed, and the same offset is tried again.
        rw [if_pos hfull]
        have h := ih offset st.yield (hst.yield hfull.2) hoffset (by
          rw [if_neg hfull.2] at hfuel
          rw [if_pos (show st.yield.chunk = [] from rfl)]
          omega)
        rwa [ChunkState.parts_yield] at h
      · rw [if_neg hfull]
        generalize hpart : nextPart tokenBudget st.used (sourceText entry) offset = part at *
        have hfilled : ChunkState.Fits
            { st with
              chunk := st.chunk ++ [⟨entry.id, sourceRole entry, offset, part⟩]
              used := st.used + (textTokens part + 100) } tokenBudget := by
          refine ⟨hst.chunks, by simp [chunkTokens, hst.used], ?_⟩
          by_cases hempty : st.chunk = []
          · have hzero := hst.used
            rw [hempty] at hzero
            simp only [hzero, chunkTokens, List.map_nil, List.sum_nil]
            omega
          · have := not_and'.mp hfull hempty
            exact Nat.not_lt.mp this
        have hclosed : ∀ filled : ChunkState, filled.Fits tokenBudget → filled.chunk ≠ [] →
            (if tokenBudget * 85 < filled.used * 100 then filled.yield else filled).Fits
              tokenBudget := by
          intro filled hf hne
          split
          · exact hf.yield hne
          · exact hf
        have hparts : ∀ filled : ChunkState,
            (if tokenBudget * 85 < filled.used * 100 then filled.yield else filled).parts =
              filled.parts := by
          intro filled
          split
          · exact filled.parts_yield
          · rfl
        obtain ⟨hall, parts, hcovers, heq⟩ := ih (offset + part.length) _
          (hclosed _ hfilled (by simp)) (by omega) (by split <;> split at hfuel <;> omega)
        refine ⟨hall, _, .part hne hprefix hcovers, ?_⟩
        rw [heq, hparts]
        simp [ChunkState.parts]
    · obtain rfl : offset = (sourceText entry).length := by omega
      rw [if_neg (by omega)]
      exact ⟨hst, [], .finished, (List.append_nil _).symm⟩

/-- The rounds on a record end: more of them change nothing. -/
theorem chunkEntry_succ (fuel offset : Nat) (st : ChunkState)
    (hfuel : 2 * ((sourceText entry).length - offset) + 1 ≤ fuel + if st.chunk = [] then 1 else 0) :
    chunkEntry tokenBudget entry (fuel + 1) offset st = chunkEntry tokenBudget entry fuel offset st := by
  induction fuel generalizing offset st with
  | zero =>
    have hge : (sourceText entry).length ≤ offset := by
      split at hfuel <;> omega
    rw [chunkEntry_of_le hge, chunkEntry_of_le hge]
  | succ fuel ih =>
    by_cases hlt : offset < (sourceText entry).length
    · have hpos := List.length_pos_of_ne_nil (nextPart_spec hbudget st.used hlt).1
      conv_lhs => rw [chunkEntry, if_pos hlt]
      conv_rhs => rw [chunkEntry, if_pos hlt]
      dsimp only
      by_cases hfull : tokenBudget < st.used +
          (textTokens (nextPart tokenBudget st.used (sourceText entry) offset) + 100) ∧ st.chunk ≠ []
      · rw [if_pos hfull, if_pos hfull]
        apply ih
        rw [if_neg hfull.2] at hfuel
        rw [if_pos (show st.yield.chunk = [] from rfl)]
        omega
      · rw [if_neg hfull, if_neg hfull]
        apply ih
        split <;> split at hfuel <;> omega
    · rw [chunkEntry_of_le (Nat.not_lt.mp hlt), chunkEntry_of_le (Nat.not_lt.mp hlt)]

/-- The rounds over all records. -/
theorem foldl_chunkEntry_spec (entries : List SessionRecord) (st : ChunkState)
    (hst : st.Fits tokenBudget) :
    let last := entries.foldl (fun st entry =>
      chunkEntry tokenBudget entry (2 * (sourceText entry).length + 1) 0 st) st
    last.Fits tokenBudget ∧ ∃ parts, List.Forall₂ (fun entry => CutUp entry 0) entries parts ∧
      last.parts = st.parts ++ parts.flatten := by
  induction entries generalizing st with
  | nil => exact ⟨hst, [], .nil, by simp⟩
  | cons entry entries ih =>
    obtain ⟨hfits, parts, hcovers, heq⟩ := chunkEntry_spec hbudget entry
      (2 * (sourceText entry).length + 1) 0 st hst (Nat.zero_le _) (by omega)
    obtain ⟨hlast, rest, hall, hrest⟩ := ih _ hfits
    refine ⟨hlast, parts :: rest, .cons hcovers hall, ?_⟩
    rw [List.foldl_cons, hrest, heq, List.flatten_cons, List.append_assoc]

end

/-! ## The parts of a record -/

/-- The parts cover the text: each is not empty and starts where the ones before it end. -/
theorem CutUp.spec {entry : SessionRecord} {offset : Nat} {parts : List SourcePart}
    (h : CutUp entry offset parts) :
    (∀ part ∈ parts, part.entryId = entry.id ∧ part.role = sourceRole entry ∧ part.text ≠ []) ∧
      parts.flatMap SourcePart.text = (sourceText entry).drop offset ∧
      ∀ before part after, parts = before ++ part :: after →
        part.offset = offset + (before.flatMap SourcePart.text).length := by
  induction h with
  | finished => simp
  | @part offset text parts hne htext _ ih =>
    obtain ⟨hsame, hjoin, hoffsets⟩ := ih
    refine ⟨List.forall_mem_cons.mpr ⟨⟨rfl, rfl, hne⟩, hsame⟩, ?_, fun before part after heq => ?_⟩
    · obtain ⟨rest, hrest⟩ := htext
      rw [List.flatMap_cons, hjoin, ← List.drop_drop, ← hrest, List.drop_left]
    · cases before with
      | nil =>
        cases heq
        rfl
      | cons first before =>
        obtain ⟨rfl, htail⟩ := List.cons.inj heq
        rw [hoffsets before part after htail, List.flatMap_cons, List.length_append, Nat.add_assoc]

/-- The rounds on every record end, the chunks hold every record in full and in order, and each of
them fits the budget. -/
theorem chunks_hold_sources (entries : List SessionRecord) {tokenBudget : Nat}
    (hbudget : 2048 ≤ tokenBudget) :
    (∀ entry st fuel, 2 * (sourceText entry).length + 1 ≤ fuel →
      chunkEntry tokenBudget entry fuel 0 st =
        chunkEntry tokenBudget entry (2 * (sourceText entry).length + 1) 0 st) ∧
    (∃ parts : List (List SourcePart),
      (sourceChunks entries tokenBudget).flatten = parts.flatten ∧
      List.Forall₂ (fun entry parts =>
        (∀ part ∈ parts, part.entryId = entry.id ∧ part.role = sourceRole entry) ∧
        parts.flatMap SourcePart.text = sourceText entry ∧
        ∀ before part after, parts = before ++ part :: after →
          part.offset = (before.flatMap SourcePart.text).length) entries parts) ∧
    ∀ chunk ∈ sourceChunks entries tokenBudget, chunk ≠ [] ∧
      (chunk.map fun part => textTokens part.text + 100).sum ≤ tokenBudget := by
  have hone : 101 ≤ tokenBudget := by omega
  obtain ⟨hfits, parts, hcovers, heq⟩ := foldl_chunkEntry_spec hone entries ⟨[], [], 0⟩
    ⟨fun _ h => (nomatch h), rfl, Nat.zero_le _⟩
  unfold sourceChunks
  dsimp only
  generalize entries.foldl (fun st entry =>
    chunkEntry tokenBudget entry (2 * (sourceText entry).length + 1) 0 st) ⟨[], [], 0⟩ = last at *
  refine ⟨fun entry st fuel hfuel => ?_, ⟨parts, ?_, hcovers.imp fun entry parts h => ?_⟩, ?_⟩
  · induction fuel, hfuel using Nat.le_induction with
    | base => rfl
    | succ fuel hle ih => rw [chunkEntry_succ hone entry fuel 0 st (by omega), ih]
  · have hlast : last.parts = parts.flatten := heq
    rw [← hlast]
    split
    case isTrue hnil => rw [ChunkState.parts, hnil, List.append_nil]
    case isFalse => simp [ChunkState.parts]
  · obtain ⟨hsame, hjoin, hoffsets⟩ := h.spec
    refine ⟨fun part hp => ⟨(hsame part hp).1, (hsame part hp).2.1⟩, hjoin, ?_⟩
    intro before part after hp
    rw [hoffsets before part after hp, Nat.zero_add]
  · split
    case isTrue => exact hfits.chunks
    case isFalse hne => exact (hfits.yield hne).chunks

/-- A record whose text is over the budget. -/
def longRecord : SessionRecord :=
  messageRecord (lit "a") [] [] (lit "user") (List.replicate 7000 0x61)

theorem chunks_hold_sources_split :
    (∃ parts : List (List SourcePart), (sourceChunks [longRecord] 2048).flatten = parts.flatten ∧
      parts.length = 1) ∧
    ∀ chunk ∈ sourceChunks [longRecord] 2048,
      chunk ≠ [] ∧ (chunk.map fun part => textTokens part.text + 100).sum ≤ 2048 := by
  obtain ⟨-, ⟨parts, hflatten, hparts⟩, hchunks⟩ :=
    chunks_hold_sources [longRecord] (Nat.le_refl 2048)
  exact ⟨⟨parts, hflatten, hparts.length_eq.symm⟩, hchunks⟩

end Compaction
