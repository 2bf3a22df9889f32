import Mathlib.Data.List.Forall2
import ContextCompaction.Core.CarriedMessages
import ContextCompaction.Preview.RenderProjection

/-!
# What a projection keeps

* `ShowsFact`, `KeepsEvidence`: what is kept of a fact.
* `LineageSection`, `LinesFolded`: the lineage section of a stored text, and what is kept of it.
* `lineageSection_written`: the section that `renderNote` writes is the one that is found.
* `projectSummary_keeps`: what a projection keeps, with any candidates.
-/

namespace Compaction

open Js Sequences

/-! ## Facts -/

/-- A fact outside the foldable sections, or with a source that does not precede the previous
checkpoint. -/
def KeepsEvidence (branch : List SessionRecord) (entryId : Str) (s : NoteSection) (item : NoteFact) : Prop :=
  s ∉ FOLDABLE_SECTIONS ∨ ∃ id ∈ item.sources, ∀ previous ∈ previousCheckpoint branch entryId,
    ∀ i, (branch.findIdx? fun entry => entry.id = id) = some i → previous ≤ i

/-- A line shows a fact's text, folded at most, and its sources, with a role at most. Without `evidence` it
may leave out the quotation and what the fact supersedes. -/
def ShowsFact (evidence : Prop) (item : NoteFact) (line : Str) : Prop :=
  ∃ text quote sources supersedes,
    line = lit "- " ++ text ++ quote ++ lit " [" ++ join ", " sources ++ lit "]" ++ supersedes ∧
    (text = item.text ∨ text = fold item.text) ∧
    List.Forall₂ (fun id shown => shown = id ∨ ∃ role, shown = id ++ lit " (" ++ role ++ lit ")")
      item.sources sources ∧
    (quote = quoteText item ∧ supersedes = supersedesText item ∨ ¬ evidence ∧ quote = [] ∧ supersedes = [])

theorem renderFact_eq (item : NoteFact) : renderFact item = factLine item id := by
  have hparts : renderFact item = lit "- " ++ item.text ++ quoteText item ++
      (lit " [" ++ join ", " item.sources ++ lit "]" ++ supersedesText item) := rfl
  rw [hparts, factLine, List.map_id]
  simp only [List.append_assoc]

theorem renderNote_eq_headOf (note : MemoryNote) :
    renderNote note [] = headOf note fun s => (note.facts s).map fun item => factLine item id := by
  have hsection : renderSection note = fun s => lit "## " ++ lit s.name ++ lit "\n" ++
      join "\n" ((note.facts s).map fun item => factLine item id) := by
    funext s
    rw [renderSection, show renderFact = fun item => factLine item id from funext renderFact_eq]
  rw [renderNote, headOf, if_pos rfl, List.append_nil, hsection]

/-- A label that keeps the ID. -/
def Labels (label : Str → Str) : Prop := ∀ id, label id = id ∨ ∃ role, label id = id ++ lit " (" ++ role ++ lit ")"

theorem forall₂_labels {label : Str → Str} (h : Labels label) (sources : List Str) :
    List.Forall₂ (fun id shown => shown = id ∨ ∃ role, shown = id ++ lit " (" ++ role ++ lit ")") sources
      (sources.map label) := by
  rw [List.forall₂_map_right_iff, List.forall₂_same]
  exact fun id _ => h id

theorem factLine_shows {label : Str → Str} (h : Labels label) (evidence : Prop) (item : NoteFact) :
    ShowsFact evidence item (factLine item label) :=
  ⟨item.text, quoteText item, _, supersedesText item, rfl, .inl rfl, forall₂_labels h _, .inl ⟨rfl, rfl⟩⟩

theorem foldedFactLine_shows {label : Str → Str} (h : Labels label) {evidence : Prop} (he : ¬ evidence)
    (item : NoteFact) : ShowsFact evidence item (foldedFactLine item label) :=
  ⟨fold item.text, [], _, [], by simp [foldedFactLine], .inr rfl, forall₂_labels h _, .inr ⟨he, rfl, rfl⟩⟩

/-- Only facts all of whose sources precede the previous checkpoint are folded. -/
theorem not_keepsEvidence {branch : List SessionRecord} {entryId : Str} {s : NoteSection} {item : NoteFact}
    (hs : s ∈ FOLDABLE_SECTIONS) (h : foldsBefore branch entryId item = true) :
    ¬ KeepsEvidence branch entryId s item := by
  rintro (hnot | ⟨id, hid, hkeeps⟩)
  · exact hnot hs
  · rw [foldsBefore] at h
    cases hprevious : previousCheckpoint branch entryId with
    | none =>
      rw [hprevious] at h
      cases h
    | some previous =>
      rw [hprevious, Option.any_some, List.all_eq_true] at h
      have hbefore := h id hid
      rw [mapGet_firstPositions] at hbefore
      cases hat : branch.findIdx? fun entry => entry.id = id with
      | none =>
        rw [hat] at hbefore
        cases hbefore
      | some i =>
        rw [hat, Option.any_some, decide_eq_true_eq] at hbefore
        exact Nat.not_le.mpr hbefore (hkeeps previous hprevious i hat)

theorem projectedHead_shows {label : Str → Str} (h : Labels label) (note : MemoryNote)
    (branch : List SessionRecord) (entryId : Str) (fold : Bool) :
    ∃ lines, projectedHead note label (foldsBefore branch entryId) fold = headOf note lines ∧
      ∀ s, List.Forall₂ (fun item line => ShowsFact (KeepsEvidence branch entryId s item) item line)
        (note.facts s) (lines s) := by
  refine ⟨_, rfl, fun s => ?_⟩
  rw [List.forall₂_map_right_iff, List.forall₂_same]
  intro item _
  split_ifs with hfold
  · simp only [Bool.and_eq_true, decide_eq_true_eq] at hfold
    exact foldedFactLine_shows h (not_keepsEvidence hfold.1.2 hfold.2) item
  · exact factLine_shows h _ item

/-! ## Sentences -/

/-- The sentences of a text add up to the text. -/
theorem join_splitSentences (before : Option UInt16) (text : Str) :
    splitSentences before text ≠ [] ∧ join " " (splitSentences before text) = text := by
  induction text generalizing before with
  | nil => exact ⟨by simp [splitSentences], rfl⟩
  | cons u text ih =>
    obtain ⟨hne, hjoin⟩ := ih (some u)
    obtain ⟨sentence, rest, hsplit⟩ := List.exists_cons_of_ne_nil hne
    rw [splitSentences]
    split_ifs with hspace
    · refine ⟨by simp, ?_⟩
      rw [hsplit] at hjoin ⊢
      rw [join_cons_cons, hjoin, hspace.1]
      rfl
    · rw [hsplit] at hjoin ⊢
      refine ⟨by simp, ?_⟩
      rw [← hjoin]
      cases rest with
      | nil => rfl
      | cons => rw [join_cons_cons, join_cons_cons]; rfl

theorem unseen_sublist (seen xs : List Str) : List.Sublist (unseen seen xs) xs := by
  induction xs generalizing seen with
  | nil => exact .slnil
  | cons x xs ih =>
    rw [unseen]
    split_ifs
    · exact (ih seen).cons x
    · exact (ih _).cons_cons x

/-- A sentence is left out only if it was seen. -/
theorem mem_unseen {seen xs : List Str} {x : Str} (h : x ∈ xs) : x ∈ seen ++ unseen seen xs := by
  induction xs generalizing seen with
  | nil => cases h
  | cons y xs ih =>
    rw [unseen]
    split_ifs with hy
    · rcases List.mem_cons.mp h with rfl | h
      · exact List.mem_append_left _ hy
      · exact ih h
    · rcases List.mem_cons.mp h with rfl | h
      · simp
      · simpa using @ih (seen ++ [y]) h

theorem unseen_eq_self {seen xs : List Str} (h : (seen ++ xs).Nodup) : unseen seen xs = xs := by
  induction xs generalizing seen with
  | nil => rfl
  | cons x xs ih =>
    have hx : x ∉ seen := fun hx => (List.nodup_append.mp h).2.2 x hx x List.mem_cons_self rfl
    rw [unseen, if_neg hx, ih (by simpa using h)]

/-! ## Lines -/

/-- An item of the lineage. -/
def itemLine (anchor text : Str) : Str := LINEAGE_ITEM_START ++ anchor ++ lit ": " ++ text

/-- The anchor ends at the first colon with a space. -/
def IsAnchor (anchor text : Str) : Prop := indexFrom (itemLine anchor text) (lit ": ") LINEAGE_ITEM_START.length =
  some (LINEAGE_ITEM_START ++ anchor).length

/-- Lines keep their places, and items their anchors. A sentence of an item is left out only if it is shown
before, by this item or an earlier one. -/
inductive LinesFolded : List Str → List Str → List Str → Prop
  | nil {shown : List Str} : LinesFolded shown [] []
  | same {shown lines lines' : List Str} {line : Str} (h : LinesFolded shown lines lines') :
      LinesFolded shown (line :: lines) (line :: lines')
  | item {shown lines lines' kept : List Str} {anchor text : Str} (hanchor : IsAnchor anchor text)
      (hkept : List.Sublist kept (splitSentences none text))
      (hshown : ∀ sentence ∈ splitSentences none text, sentence ∈ shown ++ kept)
      (h : LinesFolded (shown ++ kept) lines lines') :
      LinesFolded shown (itemLine anchor text :: lines)
        (itemLine anchor (if kept = [] then LINEAGE_REPEAT else join " " kept) :: lines')

/-- The sentences of a line that is an item. -/
def itemSentences (line : Str) : List Str :=
  if LINEAGE_ITEM_START <+: line then
    (indexFrom line (lit ": ") LINEAGE_ITEM_START.length).elim [] fun separator =>
      splitSentences none (line.drop (separator + 2))
  else []

/-- A line that is no item, or an item with its anchor. -/
theorem foldLine_cases (seen : List Str) (line : Str) :
    (foldLine seen line = (seen, line) ∧ itemSentences line = []) ∨
    ∃ anchor text, IsAnchor anchor text ∧ line = itemLine anchor text ∧
      itemSentences line = splitSentences none text ∧
      foldLine seen line = (seen ++ unseen seen (splitSentences none text), itemLine anchor
        (if unseen seen (splitSentences none text) = [] then LINEAGE_REPEAT
          else join " " (unseen seen (splitSentences none text)))) := by
  rw [foldLine, itemSentences]
  by_cases hstart : LINEAGE_ITEM_START <+: line
  · rw [if_neg (not_not.mpr hstart), if_pos hstart]
    obtain ⟨rest, rfl⟩ := hstart
    cases hseparator : indexFrom (LINEAGE_ITEM_START ++ rest) (lit ": ") LINEAGE_ITEM_START.length with
    | none => exact .inl ⟨rfl, rfl⟩
    | some separator =>
      obtain ⟨hle, -, text, htext⟩ := indexFrom_some hseparator
      have hcut : (LINEAGE_ITEM_START ++ rest).take separator =
          LINEAGE_ITEM_START ++ rest.take (separator - LINEAGE_ITEM_START.length) := by
        rw [List.take_append, List.take_of_length_le hle]
      have hline : LINEAGE_ITEM_START ++ rest =
          itemLine (rest.take (separator - LINEAGE_ITEM_START.length)) text := by
        rw [itemLine, ← hcut, List.append_assoc, htext, List.take_append_drop]
      have hdrop : (LINEAGE_ITEM_START ++ rest).drop (separator + 2) = text := by
        rw [← List.drop_drop, ← htext]
        rfl
      refine .inr ⟨_, text, ?_, hline, ?_, ?_⟩
      · rw [IsAnchor, ← hline, hseparator, ← hcut, List.length_take, Nat.min_eq_left]
        exact (indexFrom_some hseparator).2.1
      · rw [Option.elim_some, hdrop]
      · dsimp only
        rw [hdrop, hcut]
        rfl
  · rw [if_pos hstart, if_neg hstart]
    exact .inl ⟨rfl, rfl⟩

theorem foldLines_folded (seen lines : List Str) : LinesFolded seen lines (foldLines seen lines) := by
  induction lines generalizing seen with
  | nil => exact .nil
  | cons line lines ih =>
    rw [foldLines]
    obtain ⟨hsame, -⟩ | ⟨anchor, text, hanchor, rfl, -, hfold⟩ := foldLine_cases seen line
    · rw [hsame]
      exact .same (ih seen)
    · rw [hfold]
      exact .item hanchor (unseen_sublist _ _) (fun _ h => mem_unseen h) (ih _)

example : foldLines [] [itemLine (lit "a") (lit "One. Two."), itemLine (lit "b") (lit "Two. Three."),
    itemLine (lit "c") (lit "One.")] = [itemLine (lit "a") (lit "One. Two."),
      itemLine (lit "b") (lit "Three."), itemLine (lit "c") (lit "(state as above)")] := by
  decide +kernel

/-- Without a repeated sentence nothing is folded. -/
theorem foldLines_eq_self {seen lines : List Str} (h : (seen ++ lines.flatMap itemSentences).Nodup) :
    foldLines seen lines = lines := by
  induction lines generalizing seen with
  | nil => rfl
  | cons line lines ih =>
    rw [foldLines]
    rw [List.flatMap_cons, ← List.append_assoc] at h
    obtain ⟨hsame, hnone⟩ | ⟨anchor, text, -, rfl, hsentences, hfold⟩ := foldLine_cases seen line
    · rw [hnone, List.append_nil] at h
      rw [hsame, ih h]
    · rw [hsentences] at h
      obtain ⟨hne, hjoin⟩ := join_splitSentences none text
      rw [hfold, unseen_eq_self (List.nodup_append.mp h).1, ih h, if_neg hne, hjoin]

/-! ## The lineage section -/

/-- The first lineage section of a text: it ends where the next section starts. -/
structure LineageSection (tail before body after : Str) : Prop where
  text : tail = before ++ LINEAGE_START ++ body ++ after
  first : ∀ i < before.length, ¬ LINEAGE_START <+: tail.drop i
  ends : after = [] ∨ SECTION_BOUNDARY <+: after
  inside : ∀ i < body.length, ¬ SECTION_BOUNDARY <+: (body ++ after).drop i

/-- Folding rewrites the lines of the lineage section and nothing else. -/
theorem foldLineage_section {tail before body after : Str} (h : LineageSection tail before body after) :
    foldLineage tail = before ++ LINEAGE_START ++ join "\n" (foldLines [] (body.splitOn 0x0A)) ++ after := by
  have hstart : indexFrom tail LINEAGE_START 0 = some before.length := by
    rw [indexFrom_eq_some]
    refine ⟨⟨Nat.zero_le _, ?_, ?_⟩, fun j _ hj => h.first j hj⟩
    · rw [h.text]
      simp only [List.length_append]
      omega
    · rw [h.text, List.append_assoc, List.append_assoc, List.drop_left]
      exact List.prefix_append _ _
  have hdrop : ∀ i, tail.drop (before.length + LINEAGE_START.length + i) = (body ++ after).drop i := by
    intro i
    rw [h.text, List.append_assoc _ body, ← List.drop_drop, ← List.length_append, List.drop_left]
  have hlength : tail.length = before.length + LINEAGE_START.length + (body ++ after).length := by
    rw [h.text]
    simp only [List.length_append]
    omega
  have hend : (indexFrom tail SECTION_BOUNDARY (before.length + LINEAGE_START.length)).getD tail.length =
      before.length + LINEAGE_START.length + body.length := by
    have hinside : ∀ j, before.length + LINEAGE_START.length ≤ j →
        j < before.length + LINEAGE_START.length + body.length → ¬ SECTION_BOUNDARY <+: tail.drop j := by
      intro j hle hlt
      have := h.inside (j - (before.length + LINEAGE_START.length)) (by omega)
      rwa [← hdrop, Nat.add_sub_cancel' hle] at this
    rw [List.length_append] at hlength
    rcases h.ends with hnil | hboundary
    · have hnone : indexFrom tail SECTION_BOUNDARY (before.length + LINEAGE_START.length) = none := by
        refine indexFrom_eq_none.mpr fun j hle hj => ?_
        rw [hnil, List.length_nil] at hlength
        rcases Nat.lt_or_ge j (before.length + LINEAGE_START.length + body.length) with hlt | hge
        · exact hinside j hle hlt
        · rw [List.drop_of_length_le (by omega)]
          exact fun hpre => absurd (List.prefix_nil.mp hpre) (by decide)
      rw [hnone, Option.getD_none, hlength, hnil]
      rfl
    · have hsome : indexFrom tail SECTION_BOUNDARY (before.length + LINEAGE_START.length) =
          some (before.length + LINEAGE_START.length + body.length) := by
        refine indexFrom_eq_some.mpr ⟨⟨by omega, by omega, ?_⟩, hinside⟩
        rw [hdrop, List.drop_left]
        exact hboundary
      rw [hsome, Option.getD_some]
  have htake : tail.take (before.length + LINEAGE_START.length) = before ++ LINEAGE_START := by
    rw [h.text, List.append_assoc _ body, ← List.length_append, List.take_left]
  have hbody : slice tail (before.length + LINEAGE_START.length)
      (before.length + LINEAGE_START.length + body.length) = body := by
    rw [slice, Nat.add_sub_cancel_left, ← Nat.add_zero (before.length + LINEAGE_START.length), hdrop,
      List.drop_zero, List.take_left]
  rw [foldLineage, hstart]
  dsimp only
  rw [hend, htake, hbody, hdrop, List.drop_left]

/-- A tail with the heading has a lineage section. -/
theorem exists_lineageSection {tail : Str} (h : LINEAGE_START <:+: tail) :
    ∃ before body after, LineageSection tail before body after := by
  obtain ⟨pre, post, hpost⟩ := h
  cases hstart : indexFrom tail LINEAGE_START 0 with
  | none =>
    refine absurd ?_ (indexFrom_eq_none.mp hstart pre.length (Nat.zero_le _) ?_)
    · rw [← hpost, List.append_assoc, List.drop_left]
      exact List.prefix_append _ _
    · rw [← hpost, List.append_assoc, List.length_append]
      exact Nat.le_add_right _ _
  | some start =>
    obtain ⟨⟨-, hle, rest, hrest⟩, hfirst⟩ := indexFrom_eq_some.mp hstart
    have htail : tail = tail.take start ++ LINEAGE_START ++ rest := by
      rw [List.append_assoc, hrest, List.take_append_drop]
    have hfirst : ∀ i < (tail.take start).length, ¬ LINEAGE_START <+: tail.drop i := by
      intro i hi
      rw [List.length_take] at hi
      exact hfirst i (Nat.zero_le _) (by omega)
    cases hend : indexFrom rest SECTION_BOUNDARY 0 with
    | none =>
      refine ⟨tail.take start, rest, [], ⟨by rwa [List.append_nil], hfirst, .inl rfl, fun i hi => ?_⟩⟩
      rw [List.append_nil]
      exact indexFrom_eq_none.mp hend i (Nat.zero_le _) (Nat.le_of_lt hi)
    | some stop =>
      obtain ⟨⟨-, hstop, hboundary⟩, hinside⟩ := indexFrom_eq_some.mp hend
      refine ⟨tail.take start, rest.take stop, rest.drop stop, ⟨?_, hfirst, .inr hboundary, fun i hi => ?_⟩⟩
      · rwa [List.append_assoc, List.take_append_drop]
      · rw [List.length_take] at hi
        rw [List.take_append_drop]
        exact hinside i (Nat.zero_le _) (by omega)

/-- What is kept of the text behind the note: what stands around the lineage section, and the section's lines
as far as they are shown already. -/
def TailShown (tail tail' : Str) : Prop :=
  (¬ LINEAGE_START <:+: tail ∧ tail' = tail) ∨
  ∃ before body after lines, LineageSection tail before body after ∧
    LinesFolded [] (body.splitOn 0x0A) lines ∧
    tail' = before ++ LINEAGE_START ++ join "\n" lines ++ after

theorem join_splitOn (text : Str) : join "\n" (text.splitOn 0x0A) = text :=
  List.intercalate_splitOn 0x0A

theorem linesFolded_refl (shown lines : List Str) : LinesFolded shown lines lines := by
  induction lines with
  | nil => exact .nil
  | cons line lines ih => exact .same ih

theorem tailShown_refl (tail : Str) : TailShown tail tail := by
  by_cases h : LINEAGE_START <:+: tail
  · obtain ⟨before, body, after, hsection⟩ := exists_lineageSection h
    refine .inr ⟨before, body, after, body.splitOn 0x0A, hsection, linesFolded_refl _ _, ?_⟩
    rw [join_splitOn]
    exact hsection.text
  · exact .inl ⟨h, rfl⟩

theorem foldLineage_none {tail : Str} (h : ¬ LINEAGE_START <:+: tail) : foldLineage tail = tail := by
  have hnone : indexFrom tail LINEAGE_START 0 = none := by
    refine indexFrom_eq_none.mpr fun j _ _ hpre => h ?_
    exact hpre.isInfix.trans (List.drop_suffix j tail).isInfix
  rw [foldLineage, hnone]

theorem foldLineage_shown (tail : Str) : TailShown tail (foldLineage tail) := by
  by_cases h : LINEAGE_START <:+: tail
  · obtain ⟨before, body, after, hsection⟩ := exists_lineageSection h
    exact .inr ⟨before, body, after, _, hsection, foldLines_folded _ _, foldLineage_section hsection⟩
  · exact .inl ⟨h, foldLineage_none h⟩

/-! ## The projection -/

/-- No candidate finds anything to change: no source to label, no fact to fold, no repeated sentence. -/
structure NoneApplies (note : MemoryNote) (tail entryId : Str) (branch : List SessionRecord)
    (candidates : List RenderCandidate) : Prop where
  roles : .citedRoles ∈ candidates → ∀ s, ∀ item ∈ note.facts s, item.sources = []
  facts : .foldedFailedPaths ∈ candidates →
    ∀ s, ∀ item ∈ note.facts s, KeepsEvidence branch entryId s item
  lineage : .lineageOnce ∈ candidates → ∀ before body after, LineageSection tail before body after →
    ((body.splitOn 0x0A).flatMap itemSentences).Nodup

theorem foldLineage_eq_self {tail : Str} (h : ∀ before body after, LineageSection tail before body after →
    ((body.splitOn 0x0A).flatMap itemSentences).Nodup) : foldLineage tail = tail := by
  by_cases hstart : LINEAGE_START <:+: tail
  · obtain ⟨before, body, after, hsection⟩ := exists_lineageSection hstart
    rw [foldLineage_section hsection, foldLines_eq_self (by simpa using h before body after hsection),
      join_splitOn, ← hsection.text]
  · exact foldLineage_none hstart

theorem projectedHead_eq_self {note : MemoryNote} {label : Str → Str} {folds : NoteFact → Bool} {fold : Bool}
    (hlabel : ∀ s, ∀ item ∈ note.facts s, item.sources.map label = item.sources)
    (hfold : ∀ s, ∀ item ∈ note.facts s, (fold && decide (s ∈ FOLDABLE_SECTIONS) && folds item) = false) :
    projectedHead note label folds fold = renderNote note [] := by
  rw [renderNote_eq_headOf, projectedHead]
  congr 1
  funext s
  refine List.map_congr_left fun item hitem => ?_
  rw [hfold s item hitem, if_neg (by simp), factLine, factLine, hlabel s item hitem, List.map_id]

theorem labels_sourceLabel (branch : List SessionRecord) (candidates : List RenderCandidate) :
    Labels (sourceLabel branch candidates) := by
  intro id
  rw [sourceLabel]
  split_ifs
  · exact .inr ⟨_, rfl⟩
  · exact .inl rfl

theorem projectSummary_eq {note : MemoryNote} {tail entryId : Str} {branch : List SessionRecord}
    {candidates : List RenderCandidate} (h : candidates ≠ []) :
    projectSummary ⟨renderNote note [] ++ tail, note, entryId, branch, candidates⟩ =
      (if .foldedFailedPaths ∈ candidates ∨ .citedRoles ∈ candidates then
        projectedHead note (sourceLabel branch candidates) (foldsBefore branch entryId)
          (decide (.foldedFailedPaths ∈ candidates))
      else renderNote note []) ++
        if .lineageOnce ∈ candidates then foldLineage tail else tail := by
  rw [projectSummary, if_neg h]
  dsimp only
  rw [if_neg (not_not.mpr (List.prefix_append _ _)), List.drop_left]
  simp only [decide_eq_true_eq]

/-- Where no candidate applies, the stored summary stands. -/
theorem projectSummary_eq_self {note : MemoryNote} {tail entryId : Str} {branch : List SessionRecord}
    {candidates : List RenderCandidate} (h : NoneApplies note tail entryId branch candidates) :
    projectSummary ⟨renderNote note [] ++ tail, note, entryId, branch, candidates⟩ =
      renderNote note [] ++ tail := by
  by_cases hcandidates : candidates = []
  · rw [projectSummary, if_pos hcandidates]
  have hhead : (if .foldedFailedPaths ∈ candidates ∨ .citedRoles ∈ candidates then
      projectedHead note (sourceLabel branch candidates) (foldsBefore branch entryId)
        (decide (.foldedFailedPaths ∈ candidates))
      else renderNote note []) = renderNote note [] := by
    refine ite_eq_right_iff.mpr fun _ => ?_
    refine projectedHead_eq_self (fun s item hitem => ?_) fun s item hitem => ?_
    · by_cases hroles : .citedRoles ∈ candidates
      · rw [h.roles hroles s item hitem, List.map_nil]
      · rw [show sourceLabel branch candidates = id from funext fun id => if_neg hroles, List.map_id]
    · by_contra hfolds
      simp only [Bool.not_eq_false, Bool.and_eq_true, decide_eq_true_eq] at hfolds
      exact not_keepsEvidence hfolds.1.2 hfolds.2 (h.facts hfolds.1.1 s item hitem)
  have htail : (if .lineageOnce ∈ candidates then foldLineage tail else tail) = tail :=
    ite_eq_right_iff.mpr fun hlineage => foldLineage_eq_self (h.lineage hlineage)
  rw [projectSummary_eq hcandidates, hhead, htail]

/-- A projection keeps what the model has to see. -/
theorem projectSummary_keeps (note : MemoryNote) (tail entryId : Str) (branch : List SessionRecord)
    (candidates : List RenderCandidate) :
    ∃ lines tail',
      projectSummary ⟨renderNote note [] ++ tail, note, entryId, branch, candidates⟩ =
        headOf note lines ++ tail' ∧
      (∀ s, List.Forall₂ (fun item line => ShowsFact (KeepsEvidence branch entryId s item) item line)
        (note.facts s) (lines s)) ∧
      TailShown tail tail' ∧
      (NoneApplies note tail entryId branch candidates →
        projectSummary ⟨renderNote note [] ++ tail, note, entryId, branch, candidates⟩ =
          renderNote note [] ++ tail) := by
  have hplain : ∀ s, List.Forall₂ (fun item line => ShowsFact (KeepsEvidence branch entryId s item) item line)
      (note.facts s) ((note.facts s).map fun item => factLine item id) := by
    intro s
    rw [List.forall₂_map_right_iff, List.forall₂_same]
    exact fun item _ => factLine_shows (fun _ => .inl rfl) _ item
  by_cases hcandidates : candidates = []
  · refine ⟨_, tail, ?_, hplain, tailShown_refl tail, projectSummary_eq_self⟩
    rw [projectSummary, if_pos hcandidates, ← renderNote_eq_headOf]
  · have hproject := @projectSummary_eq note tail entryId branch candidates hcandidates
    have htail : TailShown tail (if .lineageOnce ∈ candidates then foldLineage tail else tail) := by
      split_ifs
      · exact foldLineage_shown tail
      · exact tailShown_refl tail
    by_cases hhead : .foldedFailedPaths ∈ candidates ∨ .citedRoles ∈ candidates
    · obtain ⟨lines, hlines, hshows⟩ := projectedHead_shows (labels_sourceLabel branch candidates) note branch
        entryId (decide (.foldedFailedPaths ∈ candidates))
      refine ⟨lines, _, ?_, hshows, htail, projectSummary_eq_self⟩
      rw [hproject, if_pos hhead, hlines]
    · refine ⟨_, _, ?_, hplain, htail, projectSummary_eq_self⟩
      rw [hproject, if_neg hhead, renderNote_eq_headOf]

/-! ## Written sections -/

def LINEAGE_GUIDANCE : Str :=
  lit "Earlier checkpoints on this branch, oldest first, reduced to their opening state lines. Their originals are still on disk: search context_history for these topics. The IDs are search anchors, not citable sources; cite only IDs from the handover manifest."

/-- The lines of the section that a lineage is written as. -/
def lineageLines (lineage : List CheckpointLineageItem) : List Str :=
  LINEAGE_GUIDANCE :: lineage.map fun item => itemLine item.anchor (join " " item.state)

/-- What follows the note of a stored summary: the lineage, if there is any, and carried sections. -/
theorem renderNote_written {note : MemoryNote} {lineage : List CheckpointLineageItem} (h : lineage ≠ []) :
    renderNote note lineage = renderNote note [] ++ (LINEAGE_START ++ join "\n" (lineageLines lineage)) := by
  have hhead : lit "## priorCheckpoints\nEarlier checkpoints on this branch, oldest first, reduced to their opening state lines. Their originals are still on disk: search context_history for these topics. The IDs are search anchors, not citable sources; cite only IDs from the handover manifest.\n" =
      lit "## priorCheckpoints\n" ++ LINEAGE_GUIDANCE ++ lit "\n" := by
    rw [LINEAGE_GUIDANCE]
    nth_rewrite 1 [lit_ofList]
    nth_rewrite 2 [lit_ofList]
    decide +kernel
  obtain ⟨item, rest, rfl⟩ := List.exists_cons_of_ne_nil h
  have hne : noteSections.map (renderSection note) ++
      (if note.gaps = [] then [] else [renderGaps note.gaps]) ≠ [] := by
    simp [noteSections]
  have hlineage : renderLineage (item :: rest) =
      lit "## priorCheckpoints\n" ++ join "\n" (lineageLines (item :: rest)) := by
    rw [renderLineage, hhead, lineageLines, List.map_cons, List.map_cons, join_cons_cons]
    simp only [List.append_assoc, itemLine, LINEAGE_ITEM_START]
  have hstart : LINEAGE_START = lit "\n\n" ++ lit "## priorCheckpoints\n" := by decide +kernel
  rw [renderNote, renderNote, if_neg (List.cons_ne_nil _ _), if_pos rfl, List.append_nil,
    join_append "\n\n" hne (by simp), join_singleton, hlineage, hstart]
  simp only [List.append_assoc]

/-- Sections that a summary may carry behind the lineage. -/
def IsCarried (carried : Str) : Prop := carried = [] ∨ SECTION_BOUNDARY <+: carried

theorem isCarried_renderUserMessages (users : List SessionRecord) : IsCarried (renderUserMessages users) := by
  refine .inr ?_
  rw [renderUserMessages, lit_ofList]
  exact List.IsPrefix.trans (by decide +kernel) (List.prefix_append _ _)

theorem isCarried_renderContinuation (requests : List SessionRecord) :
    IsCarried (renderContinuation requests) := by
  refine .inr ?_
  rw [renderContinuation, renderContinuationWithText, lit_ofList]
  exact List.IsPrefix.trans (by decide +kernel) (List.prefix_append _ _)

/-- A lineage is written line by line when its parts have no newline. -/
theorem isLine_lineageLines {lineage : List CheckpointLineageItem}
    (h : ∀ item ∈ lineage, 0x0A ∉ item.anchor ∧ ∀ sentence ∈ item.state, 0x0A ∉ sentence) :
    ∀ line ∈ lineageLines lineage, IsLine 0x0A line := by
  intro line hline
  rcases List.mem_cons.mp hline with hguidance | hline
  · rw [hguidance]
    have hall : LINEAGE_GUIDANCE.all (fun u => u != 0x0A) = true := by
      rw [LINEAGE_GUIDANCE, lit_ofList]
      decide +kernel
    have hne : LINEAGE_GUIDANCE ≠ [] := by
      rw [LINEAGE_GUIDANCE, lit_ofList]
      decide +kernel
    exact ⟨hne, fun hmem => absurd (List.all_eq_true.mp hall _ hmem) (by decide)⟩
  · obtain ⟨item, hitem, rfl⟩ := List.mem_map.mp hline
    obtain ⟨hanchor, hstate⟩ := h item hitem
    have hstart : LINEAGE_ITEM_START ≠ [] := by decide
    refine ⟨by simp [itemLine, hstart], ?_⟩
    have hjoin : ∀ parts : List Str, (∀ part ∈ parts, 0x0A ∉ part) → 0x0A ∉ join " " parts := by
      intro parts hparts
      induction parts with
      | nil => simp
      | cons part parts ih =>
        rw [List.forall_mem_cons] at hparts
        cases parts with
        | nil => simpa using hparts.1
        | cons next parts =>
          rw [join_cons_cons, List.mem_append, List.mem_append, not_or, not_or]
          exact ⟨⟨hparts.1, by decide⟩, ih hparts.2⟩
    rw [itemLine, List.mem_append, List.mem_append, List.mem_append, not_or, not_or, not_or]
    exact ⟨⟨⟨by decide, hanchor⟩, by decide⟩, hjoin _ hstate⟩

/-- The section that is found is the one that was written, where no anchor breaks its line. -/
theorem lineageSection_written {lineage : List CheckpointLineageItem} {carried : Str}
    (h : ∀ item ∈ lineage, 0x0A ∉ item.anchor ∧ ∀ sentence ∈ item.state, 0x0A ∉ sentence)
    (hcarried : IsCarried carried) :
    LineageSection (LINEAGE_START ++ join "\n" (lineageLines lineage) ++ carried) []
      (join "\n" (lineageLines lineage)) carried where
  text := rfl
  first i hi := absurd hi (Nat.not_lt_zero i)
  ends := hcarried
  inside _ hi := not_blank_joinLines (isLine_lineageLines h) hi

/-- The lines of a written section are those of its items. -/
theorem splitOn_lineageLines {lineage : List CheckpointLineageItem}
    (h : ∀ item ∈ lineage, 0x0A ∉ item.anchor ∧ ∀ sentence ∈ item.state, 0x0A ∉ sentence) :
    (join "\n" (lineageLines lineage)).splitOn 0x0A = lineageLines lineage :=
  List.splitOn_intercalate 0x0A (fun l hl => (isLine_lineageLines h l hl).sep_notMem)
    (List.cons_ne_nil _ _)

/-- What is folded of a stored summary is the lineage that was written, whatever it carries. -/
theorem foldLineage_written {lineage : List CheckpointLineageItem} {carried : Str}
    (h : ∀ item ∈ lineage, 0x0A ∉ item.anchor ∧ ∀ sentence ∈ item.state, 0x0A ∉ sentence)
    (hcarried : IsCarried carried) :
    foldLineage (LINEAGE_START ++ join "\n" (lineageLines lineage) ++ carried) =
      LINEAGE_START ++ join "\n" (foldLines [] (lineageLines lineage)) ++ carried := by
  rw [foldLineage_section (lineageSection_written h hcarried), splitOn_lineageLines h, List.nil_append]

/-- The anchor of a written item is found, where it contains no colon with a space. -/
theorem isAnchor_of_plain {anchor text : Str} (h : ¬ lit ": " <:+: anchor) : IsAnchor anchor text := by
  have hline : itemLine anchor text = LINEAGE_ITEM_START ++ (anchor ++ (lit ": " ++ text)) := by
    simp [itemLine]
  rw [IsAnchor, indexFrom_eq_some, hline, ← List.append_assoc]
  refine ⟨⟨by simp, by simp, ?_⟩, fun j hle hj hpre => ?_⟩
  · rw [List.drop_left]
    exact List.prefix_append _ _
  · obtain ⟨k, rfl⟩ := Nat.exists_eq_add_of_le hle
    rw [List.length_append] at hj
    rw [List.append_assoc, ← List.drop_drop, List.drop_left, List.drop_append_of_le_length (by omega)] at hpre
    obtain ⟨rest, hrest⟩ := hpre
    have hcolon : lit ": " = [0x3A, 0x20] := by decide
    rw [hcolon] at hrest h
    cases hsplit : anchor.drop k with
    | nil =>
      have := congrArg List.length hsplit
      rw [List.length_drop, List.length_nil] at this
      omega
    | cons u us =>
      rw [hsplit] at hrest
      cases us with
      | nil => simp at hrest
      | cons v us =>
        simp only [List.cons_append, List.nil_append, List.cons.injEq] at hrest
        obtain ⟨rfl, rfl, -⟩ := hrest
        exact h ⟨anchor.take k, us, by
          rw [List.append_assoc, show [0x3A, 0x20] ++ us = anchor.drop k from hsplit.symm,
            List.take_append_drop]⟩

/-! ## Anchors with a colon -/

/-- A checkpoint of this method, with these state facts. -/
def stateCheckpoint (id coveredThrough : Str) (state : List Str) : SessionRecord where
  fields := [(lit "type", .str (lit "compaction")), (lit "id", .str id), (lit "parentId", .str coveredThrough),
    (lit "timestamp", .str []), (lit "summary", .str []), (lit "firstKeptEntryId", .str coveredThrough),
    (lit "tokensBefore", .num (.ofNat 0)),
    (lit "details", .obj [(lit "kind", .str CONTEXT_MEMORY_KIND), (lit "version", .num (.ofNat 1)),
      (lit "note", .obj [(lit "state", .arr (state.map fun text => .obj [(lit "text", .str text)]))]),
      (lit "coveredThrough", .str coveredThrough)])]
  typed := by
    simp [recordTyped, hasStr, strField, strField?, field, RecordType.ofName, isNull, isStr]

/-- Two requests whose IDs contain a colon and a space, each covered by a checkpoint. -/
def colonBranch : List SessionRecord :=
  [messageRecord (lit "a: c") [] [] (lit "user") (lit "Start."),
    stateCheckpoint (lit "k") (lit "a: c") [lit "Ready.", lit "Wait… go."],
    messageRecord (lit "b: c") (lit "k") [] (lit "user") (lit "Continue."),
    stateCheckpoint (lit "l") (lit "b: c") [lit "Ready.", lit "Wait… stop."]]

def readyNote : MemoryNote where
  facts s := if s = .state then [⟨lit "Ready.", [lit "a: c"], none, none⟩] else []
  gaps := []

/-- What the two checkpoints leave. -/
def colonLineage : List CheckpointLineageItem :=
  [⟨lit "k", lit "a: c", [lit "Ready.", lit "Wait… go."]⟩, ⟨lit "l", lit "b: c", [lit "Ready.", lit "Wait… stop."]⟩]

theorem checkpointLineage_colonBranch : checkpointLineage colonBranch 600 = colonLineage := by
  have hitems : (colonBranch.zipIdx.filterMap fun e => lineageItem? colonBranch e.1 e.2) = colonLineage := by
    decide +kernel
  have hfits : ¬ 600 < textTokens (renderLineage colonLineage) := by
    rw [renderLineage, lit_ofList]
    decide +kernel
  rw [checkpointLineage, hitems, fitLineageTokens, if_neg fun h => hfits h.2]

/-- The second anchor is cut, because what follows its colon is taken for a sentence that was shown, and its
last sentence, because it starts as another one does up to an ellipsis. -/
theorem not_kept_colonBranch :
    let stored := renderNote readyNote (checkpointLineage colonBranch 600)
    let shown := projectSummary ⟨stored, readyNote, lit "m", colonBranch, [.lineageOnce]⟩
    (lit "- through b: c: " <:+: stored ∧ ¬ lit "- through b: c" <:+: shown) ∧
      lit "Wait… stop." <:+: stored ∧ ¬ lit "Wait… stop." <:+: shown := by
  intro stored shown
  have hstored : stored = renderNote readyNote [] ++
      (LINEAGE_START ++ join "\n" (lineageLines colonLineage)) := by
    rw [← renderNote_written (by decide), ← checkpointLineage_colonBranch]
  have hshown : shown = renderNote readyNote [] ++
      (LINEAGE_START ++ join "\n" (foldLines [] (lineageLines colonLineage))) := by
    have hfold := @foldLineage_written colonLineage [] (by decide) (.inl rfl)
    rw [List.append_nil, List.append_nil] at hfold
    change projectSummary ⟨stored, readyNote, lit "m", colonBranch, [.lineageOnce]⟩ = _
    rw [hstored, projectSummary_eq (by decide), if_neg (by decide), if_pos (by decide), hfold]
  rw [hstored, hshown, lineageLines, renderNote, OPENING, LINEAGE_GUIDANCE]
  repeat rw [lit_ofList]
  decide +kernel

end Compaction
