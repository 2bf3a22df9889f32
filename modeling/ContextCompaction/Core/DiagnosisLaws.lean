import ContextCompaction.Core.Diagnostics
import ContextCompaction.Js.JsonOrder

/-!
# The diagnoses and the validator

The diagnoses walk the whole answer, the validator stops at the first fault.

* `ofJson_patchFields`, `fillSources`: the answer with its missing sources.
* `cited_iff`: what the validator asks of a fact, in terms of what the diagnoses look for.
* `DiagnosesAgree`, `diagnoses_agree`: the diagnoses and the validator find the same faults.
-/

namespace Compaction

open Js

/-! ## The schema -/

section

variable {len : Str → Nat} {fields : List (Str × Json)}

/-- Without a fact that lacks sources nothing is patched. -/
theorem patchFields_eq_self (h : uncitedFacts fields = []) : patchFields fields = fields := by
  have hitems : ∀ s items, sectionItems fields s = some items →
      ∀ item ∈ items, (patchItem item).isSome = false := by
    intro s items hs item hitem
    obtain ⟨i, hi⟩ := List.getElem?_of_mem hitem
    have hnone := List.filterMap_eq_nil_iff.mp (List.flatMap_eq_nil_iff.mp h s (mem_noteSections s))
      (item, i) (by rwa [hs, Option.getD_some, List.mem_zipIdx_iff_getElem?])
    simpa using hnone
  unfold patchFields
  generalize noteSections = sections
  induction sections with
  | nil => rfl
  | cons s sections ih =>
    rw [List.foldl_cons]
    cases hs : sectionItems fields s with
    | none => exact ih
    | some items =>
      have hmap : (items.map fun item => (patchItem item).getD item) = items := by
        refine (List.map_congr_left fun item hitem => ?_).trans (List.map_id items)
        have hnone : patchItem item = none := by simpa using hitems s items hs item hitem
        rw [hnone, Option.getD_none, id_eq]
      have hget : mapGet fields (lit s.name) = some (.arr items) := by
        obtain ⟨v, hv, harr⟩ := Option.bind_eq_some_iff.mp hs
        cases v with
        | arr xs => rw [hv, show xs = items from Option.some.inj harr]
        | _ => cases harr
      simp only [hmap, mapSet_eq_self hget, ih]

/-- Every fact of a note has sources. -/
theorem uncitedFacts_of_check (h : check len noteSchema (.obj fields) = true) :
    uncitedFacts fields = [] := by
  rw [noteSchema, check_object] at h
  obtain ⟨_, hfields, -, h⟩ := h
  obtain rfl := Json.obj.inj hfields
  refine List.flatMap_eq_nil_iff.mpr fun s _ => List.filterMap_eq_nil_iff.mpr ?_
  rintro ⟨item, i⟩ he
  have hs := h _ (List.mem_append_left _ (List.mem_map_of_mem (mem_noteSections s)))
  cases hv : mapGet fields (lit s.name) with
  | none => simp [hv] at hs
  | some v =>
    simp only [hv] at hs
    obtain ⟨xs, rfl, -, hitems, -⟩ := check_array.mp hs
    have hitem : item ∈ xs := by
      simpa [sectionItems, hv] using List.mem_of_getElem? (List.mem_zipIdx_iff_getElem?.mp he)
    obtain ⟨facts, rfl, -, hfact⟩ := check_object.mp (hitems item hitem)
    have hsources := hfact _ (.tail _ List.mem_cons_self)
    cases hv : mapGet facts (lit "sources") with
    | none => simp [hv] at hsources
    | some v =>
      simp only [hv] at hsources
      obtain ⟨ids, rfl, hlen, -⟩ := check_strings.mp hsources
      cases ids with
      | nil => simp at hlen
      | cons id ids => simp [patchItem, hv]

/-- The diagnosis of an answer that passes the schema is empty, and of no other. -/
theorem diagnoseSchema_eq_nil {value : Json} :
    ((diagnoseSchema len value).uncited = [] ∧ (diagnoseSchema len value).other = false) ↔
      check len noteSchema value = true := by
  cases value with
  | obj fields =>
    constructor
    · rintro ⟨hun, hother⟩
      simp only [diagnoseSchema] at hun hother
      split_ifs at hun hother with hc
      rwa [patchFields_eq_self hun] at hc
    · intro hc
      have hun := uncitedFacts_of_check hc
      simp [diagnoseSchema, patchFields_eq_self hun, hun, hc]
  | _ => simp [diagnoseSchema, noteSchema, check, Json.obj?]

end

/-! ### The answer with its missing sources -/

/-- Some facts get sources. -/
def fillSources (note : MemoryNote) (keys : List FactKey) (ids : FactKey → List Str) : MemoryNote :=
  { note with
    facts := fun s => (note.facts s).zipIdx.map fun e =>
      if (s, e.2) ∈ keys then { e.1 with sources := ids (s, e.2) } else e.1 }

theorem fillSources_clearSources (note : MemoryNote) (keys : List FactKey) (ids : FactKey → List Str) :
    fillSources (clearSources note keys) keys ids = fillSources note keys ids := by
  ext1
  · funext s
    apply List.ext_getElem?
    intro i
    simp only [fillSources, clearSources, List.getElem?_map, List.getElem?_zipIdx]
    cases (note.facts s)[i]? with
    | none => rfl
    | some f => by_cases hk : (s, i) ∈ keys <;> simp [hk]
  · rfl

/-- What may stand in for missing sources. -/
structure SourceIds (len : Str → Nat) (ids : List Str) : Prop where
  count : 1 ≤ ids.length ∧ ids.length ≤ 20
  nodup : ids.Nodup
  lengths : ∀ id ∈ ids, 1 ≤ len id ∧ len id ≤ 64

theorem valid_fillSources {len : Str → Nat} {note : MemoryNote} {keys : List FactKey}
    {ids : FactKey → List Str} (h : note.Valid len) (hids : ∀ key ∈ keys, SourceIds len (ids key)) :
    (fillSources note keys ids).Valid len := by
  refine ⟨fun s f hf => ?_, fun s => ?_, h.gaps⟩
  · obtain ⟨e, he, rfl⟩ := List.mem_map.mp hf
    have hvalid := h.facts s e.1 (List.mem_of_getElem? (List.mem_zipIdx_iff_getElem?.mp he))
    split_ifs with hk
    · obtain ⟨hcount, hnodup, hlengths⟩ := hids _ hk
      exact ⟨hvalid.text, hcount, hlengths, hnodup, hvalid.quote, hvalid.supersedes⟩
    · exact hvalid
  · simpa [fillSources] using h.items s

theorem check_fillSources {len : Str → Nat} {value : Json} {pending : MemoryNote}
    {ids : FactKey → List Str} (h : (diagnoseSchema len value).pending = some pending)
    (hids : ∀ key ∈ (diagnoseSchema len value).uncited, SourceIds len (ids key)) :
    check len noteSchema (fillSources pending (diagnoseSchema len value).uncited ids).toJson = true := by
  apply MemoryNote.check_toJson
  cases value with
  | obj fields =>
    simp only [diagnoseSchema] at h hids ⊢
    split_ifs at h hids ⊢ with hc
    obtain rfl := Option.some.inj h
    rw [fillSources_clearSources]
    exact valid_fillSources (MemoryNote.valid_ofJson hc) hids
  | _ => cases h

/-! ## Citations and quotations -/

section

variable {nfkc : Str → Str} {branch : List SessionRecord} {note : MemoryNote}

/-- A record that its ID names, with text. Of equal IDs the last record counts. -/
def Readable (branch : List SessionRecord) (r : SessionRecord) : Prop :=
  mapGet (recordsById branch) r.id = some r ∧ sourceText r ≠ []

/-- The records searched are those that a note may quote. -/
theorem mem_readableEntries {r : SessionRecord} : r ∈ readableEntries branch ↔ Readable branch r := by
  have hnodup : ((recordsById branch).map Prod.fst).Nodup := by
    rw [recordsById, keys_mapOf]
    exact nodup_setOf _
  have hid : ∀ e ∈ recordsById branch, e.1 = e.2.id := by
    rintro ⟨k, r⟩ he
    have hget := (mem_iff_mapGet hnodup).mp he
    rw [recordsById, mapGet_mapOf, ← List.map_reverse] at hget
    obtain ⟨r', -, hr'⟩ := List.mem_map.mp (mem_of_mapGet hget)
    obtain ⟨rfl, rfl⟩ := Prod.mk.inj hr'
    rfl
  unfold readableEntries Readable
  rw [List.mem_filter, decide_eq_true_eq, ← mem_iff_mapGet hnodup]
  refine and_congr_left fun _ => ⟨fun h => ?_, fun h => List.mem_map_of_mem h⟩
  obtain ⟨e, he, rfl⟩ := List.mem_map.mp h
  exact hid e he ▸ he

theorem isNone_citedText (id : Str) :
    (citedText branch id).isNone = !readable (textById branch) id := by
  unfold citedText readable
  cases textById branch id with
  | none => rfl
  | some text => by_cases ht : text = [] <;> simp [ht]

/-- A fact passes the validator when all that it cites is readable and it is not misquoted. -/
theorem cited_iff {item : NoteFact} :
    Cited (textById branch) item ↔
      (∀ id ∈ item.sources ++ item.supersedes.getD [], readable (textById branch) id = true) ∧
        misquoted branch item = false := by
  obtain ⟨text, sources, quote, supersedes⟩ := item
  have hquote : (∀ id ∈ sources, readable (textById branch) id = true) →
      ((∀ q, quote = some q → q ≠ [] →
          ∃ id ∈ sources, includes ((textById branch id).getD []) q = true) ↔
        misquoted branch ⟨text, sources, quote, supersedes⟩ = false) := by
    intro hsources
    have htext : ∀ id ∈ sources, ∀ q : Str,
        (citedText branch id).any (fun text => includes text q) =
          includes ((textById branch id).getD []) q := by
      intro id hid q
      have hr := hsources id hid
      unfold readable at hr
      cases ht : textById branch id with
      | none => simp [ht] at hr
      | some t =>
        have hne : t ≠ [] := by simpa [ht] using hr
        simp [citedText, ht, hne]
    cases quote with
    | none => simp [misquoted]
    | some q =>
      by_cases hq : q = []
      · simp [misquoted, hq]
      · simp only [misquoted, Option.any_some, hq, ne_eq, not_false_eq_true, decide_true,
          Bool.true_and, Bool.not_eq_false', List.any_eq_true, Option.some.injEq, forall_eq',
          forall_const]
        exact exists_congr fun id => and_congr_right fun hid => by rw [htext id hid q]
  constructor
  · rintro ⟨hsources, hq, hsup⟩
    refine ⟨fun id hid => ?_, (hquote hsources).mp hq⟩
    rcases List.mem_append.mp hid with hid | hid
    · exact hsources id hid
    · cases supersedes with
      | none => cases hid
      | some ids => exact hsup ids rfl id hid
  · rintro ⟨hread, hq⟩
    have hsources : ∀ id ∈ sources, readable (textById branch) id = true := fun id hid =>
      hread id (List.mem_append_left _ hid)
    refine ⟨hsources, (hquote hsources).mpr hq, ?_⟩
    rintro ids rfl id hid
    exact hread id (List.mem_append_right _ hid)

theorem mem_citations {id : Str} : id ∈ (citations note).map Prod.fst ↔
    ∃ item ∈ note.allFacts, id ∈ item.sources ++ item.supersedes.getD [] := by
  simp only [citations, List.map_flatMap, List.map_append, List.map_map, List.mem_flatMap]
  simp [Function.comp_def]

/-- Nothing is counted when every citation is readable. -/
theorem diagnoseScope_eq_zero :
    ((diagnoseScope note branch).missing = 0 ∧ (diagnoseScope note branch).unreadable = 0) ↔
      ∀ id ∈ (citations note).map Prod.fst, readable (textById branch) id = true := by
  set refused := ((citations note).filter fun c => !readable (textById branch) c.1).map Prod.fst
    with hrefused
  have hmem : ∀ id, id ∈ refused ↔
      id ∈ (citations note).map Prod.fst ∧ readable (textById branch) id = false := by
    intro id
    simp only [hrefused, List.mem_map, List.mem_filter, Bool.not_eq_eq_eq_not, Bool.not_true]
    grind
  have hmissing : (diagnoseScope note branch).missing = 0 ↔
      ∀ id ∈ refused, mapGet (recordsById branch) id ≠ none := by
    simp only [diagnoseScope, List.length_eq_zero_iff, List.eq_nil_iff_forall_not_mem, mem_setOf,
      List.mem_filter, not_and]
    simp [hrefused]
  have hunreadable : (diagnoseScope note branch).unreadable = 0 ↔
      ∀ id ∈ refused, mapGet (recordsById branch) id = none := by
    simp only [diagnoseScope, List.length_eq_zero_iff, List.filterMap_eq_nil_iff, mem_setOf]
    rfl
  rw [hmissing, hunreadable]
  constructor
  · rintro ⟨h₁, h₂⟩ id hid
    by_contra hr
    have hin := (hmem id).mpr ⟨hid, by simpa using hr⟩
    exact h₁ id hin (h₂ id hin)
  · intro h
    have hno : ∀ id, id ∉ refused := by
      intro id hid
      obtain ⟨hc, hr⟩ := (hmem id).mp hid
      simp [h id hc] at hr
    exact ⟨fun id hid => absurd hid (hno id), fun id hid => absurd hid (hno id)⟩

theorem unreadable_diagnoseQuotes : (diagnoseQuotes nfkc branch note).unreadable = false ↔
    ∀ id ∈ (citations note).map Prod.fst, readable (textById branch) id = true := by
  simp only [diagnoseQuotes, isNone_citedText, List.any_eq_false, Bool.or_eq_true, not_or,
    List.any_eq_true, mem_citations]
  grind

theorem failures_eq_nil : (diagnoseQuotes nfkc branch note).failures = [] ↔
    ∀ item ∈ note.allFacts, misquoted branch item = false := by
  rw [← List.length_eq_zero_iff, length_failures, List.countP_eq_zero]
  simp

end

/-! ## Both -/

/-- Some readable record has a text with a property. -/
def Found (branch : List SessionRecord) (p : Str → Bool) : Prop :=
  ∃ r, Readable branch r ∧ p (sourceText r) = true

/-- The class of a quotation that fails, by the readable records alone. -/
structure Classified (nfkc : Str → Str) (branch : List SessionRecord) (f : QuoteFailure) : Prop where
  elsewhere : f.kind = .elsewhere ↔ Found branch fun text => includes text f.quote
  format : f.kind = .format ↔ ¬ (Found branch fun text => includes text f.quote) ∧
    normalizeQuote nfkc f.quote ≠ [] ∧
    Found branch fun text => includes (normalizeQuote nfkc text) (normalizeQuote nfkc f.quote)
  absent : f.kind = .absent ↔ ¬ (Found branch fun text => includes text f.quote) ∧
    ¬ (normalizeQuote nfkc f.quote ≠ [] ∧
      Found branch fun text => includes (normalizeQuote nfkc text) (normalizeQuote nfkc f.quote))

theorem exactEntries_ne_nil (branch : List SessionRecord) (quote : Str) :
    exactEntries branch quote ≠ [] ↔ Found branch fun text => includes text quote := by
  rw [exactEntries, Ne, List.filter_eq_nil_iff]
  simp only [mem_readableEntries, Found]
  push Not
  rfl

theorem normalizedEntries_ne_nil (nfkc : Str → Str) (branch : List SessionRecord) (quote : Str) :
    normalizedEntries nfkc branch quote ≠ [] ↔ normalizeQuote nfkc quote ≠ [] ∧
      Found branch fun text => includes (normalizeQuote nfkc text) (normalizeQuote nfkc quote) := by
  unfold normalizedEntries
  split_ifs with hq
  · simp [hq]
  · rw [Ne, List.filter_eq_nil_iff]
    simp only [mem_readableEntries, Found, hq, ne_eq, not_false_eq_true, true_and]
    push Not
    rfl

/-- Every failure is classified by where its quotation stands. -/
theorem classified_of_diagnoseFact {nfkc : Str → Str} {branch : List SessionRecord}
    {s : NoteSection} {e : NoteFact × Nat} {f : QuoteFailure}
    (h : diagnoseFact nfkc branch s e = some f) : Classified nfkc branch f := by
  have hm := (diagnoseFact_some h).2
  simp only [diagnoseFact, hm, ↓reduceIte, Option.some.injEq] at h
  subst h
  have hexact := exactEntries_ne_nil branch (e.1.quote.getD [])
  have hnormal := normalizedEntries_ne_nil nfkc branch (e.1.quote.getD [])
  by_cases he : exactEntries branch (e.1.quote.getD []) = []
  · have hno : ¬ Found branch fun text => includes text (e.1.quote.getD []) := mt hexact.mpr (by simp [he])
    by_cases hn : normalizedEntries nfkc branch (e.1.quote.getD []) = []
    · have hno' := mt hnormal.mpr (by simp [hn])
      refine ⟨?_, ?_, ?_⟩ <;> simp only [he, hn, hno] <;> simp [hno']
    · have hyes := hnormal.mp hn
      refine ⟨?_, ?_, ?_⟩ <;> simp [he, hn, hno, hyes]
  · have hyes := hexact.mp he
    refine ⟨?_, ?_, ?_⟩ <;> simp [he, hyes]

/-- The diagnoses of an answer, and what the validator says of it. -/
structure DiagnosesAgree (len : Str → Nat) (nfkc : Str → Str) (value : Json)
    (branch : List SessionRecord) : Prop where
  schema : ((diagnoseSchema len value).uncited = [] ∧ (diagnoseSchema len value).other = false) ↔
    check len noteSchema value = true
  content : check len noteSchema value = true →
    ((∃ note, validateNoteContent len value branch = .ok note) ↔
      (diagnoseScope (.ofJson value) branch).missing = 0 ∧
        (diagnoseScope (.ofJson value) branch).unreadable = 0 ∧
        (diagnoseQuotes nfkc branch (.ofJson value)).failures = [])
  unreadable : (diagnoseQuotes nfkc branch (.ofJson value)).unreadable = true ↔
    0 < (diagnoseScope (.ofJson value) branch).missing +
      (diagnoseScope (.ofJson value) branch).unreadable
  classified : ∀ f ∈ (diagnoseQuotes nfkc branch (.ofJson value)).failures, Classified nfkc branch f
  pending : ∀ pending, (diagnoseSchema len value).pending = some pending →
    ∀ ids : FactKey → List Str, (∀ key ∈ (diagnoseSchema len value).uncited, SourceIds len (ids key)) →
      check len noteSchema
        (fillSources pending (diagnoseSchema len value).uncited ids).toJson = true

/-- The diagnoses agree with the validator. A quotation of spaces alone, which normalization makes
empty, is classified as absent. -/
theorem diagnoses_agree (len : Str → Nat) (nfkc : Str → Str) (value : Json)
    (branch : List SessionRecord) : DiagnosesAgree len nfkc value branch := by
  refine ⟨diagnoseSchema_eq_nil, fun hc => ?_, ?_, fun f hf => ?_, fun _ h _ hids =>
    check_fillSources h hids⟩
  · rw [← and_assoc, diagnoseScope_eq_zero, failures_eq_nil]
    simp only [validateNoteContent, validateNoteSources_ok, hc, true_and, exists_eq_left, cited_iff,
      mem_citations]
    grind
  · rw [← Bool.not_eq_false, unreadable_diagnoseQuotes, ← diagnoseScope_eq_zero]
    omega
  · obtain ⟨s, item, i, -, hd⟩ := mem_failures.mp hf
    exact classified_of_diagnoseFact hd

theorem found_singleton {r : SessionRecord} (h : sourceText r ≠ []) {p : Str → Bool} :
    Found [r] p ↔ p (sourceText r) = true := by
  have hbyId : ∀ id, mapGet (recordsById [r]) id = if r.id = id then some r else none := fun id => rfl
  constructor
  · rintro ⟨r', ⟨hget, -⟩, hp⟩
    rw [hbyId] at hget
    split_ifs at hget
    rwa [Option.some.inj hget]
  · exact fun hp => ⟨r, ⟨by rw [hbyId, if_pos rfl], h⟩, hp⟩

/-- A state that quotes a tab. -/
def tabNote : MemoryNote where
  facts
    | .state => [⟨lit "Done.", [lit "a"], some [0x09], none⟩]
    | _ => []
  gaps := []

/-- After normalization every text contains the empty quotation, and it is absent all the same. -/
theorem not_classified_tabNote :
    ¬ ∀ (len : Str → Nat) (nfkc : Str → Str) (note : MemoryNote) (branch : List SessionRecord),
      check len noteSchema note.toJson = true →
        ∀ f ∈ (diagnoseQuotes nfkc branch note).failures,
          (f.kind = .format ↔ ¬ (Found branch fun text => includes text f.quote) ∧
            Found branch fun text =>
              includes (normalizeQuote nfkc text) (normalizeQuote nfkc f.quote)) := by
  intro h
  let entry := messageRecord (lit "a") (lit "r") [] (lit "assistant") (lit "Done.")
  have htext : sourceText entry = lit "Done." := sourceText_messageRecord _ _ _ _ _ (by simp)
  have hne : sourceText entry ≠ [] := by
    rw [htext]
    decide
  have hfailures : (diagnoseQuotes id [entry] tabNote).failures =
      [⟨.state, 0, [0x09], [lit "a"], .absent, []⟩] := by decide +kernel
  have hiff := h List.length id tabNote [entry] (by decide +kernel) _
    (hfailures ▸ List.mem_cons_self)
  simp only [found_singleton hne, htext] at hiff
  exact absurd (hiff.mpr (by decide +kernel)) (by simp)

end Compaction
