import ContextCompaction.Core.Diagnostics
import ContextCompaction.Js.SameText
import ContextCompaction.Sequences.Rewrites

/-!
# What a repair may change

Both repairs answer positions of the candidate, in any order. The positions are those before
anything is withdrawn.

* `QuoteRepair.Frame`, `SourcesRepair.Frame`: an accepted answer, against the candidate.
* `repairs_change_what_they_name`: every accepted answer is one of these.
-/

namespace Compaction

open Js Sequences

/-! ## One repair -/

/-- The fact at a position. -/
def itemAt (facts : NoteSection → List NoteFact) (key : FactKey) : Option NoteFact :=
  (facts key.1)[key.2]?

/-- A repair rewrites the fact under its key and no other. -/
theorem rewrites_apply : Rewrites RepairState.apply (fun st => itemAt st.facts) QuoteRepair.key
    fun r before => r.fact.getD before := by
  rintro st r ⟨s, i⟩
  cases hf : r.fact with
  | none => simp [RepairState.apply, hf, RepairState.drop, itemAt]
  | some fact =>
    simp only [RepairState.apply, hf, RepairState.replace, itemAt, Option.getD_some]
    by_cases hs : s = r.key.1
    · subst hs
      rw [if_pos rfl, List.getElem?_set]
      by_cases hi : r.key.2 = i
      · subst hi
        simp only [↓reduceIte]
        by_cases hlt : r.key.2 < (st.facts r.key.1).length
        · simp [hlt]
        · simp [hlt]
      · simp [hi, Prod.ext_iff]
    · rw [if_neg hs, if_neg fun e => hs (congrArg Prod.fst e).symm]

theorem rewrites_setSources : Rewrites setSources (fun note => itemAt note.facts) SourcesRepair.key
    fun r before => { before with sources := r.sources } := by
  rintro note r ⟨s, i⟩
  simp only [itemAt, setSources, SourcesRepair.key, Prod.mk.injEq]
  by_cases hs : s = r.noteSection
  · subst hs
    by_cases hi : r.index = i <;> simp [hi]
  · simp [hs, Ne.symm hs]

theorem length_foldl_apply (repairs : List QuoteRepair) (st : RepairState) (s : NoteSection) :
    ((repairs.foldl RepairState.apply st).facts s).length = (st.facts s).length := by
  induction repairs generalizing st with
  | nil => rfl
  | cons r repairs ih =>
    rw [List.foldl_cons, ih, RepairState.apply]
    cases r.fact with
    | none => rfl
    | some fact =>
      simp only [RepairState.replace]
      split_ifs
      · exact List.length_set
      · rfl

/-! ## Counts -/

/-- A repair that leaves a quotation. -/
def QuoteRepair.requotes (r : QuoteRepair) : Bool := r.fact.any fun fact => fact.quote.getD [] ≠ []

/-- A repair that leaves none. -/
def QuoteRepair.unquotes (r : QuoteRepair) : Bool := r.fact.any fun fact => fact.quote.getD [] = []

/-- The counts of an answer. -/
structure QuoteRepairOutcome.Counts (repairs : List QuoteRepair) (outcome : QuoteRepairOutcome) :
    Prop where
  requoted : outcome.requoted = repairs.countP QuoteRepair.requotes
  unquoted : outcome.unquoted = repairs.countP QuoteRepair.unquotes
  dropped : outcome.dropped = repairs.countP fun r => r.fact.isNone
  droppedFrom : ∀ s, (mapGet outcome.droppedFrom s).getD 0 =
      repairs.countP fun r => r.fact.isNone ∧ r.noteSection = s
  listed : ∀ s n, mapGet outcome.droppedFrom s = some n → 0 < n

/-- A repair keeps the counts those of the repairs applied so far. -/
theorem counts_apply {before : List QuoteRepair} {st : RepairState} (r : QuoteRepair)
    (h : st.outcome.Counts before) : (st.apply r).outcome.Counts (before ++ [r]) := by
  obtain ⟨hre, hun, hdrop, hfrom, hlist⟩ := h
  cases hf : r.fact with
  | none =>
    have happly : st.apply r = st.drop r.key := by rw [RepairState.apply, hf]
    rw [happly]
    refine ⟨?_, ?_, ?_, fun s => ?_, fun s n hn => ?_⟩
    · simpa [RepairState.drop, QuoteRepair.requotes, hf] using hre
    · simpa [RepairState.drop, QuoteRepair.unquotes, hf] using hun
    · simpa [RepairState.drop, hf] using hdrop
    · simp only [RepairState.drop, QuoteRepair.key, mapGet_mapSet, List.countP_append,
        List.countP_singleton, hf, Option.isNone_none, true_and, ← hfrom]
      by_cases hs : r.noteSection = s <;> simp [hs]
    · simp only [RepairState.drop, mapGet_mapSet] at hn
      split_ifs at hn
      · have := Option.some.inj hn
        omega
      · exact hlist s n hn
  | some fact =>
    have happly : st.apply r = st.replace r.key fact := by rw [RepairState.apply, hf]
    rw [happly]
    by_cases hq : fact.quote.getD [] = []
    all_goals
      refine ⟨?_, ?_, ?_, fun s => ?_, fun s n hn => hlist s n ?_⟩
      · simpa [RepairState.replace, QuoteRepair.requotes, hf, hq] using hre
      · simpa [RepairState.replace, QuoteRepair.unquotes, hf, hq] using hun
      · simpa [RepairState.replace, hf, hq] using hdrop
      · simpa [RepairState.replace, hf, hq] using hfrom s
      · simpa [RepairState.replace, hq] using hn

theorem counts_foldl_apply (repairs before : List QuoteRepair) {st : RepairState}
    (h : st.outcome.Counts before) :
    (repairs.foldl RepairState.apply st).outcome.Counts (before ++ repairs) := by
  induction repairs generalizing st before with
  | nil => simpa using h
  | cons r repairs ih => simpa using ih (before ++ [r]) (counts_apply r h)

/-! ## The repair of quotations -/

theorem normal_strings (ss : List Str) : (strings ss).normal = strings ss := by
  have helements : Json.normalElements (ss.map .str) = ss.map .str := by
    induction ss with
    | nil => rfl
    | cons s ss ih => rw [List.map_cons, Json.normalElements, ih, Json.normal_str]
  rw [strings, Json.normal, helements]

theorem stringify_strings_inj {xs ys : List Str}
    (h : stringify (strings xs) = stringify (strings ys)) : xs = ys := by
  have hsame : strings xs = strings ys := by
    simpa only [normal_strings] using SameText.normal (show SameText (strings xs) (strings ys) from h)
  have hmap : xs.map Json.str = ys.map Json.str := Json.arr.inj hsame
  exact List.map_injective_iff.mpr (fun a b e => Json.str.inj e) hmap

/-- A fact of a candidate beside what the result has for it: itself unless its position is a failing
one, and else the fact that the answer gives for the position, with the same text and superseded IDs. -/
structure QuoteRepair.Keeps (failures : List QuoteFailure) (response : Json) (key : FactKey)
    (before after : NoteFact) : Prop where
  unnamed : key ∉ failures.map QuoteFailure.key → after = before
  named : ∀ r ∈ repairsOf response, r.key = key → r.fact = some after ∧ after.text = before.text ∧
    after.supersedes.getD [] = before.supersedes.getD []

/-- What an accepted answer makes of a candidate. -/
structure QuoteRepair.Frame (value : MemoryNote) (failures : List QuoteFailure) (response : Json)
    (note : MemoryNote) (outcome : QuoteRepairOutcome) : Prop where
  /-- The answer names each failing position once, and no other. -/
  named : ((repairsOf response).map QuoteRepair.key).Perm (failures.map QuoteFailure.key)
  gaps : note.gaps = value.gaps
  /-- Each section is the candidate's without the withdrawn positions. -/
  facts : ∀ s, Thinned (withdrawsAt response s) (fun i => QuoteRepair.Keeps failures response (s, i))
    (value.facts s) (note.facts s)
  /-- What is replaced is there. -/
  replaced : ∀ r ∈ repairsOf response, r.fact.isSome = true → (itemAt value.facts r.key).isSome = true
  outcome : outcome.Counts (repairsOf response)

/-- The result of quotation repairs, stated by sections. -/
theorem frame_applyQuoteRepair {len : Str → Nat} {value note : MemoryNote}
    {failures : List QuoteFailure} {response : Json} {outcome : QuoteRepairOutcome}
    (hkeys : (failures.map QuoteFailure.key).Nodup)
    (h : applyQuoteRepair len value failures response = .ok (note, outcome)) :
    QuoteRepair.Frame value failures response note outcome := by
  obtain ⟨-, hnodup, hlength, hall, hacc, hresult⟩ := (applyQuoteRepair_ok hkeys).mp h
  obtain ⟨rfl, rfl⟩ := Prod.mk.inj hresult
  have hnamed : ((repairsOf response).map QuoteRepair.key).Perm (failures.map QuoteFailure.key) := by
    have hsub : (failures.map QuoteFailure.key).Subperm ((repairsOf response).map QuoteRepair.key) := by
      apply List.subperm_of_subset hkeys
      intro key hkey
      obtain ⟨f, hf, rfl⟩ := List.mem_map.mp hkey
      exact hall f hf
    exact (hsub.perm_of_length_le (by simp [hlength])).symm
  let start : RepairState := ⟨value.facts, ⟨0, 0, 0, []⟩, []⟩
  -- The fact that an answer gives for a position is the candidate's by text and superseded IDs.
  have hkeep : ∀ r ∈ repairsOf response, ∀ fact, r.fact = some fact → ∃ before,
      itemAt value.facts r.key = some before ∧ fact.text = before.text ∧
        fact.supersedes.getD [] = before.supersedes.getD [] := by
    intro r hr fact hfact
    have hr' := hacc r hr
    rw [QuoteRepair.Acceptable, hfact] at hr'
    obtain ⟨before, hbefore, hsame⟩ := hr'
    obtain ⟨htext, hsup⟩ := of_decide_eq_true hsame
    exact ⟨before, hbefore, htext, stringify_strings_inj hsup⟩
  refine ⟨hnamed, rfl, fun s => ?_, fun r hr hsome => ?_, ?_⟩
  · have hfilter := thinned_filter (withdrawsAt response s)
      (((repairsOf response).foldl RepairState.apply start).facts s)
    simp only [withdrawsAt, ← decide_not] at hfilter
    rw [dropped_foldl_apply]
    refine Thinned.rewritten hfilter (length_foldl_apply _ _ s) fun i before hi hgone => ?_
    have hat : itemAt value.facts (s, i) = some before := hi
    by_cases hkey : (s, i) ∈ (repairsOf response).map QuoteRepair.key
    · obtain ⟨r, hr, hrkey⟩ := List.mem_map.mp hkey
      obtain ⟨fact, hfact⟩ : ∃ fact, r.fact = some fact := by
        refine Option.ne_none_iff_exists'.mp fun hnone => of_decide_eq_false hgone ?_
        exact List.mem_map.mpr ⟨r, List.mem_filter.mpr ⟨hr, by rw [hnone]; rfl⟩, hrkey⟩
      have hrun := rewrites_apply.foldl_of_mem hnodup hr start
      rw [hrkey] at hrun
      refine ⟨fact, by simpa [start, itemAt, hi, hfact] using hrun, fun hno => ?_, fun r' hr' hrkey' => ?_⟩
      · exact absurd (hnamed.mem_iff.mp hkey) hno
      · obtain rfl := List.inj_on_of_nodup_map hnodup hr' hr (hrkey'.trans hrkey.symm)
        obtain ⟨before', hbefore', hsame⟩ := hkeep r' hr fact hfact
        rw [hrkey, hat] at hbefore'
        obtain rfl := Option.some.inj hbefore'
        exact ⟨hfact, hsame⟩
    · refine ⟨before, ?_, fun _ => rfl, fun r hr hrkey => ?_⟩
      · exact (rewrites_apply.foldl_of_notMem hkey start).trans hat
      · exact absurd (List.mem_map.mpr ⟨r, hr, hrkey⟩) hkey
  · obtain ⟨fact, hfact⟩ := Option.isSome_iff_exists.mp hsome
    obtain ⟨before, hat, -⟩ := hkeep r hr fact hfact
    rw [hat]
    rfl
  · exact counts_foldl_apply _ [] ⟨rfl, rfl, rfl, fun _ => rfl, fun _ _ hn => by cases hn⟩

/-! ## The repair of sources -/

/-- What an accepted answer makes of a candidate: nothing but the sources of the named facts. -/
structure SourcesRepair.Frame (note : MemoryNote) (uncited : List FactKey) (response : Json)
    (result : MemoryNote) : Prop where
  /-- The answer names each fact without sources once, and no other. -/
  named : ((sourcesRepairsOf response).map SourcesRepair.key).Perm uncited
  gaps : result.gaps = note.gaps
  length : ∀ s, (result.facts s).length = (note.facts s).length
  others : ∀ key, key ∉ uncited → itemAt result.facts key = itemAt note.facts key
  sources : ∀ r ∈ sourcesRepairsOf response, ∃ before, itemAt note.facts r.key = some before ∧
    itemAt result.facts r.key = some { before with sources := r.sources }

/-- The result of source repairs, stated by sections. -/
theorem frame_applySourcesRepair {len : Str → Nat} {note result : MemoryNote}
    {uncited : List FactKey} {response : Json} (hkeys : uncited.Nodup)
    (h : applySourcesRepair len note uncited response = .ok result) :
    SourcesRepair.Frame note uncited response result := by
  obtain ⟨hgaps, htexts⟩ := texts_applySourcesRepair h
  obtain ⟨-, hnodup, hlength, hall, hin, rfl⟩ := (applySourcesRepair_ok hkeys).mp h
  have hnamed : ((sourcesRepairsOf response).map SourcesRepair.key).Perm uncited :=
    ((List.subperm_of_subset hkeys hall).perm_of_length_le (by simp [hlength])).symm
  refine ⟨hnamed, hgaps, fun s => ?_, fun key hkey => ?_, fun r hr => ?_⟩
  · simpa using congrArg List.length (htexts s)
  · exact rewrites_setSources.foldl_of_notMem (mt hnamed.mem_iff.mp hkey) note
  · obtain ⟨before, hat⟩ : ∃ before, itemAt note.facts r.key = some before :=
      ⟨_, List.getElem?_eq_getElem (hin r hr)⟩
    refine ⟨before, hat, ?_⟩
    have hrun := rewrites_setSources.foldl_of_mem hnodup hr note
    rwa [hat] at hrun

/-! ## Both -/

/-- An accepted repair changes what it was asked to change. An absent list of superseded IDs and an
empty one count as the same list. -/
theorem repairs_change_what_they_name (len : Str → Nat) (value : MemoryNote) (response : Json) :
    (∀ (failures : List QuoteFailure) (note : MemoryNote) (outcome : QuoteRepairOutcome),
      (failures.map QuoteFailure.key).Nodup →
      applyQuoteRepair len value failures response = .ok (note, outcome) →
        QuoteRepair.Frame value failures response note outcome) ∧
    ∀ (uncited : List FactKey) (result : MemoryNote), uncited.Nodup →
      applySourcesRepair len value uncited response = .ok result →
        SourcesRepair.Frame value uncited response result :=
  ⟨fun _ _ _ hkeys h => frame_applyQuoteRepair hkeys h,
    fun _ _ hkeys h => frame_applySourcesRepair hkeys h⟩

/-- A state whose last two quotations fail. -/
def misquotingNote : MemoryNote where
  facts
    | .state => [⟨lit "Built.", [lit "a"], none, none⟩, ⟨lit "Tested.", [lit "b"], some (lit "ok"), none⟩,
        ⟨lit "Shipped.", [lit "c"], some (lit "yes"), none⟩]
    | _ => []
  gaps := []

def misquotingFailures : List QuoteFailure :=
  [⟨.state, 1, lit "ok", [lit "b"], .absent, []⟩, ⟨.state, 2, lit "yes", [lit "c"], .absent, []⟩]

/-- The third fact without its quotation, with an empty list of superseded IDs. -/
def shippedFact : NoteFact := ⟨lit "Shipped.", [lit "c"], none, some []⟩

/-- The third fact is replaced, and the second one is withdrawn. -/
def unquotingResponse : Json := repairsResponse [⟨.state, 2, some shippedFact⟩, ⟨.state, 1, none⟩]

theorem ok_unquotingResponse : ∃ note outcome,
    applyQuoteRepair List.length misquotingNote misquotingFailures unquotingResponse =
      .ok (note, outcome) ∧ note.facts .state = [⟨lit "Built.", [lit "a"], none, none⟩, shippedFact] := by
  have hstate : (applyQuoteRepair List.length misquotingNote misquotingFailures
      unquotingResponse).toOption.map (fun result => result.1.facts .state) =
        some [⟨lit "Built.", [lit "a"], none, none⟩, shippedFact] := by decide +kernel
  cases h : applyQuoteRepair List.length misquotingNote misquotingFailures unquotingResponse with
  | error e =>
    rw [h] at hstate
    cases hstate
  | ok result =>
    rw [h] at hstate
    exact ⟨result.1, result.2, rfl, Option.some.inj hstate⟩

/-- The sources of the first fact. -/
def sourcingResponse : Json :=
  .obj [(lit "repairs", .arr [.obj [(lit "section", .str (lit "state")), (lit "index", .num (.ofNat 0)),
    (lit "sources", strings [lit "d"])]])]

/-- Both repairs of one note: what replaces the third fact takes the second place. -/
theorem repairs_change_what_they_name_misquotingNote :
    (∃ note outcome, note.facts .state = [⟨lit "Built.", [lit "a"], none, none⟩, shippedFact] ∧
      QuoteRepair.Frame misquotingNote misquotingFailures unquotingResponse note outcome) ∧
    ∃ result, applySourcesRepair List.length misquotingNote [(.state, 0)] sourcingResponse = .ok result ∧
      SourcesRepair.Frame misquotingNote [(.state, 0)] sourcingResponse result := by
  obtain ⟨note, outcome, h, hstate⟩ := ok_unquotingResponse
  have hok : (applySourcesRepair List.length misquotingNote [(.state, 0)] sourcingResponse).isOk = true := by
    decide +kernel
  cases hs : applySourcesRepair List.length misquotingNote [(.state, 0)] sourcingResponse with
  | error e => simp [hs, Except.isOk, Except.toBool] at hok
  | ok result =>
    exact ⟨⟨note, outcome, hstate,
        (repairs_change_what_they_name _ _ _).1 misquotingFailures note outcome (by decide) h⟩,
      result, rfl, (repairs_change_what_they_name _ _ _).2 [(.state, 0)] result (by decide) hs⟩

/-- A kept fact gets a list of superseded IDs where it had none. -/
theorem not_same_supersedes_misquotingNote :
    ¬ ∀ (len : Str → Nat) (value note : MemoryNote) (failures : List QuoteFailure) (response : Json)
        (outcome : QuoteRepairOutcome), (failures.map QuoteFailure.key).Nodup →
      applyQuoteRepair len value failures response = .ok (note, outcome) →
      ∀ r ∈ repairsOf response, ∀ fact, r.fact = some fact → ∃ before,
        itemAt value.facts r.key = some before ∧ fact.text = before.text ∧
          fact.supersedes = before.supersedes := by
  intro h
  obtain ⟨note, outcome, hok, -⟩ := ok_unquotingResponse
  have hmem : (⟨.state, 2, some shippedFact⟩ : QuoteRepair) ∈ repairsOf unquotingResponse := by
    decide +kernel
  obtain ⟨before, hbefore, -, hsup⟩ := h _ _ _ _ _ _ (by decide) hok _ hmem _ rfl
  obtain rfl := Option.some.inj hbefore
  cases hsup

end Compaction
