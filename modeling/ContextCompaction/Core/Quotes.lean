import ContextCompaction.Core.Notes
import ContextCompaction.Sequences.Removal
import Mathlib.Data.List.Dedup

/-!
# Failed quotations and their repair

`diagnoseQuotes` lists the quotations of a note that its sources do not contain, with the entries
that do contain them; `applyQuoteRepair` splices the writer's one answer into the note. Compatibility
normalization (`nfkc`) is Unicode data and a parameter.

* `applyQuoteRepair_ok`: what an accepted answer is, and the facts that it leaves.
* `keepsUserRulings_iff`: no accepted answer withdraws what a user message says exactly when the
  bounded list of locations shows a user message for each misquoted instruction that one contains.
-/

namespace Compaction

open Js Sequences

/-! ## Diagnosis -/

/-- Why a quotation failed. -/
inductive QuoteFailureKind where
  | elsewhere
  | format
  | absent
  deriving DecidableEq

/-- A record in which a quotation was found, and who says it there. -/
structure QuoteLocation where
  entryId : Str
  role : Str
  deriving DecidableEq

/-- A quotation that is in none of the records that its fact cites. -/
structure QuoteFailure where
  noteSection : NoteSection
  index : Nat
  quote : Str
  cited : List Str
  kind : QuoteFailureKind
  foundIn : List QuoteLocation
  deriving DecidableEq

/-- All quotations that fail, and whether a cited record could not be read. -/
structure QuoteDiagnosis where
  failures : List QuoteFailure
  unreadable : Bool
  deriving DecidableEq

/-- How many locations of a quotation are listed. -/
def MAX_LOCATIONS : Nat := 5

section

variable (nfkc : Str → Str)

/-- `text.replace(/[..]/gu, r)` for a class of single units. -/
def replaceUnits (p : UInt16 → Bool) (r : UInt16) (text : Str) : Str :=
  text.map fun u => if p u then r else u

/-- Spacing, compatibility forms and typographic punctuation. -/
def normalizeQuote (text : Str) : Str :=
  let single := replaceUnits (fun u => u == 0x2018 || u == 0x2019 || u == 0x201A || u == 0x201B ||
    u == 0x2032) 0x27 (nfkc text)
  let double := replaceUnits (fun u => u == 0x201C || u == 0x201D || u == 0x201E || u == 0x201F ||
    u == 0x2033) 0x22 single
  let dashes := replaceUnits (fun u => (0x2010 ≤ u && u ≤ 0x2015) || u == 0x2212) 0x2D double
  trim (replaceRuns isSpace (lit " ") dashes)

variable (branch : List SessionRecord)

/-- `text(id)`: an entry without text is no entry. -/
def citedText (id : Str) : Option Str := (textById branch id).filter (· ≠ [])

/-- The readable entries; of equal IDs the last record. -/
def readableEntries : List SessionRecord :=
  ((recordsById branch).map Prod.snd).filter fun entry => sourceText entry ≠ []

/-- The entries that contain a quotation. -/
def exactEntries (quote : Str) : List SessionRecord :=
  (readableEntries branch).filter fun entry => includes (sourceText entry) quote

/-- The entries that contain it after normalization. -/
def normalizedEntries (quote : Str) : List SessionRecord :=
  if normalizeQuote nfkc quote = [] then []
  else (readableEntries branch).filter fun entry =>
    includes (normalizeQuote nfkc (sourceText entry)) (normalizeQuote nfkc quote)

/-- A quotation that no source of the fact contains. -/
def misquoted (item : NoteFact) : Bool :=
  item.quote.any fun quote =>
    quote ≠ [] && !item.sources.any fun id => (citedText branch id).any fun text => includes text quote

/-- The failure of one fact, if its quotation fails. -/
def diagnoseFact (s : NoteSection) (e : NoteFact × Nat) : Option QuoteFailure :=
  if misquoted branch e.1 then
    let quote := e.1.quote.getD []
    let exactly := exactEntries branch quote
    let found := if exactly = [] then normalizedEntries nfkc branch quote else exactly
    some
      { noteSection := s, index := e.2, quote, cited := e.1.sources,
        kind := if exactly ≠ [] then .elsewhere else if found ≠ [] then .format else .absent,
        foundIn := (found.take MAX_LOCATIONS).map fun entry => ⟨entry.id, sourceRole entry⟩ }
  else none

/-- Every failing quotation of a note, and whether it cites an entry that is not readable. -/
def diagnoseQuotes (note : MemoryNote) : QuoteDiagnosis where
  failures := noteSections.flatMap fun s => (note.facts s).zipIdx.filterMap (diagnoseFact nfkc branch s)
  unreadable := note.allFacts.any fun item =>
    item.sources.any (fun id => (citedText branch id).isNone) ||
      (item.supersedes.getD []).any fun id => (citedText branch id).isNone

end

/-! ## Repair -/

/-- More failing quotations than this point at the whole note. -/
def QUOTE_REPAIR_MAX_FACTS : Nat := 5

/-- The schema of a section's name. -/
def sectionSchema : Schema := .union (noteSections.map fun s => .literal (lit s.name))

/-- The schema of an answer to a quotation repair. -/
def quoteRepairSchema : Schema :=
  .object [(lit "repairs", false, .array
    (.object [(lit "section", false, sectionSchema), (lit "index", false, .integer 0),
      (lit "fact", false, .union [factSchema, .null])]) 1 QUOTE_REPAIR_MAX_FACTS false)]

/-- One repair: the fact it answers, and its replacement or `null`. -/
structure QuoteRepair where
  noteSection : NoteSection
  index : Nat
  fact : Option NoteFact
  deriving DecidableEq

/-- The section and index of a fact. Section names have no colon, so the text
`${section}:${index}` tells pairs apart. -/
abbrev FactKey := NoteSection × Nat

/-- The fact of a failure. -/
def QuoteFailure.key (f : QuoteFailure) : FactKey := (f.noteSection, f.index)

/-- The fact that a repair is about. -/
def QuoteRepair.key (r : QuoteRepair) : FactKey := (r.noteSection, r.index)

/-- The section of a name. -/
def NoteSection.ofName (name : Str) : NoteSection :=
  (noteSections.find? fun s => decide (lit s.name = name)).getD .instructions

/-- A repair that is read from its JSON. -/
def QuoteRepair.ofJson (v : Json) : QuoteRepair where
  noteSection := .ofName (((v.get? (lit "section")).bind Json.str?).getD [])
  index := ((v.get? (lit "index")).bind count?).getD 0
  fact := match v.get? (lit "fact") with
    | none | some .null => none
    | some fact => some (NoteFact.ofJson fact)

/-- A repair as JSON; a withdrawn fact is `null`. -/
def QuoteRepair.toJson (r : QuoteRepair) : Json :=
  .obj [(lit "section", .str (lit r.noteSection.name)), (lit "index", .num (.ofNat r.index)),
    (lit "fact", (r.fact.map NoteFact.toJson).getD .null)]

/-- The repairs of an answer. -/
def repairsOf (response : Json) : List QuoteRepair :=
  (((response.get? (lit "repairs")).bind Json.arr?).getD []).map QuoteRepair.ofJson

/-- A repaired fact says the same, and supersedes the same records. -/
def sameFact (before after : NoteFact) : Bool :=
  decide (after.text = before.text ∧
    stringify (strings (after.supersedes.getD [])) = stringify (strings (before.supersedes.getD [])))

/-- What a repair did to the note, as counts. -/
structure QuoteRepairOutcome where
  requoted : Nat
  unquoted : Nat
  dropped : Nat
  droppedFrom : List (NoteSection × Nat)
  deriving DecidableEq

/-- The note and the counts while the repairs are applied, and the facts that are withdrawn. -/
structure RepairState where
  facts : NoteSection → List NoteFact
  outcome : QuoteRepairOutcome
  dropped : List FactKey

/-- A fact is withdrawn. -/
def RepairState.drop (st : RepairState) (key : FactKey) : RepairState :=
  { st with
    outcome := { st.outcome with
      dropped := st.outcome.dropped + 1
      droppedFrom := mapSet st.outcome.droppedFrom key.1
        ((mapGet st.outcome.droppedFrom key.1).getD 0 + 1) }
    dropped := st.dropped ++ [key] }

/-- A fact is replaced, with a quotation or without one. -/
def RepairState.replace (st : RepairState) (key : FactKey) (fact : NoteFact) : RepairState :=
  { st with
    facts := fun s => if s = key.1 then (st.facts s).set key.2 fact else st.facts s
    outcome := if fact.quote.getD [] = [] then
        { st.outcome with unquoted := st.outcome.unquoted + 1 }
      else { st.outcome with requoted := st.outcome.requoted + 1 } }

/-- One repair. -/
def repairStep (value : MemoryNote) (userRuling : List FactKey) (st : RepairState)
    (repair : QuoteRepair) : Except Failure RepairState :=
  match repair.fact with
  | none =>
    if repair.noteSection = .instructions ∧ repair.key ∈ userRuling then
      .error (.ofText "CONTEXT_NOTE_REPAIR_LOSS: a quotation repair may not withdraw an instruction whose quotation a user message contains; no checkpoint committed")
    else .ok (st.drop repair.key)
  | some fact =>
    match (value.facts repair.noteSection)[repair.index]? with
    | none => .error (.typeError (lit "Cannot read properties of undefined (reading 'text')"))
    | some before =>
      if sameFact before fact then .ok (st.replace repair.key fact)
      else .error (.ofText "CONTEXT_NOTE_REPAIR_LOSS: a quotation repair may change only sources and quote; no checkpoint committed")

/-- The failing facts that a user message is shown for. -/
def userRulings (failures : List QuoteFailure) : List FactKey :=
  (failures.filter fun f => f.foundIn.any fun location => location.role = lit "user").map
    QuoteFailure.key

/-- The facts that are not withdrawn. -/
def keptFacts (facts : NoteSection → List NoteFact) (dropped : List FactKey) (s : NoteSection) :
    List NoteFact :=
  ((facts s).zipIdx.filter fun e => (s, e.2) ∉ dropped).map Prod.fst

/-- The writer's replacements, spliced into the candidate. -/
def applyQuoteRepair (len : Str → Nat) (value : MemoryNote) (failures : List QuoteFailure)
    (response : Json) : Except Failure (MemoryNote × QuoteRepairOutcome) :=
  if !check len quoteRepairSchema response then
    .error (.ofText "CONTEXT_NOTE_INVALID: the quotation repair did not return its schema")
  else
    let repairs := repairsOf response
    let wanted := (failures.map QuoteFailure.key).dedup
    let given := (repairs.map QuoteRepair.key).dedup
    if given.length ≠ repairs.length ∨ given.length ≠ wanted.length ∨ ∃ key ∈ wanted, key ∉ given then
      .error (.ofText "CONTEXT_NOTE_INVALID: the quotation repair must answer each failing fact exactly once")
    else
      (repairs.foldlM (repairStep value (userRulings failures)) ⟨value.facts, ⟨0, 0, 0, []⟩, []⟩).map
        fun st => (⟨keptFacts st.facts st.dropped, value.gaps⟩, st.outcome)

/-! ## What is accepted -/

/-- The facts that an answer withdraws. -/
def withdrawn (response : Json) : List FactKey :=
  ((repairsOf response).filter fun r => r.fact.isNone).map QuoteRepair.key

/-- The answer withdraws the fact at a position of a section. -/
def withdrawsAt (response : Json) (s : NoteSection) (i : Nat) : Bool := decide ((s, i) ∈ withdrawn response)

/-- A repair that its step does not refuse. -/
def QuoteRepair.Acceptable (value : MemoryNote) (userRuling : List FactKey) (r : QuoteRepair) : Prop :=
  match r.fact with
  | none => r.noteSection = .instructions → r.key ∉ userRuling
  | some fact => ∃ before, (value.facts r.noteSection)[r.index]? = some before ∧
      sameFact before fact = true

/-- What an accepted repair does. -/
def RepairState.apply (st : RepairState) (r : QuoteRepair) : RepairState :=
  match r.fact with
  | none => st.drop r.key
  | some fact => st.replace r.key fact

section

variable {len : Str → Nat} {value : MemoryNote} {userRuling : List FactKey}

/-- A repair is applied exactly when it is acceptable. -/
theorem repairStep_ok {st st' : RepairState} {r : QuoteRepair} :
    repairStep value userRuling st r = .ok st' ↔
      r.Acceptable value userRuling ∧ st' = st.apply r := by
  unfold repairStep QuoteRepair.Acceptable RepairState.apply
  cases r.fact with
  | none =>
    by_cases h : r.noteSection = .instructions ∧ r.key ∈ userRuling
    · simp [h]
    · simp only [h, ↓reduceIte, Except.ok.injEq]
      grind
  | some fact =>
    cases (value.facts r.noteSection)[r.index]? with
    | none => simp
    | some before =>
      by_cases h : sameFact before fact = true
      · simp only [h, ↓reduceIte, Except.ok.injEq, Option.some.injEq, exists_eq_left', true_and]
        exact eq_comm
      · simp [h]

/-- Repairs are applied exactly when each of them is acceptable. -/
theorem foldlM_repairStep {repairs : List QuoteRepair} {st st' : RepairState} :
    repairs.foldlM (repairStep value userRuling) st = .ok st' ↔
      (∀ r ∈ repairs, r.Acceptable value userRuling) ∧ st' = repairs.foldl RepairState.apply st := by
  induction repairs generalizing st with
  | nil => simp [pure, Except.pure, eq_comm]
  | cons r repairs ih =>
    rw [List.foldlM_cons, bind_ok, List.foldl_cons, List.forall_mem_cons]
    constructor
    · rintro ⟨st₁, h₁, h₂⟩
      obtain ⟨hr, rfl⟩ := repairStep_ok.mp h₁
      obtain ⟨hrs, rfl⟩ := ih.mp h₂
      exact ⟨⟨hr, hrs⟩, rfl⟩
    · rintro ⟨⟨hr, hrs⟩, rfl⟩
      exact ⟨_, repairStep_ok.mpr ⟨hr, rfl⟩, ih.mpr ⟨hrs, rfl⟩⟩

/-- An accepted answer has the schema, answers each failing fact once, and has no repair that is
refused. -/
theorem applyQuoteRepair_ok {failures : List QuoteFailure} {response : Json}
    {result : MemoryNote × QuoteRepairOutcome}
    (hkeys : (failures.map QuoteFailure.key).Nodup) :
    applyQuoteRepair len value failures response = .ok result ↔
      check len quoteRepairSchema response = true ∧
        ((repairsOf response).map QuoteRepair.key).Nodup ∧
        (repairsOf response).length = failures.length ∧
        (∀ f ∈ failures, f.key ∈ (repairsOf response).map QuoteRepair.key) ∧
        (∀ r ∈ repairsOf response, r.Acceptable value (userRulings failures)) ∧
        let st := (repairsOf response).foldl RepairState.apply ⟨value.facts, ⟨0, 0, 0, []⟩, []⟩
        result = (⟨keptFacts st.facts st.dropped, value.gaps⟩, st.outcome) := by
  have hdedup : ∀ keys : List FactKey, keys.dedup.length = keys.length ↔ keys.Nodup := fun keys =>
    ⟨fun h => List.dedup_eq_self.mp ((List.dedup_sublist keys).eq_of_length h), fun h => by
      rw [h.dedup]⟩
  unfold applyQuoteRepair
  by_cases hc : check len quoteRepairSchema response = true
  · simp only [hc, Bool.not_true, Bool.false_eq_true, ↓reduceIte, hkeys.dedup, List.length_map, ne_eq,
      true_and]
    by_cases hg : ((repairsOf response).map QuoteRepair.key).Nodup
    · rw [hg.dedup, List.length_map]
      by_cases hl : (repairsOf response).length = failures.length
      · by_cases hw : ∃ key ∈ failures.map QuoteFailure.key,
            key ∉ (repairsOf response).map QuoteRepair.key
        · rw [if_pos (by simp only [hw, or_true])]
          obtain ⟨key, hkey, hno⟩ := hw
          obtain ⟨f, hf, rfl⟩ := List.mem_map.mp hkey
          simp only [reduceCtorEq, false_iff, not_and]
          exact fun _ _ hall => absurd (hall f hf) hno
        · rw [if_neg (by simp [hl] at hw ⊢; exact hw), map_ok]
          simp only [foldlM_repairStep, hg, hl, true_and]
          have hall : ∀ f ∈ failures, f.key ∈ (repairsOf response).map QuoteRepair.key := by
            intro f hf
            by_contra hno
            exact hw ⟨f.key, List.mem_map_of_mem hf, hno⟩
          constructor
          · rintro ⟨st, ⟨hr, rfl⟩, rfl⟩
            exact ⟨hall, hr, rfl⟩
          · rintro ⟨-, hr, rfl⟩
            exact ⟨_, ⟨hr, rfl⟩, rfl⟩
      · rw [if_pos (by simp [hl])]
        simp [hl]
    · rw [if_pos (.inl fun h => hg ((hdedup _).mp (by simpa using h)))]
      simp [hg]
  · simp [hc]

/-! ### What is left -/

theorem dropped_foldl_apply (repairs : List QuoteRepair) (st : RepairState) :
    (repairs.foldl RepairState.apply st).dropped =
      st.dropped ++ (repairs.filter fun r => r.fact.isNone).map QuoteRepair.key := by
  induction repairs generalizing st with
  | nil => simp
  | cons r repairs ih =>
    rw [List.foldl_cons, ih, RepairState.apply]
    cases h : r.fact <;> simp [h, RepairState.drop, RepairState.replace]

/-- Accepted repairs change no text. -/
theorem texts_foldl_apply {repairs : List QuoteRepair} {st : RepairState}
    (h : ∀ r ∈ repairs, r.Acceptable value userRuling)
    (hst : ∀ s, (st.facts s).map NoteFact.text = (value.facts s).map NoteFact.text) (s : NoteSection) :
    ((repairs.foldl RepairState.apply st).facts s).map NoteFact.text =
      (value.facts s).map NoteFact.text := by
  induction repairs generalizing st with
  | nil => exact hst s
  | cons r repairs ih =>
    rw [List.foldl_cons]
    refine ih (fun r' hr' => h r' (List.mem_cons_of_mem _ hr')) fun s => ?_
    have hr := h r List.mem_cons_self
    unfold QuoteRepair.Acceptable at hr
    unfold RepairState.apply
    cases hf : r.fact with
    | none => exact hst s
    | some fact =>
      rw [hf] at hr
      obtain ⟨before, hget, hsame⟩ := hr
      have htext : fact.text = before.text := (of_decide_eq_true hsame).1
      by_cases hs : s = r.noteSection
      · subst hs
        simp only [RepairState.replace, QuoteRepair.key, ↓reduceIte, List.map_set, hst]
        apply List.ext_getElem?
        intro k
        rw [List.getElem?_set]
        by_cases hk : r.index = k
        · subst hk
          have hlt : r.index < (value.facts r.noteSection).length :=
            (List.getElem?_eq_some_iff.mp hget).1
          rw [if_pos rfl, List.length_map, if_pos hlt, List.getElem?_map, hget, htext]
          rfl
        · rw [if_neg hk]
      · simpa [RepairState.replace, QuoteRepair.key, hs] using hst s

theorem map_keptFacts (facts : NoteSection → List NoteFact) (dropped : List FactKey)
    (s : NoteSection) :
    (keptFacts facts dropped s).map NoteFact.text =
      ((((facts s).map NoteFact.text).zipIdx.filter fun e => (s, e.2) ∉ dropped)).map Prod.fst := by
  rw [keptFacts, List.zipIdx_map, List.filter_map, List.map_map, List.map_map]
  rfl

/-- The result keeps every text, in order, but those at the withdrawn positions. -/
theorem texts_applyQuoteRepair {failures : List QuoteFailure} {response : Json}
    {result : MemoryNote × QuoteRepairOutcome} (hkeys : (failures.map QuoteFailure.key).Nodup)
    (h : applyQuoteRepair len value failures response = .ok result) (s : NoteSection) :
    Thinned (withdrawsAt response s) (fun _ before after => after = before)
      ((value.facts s).map NoteFact.text) ((result.1.facts s).map NoteFact.text) := by
  obtain ⟨-, -, -, -, hacc, rfl⟩ := (applyQuoteRepair_ok hkeys).mp h
  rw [map_keptFacts, texts_foldl_apply hacc (fun _ => rfl), dropped_foldl_apply]
  have hfilter := thinned_filter (withdrawsAt response s) ((value.facts s).map NoteFact.text)
  simp only [withdrawsAt, ← decide_not] at hfilter
  exact hfilter

end

/-! ## The failures of a note -/

section

variable {nfkc : Str → Str} {branch : List SessionRecord} {note : MemoryNote}

theorem diagnoseFact_some {s : NoteSection} {e : NoteFact × Nat} {f : QuoteFailure}
    (h : diagnoseFact nfkc branch s e = some f) : f.key = (s, e.2) ∧ misquoted branch e.1 = true := by
  unfold diagnoseFact at h
  split at h
  · rename_i hm
    obtain rfl := Option.some.inj h
    exact ⟨rfl, hm⟩
  · cases h

theorem isSome_diagnoseFact (s : NoteSection) (e : NoteFact × Nat) :
    (diagnoseFact nfkc branch s e).isSome = misquoted branch e.1 := by
  unfold diagnoseFact
  split
  · rename_i hm
    simp [hm]
  · rename_i hm
    simpa using hm

theorem mem_failures {f : QuoteFailure} :
    f ∈ (diagnoseQuotes nfkc branch note).failures ↔
      ∃ s item i, (note.facts s)[i]? = some item ∧ diagnoseFact nfkc branch s (item, i) = some f := by
  simp only [diagnoseQuotes, List.mem_flatMap, mem_noteSections, true_and, List.mem_filterMap,
    Prod.exists, List.mem_zipIdx_iff_getElem?]

/-- As many failures as misquoted facts. -/
theorem length_failures :
    (diagnoseQuotes nfkc branch note).failures.length = note.allFacts.countP (misquoted branch) := by
  rw [diagnoseQuotes, MemoryNote.allFacts, List.length_flatMap, List.countP_flatMap]
  congr 1
  refine List.map_congr_left fun s _ => ?_
  have hsome : ∀ l : List (NoteFact × Nat), (l.filterMap (diagnoseFact nfkc branch s)).length =
      (l.map Prod.fst).countP (misquoted branch) := by
    intro l
    induction l with
    | nil => rfl
    | cons e l ih =>
      have he : (diagnoseFact nfkc branch s e).isSome = misquoted branch e.1 :=
        isSome_diagnoseFact s e
      rw [List.map_cons, List.countP_cons, ← ih, ← he]
      cases hd : diagnoseFact nfkc branch s e <;> simp [hd]
  rw [hsome, List.zipIdx_map_fst]
  rfl

/-- No fact is diagnosed twice. -/
theorem nodup_failures : ((diagnoseQuotes nfkc branch note).failures.map QuoteFailure.key).Nodup := by
  rw [diagnoseQuotes, List.map_flatMap, List.nodup_flatMap]
  have hkey : ∀ s, ∀ key ∈ ((note.facts s).zipIdx.filterMap (diagnoseFact nfkc branch s)).map
      QuoteFailure.key, key.1 = s := by
    intro s key hkey
    obtain ⟨f, hf, rfl⟩ := List.mem_map.mp hkey
    obtain ⟨e, -, he⟩ := List.mem_filterMap.mp hf
    rw [(diagnoseFact_some he).1]
  constructor
  · intro s _
    have hsub : List.Sublist (((note.facts s).zipIdx.filterMap (diagnoseFact nfkc branch s)).map
        QuoteFailure.key) ((note.facts s).zipIdx.map fun e => (s, e.2)) := by
      generalize (note.facts s).zipIdx = l
      induction l with
      | nil => exact .slnil
      | cons e l ih =>
        cases hd : diagnoseFact nfkc branch s e with
        | none => simpa [hd] using ih.cons _
        | some f =>
          rw [List.filterMap_cons_some hd, List.map_cons, List.map_cons, (diagnoseFact_some hd).1]
          exact ih.cons_cons _
    refine List.Nodup.sublist hsub ?_
    have hmap : (note.facts s).zipIdx.map (fun e => (s, e.2)) =
        ((note.facts s).zipIdx.map Prod.snd).map fun i => (s, i) := by
      rw [List.map_map]
      rfl
    rw [hmap, List.zipIdx_map_snd]
    exact List.Nodup.map (fun i j h => (Prod.mk.inj h).2) List.nodup_range'
  · refine (List.nodup_iff_pairwise_ne.mp (by decide : noteSections.Nodup)).imp fun hne => ?_
    intro key h₁ h₂
    exact hne ((hkey _ key h₁).symm.trans (hkey _ key h₂))

theorem ofName_name (s : NoteSection) : NoteSection.ofName (lit s.name) = s := by
  cases s <;> simp [NoteSection.ofName, noteSections, NoteSection.name]

theorem QuoteRepair.ofJson_toJson {r : QuoteRepair} (h : r.index < 2 ^ 53) :
    QuoteRepair.ofJson r.toJson = r := by
  obtain ⟨s, i, fact⟩ := r
  have hname := ofName_name s
  have hindex := count?_ofNat h
  cases fact with
  | none => simp [QuoteRepair.ofJson, QuoteRepair.toJson, hname, hindex]
  | some fact =>
    have hfact : ∃ fields, fact.toJson = .obj fields := ⟨_, rfl⟩
    have hread := NoteFact.ofJson_toJson fact
    obtain ⟨fields, hf⟩ := hfact
    rw [hf] at hread
    simp [QuoteRepair.ofJson, QuoteRepair.toJson, hname, hindex, hf, hread]

/-- The answer that gives these repairs. -/
def repairsResponse (repairs : List QuoteRepair) : Json :=
  .obj [(lit "repairs", .arr (repairs.map QuoteRepair.toJson))]

theorem repairsOf_repairsResponse {repairs : List QuoteRepair} (h : ∀ r ∈ repairs, r.index < 2 ^ 53) :
    repairsOf (repairsResponse repairs) = repairs := by
  have hmap : (repairs.map QuoteRepair.toJson).map QuoteRepair.ofJson = repairs := by
    rw [List.map_map]
    exact (List.map_congr_left fun r hr => QuoteRepair.ofJson_toJson (h r hr)).trans (List.map_id _)
  simpa [repairsOf, repairsResponse] using hmap

theorem length_repairsOf {response : Json} (h : check len quoteRepairSchema response = true) :
    (repairsOf response).length ≤ QUOTE_REPAIR_MAX_FACTS := by
  rw [quoteRepairSchema, check_object] at h
  obtain ⟨fields, rfl, -, h⟩ := h
  have hrepairs := h _ List.mem_cons_self
  cases hv : mapGet fields (lit "repairs") with
  | none => simp [hv] at hrepairs
  | some v =>
    simp only [hv] at hrepairs
    obtain ⟨xs, rfl, hlen, -⟩ := check_array.mp hrepairs
    simpa [repairsOf, hv] using hlen.2

theorem check_section (s : NoteSection) : check len sectionSchema (.str (lit s.name)) = true := by
  cases s <;> simp [sectionSchema, noteSections, check, checkAny]

/-- A list of at most five valid repairs passes the schema. -/
theorem check_repairsResponse {repairs : List QuoteRepair} (h₁ : 1 ≤ repairs.length)
    (h₂ : repairs.length ≤ QUOTE_REPAIR_MAX_FACTS) (hindex : ∀ r ∈ repairs, r.index < 2 ^ 53)
    (hfact : ∀ r ∈ repairs, ∀ fact, r.fact = some fact → fact.Valid len) :
    check len quoteRepairSchema (repairsResponse repairs) = true := by
  rw [quoteRepairSchema, check_object]
  refine ⟨_, rfl, by simp, ?_⟩
  simp only [List.mem_singleton, forall_eq, mapGet_cons, ↓reduceIte]
  refine check_array.mpr ⟨_, rfl, by simpa using ⟨h₁, h₂⟩, fun x hx => ?_, by simp⟩
  obtain ⟨r, hr, rfl⟩ := List.mem_map.mp hx
  have hcount := count?_ofNat (hindex r hr)
  have hunion : checkAny len [factSchema, .null] ((r.fact.map NoteFact.toJson).getD .null) =
      true := by
    cases hf : r.fact with
    | none => simp [check, checkAny]
    | some fact => simp [check, checkAny, NoteFact.check_toJson (hfact r hr fact hf)]
  rw [check_object]
  refine ⟨_, rfl, by simp, ?_⟩
  simp [check_section, hunion, check, hcount]

end

/-! ## What the user said -/

section

variable (len : Str → Nat) (nfkc : Str → Str) (note : MemoryNote) (branch : List SessionRecord)

/-- The result of an answer has the instruction at an index of the candidate: it is not withdrawn, and
it stands, with its text, at the place that the withdrawals before it leave it. -/
def HoldsInstruction (response : Json) (result : MemoryNote) (i : Nat) (item : NoteFact) : Prop :=
  withdrawsAt response .instructions i = false ∧
    ∃ kept, (result.facts .instructions)[place (withdrawsAt response .instructions) i]? = some kept ∧
      kept.text = item.text

/-- Whatever answer is accepted, an instruction that its result lacks has a quotation that no user
message contains. -/
def KeepsUserRulings : Prop :=
  ∀ response result,
    applyQuoteRepair len note (diagnoseQuotes nfkc branch note).failures response = .ok result →
    ∀ i item quote, (note.facts .instructions)[i]? = some item → item.quote = some quote →
      ¬ HoldsInstruction response result.1 i item →
      ∀ r ∈ branch, r.isUser = true → includes (sourceText r) quote = false

/-- A user message is among the first locations of a quotation. -/
def RulingShown (quote : Str) : Prop :=
  let found := if exactEntries branch quote = [] then normalizedEntries nfkc branch quote
    else exactEntries branch quote
  ∃ entry ∈ found.take MAX_LOCATIONS, entry.isUser = true

/-- In a note that may be repaired, the locations show a user message for each misquoted
instruction that some user message contains. -/
def RulingsShown : Prop :=
  note.allFacts.countP (misquoted branch) ≤ QUOTE_REPAIR_MAX_FACTS →
    ∀ item ∈ note.facts .instructions, misquoted branch item = true →
      ∀ quote, item.quote = some quote →
        (∃ r ∈ branch, r.isUser = true ∧ includes (sourceText r) quote = true) →
        RulingShown nfkc branch quote

end

section

variable {len : Str → Nat} {nfkc : Str → Str} {branch : List SessionRecord} {note : MemoryNote}

/-- Of the readable entries only user messages have the role `user`. -/
theorem sourceRole_eq_user {r : SessionRecord} (h : sourceText r ≠ []) :
    sourceRole r = lit "user" ↔ r.isUser = true := by
  unfold SessionRecord.isUser
  by_cases ht : r.type = .message
  · simp [sourceRole, ht]
  · have hno : sourceRole r ≠ lit "user" := by
      intro hr
      have hname : strField r.fields "type" = lit "user" := by
        unfold sourceRole at hr
        split at hr
        · contradiction
        · exact hr
      apply h
      have htype : r.type = .other (lit "user") := by
        simp [SessionRecord.type, hname, RecordType.ofName]
      rw [sourceText, htype]
    simp [ht, hno]

theorem sourceText_ne_nil_of_found {quote : Str} {entry : SessionRecord}
    (h : entry ∈ (if exactEntries branch quote = [] then normalizedEntries nfkc branch quote
      else exactEntries branch quote)) : sourceText entry ≠ [] := by
  have hreadable : entry ∈ readableEntries branch := by
    unfold exactEntries normalizedEntries at h
    split at h
    · split at h
      · cases h
      · exact (List.mem_filter.mp h).1
    · exact (List.mem_filter.mp h).1
  simpa using (List.mem_filter.mp hreadable).2

/-- A failing fact counts as the user's own exactly when its locations show a user message. -/
theorem mem_userRulings {s : NoteSection} {i : Nat} {item : NoteFact} {quote : Str}
    (hi : (note.facts s)[i]? = some item) (hm : misquoted branch item = true)
    (hq : item.quote = some quote) :
    (s, i) ∈ userRulings (diagnoseQuotes nfkc branch note).failures ↔
      RulingShown nfkc branch quote := by
  have hsome : (diagnoseFact nfkc branch s (item, i)).isSome = true :=
    (isSome_diagnoseFact s (item, i)).trans hm
  obtain ⟨f, hf⟩ := Option.isSome_iff_exists.mp hsome
  have hunique : ∀ g ∈ (diagnoseQuotes nfkc branch note).failures, g.key = (s, i) → g = f := by
    intro g hg hkey
    obtain ⟨s', item', i', hi', hd⟩ := mem_failures.mp hg
    obtain ⟨rfl, rfl⟩ := Prod.mk.inj (hkey.symm.trans (diagnoseFact_some hd).1)
    obtain rfl := Option.some.inj (hi.symm.trans hi')
    exact Option.some.inj (hd.symm.trans hf)
  have hshown : (f.foundIn.any fun location => location.role = lit "user") = true ↔
      RulingShown nfkc branch quote := by
    simp only [diagnoseFact, hm, ↓reduceIte, hq, Option.getD_some, Option.some.injEq] at hf
    subst hf
    simp only [List.any_map, List.any_eq_true, Function.comp_apply, decide_eq_true_eq, RulingShown]
    refine exists_congr fun entry => and_congr_right fun he => ?_
    exact sourceRole_eq_user (sourceText_ne_nil_of_found (List.mem_of_mem_take he))
  rw [← hshown]
  constructor
  · intro hmem
    obtain ⟨g, hg, hkey⟩ := List.mem_map.mp hmem
    obtain ⟨hg, hrole⟩ := List.mem_filter.mp hg
    rwa [← hunique g hg hkey]
  · intro hrole
    have hmem := mem_failures.mpr ⟨s, item, i, hi, hf⟩
    rw [← (diagnoseFact_some hf).1]
    exact List.mem_map_of_mem (List.mem_filter.mpr ⟨hmem, hrole⟩)

/-- The answer that withdraws one fact and leaves the other failing ones as they are. -/
def withdrawOnly (note : MemoryNote) (failures : List QuoteFailure) (key : FactKey) : List QuoteRepair :=
  failures.map fun f =>
    ⟨f.noteSection, f.index, if f.key = key then none else (note.facts f.noteSection)[f.index]?⟩

theorem keys_withdrawOnly (note : MemoryNote) (failures : List QuoteFailure) (key : FactKey) :
    (withdrawOnly note failures key).map QuoteRepair.key = failures.map QuoteFailure.key := by
  rw [withdrawOnly, List.map_map]
  rfl

/-- A failure names a fact of the note. -/
theorem fact_of_mem_failures {f : QuoteFailure} (hf : f ∈ (diagnoseQuotes nfkc branch note).failures) :
    ∃ fact, (note.facts f.noteSection)[f.index]? = some fact := by
  obtain ⟨s, fact, j, hj, hd⟩ := mem_failures.mp hf
  obtain ⟨hs, hx⟩ := Prod.mk.inj (diagnoseFact_some hd).1
  rw [hs, hx]
  exact ⟨fact, hj⟩

/-- The answer's indexes are those of facts, so the schema's bound holds of them. -/
theorem index_withdrawOnly (h : note.Valid len) {key : FactKey} {r : QuoteRepair}
    (hr : r ∈ withdrawOnly note (diagnoseQuotes nfkc branch note).failures key) : r.index < 2 ^ 53 := by
  obtain ⟨f, hf, rfl⟩ := List.mem_map.mp hr
  obtain ⟨fact, hfact⟩ := fact_of_mem_failures hf
  have hlt : f.index < (note.facts f.noteSection).length := (List.getElem?_eq_some_iff.mp hfact).1
  have hmax : f.noteSection.maxItems ≤ 40 := by cases f.noteSection <;> decide
  have hitems := (h.items f.noteSection).2
  change f.index < 2 ^ 53
  omega

/-- Each of its repairs is acceptable, if the fact it withdraws is not known as the user's. -/
theorem acceptable_withdrawOnly {key : FactKey}
    (hno : key ∉ userRulings (diagnoseQuotes nfkc branch note).failures) {r : QuoteRepair}
    (hr : r ∈ withdrawOnly note (diagnoseQuotes nfkc branch note).failures key) :
    r.Acceptable note (userRulings (diagnoseQuotes nfkc branch note).failures) := by
  obtain ⟨f, hf, rfl⟩ := List.mem_map.mp hr
  obtain ⟨fact, hfact⟩ := fact_of_mem_failures hf
  unfold QuoteRepair.Acceptable
  by_cases hk : f.key = key
  · have hkey : QuoteRepair.key ⟨f.noteSection, f.index, none⟩ = key := hk
    simpa [hk, hkey] using fun _ => hno
  · simp only [hk, ↓reduceIte, hfact]
    exact ⟨fact, rfl, by simp [sameFact]⟩

/-- An instruction that is misquoted and not known as the user's can be withdrawn. -/
theorem withdrawOnly_accepted (h : note.Valid len) {i : Nat} {item : NoteFact}
    (hi : (note.facts .instructions)[i]? = some item) (hm : misquoted branch item = true)
    (hfew : note.allFacts.countP (misquoted branch) ≤ QUOTE_REPAIR_MAX_FACTS)
    (hno : (.instructions, i) ∉ userRulings (diagnoseQuotes nfkc branch note).failures) :
    ∃ response result,
      applyQuoteRepair len note (diagnoseQuotes nfkc branch note).failures response = .ok result ∧
        (.instructions, i) ∈ withdrawn response := by
  have hsome : (diagnoseFact nfkc branch .instructions (item, i)).isSome = true :=
    (isSome_diagnoseFact .instructions (item, i)).trans hm
  obtain ⟨f₀, hf₀⟩ := Option.isSome_iff_exists.mp hsome
  have hmem₀ := mem_failures.mpr ⟨_, item, i, hi, hf₀⟩
  have hkey₀ := (diagnoseFact_some hf₀).1
  set failures := (diagnoseQuotes nfkc branch note).failures with hfailures
  have hindex : ∀ r ∈ withdrawOnly note failures (.instructions, i), r.index < 2 ^ 53 :=
    fun r hr => index_withdrawOnly h hr
  have hrepairs := repairsOf_repairsResponse hindex
  refine ⟨repairsResponse (withdrawOnly note failures (.instructions, i)), _,
    (applyQuoteRepair_ok nodup_failures).mpr ⟨?_, ?_, ?_, ?_, ?_, rfl⟩, ?_⟩
  · refine check_repairsResponse ?_ ?_ hindex fun r hr fact hfact => ?_
    · rw [withdrawOnly, List.length_map]
      exact List.length_pos_of_mem hmem₀
    · rw [withdrawOnly, List.length_map, hfailures, length_failures]
      exact hfew
    · obtain ⟨f, hf, rfl⟩ := List.mem_map.mp hr
      simp only at hfact
      split at hfact
      · cases hfact
      · exact h.facts _ _ (List.mem_of_getElem? hfact)
  · rw [hrepairs, keys_withdrawOnly]
    exact nodup_failures
  · rw [hrepairs, withdrawOnly, List.length_map]
  · rw [hrepairs, keys_withdrawOnly]
    exact fun f hf => List.mem_map_of_mem hf
  · rw [hrepairs]
    exact fun r hr => acceptable_withdrawOnly hno hr
  · rw [withdrawn, hrepairs]
    refine List.mem_map.mpr ⟨⟨f₀.noteSection, f₀.index, none⟩, List.mem_filter.mpr ⟨?_, rfl⟩, hkey₀⟩
    exact List.mem_map.mpr ⟨f₀, hmem₀, by simp [hkey₀]⟩

/-- Quotation repairs keep what the user said exactly when the locations show it. -/
theorem keepsUserRulings_iff (h : note.Valid len) :
    KeepsUserRulings len nfkc note branch ↔ RulingsShown nfkc note branch := by
  constructor
  · intro hkeep hfew item hitem hm quote hq ⟨r, hr, huser, hin⟩
    obtain ⟨i, hi⟩ := List.getElem?_of_mem hitem
    by_contra hshown
    have hiff : (.instructions, i) ∈ userRulings (diagnoseQuotes nfkc branch note).failures ↔
        RulingShown nfkc branch quote := mem_userRulings hi hm hq
    have hno := mt hiff.mp hshown
    obtain ⟨response, result, happly, hw⟩ := withdrawOnly_accepted h hi hm hfew hno
    have hlacks : ¬ HoldsInstruction response result.1 i item := by
      rintro ⟨hkept, -⟩
      exact of_decide_eq_false hkept hw
    have := hkeep response result happly i item quote hi hq hlacks r hr huser
    simp [hin] at this
  · intro hshown response result happly i item quote hi hq hlacks r hr huser
    -- What the answer does not withdraw is in the result.
    have hw : (.instructions, i) ∈ withdrawn response := by
      by_contra hno
      have hgone : withdrawsAt response .instructions i = false := decide_eq_false hno
      obtain ⟨text, htext, rfl⟩ := (texts_applyQuoteRepair nodup_failures happly .instructions).kept i
        item.text (by rw [List.getElem?_map, hi, Option.map_some]) hgone
      rw [List.getElem?_map] at htext
      obtain ⟨kept, hkept, hsame⟩ := Option.map_eq_some_iff.mp htext
      exact hlacks ⟨hgone, kept, hkept, hsame⟩
    obtain ⟨hcheck, hnodup, hlength, hall, hacc, -⟩ := (applyQuoteRepair_ok nodup_failures).mp happly
    obtain ⟨repair, hrepair, hkey⟩ := List.mem_map.mp hw
    obtain ⟨hrepair, hnull⟩ := List.mem_filter.mp hrepair
    by_contra hin
    rw [Bool.not_eq_false] at hin
    have hm : misquoted branch item = true := by
      have hwanted : ((diagnoseQuotes nfkc branch note).failures.map QuoteFailure.key).Subperm
          ((repairsOf response).map QuoteRepair.key) := by
        refine List.subperm_of_subset nodup_failures fun key hk => ?_
        obtain ⟨f, hf, rfl⟩ := List.mem_map.mp hk
        exact hall f hf
      have hperm := hwanted.perm_of_length_le (by simp [hlength])
      have hfailing := hperm.mem_iff.mpr (List.mem_map.mpr ⟨repair, hrepair, hkey⟩)
      obtain ⟨f, hf, hfkey⟩ := List.mem_map.mp hfailing
      obtain ⟨s, item', j, hj, hd⟩ := mem_failures.mp hf
      obtain ⟨rfl, rfl⟩ := Prod.mk.inj (hfkey.symm.trans (diagnoseFact_some hd).1)
      obtain rfl := Option.some.inj (hi.symm.trans hj)
      exact (diagnoseFact_some hd).2
    have hfew : note.allFacts.countP (misquoted branch) ≤ QUOTE_REPAIR_MAX_FACTS := by
      have hcount : (diagnoseQuotes nfkc branch note).failures.length =
          note.allFacts.countP (misquoted branch) := length_failures
      rw [← hcount, ← hlength]
      exact length_repairsOf hcheck
    have hshown := hshown hfew item (List.mem_of_getElem? hi) hm quote hq ⟨r, hr, huser, hin⟩
    have hmem := (mem_userRulings hi hm hq).mpr hshown
    have hrefused := hacc repair hrepair
    rw [QuoteRepair.Acceptable, Option.isNone_iff_eq_none.mp hnull] at hrefused
    exact hrefused (congrArg Prod.fst hkey) (hkey ▸ hmem)

/-! ### Five others said it first -/

/-- A tool result with a text, and then the user with the same text. -/
def echoedBranch : List SessionRecord :=
  (messageRecord (lit "a") (lit "r") [] (lit "assistant") (lit "Done.") ::
    [lit "1", lit "2", lit "3", lit "4", lit "5"].map fun id =>
      messageRecord id (lit "r") [] (lit "toolResult") (lit "No push.")) ++
    [messageRecord (lit "u") (lit "r") [] (lit "user") (lit "No push.")]

/-- A note whose instruction quotes the user and cites another entry. -/
def miscitedNote : MemoryNote where
  facts
    | .instructions => [⟨lit "Do not push.", [lit "a"], some (lit "No push."), none⟩]
    | .state => [⟨lit "Done.", [lit "a"], none, none⟩]
    | _ => []
  gaps := []

theorem valid_miscitedNote : miscitedNote.Valid List.length :=
  MemoryNote.ofJson_toJson miscitedNote ▸ MemoryNote.valid_ofJson (by decide +kernel)

/-- Behind four others, the user is among the locations. -/
theorem keepsUserRulings_iff_miscitedNote :
    KeepsUserRulings List.length id miscitedNote (echoedBranch.eraseIdx 1) := by
  refine (keepsUserRulings_iff valid_miscitedNote).mpr fun _ item hitem _ quote hquote _ => ?_
  obtain rfl := List.mem_singleton.mp hitem
  obtain rfl := Option.some.inj hquote
  unfold RulingShown
  decide +kernel

/-- The instruction is withdrawn although the user said it. -/
theorem not_keepsUserRulings_miscitedNote :
    miscitedNote.Valid List.length ∧ ¬ KeepsUserRulings List.length id miscitedNote echoedBranch := by
  refine ⟨valid_miscitedNote, fun h => ?_⟩
  let response := repairsResponse [⟨.instructions, 0, none⟩]
  have happly : (applyQuoteRepair List.length miscitedNote
      (diagnoseQuotes id echoedBranch miscitedNote).failures response).isOk = true := by
    decide +kernel
  obtain ⟨result, hresult⟩ : ∃ result, applyQuoteRepair List.length miscitedNote
      (diagnoseQuotes id echoedBranch miscitedNote).failures response = .ok result := by
    cases hr : applyQuoteRepair List.length miscitedNote
        (diagnoseQuotes id echoedBranch miscitedNote).failures response with
    | error e => simp [hr, Except.isOk, Except.toBool] at happly
    | ok result => exact ⟨result, rfl⟩
  have hw : withdrawsAt response .instructions 0 = true := by decide +kernel
  have huser := h response result hresult 0 _ (lit "No push.") rfl rfl
    (fun hholds => Bool.false_ne_true (hholds.1.symm.trans hw))
    (messageRecord (lit "u") (lit "r") [] (lit "user") (lit "No push."))
    (List.mem_append_right _ List.mem_cons_self) (by simp [SessionRecord.isUser])
  rw [sourceText_messageRecord _ _ _ _ _ (by simp)] at huser
  exact absurd huser (by decide +kernel)

end

end Compaction
