import ContextCompaction.Core.Quotes

/-!
# Refused candidates

Why an answer is no note, as counts for status and messages, and the repair of missing sources.

* `removeNoteEnvelope`: the two shapes of a schema around a note.
* `diagnoseSchema`, `diagnoseScope`, `quoteCounts`: a refusal of the schema, of the citations and of
  the quotations.
* `applySourcesRepair`: the writer's sources, spliced into the candidate. `texts_applySourcesRepair`:
  nothing but sources changes.
-/

namespace Compaction

open Js

/-- `new Set(xs)`, in the order in which the members were first added. -/
def setOf {α : Type} [DecidableEq α] (xs : List α) : List α := (mapOf (xs.map fun x => (x, ()))).map Prod.fst

section

variable {α : Type} [DecidableEq α]

theorem setOf_append_singleton (xs : List α) (x : α) :
    setOf (xs ++ [x]) = if x ∈ setOf xs then setOf xs else setOf xs ++ [x] := by
  rw [setOf, List.map_append, List.map_singleton, mapOf_append_singleton]
  by_cases hx : x ∈ setOf xs
  · rw [if_pos hx]
    obtain ⟨w, hw⟩ := Option.ne_none_iff_exists'.mp (mt mapGet_eq_none.mp (not_not.mpr hx))
    exact keys_mapSet hw
  · rw [if_neg hx, mapSet_of_notMem () hx, List.map_append]
    rfl

@[simp] theorem mem_setOf {xs : List α} {x : α} : x ∈ setOf xs ↔ x ∈ xs := by
  induction xs using List.reverseRecOn with
  | nil => rfl
  | append_singleton xs y ih =>
    rw [setOf_append_singleton]
    grind

theorem nodup_setOf (xs : List α) : (setOf xs).Nodup := by
  induction xs using List.reverseRecOn with
  | nil => exact List.nodup_nil
  | append_singleton xs y ih =>
    rw [setOf_append_singleton]
    grind

theorem setOf_eq_self {xs : List α} (h : xs.Nodup) : setOf xs = xs := by
  rw [setOf, mapOf_eq_self] <;> simp [h, Function.comp_def]

/-- The keys of a map are a set. -/
theorem keys_mapOf {β : Type} (entries : List (α × β)) :
    (mapOf entries).map Prod.fst = setOf (entries.map Prod.fst) := by
  induction entries using List.reverseRecOn with
  | nil => rfl
  | append_singleton entries e ih =>
    rw [mapOf_append_singleton, List.map_append, List.map_singleton, setOf_append_singleton, ← ih]
    by_cases he : e.1 ∈ (mapOf entries).map Prod.fst
    · obtain ⟨w, hw⟩ := Option.ne_none_iff_exists'.mp (mt mapGet_eq_none.mp (not_not.mpr he))
      rw [if_pos he, keys_mapSet hw]
    · rw [if_neg he, mapSet_of_notMem e.2 he, List.map_append]
      rfl

/-- A list without repetition is as long as its set. -/
theorem length_setOf {xs : List α} : (setOf xs).length = xs.length ↔ xs.Nodup := by
  have hperm : (setOf xs).Perm xs.dedup :=
    (List.perm_ext_iff_of_nodup (nodup_setOf xs) xs.nodup_dedup).mpr (by simp)
  rw [hperm.length_eq]
  exact ⟨fun h => List.dedup_eq_self.mp ((List.dedup_sublist xs).eq_of_length h), fun h => by
    rw [h.dedup]⟩

end

/-- `${n}` of a count. -/
def countText (n : Nat) : Str := (Number.ofNat n).text

/-! ## Envelopes -/

/-- The schema envelope that an answer arrived in. -/
inductive NoteEnvelope where
  | type
  | schema
  deriving DecidableEq

/-- The seven note sections, in schema order. -/
def NOTE_SECTIONS : List Str := (noteSections.map fun s => lit s.name) ++ [lit "gaps"]

def hasExactly (fields : List (Str × Json)) (keys : List Str) : Bool :=
  decide (fields.length = keys.length) && keys.all fun key => (mapGet fields key).isSome

/-- One of the two envelopes is removed, one level deep; any other answer is returned as it came. -/
def removeNoteEnvelope (value : Json) : Json × Option NoteEnvelope :=
  match value with
  | .obj fields =>
    if ((mapGet fields (lit "type")).bind Json.str?).isSome &&
        hasExactly fields (NOTE_SECTIONS ++ [lit "type"]) then
      (.obj (fields.filter fun e => e.1 ≠ lit "type"), some .type)
    else
      match mapGet fields (lit "properties") with
      | some (.obj properties) =>
        if hasExactly fields [lit "type", lit "properties", lit "required"] &&
            hasExactly properties NOTE_SECTIONS then
          (.obj properties, some .schema)
        else (value, none)
      | _ => (value, none)
  | _ => (value, none)

/-! ## The schema -/

structure SchemaDiagnosis where
  /-- Facts without sources, or with an empty list of them. -/
  uncited : List FactKey
  /-- The answer fails the schema for another reason too. -/
  other : Bool
  /-- When the missing sources are the only fault: the answer as a note. -/
  pending : Option MemoryNote

/-- Stands in for the missing sources while the rest of the answer is checked. -/
def PLACEHOLDER : Str := lit "uncited"

/-- A fact without sources, with the placeholder. -/
def patchItem (item : Json) : Option Json :=
  match item with
  | .obj fields =>
    match mapGet fields (lit "sources") with
    | none | some (.arr []) => some (.obj (mapSet fields (lit "sources") (.arr [.str PLACEHOLDER])))
    | _ => none
  | _ => none

/-- The items of a section, if it is an array. -/
def sectionItems (fields : List (Str × Json)) (s : NoteSection) : Option (List Json) :=
  (mapGet fields (lit s.name)).bind Json.arr?

/-- The answer with the placeholder in every fact without sources. -/
def patchFields (fields : List (Str × Json)) : List (Str × Json) :=
  noteSections.foldl
    (fun patched s => match sectionItems fields s with
      | none => patched
      | some items => mapSet patched (lit s.name) (.arr (items.map fun item => (patchItem item).getD item)))
    fields

/-- The facts without sources. -/
def uncitedFacts (fields : List (Str × Json)) : List FactKey :=
  noteSections.flatMap fun s =>
    ((sectionItems fields s).getD []).zipIdx.filterMap fun e =>
      if (patchItem e.1).isSome then some (s, e.2) else none

/-- The sources of some facts are taken out. -/
def clearSources (note : MemoryNote) (keys : List FactKey) : MemoryNote :=
  { note with
    facts := fun s => (note.facts s).zipIdx.map fun e =>
      if (s, e.2) ∈ keys then { e.1 with sources := [] } else e.1 }

/-- Why a parsed answer fails the note schema. -/
def diagnoseSchema (len : Str → Nat) (value : Json) : SchemaDiagnosis :=
  match value with
  | .obj fields =>
    let uncited := uncitedFacts fields
    let patched := Json.obj (patchFields fields)
    if check len noteSchema patched then
      ⟨uncited, false, some (clearSources (MemoryNote.ofJson patched) uncited)⟩
    else ⟨uncited, true, none⟩
  | _ => ⟨[], true, none⟩

/-- Counts without content: facts without sources by section, and whether there is another fault. -/
structure SchemaCounts where
  uncited : List (NoteSection × Nat)
  other : Bool
  deriving DecidableEq

def schemaCounts (diagnosis : SchemaDiagnosis) : SchemaCounts where
  uncited := diagnosis.uncited.foldl
    (fun counts key => mapSet counts key.1 ((mapGet counts key.1).getD 0 + 1)) []
  other := diagnosis.other

/-- The validator's code with counts per section. -/
def schemaFailureMessage (counts : SchemaCounts) : Str :=
  let total := (counts.uncited.map Prod.snd).sum
  let reason :=
    if total = 0 then lit "writer must return the complete note schema"
    else
      countText total ++ (if total = 1 then lit " fact has" else lit " facts have") ++ lit " no sources (" ++
        join ", " (counts.uncited.map fun e => countText e.2 ++ lit " in " ++ lit e.1.name) ++ lit ")" ++
        (if counts.other then lit ", and the note fails the schema otherwise too" else [])
  lit "CONTEXT_NOTE_INVALID: " ++ reason ++
    lit ". No checkpoint committed; original history retained."

/-! ## Citations -/

/-- Why a candidate cites outside its evidence. -/
structure ScopeCounts where
  missing : Nat
  unreadable : Nat
  inSupersedes : Nat
  unreadableKinds : List (Str × Nat)
  deriving DecidableEq

/-- Every ID that a note cites, in order, and whether a fact supersedes it. -/
def citations (note : MemoryNote) : List (Str × Bool) :=
  note.allFacts.flatMap fun item =>
    (item.sources.map fun id => (id, false)) ++ ((item.supersedes.getD []).map fun id => (id, true))

/-- Every citation of a note that the scope check refuses. -/
def diagnoseScope (note : MemoryNote) (branch : List SessionRecord) : ScopeCounts :=
  let byId := recordsById branch
  let refused := (citations note).filter fun c => !readable (textById branch) c.1
  let unreadable := (setOf (refused.map Prod.fst)).filterMap (mapGet byId)
  { missing := (setOf ((refused.map Prod.fst).filter fun id => (mapGet byId id).isNone)).length
    unreadable := unreadable.length
    inSupersedes := (setOf ((refused.filter Prod.snd).map Prod.fst)).length
    unreadableKinds := unreadable.foldl
      (fun kinds entry => mapSet kinds (sourceRole entry) ((mapGet kinds (sourceRole entry)).getD 0 + 1)) [] }

/-! ## Quotations -/

/-- Failed quotations by class. -/
structure QuoteCounts where
  failed : Nat
  elsewhere : Nat
  format : Nat
  absent : Nat
  deriving DecidableEq

def quoteCounts (failures : List QuoteFailure) : QuoteCounts where
  failed := failures.length
  elsewhere := (failures.filter fun f => f.kind = .elsewhere).length
  format := (failures.filter fun f => f.kind = .format).length
  absent := (failures.filter fun f => f.kind = .absent).length

/-- The validator's code with counts per class. -/
def quoteFailureMessage (counts : QuoteCounts) (repaired : Bool) : Str :=
  let part (n : Nat) (text : String) : List Str := if n = 0 then [] else [countText n ++ lit text]
  let parts := part counts.elsewhere " found verbatim in other entries" ++
    part counts.format " matching only after spacing or punctuation changes" ++
    part counts.absent " found in no entry"
  lit "CONTEXT_NOTE_QUOTE: " ++ countText counts.failed ++ lit " quotation" ++
    (if counts.failed = 1 then lit " does" else lit "s do") ++ lit " not match the entries cited" ++
    (if parts = [] then [] else lit " (" ++ join ", " parts ++ lit ")") ++
    (if repaired then lit " after one quotation repair" else []) ++
    lit ". No checkpoint committed; original history retained."

def quoteRepairEligible (diagnosis : QuoteDiagnosis) : Bool :=
  !diagnosis.unreadable && decide (0 < diagnosis.failures.length) &&
    decide (diagnosis.failures.length ≤ QUOTE_REPAIR_MAX_FACTS)

/-! ## Missing sources -/

/-- More facts without sources than this point at the whole note. -/
def SOURCES_REPAIR_MAX_FACTS : Nat := 5

def sourcesRepairSchema : Schema :=
  .object [(lit "repairs", false, .array
    (.object [(lit "section", false, sectionSchema), (lit "index", false, .integer 0),
      (lit "sources", false, .array (.string 1 64) 1 20 true)]) 1 SOURCES_REPAIR_MAX_FACTS false)]

/-- The note to repair, when facts without sources are the sole fault, and few enough to ask about. -/
def sourcesRepairEligible (diagnosis : SchemaDiagnosis) : Option MemoryNote :=
  if 0 < diagnosis.uncited.length ∧ diagnosis.uncited.length ≤ SOURCES_REPAIR_MAX_FACTS then
    diagnosis.pending
  else none

structure SourcesRepair where
  noteSection : NoteSection
  index : Nat
  sources : List Str

def SourcesRepair.key (r : SourcesRepair) : FactKey := (r.noteSection, r.index)

def SourcesRepair.ofJson (v : Json) : SourcesRepair where
  noteSection := .ofName (((v.get? (lit "section")).bind Json.str?).getD [])
  index := ((v.get? (lit "index")).bind count?).getD 0
  sources := ((v.get? (lit "sources")).map Json.strs).getD []

/-- The fact at a position gets other sources. -/
def setSources (note : MemoryNote) (r : SourcesRepair) : MemoryNote :=
  { note with
    facts := fun s =>
      if s = r.noteSection then (note.facts s).modify r.index fun item => { item with sources := r.sources }
      else note.facts s }

/-- `repaired[repair.section][repair.index].sources = [...repair.sources]`. -/
def sourcesStep (note : MemoryNote) (r : SourcesRepair) : Except Failure MemoryNote :=
  if r.index < (note.facts r.noteSection).length then .ok (setSources note r)
  else .error (.typeError (lit "Cannot set properties of undefined (setting 'sources')"))

/-- The sources repairs of an answer. -/
def sourcesRepairsOf (response : Json) : List SourcesRepair :=
  (((response.get? (lit "repairs")).bind Json.arr?).getD []).map SourcesRepair.ofJson

/-- The writer's sources, spliced into the candidate. -/
def applySourcesRepair (len : Str → Nat) (note : MemoryNote) (uncited : List FactKey)
    (response : Json) : Except Failure MemoryNote :=
  if !check len sourcesRepairSchema response then
    .error (.ofText "CONTEXT_NOTE_INVALID: the sources repair did not return its schema")
  else
    let repairs := sourcesRepairsOf response
    let wanted := setOf uncited
    let given := setOf (repairs.map SourcesRepair.key)
    if given.length ≠ repairs.length ∨ given.length ≠ wanted.length ∨ ∃ key ∈ wanted, key ∉ given then
      .error (.ofText "CONTEXT_NOTE_INVALID: the sources repair must answer each fact without sources exactly once")
    else repairs.foldlM sourcesStep note

/-- Setting sources changes no text, quotation or supersession. -/
theorem texts_setSources (note : MemoryNote) (r : SourcesRepair) (s : NoteSection) :
    ((setSources note r).facts s).map (fun f => (f.text, f.quote, f.supersedes)) =
      (note.facts s).map fun f => (f.text, f.quote, f.supersedes) := by
  unfold setSources
  dsimp only
  split_ifs
  · apply List.ext_getElem?
    intro i
    simp only [List.getElem?_map, List.getElem?_modify]
    cases (note.facts s)[i]? with
    | none => rfl
    | some f =>
      simp only [Option.map_eq_map, Option.map_some]
      split <;> rfl
  · rfl

theorem length_setSources (note : MemoryNote) (r : SourcesRepair) (s : NoteSection) :
    ((setSources note r).facts s).length = (note.facts s).length := by
  simpa using congrArg List.length (texts_setSources note r s)

/-- The repairs succeed where every position is there. -/
theorem foldlM_sourcesStep {repairs : List SourcesRepair} {note result : MemoryNote} :
    repairs.foldlM sourcesStep note = .ok result ↔
      (∀ r ∈ repairs, r.index < (note.facts r.noteSection).length) ∧
        result = repairs.foldl setSources note := by
  induction repairs generalizing note with
  | nil => simp [pure, Except.pure, eq_comm]
  | cons r repairs ih =>
    rw [List.foldlM_cons, bind_ok, List.foldl_cons, List.forall_mem_cons]
    by_cases hr : r.index < (note.facts r.noteSection).length
    · have hstep : sourcesStep note r = .ok (setSources note r) := if_pos hr
      simp only [hstep, hr, Except.ok.injEq, exists_eq_left', true_and, ih, length_setSources]
    · have hstep : ∀ n, sourcesStep note r ≠ .ok n := by simp [sourcesStep, hr]
      simp [hstep, hr]

/-- An accepted answer has the schema, answers each fact without sources once, and every position is
there. -/
theorem applySourcesRepair_ok {len : Str → Nat} {note result : MemoryNote} {uncited : List FactKey}
    {response : Json} (hkeys : uncited.Nodup) :
    applySourcesRepair len note uncited response = .ok result ↔
      check len sourcesRepairSchema response = true ∧
        ((sourcesRepairsOf response).map SourcesRepair.key).Nodup ∧
        (sourcesRepairsOf response).length = uncited.length ∧
        (∀ key ∈ uncited, key ∈ (sourcesRepairsOf response).map SourcesRepair.key) ∧
        (∀ r ∈ sourcesRepairsOf response, r.index < (note.facts r.noteSection).length) ∧
        result = (sourcesRepairsOf response).foldl setSources note := by
  unfold applySourcesRepair
  by_cases hc : check len sourcesRepairSchema response = true
  · simp only [hc, Bool.not_true, Bool.false_eq_true, ↓reduceIte, setOf_eq_self hkeys, mem_setOf,
      true_and]
    by_cases hg : ((sourcesRepairsOf response).map SourcesRepair.key).Nodup
    · rw [setOf_eq_self hg, List.length_map]
      by_cases hl : (sourcesRepairsOf response).length = uncited.length
      · by_cases hw : ∃ key ∈ uncited, key ∉ (sourcesRepairsOf response).map SourcesRepair.key
        · rw [if_pos (by simp only [hw, or_true])]
          obtain ⟨key, hkey, hno⟩ := hw
          simp only [reduceCtorEq, false_iff, not_and]
          exact fun _ _ hall => absurd (hall key hkey) hno
        · rw [if_neg (by simp [hl] at hw ⊢; exact hw), foldlM_sourcesStep]
          push Not at hw
          exact ⟨fun h => ⟨hg, hl, hw, h⟩, fun h => h.2.2.2⟩
      · rw [if_pos (by simp [hl])]
        simp [hl]
    · rw [if_pos (.inl fun h => hg (length_setOf.mp (by rw [h, List.length_map])))]
      simp [hg]
  · simp [hc]

/-- A repair of sources keeps every text, quotation and superseded ID, and the gaps. -/
theorem texts_applySourcesRepair {len : Str → Nat} {note result : MemoryNote}
    {uncited : List FactKey} {response : Json}
    (h : applySourcesRepair len note uncited response = .ok result) :
    result.gaps = note.gaps ∧ ∀ s,
      (result.facts s).map (fun f => (f.text, f.quote, f.supersedes)) =
        (note.facts s).map fun f => (f.text, f.quote, f.supersedes) := by
  have hrun : ∀ (repairs : List SourcesRepair) (n : MemoryNote),
      (repairs.foldl setSources n).gaps = n.gaps ∧ ∀ s,
        ((repairs.foldl setSources n).facts s).map (fun f => (f.text, f.quote, f.supersedes)) =
          (n.facts s).map fun f => (f.text, f.quote, f.supersedes) := by
    intro repairs
    induction repairs with
    | nil => exact fun n => ⟨rfl, fun s => rfl⟩
    | cons r repairs ih =>
      intro n
      obtain ⟨hg, hf⟩ := ih (setSources n r)
      exact ⟨hg, fun s => (hf s).trans (texts_setSources n r s)⟩
  unfold applySourcesRepair at h
  split at h
  · cases h
  · dsimp only at h
    split_ifs at h
    obtain ⟨-, rfl⟩ := foldlM_sourcesStep.mp h
    exact hrun _ note

end Compaction
