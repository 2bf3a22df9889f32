import ContextCompaction.Core.WorkNotes

/-!
# Commit and reopen

`checkpointRecord` is the record that the host appends for the candidate that `compact()` builds.

* `validateStored_checkpoint`: the checkpoint passes against the records before it.
* `coveredUserMessages_le`: what it carries lies within its coverage.
* `commit_reopens`: both validators accept the branch again, and every extension of it.
-/

namespace Compaction

open Js

/-! ## The record -/

structure SourceSnapshot where
  sessionId : Str
  leafId : Option Str
  lastCheckpointId : Option Str

def SourceSnapshot.toJson (s : SourceSnapshot) : Json :=
  let orNull := fun id : Option Str => id.elim Json.null Json.str
  .obj [(lit "sessionId", .str s.sessionId), (lit "leafId", orNull s.leafId),
    (lit "lastCheckpointId", orNull s.lastCheckpointId)]

/-- What `compact()` records beside the note and its policy. -/
structure CompactRun where
  snapshot : SourceSnapshot
  writerModel : Str
  chunkCount : Nat
  build : Str
  preparation : Option Json
  firstKeptEntryId : Str
  tokensBefore : Number
  usage : Option Json

/-- What the host adds when it appends the compaction. -/
structure HostFields where
  id : Str
  parentId : Option Str
  timestamp : Str
  fromHook : Option Bool
  systemMessage : Option Json

/-- `renderNote(note, lineage) + userMessages`. -/
def checkpointSummary (note : MemoryNote) (lineage : List CheckpointLineageItem)
    (users : List SessionRecord) : Str :=
  renderNote note lineage ++ if users = [] then [] else renderUserMessages users

variable (len : Str → Nat) (sha256 : Sha256)

/-- The candidate's `details` for a checkpoint that covers `branch` through `last`. -/
def checkpointDetails (run : CompactRun) (branch : List SessionRecord) (last : Nat) (note : Json)
    (policy : NoteBudget) (users : List SessionRecord) : List (Str × Json) :=
  present [("kind", some (.str CONTEXT_MEMORY_KIND)), ("version", some (.num (.ofNat 1))),
    ("note", some note),
    ("coveredThrough", some (.str ((branch[last]?.map SessionRecord.id).getD []))),
    ("sourceHash", some (.str (hashEntries sha256 (branch.take (last + 1))))),
    ("snapshot", some run.snapshot.toJson), ("writerModel", some (.str run.writerModel)),
    ("chunkCount", some (.num (.ofNat run.chunkCount))), ("build", some (.str run.build)),
    ("noteBudget", some policy.toJson),
    ("userMessages", if users = [] then none else some (strings (users.map SessionRecord.id))),
    ("preparation", run.preparation)]

/-- The record that `appendCompaction` writes. -/
def checkpointRecord (run : CompactRun) (host : HostFields) (summary : Str)
    (details : List (Str × Json)) : SessionRecord where
  fields := present [("type", some (.str (lit "compaction"))), ("id", some (.str host.id)),
    ("parentId", some (host.parentId.elim .null .str)), ("timestamp", some (.str host.timestamp)),
    ("summary", some (.str summary)), ("firstKeptEntryId", some (.str run.firstKeptEntryId)),
    ("tokensBefore", some (.num run.tokensBefore)), ("details", some (.obj details)),
    ("usage", run.usage), ("fromHook", host.fromHook.map .bool),
    ("systemMessage", host.systemMessage)]
  typed := by
    cases host.parentId <;>
      simp [recordTyped, hasStr, strField, strField?, field, RecordType.ofName, present, isNull, isStr]

section

variable (run : CompactRun) (host : HostFields) (summary : Str) (details : List (Str × Json))

@[simp] theorem type_checkpointRecord :
    (checkpointRecord run host summary details).type = .compaction := by
  simp [SessionRecord.type, checkpointRecord, strField, strField?, field, RecordType.ofName, present]

@[simp] theorem summary_checkpointRecord :
    (checkpointRecord run host summary details).summary = summary := by
  simp [SessionRecord.summary, checkpointRecord, strField, strField?, field, present]

@[simp] theorem details_checkpointRecord :
    (checkpointRecord run host summary details).details = some (.obj details) := by
  simp [SessionRecord.details, checkpointRecord, field, present]

end

section

variable (run : CompactRun) (branch : List SessionRecord) (last : Nat) (note : Json)
  (policy : NoteBudget) (users : List SessionRecord)

theorem field_checkpointDetails :
    let details := checkpointDetails sha256 run branch last note policy users
    field details "kind" = some (.str CONTEXT_MEMORY_KIND) ∧
    field details "version" = some (.num (.ofNat 1)) ∧ field details "note" = some note ∧
    field details "coveredThrough" = some (.str ((branch[last]?.map SessionRecord.id).getD [])) ∧
    field details "sourceHash" = some (.str (hashEntries sha256 (branch.take (last + 1)))) ∧
    field details "noteBudget" = some policy.toJson ∧ field details "continuation" = none ∧
    field details "userMessages" =
      if users = [] then none else some (strings (users.map SessionRecord.id)) := by
  by_cases hu : users = [] <;> cases hp : run.preparation <;>
    simp [checkpointDetails, present, field, hu, hp]

end

/-! ## Reopening -/

variable {branch : List SessionRecord}

/-- The new checkpoint passes against the records before it. -/
theorem validate_checkpointRecord (hnodup : (branch.map SessionRecord.id).Nodup) {last : Nat}
    (hlast : last < branch.length) {policy : NoteBudget} (hpolicy : policy.Frozen) {value : Json}
    {note : MemoryNote}
    (hnote : validateNote len value (branch.take (last + 1)) policy.hardTokens = .ok note)
    (lineage : List CheckpointLineageItem) (users : List SessionRecord) (run : CompactRun)
    (host : HostFields) :
    let details := checkpointDetails sha256 run branch last value policy users
    let entry := checkpointRecord run host (checkpointSummary note lineage users) details
    latestMemory len sha256 .pi (branch ++ [entry]) = .ok (some ⟨entry, details⟩) := by
  intro details entry
  obtain ⟨hkind, hversion, hn, hcovered, hhash, hbudget, hcont, -⟩ :=
    field_checkpointDetails sha256 run branch last value policy users
  obtain ⟨hcontent, hbytes⟩ := validateNote_ok.mp hnote
  obtain ⟨hcheck, hof, hcited⟩ := validateNoteSources_ok.mp hcontent
  have hid : (branch[last]?.map SessionRecord.id).getD [] = branch[last].id := by simp [hlast]
  have hfind : (branch ++ [entry]).findIdx? (fun r => r.id = branch[last].id) = some last :=
    findIdx?_append_of_some (findIdx?_of_nodup hnodup (List.getElem?_eq_getElem hlast)) _
  have htake : (branch ++ [entry]).take (last + 1) = branch.take (last + 1) :=
    List.take_append_of_le_length (by omega)
  have hstored : validateNoteSources len value (textById branch) = .ok note :=
    validateNoteSources_ok.mpr ⟨hcheck, hof, fun item hi =>
      (hcited item hi).mono fun _ _ => textById_of_take hnodup (last + 1)⟩
  have hsummary : renderNote note [] <+: entry.summary := by
    rw [summary_checkpointRecord, checkpointSummary]
    exact (renderNote_lineage note lineage).trans (List.prefix_append _ _)
  rw [latestMemory_append len sha256 .pi branch (type_checkpointRecord ..), validateMemoryCheckpoint,
    details_checkpointRecord]
  simp only [Option.bind_some, Json.obj?_obj]
  rw [if_neg (by simp [strField?, details, hkind])]
  have hc : (plainValidation sha256 .pi (branch ++ [entry]) branch.length).coverageIndex
      (strField details "coveredThrough") = some last := by
    have hcov : strField details "coveredThrough" = branch[last].id := by
      simp [strField, strField?, details, hcovered, hid]
    rw [hcov]
    exact hfind
  have hh : (plainValidation sha256 .pi (branch ++ [entry]) branch.length).prefixHash (last + 1) =
      .ok (some (strField details "sourceHash")) := by
    simp only [plainValidation, htake, hashRecords, Except.map, strField, strField?, details, hhash,
      Option.bind_some, Json.str?_str, Option.getD_some]
  have hby : (plainValidation sha256 .pi (branch ++ [entry]) branch.length).sourceById =
      textById branch := by
    simp only [plainValidation, List.take_left]
  have hstep : validateStored len entry details last
      (plainValidation sha256 .pi (branch ++ [entry]) branch.length) = .ok ⟨entry, details⟩ := by
    have hb : assertNoteBudget value policy.hardTokens = .ok () :=
      if_neg (Nat.not_lt.mpr hbytes)
    simp only [validateStored, details, hbudget, hn, Option.getD_some, hby,
      storedNoteLimit_of_frozen hpolicy, hstored, checkContinuation, hcont]
    simp only [bind, Except.bind, hb, hsummary, not_true_eq_false, ↓reduceIte]
    rfl
  have hdetails : validateDetails len entry details branch.length
      (plainValidation sha256 .pi (branch ++ [entry]) branch.length) = .ok ⟨entry, details⟩ := by
    rw [validateDetails, if_neg (by
      simp [details, hversion, count?_ofNat, hasStr, strField?, hcovered, hhash]), hc]
    simp only [Nat.not_le.mpr hlast, ↓reduceIte, hh, bind, Except.bind, ne_eq, not_true_eq_false, hstep]
  rw [hdetails]
  rfl

/-- The messages that the newest checkpoint carries lie within its coverage. -/
theorem carriedUserMessages_le (husers : assertUserMessages branch = .ok ())
    {latest : Option ValidatedMemory} (hlatest : legacyPreviewLoop len sha256 .pi branch = .ok latest)
    {last : Nat}
    (hcover : ∀ m ∈ latest, ∀ k,
      branch.findIdx? (fun r => r.id = m.coveredThrough) = some k → k ≤ last)
    (id : Str) (hid : id ∈ carriedUserMessages (latest.map ValidatedMemory.entry)) :
    ∃ k, branch.findIdx? (fun r => r.id = id) = some k ∧ k ≤ last := by
  cases latest with
  | none => simp [carriedUserMessages] at hid
  | some m =>
    obtain ⟨hmem, htype, hdetails, hstr⟩ := legacyPreviewLoop_some len sha256 hlatest
    have hok := assertUserMessagesOf_ok.mp (assertUserMessages_ok.mp husers _ hmem)
    simp only [carriedUserMessages, Option.map_some, Option.bind_some] at hid
    cases hl : carriedList m.entry with
    | none => simp [hl] at hid
    | some p =>
      obtain ⟨details, listed⟩ := p
      obtain ⟨ids, k, rfl, hc⟩ := hok details listed hl
      have hd : details = m.memory := by
        simp only [carriedList, compactionDetails, htype, ↓reduceIte, hdetails, Option.bind_some,
          Option.map_eq_some_iff, Prod.mk.injEq] at hl
        obtain ⟨_, _, rfl, _⟩ := hl
        rfl
      have hcov : coveredText details = m.coveredThrough := by
        obtain ⟨s, hs⟩ := Option.isSome_iff_exists.mp hstr
        obtain ⟨v, hv, hvs⟩ := Option.bind_eq_some_iff.mp hs
        obtain rfl := Json.str?_eq_some.mp hvs
        simp [coveredText, ValidatedMemory.coveredThrough, strField, strField?, hd, hv, Json.text]
      have hmemids : .str id ∈ ids := by
        simpa [hl, Json.strs] using hid
      obtain ⟨j, hj, hle⟩ := listedUsers_le hc.full hmemids
      have := hcover m rfl k (hcov ▸ hc.covered)
      exact ⟨j, hj, by omega⟩

/-- The check on a checkpoint that lists the messages it covers. -/
theorem carries_checkpointRecord (hnodup : (branch.map SessionRecord.id).Nodup) {last : Nat}
    (hlast : last < branch.length) {carried : List Str}
    (hcarried : ∀ id ∈ carried, ∃ k, branch.findIdx? (fun r => r.id = id) = some k ∧ k ≤ last)
    (active : Str → Bool) (run : CompactRun) (host : HostFields) (note : MemoryNote) (value : Json)
    (policy : NoteBudget) (lineage : List CheckpointLineageItem) :
    let users := coveredUserMessages branch active last carried
    let details := checkpointDetails sha256 run branch last value policy users
    let entry := checkpointRecord run host (checkpointSummary note lineage users) details
    assertUserMessagesOf branch entry = .ok () := by
  intro users details entry
  rw [assertUserMessagesOf_ok]
  intro details' listed hl
  obtain ⟨-, -, -, hcovered, -, -, -, huserMessages⟩ :=
    field_checkpointDetails sha256 run branch last value policy users
  have hcd : compactionDetails entry = some details := by simp [compactionDetails, entry]
  rw [carriedList, hcd] at hl
  simp only [Option.bind_some, Option.map_eq_some_iff, Prod.mk.injEq] at hl
  obtain ⟨_, hlisted, rfl, rfl⟩ := hl
  rw [huserMessages] at hlisted
  by_cases hu : users = []
  · simp [hu] at hlisted
  · rw [if_neg hu] at hlisted
    obtain rfl := Option.some.inj hlisted
    -- The covered messages stand at increasing positions up to `last`.
    have hlisted : listedUsers branch (firstPositions branch) last (-1)
        (users.map fun r => .str r.id) = users := by
      have h := listedUsers_of_pairwise branch last (-1)
        (branch.zipIdx.filter fun e => e.1.isUser &&
          (decide (e.1.id ∈ carried) || (decide (e.2 ≤ last) && active e.1.id)))
        (fun e he => ?_) ?_ (fun e _ => by omega)
      · simpa only [users, coveredUserMessages, List.map_map, Function.comp_def] using h
      · obtain ⟨hmem, hp⟩ := List.mem_filter.mp he
        have hget : branch[e.2]? = some e.1 := List.mem_zipIdx_iff_getElem?.mp hmem
        have hfirst := findIdx?_of_nodup hnodup hget
        simp only [Bool.and_eq_true, Bool.or_eq_true, decide_eq_true_eq] at hp
        refine ⟨hget, (mapGet_firstPositions branch e.1.id).trans hfirst, hp.1, ?_⟩
        rcases hp.2 with hin | hin
        · obtain ⟨k, hk, hle⟩ := hcarried _ hin
          obtain rfl : e.2 = k := Option.some.inj (hfirst.symm.trans hk)
          omega
        · omega
      · refine List.Pairwise.sublist (List.filter_sublist.map Prod.snd) ?_
        rw [List.zipIdx_map_snd]
        exact List.pairwise_lt_range'
    have hids : users.map (fun r => Json.str r.id) = (users.map SessionRecord.id).map .str := by
      rw [List.map_map]
      rfl
    rw [hids] at hlisted
    refine ⟨_, last, rfl, ?_, ?_, ?_, ?_⟩
    · simpa using hu
    · have hid : coveredText details = branch[last].id := by
        simp [coveredText, details, hcovered, hlast, Json.text]
      rw [hid]
      exact findIdx?_of_nodup hnodup (List.getElem?_eq_getElem hlast)
    · rw [hlisted, List.length_map, List.length_map]
    · rw [hlisted, summary_checkpointRecord, checkpointSummary, if_neg hu]
      exact List.suffix_append _ _

/-- After a commit both validators accept the branch and return the new checkpoint, and they do so
on every extension by records that are no checkpoints. -/
theorem commit_reopens (hnodup : (branch.map SessionRecord.id).Nodup)
    {latest : Option ValidatedMemory}
    (hlatest : (validateMemoryCheckpoints len sha256 .pi false branch).result = .ok latest)
    (husers : assertUserMessages branch = .ok ()) {last : Nat} (hlast : last < branch.length)
    (hcover : ∀ m ∈ latest, ∀ k,
      branch.findIdx? (fun r => r.id = m.coveredThrough) = some k → k ≤ last)
    {noteTokens : Option Nat} (hconfig : ∀ n ∈ noteTokens, 500 ≤ n)
    {threshold sourceTokens previousTokens : Nat} {policy : NoteBudget}
    (hpolicy : selectNoteBudget noteTokens threshold sourceTokens previousTokens = .ok policy)
    {value : Json} {note : MemoryNote}
    (hnote : validateNote len value (branch.take (last + 1)) policy.hardTokens = .ok note)
    (lineage : List CheckpointLineageItem) (active : Str → Bool) (run : CompactRun)
    (host : HostFields) {more : List SessionRecord} (hmore : ∀ r ∈ more, r.type ≠ .compaction) :
    let users := coveredUserMessages branch active last
      (carriedUserMessages (latest.map ValidatedMemory.entry))
    let details := checkpointDetails sha256 run branch last value policy users
    let entry := checkpointRecord run host (checkpointSummary note lineage users) details
    (∀ handOut, (validateMemoryCheckpoints len sha256 .pi handOut (branch ++ entry :: more)).result =
        .ok (some ⟨entry, details⟩)) ∧
      assertUserMessages (branch ++ entry :: more) = .ok () := by
  intro users details entry
  rw [validateMemoryCheckpoints_result len sha256 fun r _ => serializes_pi r] at hlatest
  rw [List.append_cons]
  constructor
  · intro handOut
    rw [validateMemoryCheckpoints_result len sha256 fun r _ => serializes_pi r,
      legacyPreviewLoop_more len sha256 _ hmore, legacyPreviewLoop_append, hlatest]
    simp only [bind, Except.bind, entry, type_checkpointRecord, ↓reduceIte]
    exact validate_checkpointRecord len sha256 hnodup hlast
      (frozen_selectNoteBudget hconfig hpolicy) hnote lineage users run host
  · have hcarried := fun id => carriedUserMessages_le len sha256 husers hlatest hcover id
    have hentry := carries_checkpointRecord sha256 hnodup hlast hcarried active run host note value
      policy lineage
    refine assertUserMessages_append (assertUserMessages_ok.mpr fun r hr => ?_) hmore
    rcases List.mem_append.mp hr with hr | hr
    · exact assertUserMessagesOf_append (assertUserMessages_ok.mp husers r hr) _
    · obtain rfl := List.mem_singleton.mp hr
      exact assertUserMessagesOf_append hentry _

/-- A request and its answer. -/
def sampleBranch : List SessionRecord :=
  [messageRecord (lit "u1") (lit "root") (lit "2026-01-01T00:00:00.000Z") (lit "user")
      (lit "Fix the parser."),
    messageRecord (lit "a1") (lit "u1") (lit "2026-01-01T00:00:01.000Z") (lit "assistant")
      (lit "The parser is fixed.")]

def sampleNote : MemoryNote where
  facts
    | .state => [⟨lit "The parser is fixed.", [lit "a1"], some (lit "is fixed"), none⟩]
    | _ => []
  gaps := []

theorem textById_sampleBranch :
    textById sampleBranch (lit "a1") = some (lit "The parser is fixed.") := by
  simp [textById, recordsById, mapOf, sampleBranch]

theorem cited_sampleNote : ∀ item ∈ sampleNote.allFacts, Cited (textById sampleBranch) item := by
  intro item hi
  obtain rfl := List.mem_singleton.mp hi
  refine ⟨fun id hid => ?_, fun q hq _ => ⟨lit "a1", by simp, ?_⟩, by simp⟩
  · obtain rfl := List.mem_singleton.mp hid
    rw [readable, textById_sampleBranch]
    decide +kernel
  · obtain rfl := Option.some.inj hq
    rw [textById_sampleBranch]
    decide +kernel

/-- The digest of the two records of `sampleBranch`. -/
def sampleDigest : Sha256 := fun _ =>
  lit "efa3f4c75002b021023ec9e15c0e56c8c2be0e86235cb2be20c2d217b393c96e"

theorem type_sampleBranch : ∀ r ∈ sampleBranch, r.type ≠ .compaction := by
  simp [sampleBranch]

/-- A first checkpoint over one request, which both validators accept. -/
theorem commit_reopens_sample :
    let users := coveredUserMessages sampleBranch (fun _ => true) 1 []
    let details := checkpointDetails sampleDigest
      ⟨⟨lit "s", some (lit "a1"), none⟩, lit "model", 1, lit "build", none, lit "u1", .ofNat 900, none⟩
      sampleBranch 1 sampleNote.toJson ⟨.tiered, 1, 12, 0, 3000, 4000⟩ users
    let entry := checkpointRecord
      ⟨⟨lit "s", some (lit "a1"), none⟩, lit "model", 1, lit "build", none, lit "u1", .ofNat 900, none⟩
      ⟨lit "c1", some (lit "a1"), lit "2026-01-01T00:00:02.000Z", some true, none⟩
      (checkpointSummary sampleNote [] users) details
    (∀ handOut, (validateMemoryCheckpoints List.length sampleDigest .pi handOut
        (sampleBranch ++ entry :: [])).result = .ok (some ⟨entry, details⟩)) ∧
      assertUserMessages (sampleBranch ++ entry :: []) = .ok () :=
  commit_reopens List.length sampleDigest (by simp [sampleBranch])
    ((validateMemoryCheckpoints_result _ _ (fun r _ => serializes_pi r) false).trans
      (legacyPreviewLoop_none _ _ _ (by simp [sampleBranch])))
    (assertUserMessages_ok.mpr fun r hr => assertUserMessagesOf_of_type (type_sampleBranch r hr))
    (show 1 < sampleBranch.length by decide) (by simp)
    (show ∀ n ∈ (none : Option Nat), 500 ≤ n by simp)
    (show selectNoteBudget none 100000 12 0 = .ok ⟨.tiered, 1, 12, 0, 3000, 4000⟩ by rfl)
    (show validateNote List.length sampleNote.toJson sampleBranch 4000 = .ok sampleNote from
      validateNote_ok.mpr ⟨validateNoteSources_ok.mpr ⟨by decide +kernel,
        (MemoryNote.ofJson_toJson _).symm, cited_sampleNote⟩, by decide +kernel⟩)
    [] (fun _ => true) _ _ (by simp)

end Compaction
