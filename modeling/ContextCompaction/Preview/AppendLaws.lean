import ContextCompaction.Preview.Rereads

/-!
# Appends keep a session readable

What stands before an append looks at the branch behind which an entry is put; what stands before a
reopening looks at the entry too. They differ on a checkpoint of a method whose history cannot be
read.

* `assertReadableBranch_append`: what an append does to the check.
* `run_readable_iff`: the runs in which no append locks the session.
-/

namespace Compaction

open Js

variable {len : Str → Nat} {sha256 : Sha256} {branch entries stored : List SessionRecord}
  {entry c : SessionRecord}

/-! ## One more entry -/

theorem lastCompaction_entry (h : entry.type ≠ .compaction) :
    lastCompaction (branch ++ [entry]) = lastCompaction branch := by
  simp [lastCompaction, h]

theorem lastCompaction_checkpoint (h : entry.type = .compaction) :
    lastCompaction (branch ++ [entry]) = some entry := by
  simp [lastCompaction, h]

/-- A checkpoint does not depend on what stands behind it. -/
theorem validateDetails_append {data : List (Str × Json)} {index : Nat} (hindex : index ≤ branch.length)
    (more : List SessionRecord) :
    validateDetails len c data index (plainValidation sha256 .pi (branch ++ more) index) =
      validateDetails len c data index (plainValidation sha256 .pi branch index) := by
  unfold validateDetails
  split
  next => rfl
  next =>
    simp only [plainValidation, List.findIdx?_append]
    cases hfound : branch.findIdx? fun source => source.id = strField data "coveredThrough" with
    | none =>
      -- behind the branch is behind the checkpoint
      cases more.findIdx? fun source => source.id = strField data "coveredThrough" with
      | none => rfl
      | some k =>
        simp only [Option.map_some, Option.none_or]
        rw [if_pos (by omega)]
    | some last =>
      simp only [Option.some_or]
      split
      next => rfl
      next hlt =>
        have hlast : last + 1 ≤ branch.length := by omega
        simp only [validateStored, List.take_append_of_le_length hlast,
          List.take_append_of_le_length hindex]

theorem validateMemoryCheckpoint_append {index : Nat} (hindex : index ≤ branch.length)
    (more : List SessionRecord) :
    validateMemoryCheckpoint len c index (plainValidation sha256 .pi (branch ++ more) index) =
      validateMemoryCheckpoint len c index (plainValidation sha256 .pi branch index) := by
  unfold validateMemoryCheckpoint
  cases c.details.bind Json.obj? with
  | none => rfl
  | some data =>
    dsimp only
    rw [validateDetails_append hindex]

/-- An entry that is no checkpoint leaves the check as it is. -/
theorem assertReadableBranch_append (h : entry.type ≠ .compaction) :
    assertReadableBranch len sha256 (branch ++ [entry]) = assertReadableBranch len sha256 branch := by
  rw [assertReadableBranch, lastCompaction_entry h, assertReadableBranch]
  cases hlast : lastCompaction branch with
  | none => rfl
  | some c =>
    obtain ⟨before, after, rfl, hc, hafter⟩ := split_of_lastCompaction hlast
    have hafter' : ∀ e ∈ after ++ [entry], e.type ≠ .compaction := by
      simpa [or_imp, forall_and] using ⟨hafter, h⟩
    have hmemory : latestMemory len sha256 .pi (before ++ c :: after ++ [entry]) =
        latestMemory len sha256 .pi (before ++ c :: after) := by
      have hlength : before.length ≤ (before ++ c :: after).length := by simp
      rw [latestMemory_split hc hafter, ← validateMemoryCheckpoint_append hlength [entry],
        List.append_assoc, List.cons_append, latestMemory_split hc hafter']
    rw [hmemory]

/-- An accepted candidate is readable unless its method is one that cannot be read. -/
theorem readable_candidate {sessionId : Str}
    (h : assertCandidate len sha256 entry sessionId branch = .ok ()) :
    assertReadableBranch len sha256 (branch ++ [entry]) = .ok () ↔
      ¬ (entry.type = .compaction ∧ opaqueCheckpoint entry) := by
  obtain ⟨_, hread, hcandidate⟩ := bind_ok.mp h
  by_cases hc : entry.type = .compaction
  · rw [assertReadableBranch, lastCompaction_checkpoint hc]
    by_cases hlocked : opaqueCheckpoint entry
    · simp [hc, hlocked]
    · simp only [hlocked, hc, Bool.false_eq_true, ↓reduceIte, and_false, not_false_eq_true, iff_true]
      by_cases hmemory : ∃ data, entry.details.bind Json.obj? = some data ∧
          strField? data "kind" = some CONTEXT_MEMORY_KIND
      · obtain ⟨data, hdata, hkind⟩ := hmemory
        simp only [hdata, hc, hkind, ne_eq, not_true_eq_false, or_self, ↓reduceIte] at hcandidate
        split at hcandidate
        · cases hcandidate
        · exact hcandidate
      · have hnone : ∀ e ∈ ([] : List SessionRecord), e.type ≠ .compaction := by simp
        rw [latestMemory_split hc hnone,
          validate_other fun data hdata hkind => hmemory ⟨data, hdata, hkind⟩]
        rfl
  · rw [assertReadableBranch_append hc]
    exact iff_of_true hread fun hlocks => hc hlocks.1

/-! ## The branch of the new leaf -/

theorem Walk.congr {byId byId' : List (Str × SessionRecord)} {start : Option SessionRecord}
    {walk : List SessionRecord} (h : Walk byId start walk)
    (hlookup : ∀ e ∈ walk, lookup byId' e.parentId = lookup byId e.parentId) :
    Walk byId' start walk := by
  induction h with
  | root => exact .root
  | step _ ih =>
    refine .step ?_
    rw [hlookup _ List.mem_cons_self]
    exact ih fun e he => hlookup e (List.mem_cons_of_mem _ he)

theorem lookup_append {id : Option Str} (h : id ≠ some entry.id) :
    lookup (recordsById (entries ++ [entry])) id = lookup (recordsById entries) id := by
  apply Option.ext
  intro found
  have hget : ∀ key, id = some key → mapGet (recordsById (entries ++ [entry])) key =
      mapGet (recordsById entries) key := fun key hkey => by
    have hne : entry.id ≠ key := fun heq => h (heq ▸ hkey)
    simp [recordsById, mapGet_mapSet, hne]
  grind [lookup_eq_some]

theorem lookup_self (h : entry.id ≠ []) :
    lookup (recordsById (entries ++ [entry])) (some entry.id) = some entry :=
  lookup_eq_some.mpr ⟨entry.id, h, rfl, by simp [recordsById]⟩

/-- The last entry is the one that its ID names. -/
theorem buildSessionPath_eq (h : ∀ id ∈ leafId entries, id ≠ []) :
    buildSessionPath entries = getBranch entries (leafId entries) := by
  rw [buildSessionPath, getBranch]
  congr 2
  induction entries using List.reverseRecOn with
  | nil => rfl
  | append_singleton entries entry _ =>
    have hleaf : leafId (entries ++ [entry]) = some entry.id := by simp [leafId]
    rw [hleaf, lookup_self (h _ hleaf), List.getLast?_append_cons]
    rfl

theorem getBranch_append (hid : entry.id ≠ []) (hparent : entry.parentId ≠ some entry.id)
    (hparents : ∀ e ∈ entries, e.parentId ≠ some entry.id)
    (h : getBranch entries entry.parentId = some branch) :
    getBranch (entries ++ [entry]) (some entry.id) = some (branch ++ [entry]) := by
  have hwalk := getBranch_eq_some.mp h
  rw [getBranch_eq_some, lookup_self hid, List.reverse_append]
  refine .step ?_
  rw [lookup_append hparent]
  refine hwalk.congr fun e he => lookup_append (hparents e ?_)
  obtain ⟨key, -, hget⟩ := hwalk.mem e he
  exact (mem_of_byId hget).1

/-- A drawn ID is new: it names no entry and no parent. -/
theorem Appendable.fresh {s : SessionManager} (h : Appendable s entry) :
    entry.id ≠ [] ∧ entry.parentId ≠ some entry.id ∧ ∀ e ∈ s.entries, e.parentId ≠ some entry.id := by
  obtain ⟨randomUUID, hunused, hid⟩ := h.drawn
  have hnew : entry.id ∉ s.ids := hid ▸ generateId_notMem hunused.ids
  refine ⟨fun hnil => ?_, fun hself => ?_, fun e he hparent => ?_⟩
  · rcases generateId_shape hunused.length s.ids with hlength | heq
    · rw [← hid, hnil] at hlength
      cases hlength
    · have hlength := hunused.length 100
      rw [← heq, ← hid, hnil] at hlength
      cases hlength
  · rcases h.parent with hleaf | ⟨-, hknown⟩
    · exact hnew (s.known _ (hleaf ▸ hself))
    · exact hnew (hknown _ hself)
  · have hparents := hunused.parents e he _ hparent
    rw [hid] at hparents
    unfold generateId at hparents
    cases hfind : ((List.range 100).map fun i => (randomUUID i).take 8).find? (· ∉ s.ids) with
    | none => exact (hparents 100).2 (by rw [hfind]; rfl)
    | some id =>
      obtain ⟨i, -, rfl⟩ := List.mem_map.mp (List.mem_of_find?_eq_some hfind)
      exact (hparents i).1 (by rw [hfind]; rfl)

/-! ## Branches of what is read back -/

section

variable {R : SessionRecord → SessionRecord → Prop} (hid : ∀ x y, R x y → x.id = y.id)
  (hparent : ∀ x y, R x y → x.parentId = y.parentId) (h : List.Forall₂ R entries stored)
include hid h

theorem lookup_rel (id : Option Str) :
    Option.Rel R (lookup (recordsById entries) id) (lookup (recordsById stored) id) := by
  unfold lookup
  cases id.filter (· ≠ []) with
  | none => exact .none
  | some key =>
    rw [Option.bind_some, Option.bind_some, recordsById, recordsById, mapGet_mapOf, mapGet_mapOf]
    refine mapGet_rel (List.rel_reverse ?_) key
    rw [List.forall₂_map_left_iff, List.forall₂_map_right_iff]
    exact h.imp fun x y hxy => ⟨hid x y hxy, hxy⟩

include hparent

/-- Related entries have related chains of ancestors. -/
theorem ancestors_rel {fuel : Nat} {x y : Option SessionRecord} (hxy : Option.Rel R x y) :
    Option.Rel (List.Forall₂ R) (ancestors (recordsById entries) fuel x)
      (ancestors (recordsById stored) fuel y) := by
  induction fuel generalizing x y with
  | zero =>
    cases hxy with
    | none => exact .some .nil
    | some _ => exact .none
  | succ fuel ih =>
    cases hxy with
    | none => exact .some .nil
    | @some x y hxy =>
      rw [ancestors, ancestors, ← hparent x y hxy]
      rcases rel_cases (ih (lookup_rel hid h x.parentId)) with ⟨hv, hw⟩ | ⟨a, b, hv, hw, hab⟩
      · rw [hv, hw]
        exact .none
      · rw [hv, hw]
        exact .some (.cons hxy hab)

theorem getBranch_rel (id : Option Str) :
    Option.Rel (List.Forall₂ R) (getBranch entries id) (getBranch stored id) := by
  rw [getBranch, getBranch, h.length_eq]
  rcases rel_cases (ancestors_rel hid hparent h (lookup_rel hid h id)) with
    ⟨hv, hw⟩ | ⟨a, b, hv, hw, hab⟩
  · rw [hv, hw]
    exact .none
  · rw [hv, hw]
    exact .some (List.rel_reverse hab)

end

/-! ## Runs -/

section

variable {s s' start : SessionManager}

theorem appendEntry_ok {h : entry.json.Native}
    (hs : s.appendEntry len sha256 entry h = some (.ok s')) :
    ∃ branch, getBranch s.entries entry.parentId = some branch ∧
      assertCandidate len sha256 entry s.sessionId branch = .ok () ∧
      s'.entries = s.entries ++ [entry] ∧ s'.leafId = some entry.id := by
  obtain ⟨branch, hbranch, hok⟩ := Option.map_eq_some_iff.mp hs
  obtain ⟨_, hcandidate, rfl⟩ := map_ok.mp hok
  exact ⟨branch, hbranch, hcandidate, rfl, rfl⟩

/-- Where the leaf is the last entry, what is readable in memory can be opened again. -/
theorem readable_of_memory (hleaf : leafId s.entries = s.leafId) (hid : ∀ id ∈ s.leafId, id ≠ [])
    (hbranch : getBranch s.entries s.leafId = some branch)
    (hread : assertReadableBranch len sha256 branch = .ok ()) : s.Readable len sha256 := by
  refine ⟨⟨_, hbranch, hread⟩, fun stored hstored => ?_⟩
  have hboth := (List.forall₂_and_left s.entries stored).mpr ⟨s.native, hstored⟩
  have hrel := getBranch_rel (fun x y hxy => id_sameText (sameText_reread hxy.1 hxy.2))
    (fun x y hxy => parentId_sameText (sameText_reread hxy.1 hxy.2)) hboth s.leafId
  rw [hbranch] at hrel
  rcases rel_cases hrel with ⟨hv, -⟩ | ⟨_, found, hv, hfound, hpairs⟩
  · cases hv
  · obtain rfl := Option.some.inj hv
    have hids := map_eq_of_forall₂ (f := SessionRecord.id)
      (fun _ _ hxy => id_sameText hxy) (sameTexts_of_reread s.native hstored)
    have hlast : leafId stored = s.leafId := by
      rw [← hleaf, leafId, ← List.getLast?_map, ← hids, List.getLast?_map, leafId]
    obtain ⟨hnative, hreread⟩ := (List.forall₂_and_left _ found).mp hpairs
    refine ⟨found, hfound, ?_, readable_reread hnative hreread hread⟩
    rw [buildSessionPath_eq (hlast ▸ hid), hlast, hfound]

/-- An accepted append leaves a readable session unless it appends a checkpoint of a method whose
history cannot be read. -/
theorem append_readable_iff (h : Appendable s entry)
    (hs : s.appendEntry len sha256 entry h.native = some (.ok s')) :
    s'.Readable len sha256 ↔ ¬ (entry.type = .compaction ∧ opaqueCheckpoint entry) := by
  obtain ⟨branch, hbranch, hcandidate, hentries, hleaf⟩ := appendEntry_ok hs
  obtain ⟨hid, hself, hparents⟩ := h.fresh
  have hnew : getBranch s'.entries s'.leafId = some (branch ++ [entry]) := by
    rw [hentries, hleaf]
    exact getBranch_append hid hself hparents hbranch
  rw [← readable_candidate hcandidate]
  constructor
  · rintro ⟨⟨found, hfound, hread⟩, -⟩
    rwa [Option.some.inj (hnew.symm.trans hfound)]
  · intro hread
    refine readable_of_memory ?_ (fun id hmem => ?_) hnew hread
    · rw [hentries, hleaf]
      simp [leafId]
    · rw [hleaf] at hmem
      exact Option.some.inj hmem ▸ hid

/-- No append of a run locks the session exactly where none appends a checkpoint of a method whose
history cannot be read. -/
theorem run_readable_iff {appends : List (SessionRecord × SessionManager)}
    (run : Run len sha256 start appends s) :
    (∀ a ∈ appends, a.2.Readable len sha256) ↔
      ∀ a ∈ appends, ¬ (a.1.type = .compaction ∧ opaqueCheckpoint a.1) := by
  induction run with
  | start => simp
  | append _ h hs ih =>
    simp only [List.mem_append, List.mem_singleton, or_imp, forall_and, forall_eq, ih,
      append_readable_iff h hs]
  | branch _ _ _ ih => exact ih
  | resetLeaf _ ih => exact ih

end

/-- A compaction that the host writes itself, behind a first request. -/
def hostCompaction (id summary : Str) : SessionRecord where
  fields := [(lit "type", .str (lit "compaction")), (lit "id", .str id),
    (lit "parentId", .str (lit "u")), (lit "timestamp", .str []), (lit "summary", .str summary),
    (lit "firstKeptEntryId", .str id), (lit "tokensBefore", .num (.ofNat 0))]
  typed := by
    simp [recordTyped, hasStr, strField, strField?, field, RecordType.ofName, isNull, isStr]

theorem native_hostCompaction (id summary : Str) : (hostCompaction id summary).json.Native := by
  have hkeys : (hostCompaction id summary).fields.map Prod.fst =
      (hostCompaction [] []).fields.map Prod.fst := rfl
  refine .of_names (by rw [hkeys]; decide +kernel)
    (by rw [hkeys]; decide +kernel) fun f hf => ?_
  simp only [hostCompaction, List.mem_cons, List.not_mem_nil, or_false] at hf
  rcases hf with rfl | rfl | rfl | rfl | rfl | rfl | rfl <;> constructor

theorem native_firstRequest : firstRequest.json.Native := by
  refine .of_names (by decide +kernel) (by decide +kernel) fun f hf => ?_
  simp only [firstRequest, List.mem_cons, List.not_mem_nil, or_false] at hf
  rcases hf with rfl | rfl | rfl | rfl | rfl
  iterate 4 constructor
  refine .of_names (by decide +kernel) (by decide +kernel) fun f hf => ?_
  simp only [List.mem_cons, List.not_mem_nil, or_false] at hf
  rcases hf with rfl | rfl <;> constructor

/-- A session with one request. -/
def requestSession : SessionManager where
  sessionId := lit "s"
  entries := [firstRequest]
  leafId := some (lit "u")
  native := by simpa using native_firstRequest
  known := by
    have hid : firstRequest.id = lit "u" := by decide +kernel
    simp [hid]

/-- The ID that `sampleUUID 0` gives. -/
def sampleId : Str := (sampleUUID 0 0).take 8

-- An ID that is taken is drawn again.
example : generateId (sampleUUID 0) [sampleId] = (sampleUUID 0 1).take 8 := by decide +kernel

theorem appendable_hostCompaction (summary : Str) :
    Appendable requestSession (hostCompaction sampleId summary) where
  native := native_hostCompaction sampleId summary
  drawn := by
    refine ⟨sampleUUID 0, ⟨fun _ => rfl, by decide +kernel, fun e he id hid => ?_⟩, ?_⟩
    · obtain rfl := List.mem_singleton.mp he
      have hnone : firstRequest.parentId = none := by decide +kernel
      rw [hnone] at hid
      cases hid
    · have hgenerated : generateId (sampleUUID 0) requestSession.ids = sampleId := by decide +kernel
      rw [hgenerated]
      simp [SessionRecord.id, hostCompaction, strField, strField?, field]
  parent := .inl (by simp [SessionRecord.parentId, hostCompaction, strField?, field, requestSession])

theorem getBranch_request : getBranch requestSession.entries (some (lit "u")) = some [firstRequest] :=
  getBranch_linked (show ([firstRequest].map SessionRecord.id).Nodup by decide +kernel)
    (by decide +kernel) (by decide +kernel)

/-- The session behind the compaction. -/
def compactedSession (summary : Str) : SessionManager where
  sessionId := lit "s"
  entries := [firstRequest, hostCompaction sampleId summary]
  leafId := some (hostCompaction sampleId summary).id
  native := by simpa using ⟨native_firstRequest, native_hostCompaction sampleId summary⟩
  known := by simp

/-- The host's compaction is accepted, whatever its summary is. -/
theorem append_hostCompaction (summary : Str) :
    requestSession.appendEntry List.length plainHash (hostCompaction sampleId summary)
      (appendable_hostCompaction summary).native = some (.ok (compactedSession summary)) := by
  have hparent : (hostCompaction sampleId summary).parentId = some (lit "u") := by
    simp [SessionRecord.parentId, hostCompaction, strField?, field]
  have hdetails : (hostCompaction sampleId summary).details = none := by
    simp [SessionRecord.details, hostCompaction, field]
  have hread : assertReadableBranch List.length plainHash [firstRequest] = .ok () := by
    decide +kernel
  rw [SessionManager.appendEntry, hparent, getBranch_request, Option.map_some, assertCandidate, hread,
    hdetails]
  rfl

theorem run_hostCompaction (summary : Str) : Run List.length plainHash requestSession
    [(hostCompaction sampleId summary, compactedSession summary)] (compactedSession summary) :=
  .append .start (appendable_hostCompaction summary) (append_hostCompaction summary)

/-- A session with one compaction is readable after it, and as it is read back. -/
theorem run_readable_iff_summary :
    (compactedSession (lit "The request.")).Readable List.length plainHash ∧
      ∃ stored, List.Forall₂ Reread (compactedSession (lit "The request.")).entries stored := by
  refine ⟨(run_readable_iff (run_hostCompaction _)).mpr (fun a ha => ?_) _
    (List.mem_singleton.mpr rfl), ?_⟩
  · obtain rfl := List.mem_singleton.mp ha
    decide +kernel
  · have hrequest : ∃ r, Reread firstRequest r := by
      refine exists_reread native_firstRequest (fun v hv => ?_) fun v hv => ?_ <;>
        simp [field, SessionRecord.message, firstRequest] at hv
    have hcompaction : ∃ r, Reread (hostCompaction sampleId (lit "The request.")) r := by
      refine exists_reread (native_hostCompaction _ _) (fun v hv => ?_) fun v hv => ?_
      · obtain rfl : Json.num (.ofNat 0) = v := by simpa [hostCompaction, field] using hv
        rw [StaysNumber, Json.normal_ofNat (by norm_num)]
        exact id
      · simp [field, SessionRecord.message, hostCompaction] at hv
    obtain ⟨r, hr⟩ := hrequest
    obtain ⟨c, hc⟩ := hcompaction
    exact ⟨[r, c], .cons hr (.cons hc .nil)⟩

/-- A summary that speaks of the method. -/
def phraseSummary : Str := lit "Why PI_CODEX_REMOTE_CHECKPOINT: is refused."

/-- It is accepted, and locks the session. -/
theorem not_readable_phrase : requestSession.Readable List.length plainHash ∧
    Run List.length plainHash requestSession
      [(hostCompaction sampleId phraseSummary, compactedSession phraseSummary)]
      (compactedSession phraseSummary) ∧
    ¬ (compactedSession phraseSummary).Readable List.length plainHash := by
  refine ⟨readable_of_memory ?_ ?_ getBranch_request (by decide +kernel),
    run_hostCompaction phraseSummary, fun hreadable => ?_⟩
  · decide +kernel
  · rintro id ⟨⟩
    decide +kernel
  · have hlocks := (append_readable_iff (appendable_hostCompaction _)
      (append_hostCompaction _)).mp hreadable
    exact hlocks (by decide +kernel)

end Compaction
