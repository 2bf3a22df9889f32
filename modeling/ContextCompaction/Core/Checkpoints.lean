import Mathlib.Data.List.GetD
import ContextCompaction.Core.Identity
import ContextCompaction.Core.Notes

/-!
# Stored checkpoints

`latestMemory` validates the newest checkpoint with plain searches; `validateMemoryCheckpoints`
validates all of them, oldest first, over indices that are built in one pass.

* `Indices`: what the pass collects; `Indices.Describes` is its invariant.
* `upperBound_slice`: two binary searches cut out the positions of an interval.
* `validateMemoryCheckpoints_agrees`: the indexed validation is the plain one, checkpoint by
  checkpoint.
-/

namespace Compaction

open Js

def CONTEXT_MEMORY_KIND : Str := lit "pi-context-memory"

/-! ## Unfinished turns -/

/-- The assistant message that completes a turn. -/
def isStop (entry : SessionRecord) : Bool :=
  decide (entry.type = .message) && decide (entry.role = lit "assistant") &&
    decide (entry.stopReason = some (lit "stop"))

/-- The user messages behind the last completed response. -/
def inProgressRequests (branch : List SessionRecord) : List SessionRecord :=
  ((branch.reverse.takeWhile fun entry => !isStop entry).reverse).filter SessionRecord.isUser

def renderContinuationWithText (requests : List SessionRecord) (text : SessionRecord → Str) : Str :=
  lit "\n\n## In-progress user requests\nThis checkpoint was taken between tool batches, before the current turn completed. Continue the unfinished work from its recorded progress; do not restart completed steps or treat this internal handover as a new task. The following original user messages are in chronological order, not new submissions. Later user messages override earlier ones. Consult context_history for earlier constraints or evidence missing from the note.\n" ++
    join "\n" (requests.map fun entry =>
      stringify (.obj [(lit "entryId", .str entry.id), (lit "request", .str (text entry))]))

/-! ## One checkpoint -/

/-- How the validation of one checkpoint looks up the branch. -/
structure CheckpointValidation where
  coverageIndex : Str → Option Nat
  prefixHash : Nat → Except Failure (Option Str)
  sourceById : Str → Option Str
  requests : Nat → List SessionRecord
  source : SessionRecord → Str

/-- A checkpoint that passed: its record and its `details`. -/
structure ValidatedMemory where
  entry : SessionRecord
  memory : List (Str × Json)

def ValidatedMemory.coveredThrough (m : ValidatedMemory) : Str := strField m.memory "coveredThrough"

variable (len : Str → Nat) (sha256 : Sha256)

/-- The checks on a continuation, where the checkpoint has one. -/
def checkContinuation (entry : SessionRecord) (data : List (Str × Json)) (note : MemoryNote)
    (requests : List SessionRecord) (source : SessionRecord → Str) : Except Failure Unit :=
  match field data "continuation" with
  | none => .ok ()
  | some continuation =>
    if requests = [] ∨ stringify continuation ≠ stringify (strings (requests.map SessionRecord.id)) ∨
        ¬ renderContinuationWithText requests source <:+ entry.summary ∨
        ¬ (note.facts .nextSteps).any fun step => trim step.text ≠ [] then
      .error (.ofText "CONTEXT_CONTINUATION_MISSING: the checkpoint lost its active requests or continuation step")
    else .ok ()

/-- The evidence changed under a checkpoint. -/
def sourceChanged : Failure :=
  .ofText "CONTEXT_SOURCE_CHANGED: the stored checkpoint no longer matches its original evidence"

/-- The checks on the note of a checkpoint that covers the branch through `last`. -/
def validateStored (entry : SessionRecord) (data : List (Str × Json)) (last : Nat)
    (validation : CheckpointValidation) : Except Failure ValidatedMemory := do
  let hardTokens ← storedNoteLimit (field data "noteBudget")
  let stored := (field data "note").getD .null
  let note ← validateNoteSources len stored validation.sourceById
  assertNoteBudget stored hardTokens
  if ¬ renderNote note [] <+: entry.summary then
    .error (.ofText "CONTEXT_NOTE_INVALID: the restored summary does not match the validated note")
  else do
    checkContinuation entry data note (validation.requests last) validation.source
    pure ⟨entry, data⟩

/-- The checks on the `details` of a checkpoint of this method. -/
def validateDetails (entry : SessionRecord) (data : List (Str × Json)) (index : Nat)
    (validation : CheckpointValidation) : Except Failure ValidatedMemory :=
  if (field data "version").bind count? ≠ some 1 ∨ !hasStr data "coveredThrough" ∨
      !hasStr data "sourceHash" then
    .error (.ofText "CONTEXT_NOTE_VERSION: unsupported or malformed memory checkpoint")
  else
    match validation.coverageIndex (strField data "coveredThrough") with
    | none => .error sourceChanged
    | some last =>
      if index ≤ last then .error sourceChanged
      else do
        let hash ← validation.prefixHash (last + 1)
        if hash ≠ some (strField data "sourceHash") then .error sourceChanged
        else validateStored len entry data last validation

def validateMemoryCheckpoint (entry : SessionRecord) (index : Nat)
    (validation : CheckpointValidation) : Except Failure (Option ValidatedMemory) :=
  match entry.details.bind Json.obj? with
  | none => .ok none
  | some data =>
    if strField? data "kind" ≠ some CONTEXT_MEMORY_KIND then .ok none
    else (validateDetails len entry data index validation).map some

/-! ## The newest checkpoint -/

/-- The plain lookups of `latestMemory`, for the checkpoint at `index`. -/
def plainValidation (serialization : Serialization) (branch : List SessionRecord) (index : Nat) :
    CheckpointValidation where
  coverageIndex id := branch.findIdx? fun source => source.id = id
  prefixHash length := (hashRecords sha256 serialization (branch.take length)).map some
  sourceById := textById (branch.take index)
  requests last := inProgressRequests (branch.take (last + 1))
  source := sourceText

/-- Latest only: an older checkpoint is not examined. -/
def latestMemory (serialization : Serialization) (branch : List SessionRecord) :
    Except Failure (Option ValidatedMemory) :=
  match branch.zipIdx.reverse.find? fun e => e.1.type = .compaction with
  | none => .ok none
  | some (entry, index) =>
    validateMemoryCheckpoint len entry index (plainValidation sha256 serialization branch index)

/-- One turn of the plain loop: `latestMemory` on the branch up to a checkpoint. -/
def previewStep (serialization : Serialization) (branch : List SessionRecord)
    (latest : Option ValidatedMemory) (e : SessionRecord × Nat) :
    Except Failure (Option ValidatedMemory) :=
  if e.1.type = .compaction then latestMemory len sha256 serialization (branch.take (e.2 + 1))
  else .ok latest

/-- The plain loop over all checkpoints, oldest first; its last result. -/
def legacyPreviewLoop (serialization : Serialization) (branch : List SessionRecord) :
    Except Failure (Option ValidatedMemory) :=
  branch.zipIdx.foldlM (previewStep len sha256 serialization branch) none

/-! ## All checkpoints -/

/-- The number of values at most `value`, by bisection. -/
def upperBound (values : List Nat) (value : Int) : Nat := go 0 values.length
where
  go (low high : Nat) : Nat :=
    if low < high then
      let middle := (low + high) / 2
      if (values.getD middle 0 : Int) ≤ value then go (middle + 1) high else go low middle
    else low
  termination_by high - low

/-- What the first pass collects: the first position of each ID, the positions of the user
messages, and for each position the last completed response up to it (`-1` for none). -/
structure Indices where
  firstById : List (Str × Nat)
  userIndices : List Nat
  completedAt : List Int
  lastCompleted : Int

def Indices.add (ix : Indices) (e : SessionRecord × Nat) : Indices :=
  let lastCompleted : Int := if isStop e.1 then e.2 else ix.lastCompleted
  { firstById := mapSetFirst ix.firstById e.1.id e.2
    userIndices := if e.1.isUser then ix.userIndices ++ [e.2] else ix.userIndices
    completedAt := ix.completedAt ++ [lastCompleted]
    lastCompleted }

def indices (branch : List SessionRecord) : Indices :=
  branch.zipIdx.foldl Indices.add ⟨[], [], [], -1⟩

/-- The covered prefix of one checkpoint, where it has one. -/
def coverageLength (ix : Indices) (e : SessionRecord × Nat) : Option Nat :=
  if e.1.type = .compaction then
    (e.1.details.bind Json.obj?).bind fun data =>
    (strField? data "coveredThrough").bind fun coveredThrough =>
    (mapGet ix.firstById coveredThrough).bind fun last =>
      if last < e.2 then some (last + 1) else none
  else none

/-- The indexed lookups; `byId` holds the records before the checkpoint. -/
def indexedValidation (branch : List SessionRecord) (ix : Indices) (hashes : List (Nat × Str))
    (byId : List (Str × SessionRecord)) : CheckpointValidation where
  coverageIndex id := mapGet ix.firstById id
  prefixHash length := .ok (mapGet hashes length)
  sourceById id := (mapGet byId id).map sourceText
  requests last :=
    let low := upperBound ix.userIndices (ix.completedAt.getD last (-1))
    let high := upperBound ix.userIndices last
    ((ix.userIndices.take high).drop low).filterMap fun index => branch[index]?
  source := sourceText

/-- One turn of the validating loop. -/
def validateStep (branch : List SessionRecord) (ix : Indices) (hashes : List (Nat × Str))
    (state : Option ValidatedMemory × List (Str × SessionRecord)) (e : SessionRecord × Nat) :
    Except Failure (Option ValidatedMemory × List (Str × SessionRecord)) :=
  (if e.1.type = .compaction then
      validateMemoryCheckpoint len e.1 e.2 (indexedValidation branch ix hashes state.2)
    else .ok state.1).map fun latest => (latest, mapSet state.2 e.1.id e.1)

/-- Hand out each record of a branch without checkpoints. -/
def serializeEach (serialization : Serialization) : List (SessionRecord × Nat) → Logged Unit
  | [] => ⟨[], .ok ()⟩
  | (entry, index) :: entries =>
    match serializeRecord serialization entry with
    | .error e => ⟨[], .error e⟩
    | .ok serialized =>
      let rest := serializeEach serialization entries
      ⟨(index, serialized) :: rest.serialized, rest.result⟩

/-- Validate all checkpoints, oldest first. `handOut` says whether the caller reads the serialized
records. -/
def validateMemoryCheckpoints (serialization : Serialization) (handOut : Bool)
    (branch : List SessionRecord) : Logged (Option ValidatedMemory) :=
  if !branch.any fun entry => entry.type = .compaction then
    if handOut then
      let run := serializeEach serialization branch.zipIdx
      ⟨run.serialized, run.result.map fun _ => none⟩
    else ⟨[], .ok none⟩
  else
    let ix := indices branch
    let prefixLengths := branch.zipIdx.filterMap (coverageLength ix) ++
      (if handOut then [branch.length] else [])
    let run := hashEntryPrefixes sha256 serialization branch prefixLengths
    ⟨run.serialized, run.result.bind fun hashes =>
      (branch.zipIdx.foldlM (validateStep len branch ix hashes) (none, [])).map Prod.fst⟩

/-! ## The indices -/

/-- The position of the last completed response; `-1` for none. -/
def lastStop (branch : List SessionRecord) : Int :=
  branch.length - ((branch.reverse.takeWhile fun entry => !isStop entry).length : Int) - 1

/-- The pass has read `read`. -/
structure Indices.Describes (ix : Indices) (read : List SessionRecord) : Prop where
  first : ∀ id, mapGet ix.firstById id = read.findIdx? fun entry => entry.id = id
  users : ix.userIndices = (read.zipIdx.filter fun e => e.1.isUser).map Prod.snd
  length : ix.completedAt.length = read.length
  completed : ∀ j < read.length, ix.completedAt.getD j (-1) = lastStop (read.take (j + 1))
  last : ix.lastCompleted = lastStop read

theorem lastStop_append (read : List SessionRecord) (entry : SessionRecord) :
    lastStop (read ++ [entry]) = if isStop entry then (read.length : Int) else lastStop read := by
  unfold lastStop
  by_cases h : isStop entry <;> simp [h]

/-- One more entry keeps the indices a description of what was read. -/
theorem Indices.Describes.add {ix : Indices} {read : List SessionRecord} (h : ix.Describes read)
    (entry : SessionRecord) : (ix.add (entry, read.length)).Describes (read ++ [entry]) := by
  have hlast : (if isStop entry then (read.length : Int) else ix.lastCompleted) =
      lastStop (read ++ [entry]) := by rw [lastStop_append, h.last]
  refine ⟨fun id => ?_, ?_, ?_, fun j hj => ?_, hlast⟩
  · rw [List.findIdx?_append, ← h.first id]
    simp only [Indices.add, mapGet_mapSetFirst]
    by_cases hid : entry.id = id <;> simp [hid]
  · simp only [Indices.add, List.zipIdx_append, List.filter_append, List.map_append, h.users]
    by_cases hu : entry.isUser <;> simp [hu]
  · simp [Indices.add, h.length]
  · rcases Nat.lt_or_ge j read.length with hlt | hge
    · have := h.completed j hlt
      rw [List.getD_eq_getElem?_getD] at this ⊢
      simp only [Indices.add]
      rw [List.getElem?_append_left (by rw [h.length]; exact hlt), this,
        List.take_append_of_le_length (by omega)]
    · obtain rfl : j = read.length := by
        simp only [List.length_append, List.length_cons, List.length_nil] at hj
        omega
      simp only [Indices.add, List.getD_eq_getElem?_getD, ← h.length, List.getElem?_concat_length,
        Option.getD_some]
      rw [h.length, hlast, List.take_of_length_le (by simp)]

theorem indices_describes (branch : List SessionRecord) : (indices branch).Describes branch := by
  induction branch using List.reverseRecOn with
  | nil => exact ⟨by simp [indices], rfl, rfl, by simp, by simp [indices, lastStop]⟩
  | append_singleton read entry ih =>
    have : indices (read ++ [entry]) = (indices read).add (entry, read.length) := by
      simp [indices, List.zipIdx_append]
    rw [this]
    exact ih.add entry

/-! ## Bisection -/

private theorem getD_le {values : List Nat} (hs : values.Pairwise (· < ·)) {i j : Nat}
    (hij : i ≤ j) (hj : j < values.length) : values.getD i 0 ≤ values.getD j 0 := by
  rcases Nat.lt_or_eq_of_le hij with h | rfl
  · rw [List.getD_eq_getElem _ _ hj, List.getD_eq_getElem _ _ (h.trans hj)]
    exact Nat.le_of_lt (List.pairwise_iff_getElem.mp hs i j _ hj h)
  · exact Nat.le_refl _

/-- The values before the bound are at most `value`, those behind it are greater. -/
theorem upperBound_spec {values : List Nat} (hs : values.Pairwise (· < ·)) (value : Int) :
    (∀ x ∈ values.take (upperBound values value), (x : Int) ≤ value) ∧
      ∀ x ∈ values.drop (upperBound values value), value < (x : Int) := by
  -- The loop keeps both halves while the gap between them closes.
  have hgo : ∀ low high, low ≤ high → high ≤ values.length →
      (∀ x ∈ values.take low, (x : Int) ≤ value) → (∀ x ∈ values.drop high, value < (x : Int)) →
      (∀ x ∈ values.take (upperBound.go values value low high), (x : Int) ≤ value) ∧
        ∀ x ∈ values.drop (upperBound.go values value low high), value < (x : Int) := by
    intro low high
    induction low, high using upperBound.go.induct values value with
    | case1 low high hlt middle hmid ih =>
      intro _ hhigh hlow hgt
      rw [upperBound.go, if_pos hlt, if_pos hmid]
      have hm : middle < values.length := by omega
      refine ih (by omega) hhigh (fun x hx => ?_) hgt
      obtain ⟨i, hi, rfl⟩ := List.mem_take_iff_getElem.mp hx
      have hle := getD_le hs (show i ≤ middle by omega) hm
      rw [List.getD_eq_getElem _ _ (show i < values.length by omega)] at hle
      omega
    | case2 low high hlt middle hmid ih =>
      intro _ hhigh hlow hgt
      rw [upperBound.go, if_pos hlt, if_neg hmid]
      have hm : middle < values.length := by omega
      refine ih (by omega) (by omega) hlow fun x hx => ?_
      obtain ⟨i, hi, rfl⟩ := List.mem_drop_iff_getElem.mp hx
      have hle := getD_le hs (show middle ≤ middle + i by omega) (by omega)
      rw [List.getD_eq_getElem _ _ (show middle + i < values.length by omega)] at hle
      omega
    | case3 low high hlt =>
      intro hle hhigh hlow hgt
      rw [upperBound.go, if_neg hlt]
      obtain rfl : low = high := by omega
      exact ⟨hlow, hgt⟩
  exact hgo 0 values.length (Nat.zero_le _) (Nat.le_refl _) (by simp) (by simp)

/-- Two bounds cut out the values of an interval. -/
theorem upperBound_slice {values : List Nat} (hs : values.Pairwise (· < ·)) (a b : Int) :
    (values.take (upperBound values b)).drop (upperBound values a) =
      values.filter fun x : Nat => decide (a < x) && decide ((x : Int) ≤ b) := by
  obtain ⟨hb1, hb2⟩ := upperBound_spec hs b
  obtain ⟨ha1, ha2⟩ := upperBound_spec hs a
  have hupper : values.filter (fun x : Nat => decide (a < x) && decide ((x : Int) ≤ b)) =
      (values.take (upperBound values b)).filter fun x : Nat => decide (a < x) := by
    have hdrop : (values.drop (upperBound values b)).filter
        (fun x : Nat => decide (a < x) && decide ((x : Int) ≤ b)) = [] := by
      refine List.filter_eq_nil_iff.mpr fun x hx => ?_
      have := hb2 x hx
      simp only [Bool.and_eq_true, decide_eq_true_eq, not_and]
      omega
    conv_lhs => rw [← List.take_append_drop (upperBound values b) values]
    rw [List.filter_append, hdrop, List.append_nil]
    exact List.filter_congr fun x hx => by simp [hb1 x hx]
  rw [hupper]
  conv_rhs => rw [← List.take_append_drop (upperBound values a) (values.take (upperBound values b))]
  rw [List.filter_append, List.filter_eq_nil_iff.mpr, List.nil_append, List.filter_eq_self.mpr]
  · intro x hx
    rw [List.drop_take] at hx
    simpa using ha2 x (List.mem_of_mem_take hx)
  · intro x hx
    have := ha1 x (List.take_subset_take_left _ (Nat.min_le_left _ _) (by rwa [← List.take_take]))
    simpa using this

/-- The positions of an interval, read off the numbered list. -/
private theorem filter_zipIdx {α : Type} (p : α → Bool) (l : List α) (a b k : Nat) :
    ((l.zipIdx k).filter fun e => p e.1 && (decide (a ≤ e.2) && decide (e.2 < b))).map Prod.fst =
      ((l.take (b - k)).drop (a - k)).filter p := by
  induction l generalizing k with
  | nil => simp
  | cons x l ih =>
    have ih := ih (k + 1)
    rw [List.zipIdx_cons, List.filter_cons]
    rcases Nat.lt_or_ge k b with hb | hb
    · rw [show b - k = (b - (k + 1)) + 1 by omega, List.take_succ_cons]
      rcases Nat.lt_or_ge k a with ha | ha
      · have hno : ¬ a ≤ k := by omega
        rw [show a - k = (a - (k + 1)) + 1 by omega, List.drop_succ_cons, ← ih]
        simp [hno]
      · rw [show a - (k + 1) = 0 by omega, List.drop_zero] at ih
        rw [show a - k = 0 by omega, List.drop_zero, List.filter_cons, ← ih]
        by_cases hp : p x <;> simp [hp, ha, hb]
    · have hno : ¬ k < b := by omega
      rw [show b - (k + 1) = 0 by omega] at ih
      rw [show b - k = 0 by omega]
      simpa [hno] using ih

private theorem length_takeWhile_le (branch : List SessionRecord) :
    (branch.reverse.takeWhile fun entry => !isStop entry).length ≤ branch.length := by
  have := (List.takeWhile_sublist (l := branch.reverse) fun entry => !isStop entry).length_le
  simpa using this

theorem inProgressRequests_eq (branch : List SessionRecord) :
    inProgressRequests branch =
      (branch.drop (lastStop branch + 1).toNat).filter SessionRecord.isUser := by
  have hle := length_takeWhile_le branch
  have hn : (lastStop branch + 1).toNat =
      branch.length - (branch.reverse.takeWhile fun entry => !isStop entry).length := by
    unfold lastStop
    omega
  have htake : branch.reverse.takeWhile (fun entry => !isStop entry) =
      branch.reverse.take (branch.reverse.takeWhile fun entry => !isStop entry).length :=
    List.prefix_iff_eq_take.mp (List.takeWhile_prefix _)
  unfold inProgressRequests
  rw [htake, List.reverse_take, List.reverse_reverse, List.length_reverse, hn]

theorem pairwise_zipIdx_snd {α : Type} (l : List α) (p : α → Bool) :
    ((l.zipIdx.filter fun e => p e.1).map Prod.snd).Pairwise (· < ·) := by
  refine List.Pairwise.sublist (List.filter_sublist.map Prod.snd) ?_
  rw [List.zipIdx_map_snd]
  exact List.pairwise_lt_range'

/-- The slice of the user positions is the plain scan of the covered prefix. -/
theorem indexedValidation_requests {branch : List SessionRecord} {last : Nat}
    (h : last < branch.length) (hashes : List (Nat × Str)) (byId : List (Str × SessionRecord)) :
    (indexedValidation branch (indices branch) hashes byId).requests last =
      inProgressRequests (branch.take (last + 1)) := by
  have hd := indices_describes branch
  have hc := hd.completed last h
  have hbound : -1 ≤ lastStop (branch.take (last + 1)) := by
    have := length_takeWhile_le (branch.take (last + 1))
    unfold lastStop
    omega
  have hget : ∀ e ∈ branch.zipIdx, branch[e.2]? = some e.1 :=
    fun e he => List.mem_zipIdx_iff_getElem?.mp he
  rw [inProgressRequests_eq]
  simp only [indexedValidation, hc]
  rw [upperBound_slice (hd.users ▸ pairwise_zipIdx_snd branch SessionRecord.isUser), hd.users,
    List.filter_map, List.filterMap_map, List.filter_filter]
  have hmap : ∀ l : List (SessionRecord × Nat), (∀ e ∈ l, e ∈ branch.zipIdx) →
      l.filterMap ((fun index => branch[index]?) ∘ Prod.snd) = l.map Prod.fst := by
    intro l hl
    rw [← List.filterMap_eq_map]
    exact List.filterMap_congr fun e he => hget e (hl e he)
  have hinterval := filter_zipIdx SessionRecord.isUser branch
    (lastStop (branch.take (last + 1)) + 1).toNat (last + 1) 0
  rw [Nat.sub_zero, Nat.sub_zero] at hinterval
  rw [hmap _ fun e he => (List.mem_filter.mp he).1, ← hinterval]
  refine congrArg (List.map Prod.fst) (List.filter_congr fun e _ => ?_)
  have h1 : (lastStop (branch.take (last + 1)) < (e.2 : Int)) ↔
      (lastStop (branch.take (last + 1)) + 1).toNat ≤ e.2 := by omega
  have h2 : ((e.2 : Int) ≤ (last : Int)) ↔ e.2 < last + 1 := by omega
  simp only [Function.comp_apply, h1, h2]
  exact Bool.and_comm _ _

/-! ## Agreement -/

/-- Two ways to look up the branch that agree below the checkpoint give the same result. -/
theorem validateMemoryCheckpoint_congr {entry : SessionRecord} {index : Nat}
    {v v' : CheckpointValidation}
    (hcov : ∀ id, (v.coverageIndex id).filter (· < index) = (v'.coverageIndex id).filter (· < index))
    (hhash : ∀ data last, entry.details.bind Json.obj? = some data → hasStr data "coveredThrough" →
      v.coverageIndex (strField data "coveredThrough") = some last → last < index →
      v.prefixHash (last + 1) = v'.prefixHash (last + 1))
    (hby : v.sourceById = v'.sourceById) (hreq : ∀ last < index, v.requests last = v'.requests last)
    (hsource : v.source = v'.source) :
    validateMemoryCheckpoint len entry index v = validateMemoryCheckpoint len entry index v' := by
  unfold validateMemoryCheckpoint
  cases hdata : entry.details.bind Json.obj? with
  | none => rfl
  | some data =>
    simp only
    split
    · rfl
    · congr 1
      unfold validateDetails
      by_cases hshape : (field data "version").bind count? ≠ some 1 ∨ !hasStr data "coveredThrough" ∨
          !hasStr data "sourceHash"
      · simp only [hshape, ↓reduceIte]
      · simp only [hshape, ↓reduceIte]
        have hcov := hcov (strField data "coveredThrough")
        have hstr : hasStr data "coveredThrough" = true := by
          by_contra hn
          exact hshape (.inr (.inl (by simpa using hn)))
        cases hc : v.coverageIndex (strField data "coveredThrough") with
        | none =>
          cases hc' : v'.coverageIndex (strField data "coveredThrough") with
          | none => rfl
          | some last' =>
            have : ¬ last' < index := by simpa [hc, hc', Option.filter] using hcov
            simp only [Nat.not_lt.mp this, ↓reduceIte]
        | some last =>
          by_cases hl : last < index
          · have hc' : v'.coverageIndex (strField data "coveredThrough") = some last := by
              rw [hc] at hcov
              simp only [Option.filter, hl, decide_true, ↓reduceIte] at hcov
              exact (Option.filter_eq_some_iff.mp hcov.symm).1
            simp only [hc', Nat.not_le.mpr hl, ↓reduceIte, hhash data last hdata hstr hc hl,
              validateStored, hby, hreq last hl, hsource]
          · have hle := Nat.not_lt.mp hl
            simp only [hle, ↓reduceIte]
            cases hc' : v'.coverageIndex (strField data "coveredThrough") with
            | none => rfl
            | some last' =>
              have : ¬ last' < index := by simpa [hc, hc', Option.filter, hl] using hcov
              simp only [Nat.not_lt.mp this, ↓reduceIte]

/-- A position found below a bound is found in the prefix up to it. -/
private theorem findIdx?_take_filter {α : Type} (p : α → Bool) (l : List α) (n : Nat) :
    ((l.take (n + 1)).findIdx? p).filter (· < n) = (l.findIdx? p).filter (· < n) := by
  conv_rhs => rw [← List.take_append_drop (n + 1) l, List.findIdx?_append]
  cases h : (l.take (n + 1)).findIdx? p with
  | some i => simp
  | none =>
    cases hd : (l.drop (n + 1)).findIdx? p with
    | none => simp
    | some i =>
      have hlen : n + 1 ≤ l.length := by
        by_contra hlt
        rw [List.drop_eq_nil_of_le (by omega)] at hd
        simp at hd
      simp [Option.filter]
      omega

variable {serialization : Serialization} {branch : List SessionRecord}

/-- The hashes that the pass hands to the validation. -/
def Hashed (serialization : Serialization) (branch : List SessionRecord) (hashes : List (Nat × Str)) :
    Prop :=
  ∀ e ∈ branch.zipIdx, ∀ n, coverageLength (indices branch) e = some n →
    mapGet hashes n = some (sha256 (frames serialization (branch.take n)))

theorem latestMemory_append (serialization : Serialization) (read : List SessionRecord)
    {entry : SessionRecord} (hc : entry.type = .compaction) :
    latestMemory len sha256 serialization (read ++ [entry]) =
      validateMemoryCheckpoint len entry read.length
        (plainValidation sha256 serialization (read ++ [entry]) read.length) := by
  have hfind : (read ++ [entry]).zipIdx.reverse.find?
      (fun e => decide (e.1.type = .compaction)) = some (entry, read.length) := by
    rw [List.zipIdx_append, List.reverse_append]
    simp [hc]
  rw [latestMemory, hfind]

/-- At each checkpoint the indexed lookups give what the plain ones do. -/
theorem indexed_eq_latestMemory (hser : ∀ r ∈ branch, Serializes serialization r)
    {hashes : List (Nat × Str)} (hh : Hashed sha256 serialization branch hashes) {index : Nat}
    {entry : SessionRecord} (he : branch[index]? = some entry) (hc : entry.type = .compaction) :
    validateMemoryCheckpoint len entry index
        (indexedValidation branch (indices branch) hashes (recordsById (branch.take index))) =
      latestMemory len sha256 serialization (branch.take (index + 1)) := by
  obtain ⟨hlt, rfl⟩ := List.getElem?_eq_some_iff.mp he
  have hd := indices_describes branch
  have hlatest := latestMemory_append len sha256 serialization (branch.take index) hc
  rw [← List.take_succ_eq_append_getElem hlt, List.length_take,
    Nat.min_eq_left (Nat.le_of_lt hlt)] at hlatest
  rw [hlatest]
  refine validateMemoryCheckpoint_congr len (fun id => ?_) (fun data last hdata hstr hcov hl => ?_) ?_
    (fun last hl => ?_) rfl
  · simp only [indexedValidation, plainValidation, hd.first]
    exact (findIdx?_take_filter _ _ _).symm
  · simp only [indexedValidation] at hcov
    have hlen : coverageLength (indices branch) (branch[index], index) = some (last + 1) := by
      obtain ⟨id, hid⟩ := Option.isSome_iff_exists.mp hstr
      have hid' : strField data "coveredThrough" = id := by simp [strField, hid]
      rw [hid'] at hcov
      simp [coverageLength, hc, hdata, hid, hcov, hl]
    have hmem : (branch[index], index) ∈ branch.zipIdx := List.mem_zipIdx_iff_getElem?.mpr he
    have hhash := hh _ hmem _ hlen
    have hplain := hashRecords_eq sha256 (fun r hr => hser r (List.mem_of_mem_take hr) :
      ∀ r ∈ branch.take (last + 1), Serializes serialization r)
    simp only [indexedValidation, plainValidation, hhash, List.take_take,
      Nat.min_eq_left (show last + 1 ≤ index + 1 by omega), hplain]
    rfl
  · simp only [indexedValidation, plainValidation, List.take_take, Nat.min_eq_left (Nat.le_succ index)]
    rfl
  · rw [indexedValidation_requests (by omega)]
    simp only [plainValidation, List.take_take,
      Nat.min_eq_left (show last + 1 ≤ index + 1 by omega)]

theorem recordsById_append (read : List SessionRecord) (entry : SessionRecord) :
    recordsById (read ++ [entry]) = mapSet (recordsById read) entry.id entry := by
  simp [recordsById]

/-- The validating loop from any position on. -/
private theorem foldlM_validateStep (hser : ∀ r ∈ branch, Serializes serialization r)
    {hashes : List (Nat × Str)} (hh : Hashed sha256 serialization branch hashes)
    (read rest : List SessionRecord) (hb : read ++ rest = branch) (latest : Option ValidatedMemory) :
    ((rest.zipIdx read.length).foldlM (validateStep len branch (indices branch) hashes)
        (latest, recordsById read)).map Prod.fst =
      (rest.zipIdx read.length).foldlM (previewStep len sha256 serialization branch) latest := by
  induction rest generalizing read latest with
  | nil => rfl
  | cons entry rest ih =>
    have he : branch[read.length]? = some entry := by simp [← hb]
    have htake : branch.take read.length = read := by simp [← hb]
    have hstep : (if entry.type = .compaction then
          validateMemoryCheckpoint len entry read.length
            (indexedValidation branch (indices branch) hashes (recordsById read))
        else .ok latest) = previewStep len sha256 serialization branch latest (entry, read.length) := by
      unfold previewStep
      split
      · rename_i hc
        rw [← indexed_eq_latestMemory len sha256 hser hh he hc, htake]
      · rfl
    rw [List.zipIdx_cons, List.foldlM_cons, List.foldlM_cons, validateStep, hstep]
    cases previewStep len sha256 serialization branch latest (entry, read.length) with
    | error e => rfl
    | ok latest' =>
      have ih := ih (read ++ [entry]) (by simpa using hb) latest'
      rw [recordsById_append, List.length_append] at ih
      exact ih

/-- A branch without compactions has no memory. -/
theorem legacyPreviewLoop_none (serialization : Serialization)
    (h : branch.any (fun entry => entry.type = .compaction) = false) :
    legacyPreviewLoop len sha256 serialization branch = .ok none := by
  have hloop : ∀ (l : List (SessionRecord × Nat)), (∀ e ∈ l, e.1.type ≠ .compaction) →
      l.foldlM (previewStep len sha256 serialization branch) none = .ok none := by
    intro l hl
    induction l with
    | nil => rfl
    | cons e l ih =>
      rw [List.foldlM_cons, previewStep, if_neg (hl e List.mem_cons_self)]
      exact ih fun e' he' => hl e' (List.mem_cons_of_mem _ he')
  refine hloop _ fun e he => ?_
  have hmem : e.1 ∈ branch := List.fst_mem_of_mem_zipIdx he
  simpa using List.any_eq_false.mp h e.1 hmem

private theorem serializeEach_eq (serialization : Serialization) (l : List (SessionRecord × Nat))
    (h : ∀ e ∈ l, Serializes serialization e.1) :
    serializeEach serialization l =
      ⟨l.map fun e => (e.2, recordText serialization e.1), .ok ()⟩ := by
  induction l with
  | nil => rfl
  | cons e l ih =>
    have he := serializeRecord_eq (h e List.mem_cons_self)
    simp only [serializeEach, he, ih fun e' he' => h e' (List.mem_cons_of_mem _ he'), List.map_cons]

private theorem coverageLength_le {e : SessionRecord × Nat} (he : e ∈ branch.zipIdx) {n : Nat}
    (h : coverageLength (indices branch) e = some n) : n ≤ branch.length := by
  have hlt := List.snd_lt_of_mem_zipIdx he
  simp only [coverageLength, Option.ite_none_right_eq_some, Option.bind_eq_some_iff,
    Option.some.injEq] at h
  obtain ⟨-, _, -, _, -, last, -, hl, rfl⟩ := h
  omega

/-- When all records serialize, the texts are theirs. -/
theorem mapM_serializeRecord {texts : List Str}
    (h : branch.mapM (serializeRecord serialization) = .ok texts) :
    (∀ r ∈ branch, Serializes serialization r) ∧ texts = branch.map (recordText serialization) := by
  induction branch generalizing texts with
  | nil => exact ⟨by simp, (Except.ok.inj h).symm⟩
  | cons r branch ih =>
    rw [List.mapM_cons] at h
    cases hr : serializeRecord serialization r with
    | error e => rw [hr] at h; cases h
    | ok text =>
      rw [hr] at h
      cases hrest : branch.mapM (serializeRecord serialization) with
      | error e => rw [hrest] at h; cases h
      | ok rest =>
        rw [hrest] at h
        obtain ⟨hall, rfl⟩ := ih hrest
        obtain rfl := Except.ok.inj h
        refine ⟨List.forall_mem_cons.mpr ⟨⟨text, hr⟩, hall⟩, ?_⟩
        simp [recordText, hr, Except.toOption]

/-- The requested prefixes lie within the branch, so the pass gives their hashes. -/
private theorem prefixHashes (hser : ∀ r ∈ branch, Serializes serialization r) (handOut : Bool) :
    let lengths := branch.zipIdx.filterMap (coverageLength (indices branch)) ++
      (if handOut then [branch.length] else [])
    let run := hashEntryPrefixes sha256 serialization branch lengths
    run.serialized = ((branch.take (lengths.foldl max 0)).zipIdx).map
        (fun e => (e.2, recordText serialization e.1)) ∧
      ∃ found, run.result = .ok found ∧ Hashed sha256 serialization branch found := by
  have hle : ∀ n ∈ branch.zipIdx.filterMap (coverageLength (indices branch)) ++
      (if handOut then [branch.length] else []), n ≤ branch.length := by
    intro n hn
    rcases List.mem_append.mp hn with hn | hn
    · obtain ⟨e, he, hc⟩ := List.mem_filterMap.mp hn
      exact coverageLength_le he hc
    · cases handOut <;> simp at hn
      omega
  obtain ⟨hlog, found, hfound, hget⟩ := hashEntryPrefixes_eq sha256 hser hle
  refine ⟨hlog, found, hfound, fun e he n hn => ?_⟩
  rw [hget, if_pos (List.mem_append_left _ (List.mem_filterMap.mpr ⟨e, he, hn⟩))]

/-- The indexed validation returns what the plain loop returns. -/
theorem validateMemoryCheckpoints_result (hser : ∀ r ∈ branch, Serializes serialization r)
    (handOut : Bool) :
    (validateMemoryCheckpoints len sha256 serialization handOut branch).result =
      legacyPreviewLoop len sha256 serialization branch := by
  by_cases hany : branch.any (fun entry => entry.type = .compaction) = true
  · obtain ⟨-, found, hfound, hh⟩ := prefixHashes sha256 hser handOut
    simp only [validateMemoryCheckpoints, hany, Bool.not_true, Bool.false_eq_true, ↓reduceIte, hfound]
    exact foldlM_validateStep len sha256 hser hh [] branch rfl none
  · simp only [Bool.not_eq_true] at hany
    have hnone := legacyPreviewLoop_none len sha256 serialization hany
    have heach := serializeEach_eq serialization branch.zipIdx
      fun e he => hser e.1 (List.fst_mem_of_mem_zipIdx he)
    cases handOut <;> simp [validateMemoryCheckpoints, hany, heach, hnone, Except.map]

/-- The records that it hands out. -/
theorem validateMemoryCheckpoints_serialized (hser : ∀ r ∈ branch, Serializes serialization r) :
    (validateMemoryCheckpoints len sha256 serialization true branch).serialized =
      branch.zipIdx.map fun e => (e.2, recordText serialization e.1) := by
  by_cases hany : branch.any (fun entry => entry.type = .compaction) = true
  · have hlog := (prefixHashes sha256 hser true).1
    simp only [↓reduceIte] at hlog
    simp only [validateMemoryCheckpoints, hany, Bool.not_true, Bool.false_eq_true, ↓reduceIte, hlog]
    rw [List.foldl_append, List.foldl_cons, List.foldl_nil, List.take_of_length_le (by omega)]
  · have heach := serializeEach_eq serialization branch.zipIdx
      fun e he => hser e.1 (List.fst_mem_of_mem_zipIdx he)
    simp only [Bool.not_eq_true] at hany
    simp [validateMemoryCheckpoints, hany, heach]

/-- On a branch whose records serialize, the indexed validation returns what the plain one returns
checkpoint by checkpoint, the errors included, and hands out each record once, in order. -/
theorem validateMemoryCheckpoints_agrees (branch : List SessionRecord) (serialization : Serialization)
    (texts : List Str) (h : branch.mapM (serializeRecord serialization) = .ok texts) :
    (∀ handOut, (validateMemoryCheckpoints len sha256 serialization handOut branch).result =
        legacyPreviewLoop len sha256 serialization branch) ∧
      (validateMemoryCheckpoints len sha256 serialization true branch).serialized =
        texts.zipIdx.map Prod.swap := by
  obtain ⟨hser, rfl⟩ := mapM_serializeRecord h
  refine ⟨validateMemoryCheckpoints_result len sha256 hser, ?_⟩
  rw [validateMemoryCheckpoints_serialized len sha256 hser, List.zipIdx_map, List.map_map]
  rfl

/-! ### A stored checkpoint -/

def storedRequest (text : String) : SessionRecord :=
  messageRecord (lit "u1") (lit "root") (lit "2026-01-01T00:00:00.000Z") (lit "user") (lit text)

def storedNote : MemoryNote where
  facts
    | .state => [⟨lit "Fixed.", [lit "u1"], none, none⟩]
    | _ => []
  gaps := []

/-- A checkpoint of the first request, for a hash that is always empty. -/
def storedCheckpoint : SessionRecord where
  fields := [(lit "type", .str (lit "compaction")), (lit "id", .str (lit "c0")),
    (lit "parentId", .str (lit "u1")), (lit "timestamp", .str (lit "2026-01-01T00:00:01.000Z")),
    (lit "summary", .str (renderNote storedNote [])), (lit "firstKeptEntryId", .str (lit "u2")),
    (lit "tokensBefore", .num (.ofNat 9)),
    (lit "details", .obj [(lit "kind", .str CONTEXT_MEMORY_KIND), (lit "version", .num (.ofNat 1)),
      (lit "build", .str (lit "stock-preview")), (lit "coveredThrough", .str (lit "u1")),
      (lit "sourceHash", .str []), (lit "note", storedNote.toJson)])]
  typed := by
    simp [recordTyped, hasStr, strField, strField?, field, RecordType.ofName, isStr, isNull]

/-- A checkpoint and a later record that repeats an ID: both validations accept it. -/
theorem validateMemoryCheckpoints_agrees_stored :
    let branch := [storedRequest "Fix it.", storedCheckpoint, storedRequest "Fix that too."]
    (∀ handOut, ∃ m, (validateMemoryCheckpoints List.length (fun _ => []) .pi handOut branch).result =
        .ok (some m) ∧ legacyPreviewLoop List.length (fun _ => []) .pi branch = .ok (some m)) ∧
      (validateMemoryCheckpoints List.length (fun _ => []) .pi true branch).serialized =
        (branch.map fun r => stringify r.json).zipIdx.map Prod.swap := by
  intro branch
  obtain ⟨hagrees, hserialized⟩ := validateMemoryCheckpoints_agrees List.length (fun _ => []) branch .pi _ rfl
  have haccepted : ((legacyPreviewLoop List.length (fun _ => []) .pi branch).toOption.bind id).isSome = true := by
    decide +kernel
  refine ⟨fun handOut => ?_, hserialized⟩
  rw [hagrees handOut]
  cases hloop : legacyPreviewLoop List.length (fun _ => []) .pi branch with
  | error e =>
    rw [hloop] at haccepted
    cases haccepted
  | ok latest =>
    rw [hloop] at haccepted
    obtain ⟨m, rfl⟩ := Option.isSome_iff_exists.mp haccepted
    exact ⟨m, rfl, rfl⟩

/-! ## Growing branches -/

/-- A turn of the plain loop reads no record behind its own. -/
theorem previewStep_append (serialization : Serialization) {read : List SessionRecord}
    (more : List SessionRecord) {e : SessionRecord × Nat} (he : e.2 < read.length) (latest : Option ValidatedMemory) :
    previewStep len sha256 serialization (read ++ more) latest e =
      previewStep len sha256 serialization read latest e := by
  unfold previewStep
  rw [List.take_append_of_le_length (by omega)]

private theorem foldlM_previewStep_append {read more : List SessionRecord}
    {l : List (SessionRecord × Nat)} (hl : ∀ e ∈ l, e.2 < read.length)
    (latest : Option ValidatedMemory) :
    l.foldlM (previewStep len sha256 serialization (read ++ more)) latest =
      l.foldlM (previewStep len sha256 serialization read) latest := by
  induction l generalizing latest with
  | nil => rw [List.foldlM_nil, List.foldlM_nil]
  | cons e l ih =>
    have hstep := previewStep_append len sha256 serialization more
      (hl e List.mem_cons_self) latest
    rw [List.foldlM_cons, List.foldlM_cons, hstep]
    exact bind_congr fun latest' => ih (fun e' he' => hl e' (List.mem_cons_of_mem _ he')) latest'

/-- The plain loop on one more record. -/
theorem legacyPreviewLoop_append (read : List SessionRecord) (entry : SessionRecord) :
    legacyPreviewLoop len sha256 serialization (read ++ [entry]) =
      (legacyPreviewLoop len sha256 serialization read >>= fun latest =>
        if entry.type = .compaction then latestMemory len sha256 serialization (read ++ [entry])
        else .ok latest) := by
  have hlast : ∀ latest, [(entry, 0 + read.length)].foldlM
      (previewStep len sha256 serialization (read ++ [entry])) latest =
        if entry.type = .compaction then latestMemory len sha256 serialization (read ++ [entry])
        else .ok latest := by
    intro latest
    rw [List.foldlM_cons, previewStep, List.take_of_length_le (by simp)]
    simp only [List.foldlM_nil, bind_pure]
  rw [legacyPreviewLoop, legacyPreviewLoop, List.zipIdx_append, List.foldlM_append,
    foldlM_previewStep_append len sha256 fun e he => by simpa using List.snd_lt_of_mem_zipIdx he]
  simp only [List.zipIdx_cons, List.zipIdx_nil, hlast]

/-- Records that are no checkpoints leave the result as it is. -/
theorem legacyPreviewLoop_more (read : List SessionRecord) {more : List SessionRecord}
    (hmore : ∀ r ∈ more, r.type ≠ .compaction) :
    legacyPreviewLoop len sha256 serialization (read ++ more) =
      legacyPreviewLoop len sha256 serialization read := by
  induction more using List.reverseRecOn with
  | nil => rw [List.append_nil]
  | append_singleton more r ih =>
    rw [← List.append_assoc, legacyPreviewLoop_append,
      ih fun r' hr' => hmore r' (List.mem_append_left _ hr')]
    simp only [hmore r (by simp), ↓reduceIte]
    cases legacyPreviewLoop len sha256 serialization read <;> rfl

/-- What a checkpoint that passed is. -/
theorem validateMemoryCheckpoint_some {entry : SessionRecord} {index : Nat}
    {validation : CheckpointValidation} {m : ValidatedMemory}
    (h : validateMemoryCheckpoint len entry index validation = .ok (some m)) :
    m.entry = entry ∧ entry.details.bind Json.obj? = some m.memory ∧
      hasStr m.memory "coveredThrough" = true := by
  unfold validateMemoryCheckpoint at h
  cases hdata : entry.details.bind Json.obj? with
  | none => simp [hdata] at h
  | some data =>
    simp only [hdata] at h
    split at h
    · cases h
    · obtain ⟨m', hm, hmm⟩ := map_ok.mp h
      obtain rfl := Option.some.inj hmm
      unfold validateDetails at hm
      split_ifs at hm with hshape
      have hstr : hasStr data "coveredThrough" = true := by
        by_contra hn
        exact hshape (.inr (.inl (by simpa using hn)))
      cases hc : validation.coverageIndex (strField data "coveredThrough") with
      | none => simp [hc] at hm
      | some last =>
        simp only [hc] at hm
        split_ifs at hm
        obtain ⟨hash, -, hm⟩ := bind_ok.mp hm
        split_ifs at hm
        simp only [validateStored, bind_ok] at hm
        obtain ⟨hardTokens, -, note, -, -, -, hm⟩ := hm
        split_ifs at hm
        obtain ⟨-, -, hm⟩ := bind_ok.mp hm
        obtain rfl := Except.ok.inj hm
        exact ⟨rfl, rfl, hstr⟩

/-- The newest checkpoint is a record of the branch. -/
theorem legacyPreviewLoop_some {m : ValidatedMemory}
    (h : legacyPreviewLoop len sha256 serialization branch = .ok (some m)) :
    m.entry ∈ branch ∧ m.entry.type = .compaction ∧ m.entry.details.bind Json.obj? = some m.memory ∧
      hasStr m.memory "coveredThrough" = true := by
  induction branch using List.reverseRecOn with
  | nil => cases h
  | append_singleton read entry ih =>
    rw [legacyPreviewLoop_append] at h
    cases hr : legacyPreviewLoop len sha256 serialization read with
    | error e => rw [hr] at h; cases h
    | ok latest =>
      rw [hr] at h
      by_cases hc : entry.type = .compaction
      · simp only [bind, Except.bind, hc, ↓reduceIte, latestMemory_append len sha256 serialization read hc] at h
        obtain ⟨he, hd, hs⟩ := validateMemoryCheckpoint_some len h
        exact ⟨he ▸ by simp, he ▸ hc, he ▸ hd, hs⟩
      · simp only [bind, Except.bind, hc, ↓reduceIte, Except.ok.injEq] at h
        obtain ⟨hm, hrest⟩ := ih (h ▸ hr)
        exact ⟨List.mem_append_left _ hm, hrest⟩

end Compaction
