import ContextCompaction.Preview.Compact

/-!
# Chains of compactions

Runs of commits between appended turns. A candidate is prepared on a branch and may be committed
after the branch has grown.

* `ChainStep`: one step of a run.
* `ChainInvariant`: every covered user message is carried by the newest checkpoint or was handed to a
  writer, and only covered records have left the context.
* `chain_keepsUserMessages`: so none is lost.
-/

namespace Compaction

open Js

/-! ## Runs -/

/-- A note in preparation: the frozen branch, and what its writer reads. -/
structure PreparationJob where
  input : PreparationSnapshot
  uncovered : List SessionRecord

/-- A finished candidate. -/
structure Armed where
  candidate : PreparedCandidate
  uncovered : List SessionRecord

/-- A committed checkpoint that a writer made, and what the writer was handed. -/
structure Writing where
  checkpoint : SessionRecord
  sources : List SessionRecord

/-- A session between two compactions: its branch, the preparations that run, the candidate that is
armed, and what writers were given, one entry for each checkpoint they wrote. -/
structure ChainState where
  branch : List SessionRecord
  running : List PreparationJob
  armed : Option Armed
  writings : List Writing

section

variable (nfkc : Str → Str) (len : Str → Nat) (sha256 : Sha256)

/-- Freeze the branch for a writer; the policies are those of the submission. -/
def prepare (ctx : CompactContext) (noteBudget : Json) (branch : List SessionRecord) :
    Except Failure PreparationJob := do
  let _ ← (assertPreviewSession len sha256 ctx.session ctx.version branch).result
  let previous ← latestMemory len sha256 .pi branch
  let leafId := (branch.getLast?.map SessionRecord.id).getD []
  let input ← freezePreparationInput sha256
    ⟨ctx.session.sessionId, ctx.epoch, branch, leafId,
      (branch.filter SessionRecord.isUser).map SessionRecord.id, ctx.writer, noteBudget⟩
  pure ⟨input, writerSources branch previous⟩

/-- The record that the host appends for a staged candidate. -/
def committedRecord (branch : List SessionRecord) (c : PreviewCompaction) (run : CompactRun)
    (host : HostFields) : SessionRecord :=
  checkpointRecord { run with firstKeptEntryId := c.plan.firstKeptEntryId } host c.summary
    (checkpointDetails sha256 run branch c.plan.coveredIndex c.note c.policy c.plan.userMessages)

/-- What the writer of a commit was handed; merged work notes have none. -/
def handedSources (armed : Option Armed) (c : PreviewCompaction) : Option (List SessionRecord) :=
  match c.path with
  | .complete | .prefixed => armed.map Armed.uncovered
  | .notes => none
  | .sync => c.uncovered

/-- The host appends a record, a preparation starts or ends, or a compaction is committed. -/
inductive ChainStep : ChainState → ChainState → Prop
  /-- The host appends a record of a turn. -/
  | append {s : ChainState} (entry : SessionRecord) : entry.type ≠ .compaction →
      entry.id ∉ s.branch.map SessionRecord.id →
      ChainStep s { s with branch := s.branch ++ [entry] }
  /-- A preparation starts. -/
  | prepare {s : ChainState} (ctx : CompactContext) (noteBudget : Json) (job : PreparationJob) :
      prepare len sha256 ctx noteBudget s.branch = .ok job →
      ChainStep s { s with running := job :: s.running }
  /-- A preparation ends with a candidate. -/
  | arm {s : ChainState} (job : PreparationJob) (note : Json) (provenance : PreparationProvenance)
      (candidate : PreparedCandidate) : job ∈ s.running →
      finalizePreparation sha256 len job.input note provenance = .ok candidate →
      ChainStep s { s with armed := some ⟨candidate, job.uncovered⟩ }
  /-- What was prepared is discarded: by a commit, a changed session or a restart. -/
  | discard {s : ChainState} : ChainStep s { s with running := [], armed := none }
  /-- A compaction is committed. -/
  | commit {s : ChainState} (ctx : CompactContext) (answer : Json) (c : PreviewCompaction)
      (run : CompactRun) (host : HostFields) :
      compact nfkc len sha256 ctx s.branch (s.armed.map Armed.candidate) answer = .ok c →
      host.id ∉ s.branch.map SessionRecord.id →
      ChainStep s
        { s with
          branch := s.branch ++ [committedRecord sha256 s.branch c run host],
          writings := s.writings ++ ((handedSources s.armed c).map fun sources =>
            ⟨committedRecord sha256 s.branch c run host, sources⟩).toList }

/-- All sessions that start from an empty branch. -/
def Chain : Transition.System ChainState where
  init s := s.branch = [] ∧ s.running = [] ∧ s.armed = none ∧ s.writings = []
  step := ChainStep nfkc len sha256

end

/-! ## What a run keeps -/

/-- The index of the last record that a checkpoint covers. -/
def checkpointCoverage (branch : List SessionRecord) (checkpoint : SessionRecord) : Option Nat :=
  (compactionDetails checkpoint).bind fun details =>
    branch.findIdx? fun entry => entry.id = strField details "coveredThrough"

/-- The JSON line of a message's ID and text. -/
def messageLine (user : SessionRecord) : Str :=
  stringify (.obj [(lit "entryId", .str user.id), (lit "text", .str (sourceText user))])

/-- A text is a line of a longer one: what is before it ends with a line feed, and another one or nothing is
behind it. -/
def IsLineOf (line text : Str) : Prop :=
  ∃ before after, text = before ++ (line ++ after) ∧ before.getLast? = some 0x0A ∧
    (after = [] ∨ after.head? = some 0x0A)

/-- The checkpoint lists a message, its summary ends with the exact rendering of the list, and the message has
a line of its own there. -/
def CarriedBy (checkpoint user : SessionRecord) : Prop :=
  ∃ users, carriedUserMessages (some checkpoint) = users.map SessionRecord.id ∧ user ∈ users ∧
    renderUserMessages users <:+ checkpoint.summary ∧ IsLineOf (messageLine user) checkpoint.summary

/-- Each user message that the newest checkpoint covers is in context, carried by the checkpoint, or
was handed to the writer of a checkpoint of the branch. -/
def KeepsUserMessages (s : ChainState) : Prop :=
  ∀ checkpoint, lastCompaction s.branch = some checkpoint →
    ∃ last, checkpointCoverage s.branch checkpoint = some last ∧
      ∀ user ∈ s.branch.take (last + 1), user.isUser = true →
        user ∈ buildContextEntries s.branch ∨ CarriedBy checkpoint user ∨
          ∃ w ∈ s.writings, w.checkpoint ∈ s.branch ∧ user ∈ w.sources

/-! ## The line of a message -/

theorem IsLineOf.of_suffix {line text text' : Str} (h : IsLineOf line text) (hsuffix : text <:+ text') :
    IsLineOf line text' := by
  obtain ⟨before, after, rfl, hbefore, hafter⟩ := h
  obtain ⟨front, rfl⟩ := hsuffix
  refine ⟨front ++ before, after, (List.append_assoc ..).symm, ?_, hafter⟩
  rw [List.getLast?_append, hbefore, Option.some_or]

/-- A line is one of the text that ends with the joined lines. -/
theorem isLineOf_join {front line : Str} {lines : List Str} (hfront : front.getLast? = some 0x0A)
    (h : line ∈ lines) : IsLineOf line (front ++ join "\n" lines) := by
  induction lines generalizing front with
  | nil => cases h
  | cons first rest ih =>
    cases rest with
    | nil =>
      obtain rfl := List.mem_singleton.mp h
      exact ⟨front, [], by simp, hfront, .inl rfl⟩
    | cons second rest =>
      rw [join_cons_cons]
      rcases List.mem_cons.mp h with rfl | h
      · exact ⟨front, lit "\n" ++ join "\n" (second :: rest), by simp, hfront, .inr rfl⟩
      · rw [← List.append_assoc, ← List.append_assoc]
        exact ih (by rw [List.getLast?_append]; rfl) h

theorem messageLine_rendered {user : SessionRecord} {users : List SessionRecord} (h : user ∈ users) :
    IsLineOf (messageLine user) (renderUserMessages users) := by
  unfold renderUserMessages
  refine isLineOf_join ?_ (List.mem_map.mpr ⟨user, h, rfl⟩)
  rw [lit_ofList]
  decide +kernel

/-! ## The newest checkpoint -/

theorem lastCompaction_append (read : List SessionRecord) (entry : SessionRecord) :
    lastCompaction (read ++ [entry]) =
      if entry.type = .compaction then some entry else lastCompaction read := by
  rw [lastCompaction, lastCompaction, List.reverse_append, List.reverse_singleton,
    List.singleton_append, List.find?_cons]
  by_cases h : entry.type = .compaction <;> simp [h]

/-- Behind a new checkpoint, what it keeps is in context. -/
theorem buildContextEntries_append {branch : List SessionRecord} {checkpoint : SessionRecord}
    (htype : checkpoint.type = .compaction) (hfresh : checkpoint.id ∉ branch.map SessionRecord.id) :
    buildContextEntries (branch ++ [checkpoint]) = checkpoint :: keptEntries checkpoint branch := by
  have hnone : branch.findIdx? (fun entry => entry.id = checkpoint.id) = none := by
    refine List.findIdx?_eq_none_iff.mpr fun entry hmem => decide_eq_false fun h => hfresh ?_
    exact h ▸ List.mem_map_of_mem hmem
  have hat : (branch ++ [checkpoint]).findIdx? (fun entry => entry.id = checkpoint.id) =
      some branch.length := by
    simp [List.findIdx?_append, hnone, List.findIdx?_cons]
  simp [buildContextEntries, lastCompaction_append, htype, hat]

theorem lastCompaction_mem {branch : List SessionRecord} {checkpoint : SessionRecord}
    (h : lastCompaction branch = some checkpoint) :
    checkpoint ∈ branch ∧ checkpoint.type = .compaction := by
  have htype := List.find?_some h
  exact ⟨List.mem_reverse.mp (List.mem_of_find?_eq_some h), of_decide_eq_true htype⟩

theorem lastCompaction_eq_find (branch : List SessionRecord) :
    lastCompaction branch =
      (branch.zipIdx.reverse.find? fun e => e.1.type = .compaction).map Prod.fst := by
  have hrev : branch.reverse = branch.zipIdx.reverse.map Prod.fst := by
    rw [List.map_reverse, List.zipIdx_map_fst]
  rw [lastCompaction, hrev, List.find?_map]
  rfl

variable {nfkc : Str → Str} {len : Str → Nat} {sha256 : Sha256}

/-- A checkpoint of the preview is never passed over. -/
theorem validateMemoryCheckpoint_own {entry : SessionRecord} (hown : isPreviewCheckpoint entry = true)
    {index : Nat} {validation : CheckpointValidation} {latest : Option ValidatedMemory}
    (h : validateMemoryCheckpoint len entry index validation = .ok latest) :
    ∃ m, latest = some m ∧ m.entry = entry ∧ entry.details.bind Json.obj? = some m.memory := by
  simp only [isPreviewCheckpoint, Bool.and_eq_true, Option.any_eq_true, decide_eq_true_eq] at hown
  obtain ⟨-, data, hdata, hkind, -⟩ := hown
  cases latest with
  | some m =>
    obtain ⟨he, hd, -⟩ := validateMemoryCheckpoint_some len h
    exact ⟨m, rfl, he, hd⟩
  | none =>
    unfold validateMemoryCheckpoint at h
    simp only [hdata, hkind, ne_eq, not_true_eq_false, ↓reduceIte] at h
    obtain ⟨m, -, hm⟩ := map_ok.mp h
    cases hm

/-- The newest checkpoint and its stored memory. -/
def Newest (branch : List SessionRecord) (previous : Option ValidatedMemory) : Prop :=
  previous.map ValidatedMemory.entry = lastCompaction branch ∧
    ∀ m ∈ previous, compactionDetails m.entry = some m.memory

/-- The checkpoint that the guard accepts is the branch's last compaction. -/
theorem newest_of_accepted {session : PreviewSession} {version : Str} {branch : List SessionRecord}
    {previous : Option ValidatedMemory} (h : Accepted len sha256 session version branch previous) :
    Newest branch previous := by
  have hown := h.own
  have hloop := h.checkpoints
  clear h
  induction branch using List.reverseRecOn generalizing previous with
  | nil =>
    obtain rfl := Except.ok.inj hloop
    exact ⟨rfl, by simp⟩
  | append_singleton read entry ih =>
    rw [legacyPreviewLoop_append] at hloop
    obtain ⟨latest, hlatest, hloop⟩ := bind_ok.mp hloop
    rw [Newest, lastCompaction_append]
    by_cases hc : entry.type = .compaction
    · rw [if_pos hc] at hloop ⊢
      rw [latestMemory_append len sha256 .pi read hc] at hloop
      obtain ⟨m, rfl, rfl, hdata⟩ := validateMemoryCheckpoint_own (hown entry (by simp) hc) hloop
      refine ⟨rfl, fun m' hm' => ?_⟩
      obtain rfl := Option.some.inj hm'
      rw [compactionDetails, if_pos hc, hdata]
    · rw [if_neg hc] at hloop ⊢
      obtain rfl := Except.ok.inj hloop
      exact ih (fun r hr => hown r (List.mem_append_left _ hr)) hlatest

/-- The latest memory is the last compaction, if all compactions are this extension's. -/
theorem newest_of_latestMemory {branch : List SessionRecord} {previous : Option ValidatedMemory}
    (hown : ∀ entry ∈ branch, entry.type = .compaction → isPreviewCheckpoint entry = true)
    (h : latestMemory len sha256 .pi branch = .ok previous) : Newest branch previous := by
  unfold latestMemory at h
  rw [Newest, lastCompaction_eq_find]
  split at h
  · rename_i hnone
    obtain rfl := Except.ok.inj h
    rw [hnone]
    exact ⟨rfl, by simp⟩
  · rename_i entry index hfind
    rw [hfind]
    have hlast : lastCompaction branch = some entry := by
      rw [lastCompaction_eq_find, hfind]
      rfl
    obtain ⟨hmem, htype⟩ := lastCompaction_mem hlast
    obtain ⟨m, rfl, rfl, hdata⟩ := validateMemoryCheckpoint_own (hown entry hmem htype) h
    refine ⟨rfl, fun m' hm' => ?_⟩
    obtain rfl := Option.some.inj hm'
    rw [compactionDetails, if_pos htype, hdata]

/-! ## The invariant -/

/-- The newest checkpoint stands at `at_` and covers through `last`; what it does not cover is kept. -/
structure Covers (branch : List SessionRecord) (checkpoint : SessionRecord) (at_ last : Nat) :
    Prop where
  position : branch[at_]? = some checkpoint
  coverage : checkpointCoverage branch checkpoint = some last
  before : last < at_
  kept : ∀ i entry, last < i → i < at_ → branch[i]? = some entry →
    entry ∈ (branch.take at_).dropWhile fun e => e.id ≠ checkpoint.firstKeptEntryId

/-- The newest checkpoint carries a message, or a writer was handed it. -/
def Told (writings : List Writing) (checkpoint user : SessionRecord) : Prop :=
  CarriedBy checkpoint user ∨ ∃ w ∈ writings, user ∈ w.sources

/-- What is prepared was frozen on a prefix of the branch, and its writer read that prefix. -/
structure Prepared (sha256 : Sha256) (branch : List SessionRecord) (input : PreparationSnapshot)
    (uncovered : List SessionRecord) (length : Nat) (previous : Option ValidatedMemory) : Prop where
  frozen : length ≤ branch.length
  nonempty : 0 < length
  covered : input.entryIds.length = length
  base : input.baseCheckpoint = lastCheckpoint sha256 (branch.take length)
  newest : Newest (branch.take length) previous
  sources : uncovered = writerSources (branch.take length) previous

/-- What holds between steps: the latest checkpoint covers a prefix of the branch and tells every user
message in it, and every running preparation was taken from a prefix of the branch. -/
structure ChainInvariant (sha256 : Sha256) (s : ChainState) : Prop where
  nodup : (s.branch.map SessionRecord.id).Nodup
  onBranch : ∀ w ∈ s.writings, w.checkpoint ∈ s.branch
  latest : ∀ checkpoint, lastCompaction s.branch = some checkpoint →
    ∃ at_ last, Covers s.branch checkpoint at_ last ∧
      ∀ i user, i ≤ last → s.branch[i]? = some user → user.isUser = true →
        Told s.writings checkpoint user
  running : ∀ job ∈ s.running, ∃ length previous,
    Prepared sha256 s.branch job.input job.uncovered length previous
  armed : ∀ armed ∈ s.armed, ∃ length previous,
    Prepared sha256 s.branch armed.candidate.input armed.uncovered length previous

/-! ## What a writer reads -/

/-- A writer reads every record that the previous checkpoint does not cover, or carries. -/
theorem mem_writerSources {branch : List SessionRecord} {previous : Option ValidatedMemory}
    {i : Nat} {entry : SessionRecord} (hi : branch[i]? = some entry)
    (h : ∀ m ∈ previous, ∀ last, (branch.findIdx? fun e => e.id = m.coveredThrough) = some last →
      i ≤ last → entry.id ∈ carriedUserMessages (some m.entry)) :
    entry ∈ writerSources branch previous := by
  unfold writerSources
  simp only
  cases hafter : previous.bind fun m => branch.findIdx? fun e => e.id = m.coveredThrough with
  | none => exact List.mem_append_right _ (by simpa using List.mem_of_getElem? hi)
  | some last =>
    obtain ⟨m, rfl, hlast⟩ := Option.bind_eq_some_iff.mp hafter
    simp only [Option.elim_some]
    by_cases hle : i ≤ last
    · refine List.mem_append_left _ (List.mem_filter.mpr ⟨?_, ?_⟩)
      · refine List.mem_of_getElem? (i := i) ?_
        rw [List.getElem?_take_of_lt (by omega), hi]
      · simpa using h m rfl last hlast hle
    · refine List.mem_append_right _ (List.mem_of_getElem? (i := i - (last + 1)) ?_)
      rw [List.getElem?_drop, Nat.add_sub_cancel' (by omega), hi]

/-- A writer that has read a prefix with the newest checkpoint has been handed each user message of
the prefix, if no earlier one was. -/
theorem handed_of_prepared {s : ChainState} (hinv : ChainInvariant sha256 s) {length : Nat}
    {previous : Option ValidatedMemory} (hnewest : Newest (s.branch.take length) previous)
    (hsame : lastCompaction (s.branch.take length) = lastCompaction s.branch) {i : Nat}
    (hlt : i < length) {user : SessionRecord} (hi : s.branch[i]? = some user)
    (huser : user.isUser = true) :
    user ∈ writerSources (s.branch.take length) previous ∨ ∃ w ∈ s.writings, user ∈ w.sources := by
  have hi' : (s.branch.take length)[i]? = some user := by rw [List.getElem?_take_of_lt hlt, hi]
  by_cases hhanded : ∃ w ∈ s.writings, user ∈ w.sources
  · exact .inr hhanded
  refine .inl (mem_writerSources hi' fun m hm last hlast hle => ?_)
  obtain ⟨hentry, hmemory⟩ := hnewest
  obtain rfl : previous = some m := hm
  rw [hsame] at hentry
  obtain ⟨at_, last', hcovers, htold⟩ := hinv.latest m.entry hentry.symm
  -- The coverage is found at the same place in the prefix.
  have hcoverage := hcovers.coverage
  rw [checkpointCoverage, hmemory m rfl, Option.bind_some] at hcoverage
  have hfull : (s.branch.findIdx? fun e => e.id = m.coveredThrough) = some last := by
    have := findIdx?_append_of_some hlast (s.branch.drop length)
    rwa [List.take_append_drop] at this
  obtain rfl : last' = last := Option.some.inj (hcoverage.symm.trans hfull)
  rcases htold i user hle hi huser with ⟨users, hids, hmem, -⟩ | hw
  · rw [hids]
    exact List.mem_map_of_mem hmem
  · exact absurd hw hhanded

/-! ## What is in context -/

/-- What stands behind the first element that fails a test is kept. -/
theorem mem_dropWhile_of_le {α : Type} {p : α → Bool} {l : List α} {s i : Nat} {a b : α}
    (hs : l[s]? = some a) (hp : p a = false) (hle : s ≤ i) (hi : l[i]? = some b) :
    b ∈ l.dropWhile p := by
  induction l generalizing s i with
  | nil => simp at hs
  | cons x l ih =>
    rw [List.dropWhile_cons]
    by_cases hx : p x = true
    · rw [if_pos hx]
      cases s with
      | zero =>
        obtain rfl := Option.some.inj hs
        rw [hp] at hx
        cases hx
      | succ s =>
        obtain ⟨j, rfl⟩ : ∃ j, i = j + 1 := ⟨i - 1, by omega⟩
        exact ih hs (by omega) hi
    · rw [if_neg hx]
      exact List.mem_of_getElem? hi

/-- The context of a branch with a checkpoint. -/
theorem mem_buildContextEntries {branch : List SessionRecord}
    (hnodup : (branch.map SessionRecord.id).Nodup) {checkpoint : SessionRecord}
    (hlast : lastCompaction branch = some checkpoint) {at_ last : Nat}
    (hcovers : Covers branch checkpoint at_ last) {i : Nat} {user : SessionRecord}
    (hi : branch[i]? = some user) (huser : user.isUser = true) (hlt : last < i) :
    user ∈ buildContextEntries branch := by
  unfold buildContextEntries
  simp only [hlast, findIdx?_of_nodup hnodup hcovers.position]
  rcases Nat.lt_trichotomy i at_ with hbefore | rfl | hbehind
  · have hkept := hcovers.kept i user hlt hbefore hi
    refine List.mem_append_left _ (List.mem_cons_of_mem _ (List.mem_filter.mpr ⟨hkept, ?_⟩))
    have hrole : lit "user" ≠ lit "system" := fun h => absurd (lit_inj.mp h) (by decide)
    simp [isUser_type huser, isSystem, isUser_role huser, hrole]
  · obtain rfl := Option.some.inj (hi.symm.trans hcovers.position)
    have := (lastCompaction_mem hlast).2
    rw [isUser_type huser] at this
    cases this
  · refine List.mem_append_right _ (List.mem_of_getElem? (i := i - (at_ + 1)) ?_)
    rw [List.getElem?_drop, Nat.add_sub_cancel' (by omega), hi]

/-- A user message that is not in context is carried, or was handed to a writer. -/
theorem told_of_inactive {s : ChainState} (hinv : ChainInvariant sha256 s)
    (hedits : assertRecoveryEdits s.branch = .ok ()) (getTime : GetTime) {i : Nat}
    {user : SessionRecord} (hi : s.branch[i]? = some user) (huser : user.isUser = true)
    (hinactive : isActive (buildSessionProjection getTime s.branch) user.id = false) :
    ∃ checkpoint, lastCompaction s.branch = some checkpoint ∧ Told s.writings checkpoint user := by
  have hout : user ∉ buildContextEntries s.branch := by
    intro hmem
    obtain ⟨e, he, rfl, hne⟩ := projected_of_mem getTime hinv.nodup hedits hmem huser
    have := List.any_eq_false.mp hinactive e he
    simp [hne] at this
  cases hlast : lastCompaction s.branch with
  | none =>
    rw [buildContextEntries, hlast] at hout
    exact absurd (List.mem_of_getElem? hi) hout
  | some checkpoint =>
    obtain ⟨at_, last, hcovers, htold⟩ := hinv.latest checkpoint hlast
    by_cases hle : i ≤ last
    · exact ⟨checkpoint, rfl, htold i user hle hi huser⟩
    · exact absurd (mem_buildContextEntries hinv.nodup hlast hcovers hi huser (by omega)) hout

/-! ## A commit -/

section

variable {branch : List SessionRecord} {c : PreviewCompaction} {run : CompactRun} {host : HostFields}

@[simp] theorem type_committedRecord : (committedRecord sha256 branch c run host).type = .compaction := by
  simp [committedRecord]

@[simp] theorem id_committedRecord : (committedRecord sha256 branch c run host).id = host.id := by
  simp [SessionRecord.id, committedRecord, checkpointRecord, strField, strField?, field, present]

@[simp] theorem firstKeptEntryId_committedRecord :
    (committedRecord sha256 branch c run host).firstKeptEntryId = c.plan.firstKeptEntryId := by
  simp [SessionRecord.firstKeptEntryId, committedRecord, checkpointRecord, strField, strField?,
    field, present]

theorem details_committedRecord :
    compactionDetails (committedRecord sha256 branch c run host) =
      some (checkpointDetails sha256 run branch c.plan.coveredIndex c.note c.policy
        c.plan.userMessages) := by
  simp [compactionDetails, committedRecord]

theorem carried_committedRecord :
    carriedUserMessages (some (committedRecord sha256 branch c run host)) =
      c.plan.userMessages.map SessionRecord.id := by
  obtain ⟨-, -, -, -, -, -, -, husers⟩ :=
    field_checkpointDetails sha256 run branch c.plan.coveredIndex c.note c.policy c.plan.userMessages
  rw [carriedUserMessages, Option.bind_some, carriedList, details_committedRecord, Option.bind_some,
    husers]
  by_cases hnil : c.plan.userMessages = []
  · simp [hnil]
  · rw [if_neg hnil]
    exact Json.strs_arr _

/-- The new checkpoint is the newest, and keeps what it does not cover. -/
theorem covers_committedRecord (hnodup : (branch.map SessionRecord.id).Nodup)
    (hlt : c.plan.coveredIndex < branch.length)
    (hkeeps : c.plan.coveredIndex = branch.length - 1 ∨ KeepsFrom branch c.plan) :
    Covers (branch ++ [committedRecord sha256 branch c run host])
      (committedRecord sha256 branch c run host) branch.length c.plan.coveredIndex := by
  refine ⟨by simp, ?_, hlt, fun i entry hlast hbefore hi => ?_⟩
  · obtain ⟨-, -, -, hcovered, -⟩ :=
      field_checkpointDetails sha256 run branch c.plan.coveredIndex c.note c.policy c.plan.userMessages
    have hentry := List.getElem?_eq_getElem hlt
    rw [checkpointCoverage, details_committedRecord, Option.bind_some, strField, strField?, hcovered]
    simp only [hentry, Option.map_some, Option.getD_some, Option.bind_some, Json.str?_str]
    exact findIdx?_append_of_some (findIdx?_of_nodup hnodup hentry) _
  · rcases hkeeps with hall | ⟨start, first, hle, hfirst, hid⟩
    · omega
    · rw [List.take_left, firstKeptEntryId_committedRecord]
      rw [List.getElem?_append_left hbefore] at hi
      exact mem_dropWhile_of_le hfirst (by simp [hid]) (by omega) hi

end
/-- A candidate that may be committed was prepared behind the newest checkpoint. -/
theorem lastCompaction_of_prepared {s : ChainState} (hnodup : (s.branch.map SessionRecord.id).Nodup)
    {candidate : PreparedCandidate} {uncovered : List SessionRecord} {length : Nat}
    {previous : Option ValidatedMemory}
    (h : Prepared sha256 s.branch candidate.input uncovered length previous)
    {submission : PreparationSubmission} (hbranch : submission.branch = s.branch)
    (hcommit : Committable (classifyPreparation sha256 candidate submission)) :
    lastCompaction (s.branch.take length) = lastCompaction s.branch := by
  obtain ⟨_, hunchanged, -⟩ := classifyPreparation_unchanged hcommit
  have hbase := checkpointJson_inj hunchanged.checkpoint
  rw [hbranch, h.base, lastCheckpoint, lastCheckpoint] at hbase
  cases hp : lastCompaction (s.branch.take length) with
  | none =>
    rw [hp, Option.map_none, Option.map_eq_none_iff] at hbase
    exact hbase.symm
  | some r =>
    rw [hp, Option.map_some, Option.map_eq_some_iff] at hbase
    obtain ⟨r', hr', hid⟩ := hbase
    have hmem := List.mem_of_mem_take (lastCompaction_mem hp).1
    have hsame := List.inj_on_of_nodup_map hnodup (lastCompaction_mem hr').1 hmem
      (congrArg BaseCheckpoint.id hid)
    rw [hr', hsame]
/-- What a commit covers lies on the branch, and is all of it or ends where the kept records start. -/
theorem Commits.covered {s : ChainState} (hinv : ChainInvariant sha256 s) (hne : s.branch ≠ [])
    {previous : Option ValidatedMemory} {projection : List (ProjectedRecord AgentMessage)}
    {c : PreviewCompaction}
    (h : Commits nfkc len sha256 s.branch previous projection (s.armed.map Armed.candidate) c) :
    c.plan.coveredIndex < s.branch.length ∧
      (c.plan.coveredIndex = s.branch.length - 1 ∨ KeepsFrom s.branch c.plan) := by
  have hpos := List.length_pos_of_ne_nil hne
  cases h with
  | complete _ _ _ _ _ _ hall => exact ⟨by omega, .inl hall⟩
  | prefixed candidate submission _ hmap _ hreuse hkeeps =>
    obtain ⟨armed, harmed, rfl⟩ := Option.map_eq_some_iff.mp hmap
    obtain ⟨length, _, hprepared⟩ := hinv.armed armed harmed
    have hlast := (reusablePrefix_some hreuse).2.1
    have := hprepared.frozen
    have := hprepared.nonempty
    have := hprepared.covered
    exact ⟨by omega, .inr hkeeps⟩
  | notes _ hlt hkeeps => exact ⟨hlt, .inr hkeeps⟩
  | sync _ _ hall => exact ⟨by omega, .inl hall⟩

/-- Behind a commit each covered user message is carried by it, or has been handed to a writer. -/
theorem Commits.told {s : ChainState} (hinv : ChainInvariant sha256 s)
    (hedits : assertRecoveryEdits s.branch = .ok ()) {previous : Option ValidatedMemory}
    (hnewest : Newest s.branch previous) {getTime : GetTime} {c : PreviewCompaction}
    (h : Commits nfkc len sha256 s.branch previous (buildSessionProjection getTime s.branch)
      (s.armed.map Armed.candidate) c) {i : Nat} (hle : i ≤ c.plan.coveredIndex) {user : SessionRecord}
    (hi : s.branch[i]? = some user) (huser : user.isUser = true) :
    user ∈ c.plan.userMessages ∨ (∃ w ∈ s.writings, user ∈ w.sources) ∨
      ∃ sources ∈ handedSources s.armed c, user ∈ sources := by
  -- A candidate's writer has read the prefix that the candidate is committed for.
  have hcandidate : ∀ armed ∈ s.armed, ∀ submission, submission.branch = s.branch →
      Committable (classifyPreparation sha256 armed.candidate submission) →
      i < armed.candidate.input.entryIds.length →
      user ∈ armed.uncovered ∨ ∃ w ∈ s.writings, user ∈ w.sources := by
    intro armed harmed submission hbranch hcommit hlt
    obtain ⟨length, previous', hprepared⟩ := hinv.armed armed harmed
    rw [hprepared.covered] at hlt
    rw [hprepared.sources]
    exact handed_of_prepared hinv hprepared.newest
      (lastCompaction_of_prepared hinv.nodup hprepared hbranch hcommit) hlt hi huser
  cases h with
  | complete candidate submission hpath hmap hbranch hclass =>
    obtain ⟨armed, harmed, rfl⟩ := Option.map_eq_some_iff.mp hmap
    have hcommit : Committable (classifyPreparation sha256 armed.candidate submission) := .inl hclass
    obtain ⟨hardTokens, -, htail⟩ := classifyPreparation_unchanged hcommit
    have hdrop := (classifyTail_currentFull (htail ▸ hclass)).1
    rw [hbranch, List.drop_eq_nil_iff] at hdrop
    have hlt := (List.getElem?_eq_some_iff.mp hi).1
    rcases hcandidate armed harmed submission hbranch hcommit (by omega) with hmem | hw
    · exact .inr (.inr ⟨armed.uncovered, by simp [handedSources, hpath, harmed], hmem⟩)
    · exact .inr (.inl hw)
  | prefixed candidate submission hpath hmap hbranch hreuse =>
    obtain ⟨armed, harmed, rfl⟩ := Option.map_eq_some_iff.mp hmap
    obtain ⟨hstale, hlast, -⟩ := reusablePrefix_some hreuse
    obtain ⟨length, _, hprepared⟩ := hinv.armed armed harmed
    have := hprepared.nonempty
    have := hprepared.covered
    rcases hcandidate armed harmed submission hbranch (.inr hstale) (by omega) with hmem | hw
    · exact .inr (.inr ⟨armed.uncovered, by simp [handedSources, hpath, harmed], hmem⟩)
    · exact .inr (.inl hw)
  | notes hpath hlt hkeeps husers =>
    rw [husers]
    have hmem : ∀ carried, (user.id ∈ carried ∨
        isActive (buildSessionProjection getTime s.branch) user.id = true) →
        user ∈ coveredUserMessages s.branch (isActive (buildSessionProjection getTime s.branch))
          c.plan.coveredIndex carried := by
      intro carried hcarried
      refine List.mem_map.mpr ⟨(user, i), List.mem_filter.mpr
        ⟨List.mem_zipIdx_iff_getElem?.mpr hi, ?_⟩, rfl⟩
      rcases hcarried with hin | hactive
      · simp [huser, hin]
      · simp [huser, hactive, hle]
    cases hactive : isActive (buildSessionProjection getTime s.branch) user.id with
    | true => exact .inl (hmem _ (.inr hactive))
    | false =>
      obtain ⟨checkpoint, hlast, ⟨users, hids, hin, -⟩ | hw⟩ :=
        told_of_inactive hinv hedits getTime hi huser hactive
      · refine .inl (hmem _ (.inl ?_))
        rw [hnewest.1, hlast, hids]
        exact List.mem_map_of_mem hin
      · exact .inr (.inl hw)
  | sync hpath huncovered =>
    have htake : s.branch.take s.branch.length = s.branch := List.take_length
    rcases handed_of_prepared hinv (htake.symm ▸ hnewest) (by rw [htake])
      (List.getElem?_eq_some_iff.mp hi).1 hi huser with hmem | hw
    · rw [htake] at hmem
      exact .inr (.inr ⟨_, by rw [handedSources, hpath]; exact huncovered, hmem⟩)
    · exact .inr (.inl hw)

/-! ## The run -/

/-- What was prepared stays so when the branch grows. -/
theorem Prepared.append {branch : List SessionRecord} {input : PreparationSnapshot}
    {uncovered : List SessionRecord} {length : Nat} {previous : Option ValidatedMemory}
    (h : Prepared sha256 branch input uncovered length previous) (more : List SessionRecord) :
    Prepared sha256 (branch ++ more) input uncovered length previous := by
  have htake : (branch ++ more).take length = branch.take length :=
    List.take_append_of_le_length h.frozen
  refine ⟨?_, h.nonempty, h.covered, ?_, ?_, ?_⟩
  · rw [List.length_append]
    have := h.frozen
    omega
  · rw [htake]
    exact h.base
  · rw [htake]
    exact h.newest
  · rw [htake]
    exact h.sources

/-- A preparation freezes the whole branch. -/
theorem prepared_of_prepare {ctx : CompactContext} {noteBudget : Json} {branch : List SessionRecord}
    {job : PreparationJob} (hnodup : (branch.map SessionRecord.id).Nodup)
    (h : prepare len sha256 ctx noteBudget branch = .ok job) :
    ∃ previous, Prepared sha256 branch job.input job.uncovered branch.length previous := by
  obtain ⟨_, haccepted, h⟩ := bind_ok.mp h
  obtain ⟨previous, hlatest, h⟩ := bind_ok.mp h
  obtain ⟨input, hfreeze, h⟩ := bind_ok.mp h
  obtain rfl := Except.ok.inj h
  obtain ⟨last, writer, budget, hfind, rfl⟩ := freezePreparationInput_ok hfreeze
  simp only at hfind
  have htake : branch.take branch.length = branch := List.take_length
  cases hbranch : branch.getLast? with
  | none =>
    obtain rfl := List.getLast?_eq_none_iff.mp hbranch
    cases hfind
  | some leaf =>
    have hleaf : branch[branch.length - 1]? = some leaf := by
      rw [← hbranch, List.getLast?_eq_getElem?]
    have hlt := (List.getElem?_eq_some_iff.mp hleaf).1
    rw [hbranch, Option.map_some, Option.getD_some, findIdx?_of_nodup hnodup hleaf] at hfind
    obtain rfl := Option.some.inj hfind
    refine ⟨previous, Nat.le_refl _, by omega, ?_, ?_, ?_, ?_⟩
    · simp only [snapshotOf, List.length_map, List.length_take]
      omega
    · rw [htake]
      rfl
    · rw [htake]
      exact newest_of_latestMemory (assertPreviewSession_ok.mp haccepted).own hlatest
    · rw [htake]

theorem Covers.append {branch : List SessionRecord} {checkpoint : SessionRecord} {at_ last : Nat}
    (h : Covers branch checkpoint at_ last) (entry : SessionRecord) :
    Covers (branch ++ [entry]) checkpoint at_ last := by
  have hlt := (List.getElem?_eq_some_iff.mp h.position).1
  refine ⟨?_, ?_, h.before, fun i e hi hat he => ?_⟩
  · rw [List.getElem?_append_left hlt, h.position]
  · have hcoverage := h.coverage
    obtain ⟨details, hd, hfind⟩ := Option.bind_eq_some_iff.mp hcoverage
    exact Option.bind_eq_some_iff.mpr ⟨details, hd, findIdx?_append_of_some hfind _⟩
  · rw [List.getElem?_append_left (by omega)] at he
    rw [List.take_append_of_le_length (by omega)]
    exact h.kept i e hi hat he

/-- An appended record of a turn changes nothing that is covered. -/
theorem ChainInvariant.append {s : ChainState} (h : ChainInvariant sha256 s) {entry : SessionRecord}
    (htype : entry.type ≠ .compaction) (hfresh : entry.id ∉ s.branch.map SessionRecord.id) :
    ChainInvariant sha256 { s with branch := s.branch ++ [entry] } where
  nodup := by
    rw [List.map_append, List.map_singleton]
    exact h.nodup.append (List.nodup_singleton _) (List.disjoint_singleton.mpr hfresh)
  onBranch w hw := List.mem_append_left _ (h.onBranch w hw)
  latest := by
    intro checkpoint hlast
    simp only [lastCompaction_append, htype, ↓reduceIte] at hlast
    obtain ⟨at_, last, hcovers, htold⟩ := h.latest checkpoint hlast
    refine ⟨at_, last, hcovers.append entry, fun i user hle hi huser => ?_⟩
    have hlt := (List.getElem?_eq_some_iff.mp hcovers.position).1
    have hbefore := hcovers.before
    rw [List.getElem?_append_left (by omega)] at hi
    exact htold i user hle hi huser
  running job hjob := by
    obtain ⟨length, previous, hprepared⟩ := h.running job hjob
    exact ⟨length, previous, hprepared.append [entry]⟩
  armed armed harmed := by
    obtain ⟨length, previous, hprepared⟩ := h.armed armed harmed
    exact ⟨length, previous, hprepared.append [entry]⟩

/-- A commit tells of every user message that it covers. -/
theorem ChainInvariant.commit {s : ChainState} (h : ChainInvariant sha256 s) {ctx : CompactContext}
    {answer : Json} {c : PreviewCompaction} (run : CompactRun) (host : HostFields)
    (hc : compact nfkc len sha256 ctx s.branch (s.armed.map Armed.candidate) answer = .ok c)
    (hfresh : host.id ∉ s.branch.map SessionRecord.id) :
    ChainInvariant sha256
      { s with
        branch := s.branch ++ [committedRecord sha256 s.branch c run host],
        writings := s.writings ++ ((handedSources s.armed c).map fun sources =>
          ⟨committedRecord sha256 s.branch c run host, sources⟩).toList } := by
  obtain ⟨hne, previous, haccepted, hcommits, note, lineage, hsummary⟩ := compact_ok hc
  obtain ⟨hlt, hkeeps⟩ := hcommits.covered h hne
  constructor
  case nodup =>
    rw [List.map_append, List.map_singleton, id_committedRecord]
    exact h.nodup.append (List.nodup_singleton _) (List.disjoint_singleton.mpr hfresh)
  case onBranch =>
    intro w hw
    rcases List.mem_append.mp hw with hw | hw
    · exact List.mem_append_left _ (h.onBranch w hw)
    · obtain ⟨sources, -, rfl⟩ := Option.map_eq_some_iff.mp (Option.mem_toList.mp hw)
      exact List.mem_append_right _ (List.mem_singleton_self _)
  case latest =>
    intro checkpoint hlast
    simp only [lastCompaction_append, type_committedRecord, ↓reduceIte, Option.some.injEq] at hlast
    subst hlast
    refine ⟨s.branch.length, c.plan.coveredIndex, covers_committedRecord h.nodup hlt hkeeps, ?_⟩
    intro i user hle hi huser
    rw [List.getElem?_append_left (by omega)] at hi
    rcases hcommits.told h haccepted.edits (newest_of_accepted haccepted) hle hi huser with
      hmem | ⟨w, hw, hin⟩ | ⟨sources, hsources, hin⟩
    · have hrendered : renderUserMessages c.plan.userMessages <:+
          (committedRecord sha256 s.branch c run host).summary := by
        rw [committedRecord, summary_checkpointRecord, hsummary, userSection,
          if_neg (List.ne_nil_of_mem hmem)]
        exact List.suffix_append _ _
      exact .inl ⟨c.plan.userMessages, carried_committedRecord, hmem, hrendered,
        (messageLine_rendered hmem).of_suffix hrendered⟩
    · exact .inr ⟨w, List.mem_append_left _ hw, hin⟩
    · refine .inr ⟨⟨committedRecord sha256 s.branch c run host, sources⟩, List.mem_append_right _ (Option.mem_toList.mpr ?_), hin⟩
      exact Option.map_eq_some_iff.mpr ⟨sources, hsources, rfl⟩
  case running =>
    intro job hjob
    obtain ⟨length, previous, hprepared⟩ := h.running job hjob
    exact ⟨length, previous, hprepared.append _⟩
  case armed =>
    intro armed harmed
    obtain ⟨length, previous, hprepared⟩ := h.armed armed harmed
    exact ⟨length, previous, hprepared.append _⟩

/-- Every step keeps the invariant. -/
theorem chain_inductive : (Chain nfkc len sha256).Inductive (ChainInvariant sha256) where
  init := by
    rintro ⟨branch, running, armed, writings⟩ ⟨rfl, rfl, rfl, rfl⟩
    exact ⟨List.nodup_nil, by simp, by simp [lastCompaction], by simp, by simp⟩
  step := by
    intro s s' h hstep
    cases hstep with
    | append entry htype hfresh => exact h.append htype hfresh
    | prepare ctx noteBudget job hjob =>
      refine ⟨h.nodup, h.onBranch, h.latest, fun job' hjob' => ?_, h.armed⟩
      rcases List.mem_cons.mp hjob' with rfl | hjob'
      · exact ⟨_, prepared_of_prepare h.nodup hjob⟩
      · exact h.running job' hjob'
    | arm job note provenance candidate hjob hfinal =>
      refine ⟨h.nodup, h.onBranch, h.latest, h.running, fun armed harmed => ?_⟩
      obtain rfl := Option.some.inj harmed
      rw [(finalizePreparation_ok hfinal).1]
      exact h.running job hjob
    | discard => exact ⟨h.nodup, h.onBranch, h.latest, by simp, by simp⟩
    | commit ctx answer c run host hc hfresh => exact h.commit run host hc hfresh

/-- In every run, behind every commit, no user message is lost. -/
theorem chain_keepsUserMessages {s : ChainState} (hs : (Chain nfkc len sha256).Reach s) :
    KeepsUserMessages s := by
  have hinv := chain_inductive.reach hs
  intro checkpoint hlast
  obtain ⟨at_, last, hcovers, htold⟩ := hinv.latest checkpoint hlast
  refine ⟨last, hcovers.coverage, fun user hmem huser => .inr ?_⟩
  obtain ⟨i, hi⟩ := List.getElem?_of_mem hmem
  have hlt := (List.getElem?_eq_some_iff.mp hi).1
  rw [List.length_take] at hlt
  rw [List.getElem?_take_of_lt (by omega)] at hi
  rcases htold i user (by omega) hi huser with hcarried | ⟨w, hw, hin⟩
  · exact .inl hcarried
  · exact .inr ⟨w, hw, hinv.onBranch w hw, hin⟩

/-! ### A turn with a work note, and the commit behind the next one -/

/-- The user asks. -/
def askedRecord : SessionRecord :=
  messageRecord (lit "u1") (lit "root") (lit "2026-01-01T00:00:00.000Z") (lit "user") (lit "Fix it.")

/-- The assistant answers, which ends the turn. -/
def finishedRecord : SessionRecord where
  fields := [(lit "type", .str (lit "message")), (lit "id", .str (lit "a1")),
    (lit "parentId", .str (lit "u1")), (lit "timestamp", .str (lit "2026-01-01T00:00:01.000Z")),
    (lit "message", .obj [(lit "role", .str (lit "assistant")), (lit "content", .str (lit "Done.")),
      (lit "stopReason", .str (lit "stop"))])]
  typed := by decide +kernel

/-- The work note on the first turn. -/
def notedRecord : SessionRecord where
  fields := [(lit "type", .str (lit "custom")), (lit "id", .str (lit "n1")),
    (lit "parentId", .str (lit "a1")), (lit "timestamp", .str (lit "2026-01-01T00:00:02.000Z")),
    (lit "customType", .str CONTEXT_NOTE_TYPE),
    (lit "data", .obj [(lit "state", .arr [.obj [(lit "text", .str (lit "Done.")),
      (lit "sources", .arr [.str (lit "a1")])]])])]
  typed := by decide +kernel

/-- The user writes again, behind the note. -/
def thankedRecord : SessionRecord :=
  messageRecord (lit "u2") (lit "n1") (lit "2026-01-01T00:00:03.000Z") (lit "user") (lit "Thanks.")

/-- The second turn ends. -/
def endedRecord : SessionRecord where
  fields := [(lit "type", .str (lit "message")), (lit "id", .str (lit "a2")),
    (lit "parentId", .str (lit "u2")), (lit "timestamp", .str (lit "2026-01-01T00:00:04.000Z")),
    (lit "message", .obj [(lit "role", .str (lit "assistant")), (lit "content", .str (lit "Bye.")),
      (lit "stopReason", .str (lit "stop"))])]
  typed := by decide +kernel

/-- Two turns, the first of them noted before the second began. -/
def notesBranch : List SessionRecord :=
  [askedRecord, finishedRecord, notedRecord, thankedRecord, endedRecord]

/-- A session whose work notes are merged. -/
def sampleContext : CompactContext where
  session := ⟨0, lit "s", some (lit "f")⟩
  version := lit "1.4.0"
  getTime _ := .ofNat 0
  estimateTokens _ := 2000
  systemTokens := 0
  threshold := 100000
  recentTokens := 0
  noteTokens := none
  workNotes := true
  epoch := .ofNat 0
  writer := sampleWriter
  customInstructions := none
  recovering := false
  checkpointLineage _ := []

/-- The note that the recorded one comes to. -/
def finishedNote : MemoryNote where
  facts
    | .state => [⟨lit "Done.", [lit "a1"], none, none⟩]
    | _ => []
  gaps := []

theorem length_renderUserMessages_asked : (renderUserMessages [askedRecord]).length ≤ 300 := by
  rw [renderUserMessages, lit_ofList]
  decide +kernel

theorem length_renderNote_finished : (renderNote finishedNote []).length ≤ 300 := by
  rw [renderNote, OPENING, lit_ofList]
  decide +kernel

theorem textTokens_asked : textTokens (userSection [askedRecord]) ≤ 300 ∧
    textTokens (renderNote finishedNote [] ++ userSection [askedRecord]) ≤ 600 := by
  have hcons : userSection [askedRecord] = renderUserMessages [askedRecord] :=
    if_neg (List.cons_ne_nil _ _)
  rw [hcons]
  refine ⟨(textTokens_le_length _).trans length_renderUserMessages_asked,
    (textTokens_le_length _).trans (List.length_append.trans_le ?_)⟩
  exact Nat.add_le_add length_renderNote_finished length_renderUserMessages_asked

/-- The work note of the branch is merged into a note that is accepted. -/
theorem merged_notesBranch : ∃ latest value,
    (workNotes id List.length notesBranch none).getLast? = some latest ∧ latest.index = 2 ∧
    (mergeWorkNotes List.length none ((workNotes id List.length notesBranch none).map
      WorkNoteEntry.toWorkNote)).map StoredNote.toJson = some value ∧
    validateNote List.length value (notesBranch.take 3) 4000 = .ok finishedNote ∧
    MemoryNote.ofJson value = finishedNote := by
  have hlatest : (workNotes id List.length notesBranch none).getLast?.map WorkNoteEntry.index = some 2 := by
    decide +kernel
  have hmerged : ((mergeWorkNotes List.length none ((workNotes id List.length notesBranch none).map
      WorkNoteEntry.toWorkNote)).map StoredNote.toJson).bind (fun value =>
        (validateNote List.length value (notesBranch.take 3) 4000).toOption.map fun note =>
          (noteSections.map note.facts, note.gaps)) =
      some (noteSections.map finishedNote.facts, finishedNote.gaps) := by decide +kernel
  obtain ⟨latest, hlast, hindex⟩ := Option.map_eq_some_iff.mp hlatest
  obtain ⟨value, hvalue, hnote⟩ := Option.bind_eq_some_iff.mp hmerged
  obtain ⟨note, hvalid, hnote⟩ := Option.map_eq_some_iff.mp hnote
  obtain ⟨hfacts, hgaps⟩ := Prod.mk.inj hnote
  obtain rfl : note = finishedNote :=
    MemoryNote.ext (funext fun s => List.map_inj_left.mp hfacts s (mem_noteSections s)) hgaps
  have hvalid : validateNote List.length value (notesBranch.take 3) 4000 = .ok finishedNote := by
    cases hv : validateNote List.length value (notesBranch.take 3) 4000 with
    | error e => simp [hv, Except.toOption] at hvalid
    | ok m => simpa [hv, Except.toOption] using hvalid
  exact ⟨latest, value, hlast, hindex, hvalue, hvalid,
    (validateNoteSources_ok.mp (validateNote_ok.mp hvalid).1).2.1.symm⟩

/-- The plan keeps the second turn and carries the message of the first one. -/
theorem planned_notesBranch {a : Attempt} (hbranch : a.branch = notesBranch)
    (hprojection : a.projection = buildSessionProjection sampleContext.getTime notesBranch)
    (hcut : a.cut = 5) :
    ∃ plan, a.commitPrefix sampleContext finishedNote 2 (sampleContext.threshold / 2) [askedRecord] =
        .ok (.ok plan) ∧
      Attempt.contextTokens sampleContext plan.kept = 4000 ∧ plan.userMessages = [askedRecord] ∧
      plan.firstKeptEntryId = lit "u2" := by
  have hstart : prefixCut notesBranch (buildSessionProjection sampleContext.getTime notesBranch) 2 5 =
      some 3 := by decide +kernel
  have hpairs : assertToolPairs ((retainedFrom (buildSessionProjection sampleContext.getTime notesBranch)
      notesBranch 3).map reducible) = .ok () := by decide +kernel
  have htokens : (Attempt.contextTokens sampleContext (retainedFrom (buildSessionProjection
      sampleContext.getTime notesBranch) notesBranch 3), Attempt.contextTokens sampleContext
        ((buildSessionProjection sampleContext.getTime notesBranch).flatMap ProjectedRecord.messages)) =
      (4000, 8000) := by decide +kernel
  obtain ⟨hretained, hbefore⟩ := Prod.mk.inj htokens
  obtain ⟨hsection, hsummary⟩ := textTokens_asked
  rw [← hprojection] at hbefore
  rw [← hprojection, ← hbranch] at hpairs hretained
  rw [← hprojection, ← hbranch, ← hcut] at hstart
  have hfits := Nat.add_le_add_right hsummary 4000
  exact ⟨_, Attempt.commitPrefix_fits rfl hstart (hsection.trans (by decide))
    (by rw [hretained]; exact hfits.trans (by decide))
    (by rw [hretained, hbefore]; exact hfits.trans_lt (by decide)) hpairs, hretained, rfl,
    by rw [hbranch]; rfl⟩

/-- The note covers the first turn, whose user message is carried; the second turn is kept. -/
theorem compact_notesBranch : ∃ c, compact id List.length sampleDigest sampleContext notesBranch none .null =
    .ok c ∧ c.path = .notes ∧ c.plan.firstKeptEntryId = lit "u2" := by
  have hbegun : ((beginAttempt List.length sampleDigest sampleContext notesBranch).map fun a =>
      (a.previous.isNone, a.interrupted, a.cut, a.policy.hardTokens)) = .ok (true, none, 5, 4000) := by
    decide +kernel
  have husers : coveredUserMessages notesBranch
      (isActive (buildSessionProjection sampleContext.getTime notesBranch)) 2 [] = [askedRecord] := by
    refine congrArg (List.map Prod.fst) (?_ : List.filter _ _ = [(askedRecord, 0)])
    rw [notesBranch, List.zipIdx_cons, List.filter_cons_of_pos (by decide +kernel)]
    refine congrArg (List.cons _) (List.filter_eq_nil_iff.mpr ?_)
    decide +kernel
  obtain ⟨a, ha, hfacts⟩ := map_ok.mp hbegun
  simp only [Prod.mk.injEq, Option.isNone_iff_eq_none] at hfacts
  obtain ⟨hprevious, hturn, hcut, hpolicy⟩ := hfacts
  obtain ⟨-, hbranch, hprojection, -⟩ := beginAttempt_ok ha
  obtain ⟨latest, value, hlast, hindex, hvalue, hvalid, hread⟩ := merged_notesBranch
  obtain ⟨plan, hplan, hkept, hcarried, hfirst⟩ := planned_notesBranch hbranch hprojection hcut
  have hnotes : a.notesAttempt sampleContext id List.length = .ok (.ok (value, plan)) := by
    have hlast : (workNotes id List.length a.branch (a.previous.map
        ValidatedMemory.coveredThrough)).getLast? = some latest := by
      rw [hbranch, hprevious]
      exact hlast
    refine Attempt.notesAttempt_merged hturn rfl hlast ?_ (?_ : _ = Except.ok finishedNote) ?_
    · rw [Attempt.previousNote, hbranch, hprevious]
      exact hvalue
    · rw [hindex, hbranch, hpolicy]
      exact hvalid
    · rw [hindex, hprevious, hbranch, hprojection]
      exact husers ▸ hplan
  refine ⟨_, compact_merged ha rfl rfl hnotes ?_, rfl, hfirst⟩
  rw [hread, hcarried, hkept]
  exact (Nat.add_le_add_right textTokens_asked.2 4000).trans (by decide)

/-- The first message is no longer in context, no writer was called, and the checkpoint carries it. -/
theorem chain_keepsUserMessages_sample : ∃ (s : ChainState) (checkpoint : SessionRecord),
    (Chain id List.length sampleDigest).Reach s ∧ lastCompaction s.branch = some checkpoint ∧
    s.writings = [] ∧ askedRecord ∉ buildContextEntries s.branch ∧ CarriedBy checkpoint askedRecord := by
  obtain ⟨c, hc, hpath, hfirst⟩ := compact_notesBranch
  have hempty : (Chain id List.length sampleDigest).Reach ⟨[], [], none, []⟩ :=
    .init ⟨rfl, rfl, rfl, rfl⟩
  have happend : ∀ branch entry, entry.type ≠ .compaction → entry.id ∉ branch.map SessionRecord.id →
      (Chain id List.length sampleDigest).Reach ⟨branch, [], none, []⟩ →
      (Chain id List.length sampleDigest).Reach ⟨branch ++ [entry], [], none, []⟩ :=
    fun branch entry htype hfresh h => h.step (.append entry htype hfresh)
  have hbranch := happend _ endedRecord (by decide +kernel) (by decide +kernel)
    (happend _ thankedRecord (by decide +kernel) (by decide +kernel)
      (happend _ notedRecord (by decide +kernel) (by decide +kernel)
        (happend _ finishedRecord (by decide +kernel) (by decide +kernel)
          (happend _ askedRecord (by decide +kernel) (by decide +kernel) hempty))))
  have hstep := hbranch.step (ChainStep.commit (s := ⟨notesBranch, [], none, []⟩) sampleContext .null c
    ⟨⟨lit "s", some (lit "a2"), none⟩, lit "p/m", 1, lit "stock-preview", none, [], .ofNat 0, none⟩
    ⟨lit "c1", some (lit "a2"), lit "2026-01-01T00:00:05.000Z", none, none⟩ hc (by decide +kernel))
  generalize hck : committedRecord sampleDigest notesBranch c _ _ = checkpoint at hstep
  have htype : checkpoint.type = .compaction := hck ▸ type_committedRecord
  have hkept : checkpoint.firstKeptEntryId = lit "u2" := by
    rw [← hck, firstKeptEntryId_committedRecord, hfirst]
  have hid : checkpoint.id = lit "c1" := by rw [← hck, id_committedRecord]
  have hlast : lastCompaction (notesBranch ++ [checkpoint]) = some checkpoint := by
    rw [lastCompaction_append, if_pos htype]
  have hout : askedRecord ∉ buildContextEntries (notesBranch ++ [checkpoint]) := by
    rw [buildContextEntries_append htype (hid ▸ (by decide +kernel)), keptEntries, hkept]
    have hids : lit "u1" ∉ lit "c1" :: ((notesBranch.dropWhile fun entry => entry.id ≠ lit "u2").filter
        fun entry => entry.type ≠ .compaction && !isSystem entry).map SessionRecord.id := by
      decide +kernel
    rw [← hid] at hids
    exact fun h => hids (List.mem_map_of_mem (f := SessionRecord.id) h)
  simp only [handedSources, hpath, Option.map_none, Option.toList_none, List.append_nil] at hstep
  obtain ⟨last, -, hcarried⟩ := chain_keepsUserMessages hstep checkpoint hlast
  refine ⟨_, checkpoint, hstep, hlast, rfl, hout, ?_⟩
  rcases hcarried askedRecord (List.mem_take_iff_getElem.mpr ⟨0, by simp, rfl⟩) (by decide +kernel) with
    hin | hcarried | ⟨w, hw, -⟩
  · exact absurd hin hout
  · exact hcarried
  · cases hw

end Compaction
