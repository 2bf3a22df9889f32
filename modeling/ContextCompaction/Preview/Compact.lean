import ContextCompaction.Core.Lineage
import ContextCompaction.Core.Merge
import ContextCompaction.Preview.Commit
import ContextCompaction.Preview.Guard
import ContextCompaction.Preview.Projection
import ContextCompaction.Transition.Reach

/-!
# Compaction

`compact()` commits one of four ways: a complete candidate as it stands, a candidate for the prefix
that it has seen, the merged work notes, or the note of a writer that it calls.

* `choosePath`: the way that is taken, and what it plans.
* `compact`: the checkpoint that a branch is given.
* `compact_ok`: what each way moves: the cut, the coverage and the carried messages.
-/

namespace Compaction

open Js

/-- Stock Pi's convention for a cut that keeps nothing. -/
def CONTEXT_KEEP_NONE : Str := lit "context-memory:keep-none"

/-- What `compact()` reads beside the branch: the host's estimates, the budgets and the switches. -/
structure CompactContext where
  session : PreviewSession
  version : Str
  getTime : GetTime
  estimateTokens : AgentMessage → Nat
  systemTokens : Nat
  threshold : Nat
  recentTokens : Nat
  noteTokens : Option Nat
  workNotes : Bool
  epoch : Number
  writer : PreparationWriterIdentity
  customInstructions : Option Str
  recovering : Bool
  checkpointLineage : List SessionRecord → List CheckpointLineageItem

inductive CommitPath where
  | complete
  | prefixed
  | notes
  | sync
  deriving DecidableEq

/-- Why a note was not committed without a writer. -/
inductive NotesFallback where
  | noNotes
  | unfinishedTurn
  | customFocus
  | merge
  | cut
  | userMessages
  | fit
  deriving DecidableEq

/-! ## The summary -/

/-- The summary under the first lineage that fits, of at most `n` shorter ones. -/
def fitLineage (note : MemoryNote) (retainedTokens limit : Nat) (carried : Str) :
    Nat → List CheckpointLineageItem → Option Str
  | n, lineage =>
    let summary := renderNote note lineage ++ carried
    if textTokens summary + retainedTokens ≤ limit then some summary
    else
      match n with
      | 0 => none
      | n + 1 =>
        if lineage = [] then none
        else fitLineage note retainedTokens limit carried n (shrinkLineage lineage)

/-- The checkpoint text, shortening lineage until it fits `limit` beside the retained context. -/
def fittedSummary (note : MemoryNote) (lineage : List CheckpointLineageItem)
    (retainedTokens limit : Nat) (carried : Str) : Option Str :=
  fitLineage note retainedTokens limit carried lineage.length lineage

/-- The rendering of carried messages, if there are any. -/
def userSection (users : List SessionRecord) : Str :=
  if users = [] then [] else renderUserMessages users

/-! ## Turns -/

/-- `stopReason` of a turn that is complete. -/
def completes (stopReason : Option Str) : Bool :=
  stopReason = some (lit "stop") || stopReason = some (lit "length")

/-- Recovery keeps the whole unfinished turn: the first user message behind the last complete one. -/
def interruptedTurnStart (branch : List SessionRecord) : Except Failure (Option Nat) :=
  match branch.zipIdx.reverse.find? fun e =>
    e.1.type = .message && e.1.role = lit "assistant" && completes e.1.stopReason with
  | none => .error (.ofText "CONTEXT_TOOL_BOUNDARY: no completed source turn precedes recovery")
  | some (_, completed) =>
    .ok ((branch.zipIdx.find? fun e => decide (completed < e.2) && e.1.isUser).map Prod.snd)

/-- Whether the context may be compacted: behind a completed turn, or a failed one to recover. -/
def atTurnEnd (messages : List AgentMessage) (recovering : Bool) : Except Failure Bool :=
  match messages.reverse.find? fun m => strField m "role" ≠ lit "system" with
  | none => .error (.ofText
      "CONTEXT_TOOL_BOUNDARY: manual compaction requires a completed turn with no queued input")
  | some last =>
    let assistant := decide (strField last "role" = lit "assistant")
    let stopReason := strField? last "stopReason"
    let completed := assistant && completes stopReason
    let terminated := decide (strField last "role" = lit "user") ||
      assistant && (stopReason = some (lit "error") || stopReason = some (lit "aborted"))
    if completed || recovering && terminated then .ok completed
    else .error (.ofText
      "CONTEXT_TOOL_BOUNDARY: manual compaction requires a completed turn with no queued input")

/-! ## Paths -/

/-- What a commit keeps, covers and carries. -/
structure Plan where
  kept : List AgentMessage
  firstKeptEntryId : Str
  coveredIndex : Nat
  userMessages : List SessionRecord

/-- The messages in context of the records from `start` on. -/
def retainedFrom (projection : List (ProjectedRecord AgentMessage)) (branch : List SessionRecord)
    (start : Nat) : List AgentMessage :=
  let ids := (branch.drop start).map SessionRecord.id
  (projection.filter fun e => e.sourceEntry.type ≠ .compaction && decide (e.sourceEntry.id ∈ ids)).flatMap
    ProjectedRecord.messages

/-- Whether a record of an ID contributes to the context. -/
def isActive (projection : List (ProjectedRecord AgentMessage)) (id : Str) : Bool :=
  projection.any fun e => !e.messages.isEmpty && decide (e.sourceEntry.id = id)

/-- What the paths of one compaction share. -/
structure Attempt where
  branch : List SessionRecord
  projection : List (ProjectedRecord AgentMessage)
  previous : Option ValidatedMemory
  interrupted : Option Nat
  cut : Nat
  policy : NoteBudget

namespace Attempt

variable (ctx : CompactContext) (a : Attempt)

/-- The plan that keeps from the cut on and covers the whole branch. -/
def basePlan : Plan where
  kept := retainedFrom a.projection a.branch a.cut
  firstKeptEntryId := (a.branch[a.cut]?.map SessionRecord.id).getD CONTEXT_KEEP_NONE
  coveredIndex := a.branch.length - 1
  userMessages := []

/-- The tokens of a context of some messages. -/
def contextTokens (messages : List AgentMessage) : Nat :=
  ctx.systemTokens + (messages.map ctx.estimateTokens).sum

/-- Commit `note` for the prefix through `last` and keep every later original verbatim: only when
the cut releases nothing uncovered, the context shrinks and the result fits within `limit`. -/
def commitPrefix (note : MemoryNote) (last limit : Nat) (users : List SessionRecord) :
    Except Failure (Except NotesFallback Plan) :=
  match prefixCut a.branch a.projection last a.cut with
  | none => .ok (.error .cut)
  | some start =>
    let retained := retainedFrom a.projection a.branch start
    let retainedTokens := contextTokens ctx retained
    let beforeTokens := contextTokens ctx (a.projection.flatMap ProjectedRecord.messages)
    -- Every message in full or none: beyond this bound the writer consolidates them instead.
    if min 6000 (ctx.threshold / 20) < textTokens (userSection users) then .ok (.error .userMessages)
    else
      match fittedSummary note (ctx.checkpointLineage a.branch) retainedTokens limit
          (userSection users) with
      | none => .ok (.error .fit)
      | some summary =>
        if beforeTokens ≤ textTokens summary + retainedTokens then .ok (.error .fit)
        else
          (assertToolPairs (retained.map reducible)).map fun _ =>
            .ok ⟨retained, (a.branch[start]?.map SessionRecord.id).getD [], last, users⟩

/-- Commit a candidate for the prefix that it has seen. -/
def reuseAttempt (available : Option (PreparedCandidate × CandidateClassification)) :
    Except Failure (Option (PreparedCandidate × Plan)) :=
  match available, a.interrupted with
  | some (candidate, classification), none =>
    match reusablePrefix candidate classification a.branch with
    | none => .ok none
    | some last =>
      (a.commitPrefix ctx (MemoryNote.ofJson candidate.note) last (ctx.threshold * 4 / 5) []).map
        fun r => r.toOption.map fun plan => (candidate, plan)
  | _, _ => .ok none

/-- The stored note of the previous checkpoint. -/
def previousNote : Option Json := a.previous.bind fun m => field m.memory "note"

variable (nfkc : Str → Str) (len : Str → Nat)

/-- Merge the work notes without a writer; the user's own messages follow verbatim. -/
def notesAttempt : Except Failure (Except NotesFallback (Json × Plan)) :=
  let notes := workNotes nfkc len a.branch (a.previous.map ValidatedMemory.coveredThrough)
  match notes.getLast? with
  | none => .ok (.error .noNotes)
  | some latest =>
    if a.interrupted.isSome then .ok (.error .unfinishedTurn)
    else if ctx.customInstructions.any (trim · ≠ []) then .ok (.error .customFocus)
    else
      let merged := (mergeWorkNotes len (a.previousNote.map StoredNote.ofJson)
        (notes.map WorkNoteEntry.toWorkNote)).map StoredNote.toJson
      match merged.bind fun value =>
        ((validateNote len value (a.branch.take (latest.index + 1)) a.policy.hardTokens).toOption).map
          fun note => (value, note) with
      | none => .ok (.error .merge)
      | some (value, note) =>
        let users := coveredUserMessages a.branch (isActive a.projection) latest.index
          (carriedUserMessages (a.previous.map ValidatedMemory.entry))
        (a.commitPrefix ctx note latest.index (ctx.threshold / 2) users).map fun r =>
          r.map fun plan => (value, plan)

/-- The path, what it keeps and covers, and its note; without one a writer is called. -/
structure Chosen where
  path : CommitPath
  plan : Plan
  note : Option Json
  notesFallback : Option NotesFallback

def choosePath (available : Option (PreparedCandidate × CandidateClassification)) :
    Except Failure Chosen :=
  match available with
  | some (candidate, .currentFull) => .ok ⟨.complete, a.basePlan, some candidate.note, none⟩
  | _ => do
    match ← a.reuseAttempt ctx available with
    | some (candidate, plan) => pure ⟨.prefixed, plan, some candidate.note, none⟩
    | none =>
      if ctx.workNotes then
        match ← a.notesAttempt ctx nfkc len with
        | .ok (note, plan) => pure ⟨.notes, plan, some note, none⟩
        | .error fallback => pure ⟨.sync, a.basePlan, none, some fallback⟩
      else pure ⟨.sync, a.basePlan, none, none⟩

end Attempt

/-! ## The commit -/

section

variable (nfkc : Str → Str) (len : Str → Nat) (sha256 : Sha256) (ctx : CompactContext)

/-- The guards, the cut and the policy of a compaction. -/
def beginAttempt (branch : List SessionRecord) : Except Failure Attempt := do
  let previous ← (assertPreviewSession len sha256 ctx.session ctx.version branch).result
  let projection := buildSessionProjection ctx.getTime branch
  let messages := projection.flatMap ProjectedRecord.messages
  assertToolPairs (messages.map reducible)
  let completed ← atTurnEnd messages ctx.recovering
  let interrupted ← (if completed then .ok none else interruptedTurnStart branch)
  let recent ← chooseCut ctx.estimateTokens branch ctx.recentTokens projection
  let cut := min recent (interrupted.getD branch.length)
  (if cut < 1 then .error (.ofText "CONTEXT_NO_CUT") else .ok () : Except Failure Unit)
  assertToolPairs ((retainedFrom projection branch cut).map reducible)
  let released := (branch.take cut).filter fun entry => isActive projection entry.id
  let previousTokens := previous.elim 0 fun m =>
    (noteBytes ((field m.memory "note").getD .null) + 2) / 3
  let policy ← selectNoteBudget ctx.noteTokens ctx.threshold (compactedSourceTokens released)
    previousTokens
  pure ⟨branch, projection, previous, interrupted, cut, policy⟩

/-- What `compact()` was asked to reuse, with its eligibility; an invalid candidate is dropped. -/
def takeCandidate (a : Attempt) (armed : Option PreparedCandidate) :
    Option (PreparedCandidate × CandidateClassification) :=
  armed.bind fun candidate =>
    match classifyPreparation sha256 candidate
      ⟨ctx.session.sessionId, ctx.epoch, a.branch, ctx.writer, a.policy.toJson,
        ctx.customInstructions⟩ with
    | .invalid _ => none
    | classification => some (candidate, classification)

/-- The staged candidate. -/
structure PreviewCompaction where
  path : CommitPath
  plan : Plan
  note : Json
  policy : NoteBudget
  summary : Str
  notesFallback : Option NotesFallback
  /-- What the writer was handed, where one was called. -/
  uncovered : Option (List SessionRecord)

/-- A candidate is checked again against the records that the checkpoint covers. -/
def validateReused (a : Attempt) (chosen : Attempt.Chosen) (note : Json) : Except Failure Unit :=
  if chosen.path = .complete ∨ chosen.path = .prefixed then
    (validateNote len note (a.branch.take (chosen.plan.coveredIndex + 1)) a.policy.hardTokens).map
      fun _ => ()
  else .ok ()

/-- One compaction; `answer` is the note of the writer, should it be called. -/
def compact (branch : List SessionRecord) (armed : Option PreparedCandidate) (answer : Json) :
    Except Failure PreviewCompaction := do
  let a ← beginAttempt len sha256 ctx branch
  let chosen ← a.choosePath ctx nfkc len (takeCandidate sha256 ctx a armed)
  let note := chosen.note.getD answer
  validateReused len a chosen note
  let retainedTokens := Attempt.contextTokens ctx chosen.plan.kept
  match fittedSummary (MemoryNote.ofJson note) (ctx.checkpointLineage branch) retainedTokens
      ctx.threshold (userSection chosen.plan.userMessages) with
  | none => throw (.ofText "CONTEXT_RECOVERY_TOO_LARGE")
  | some summary =>
    pure
      { path := chosen.path, plan := chosen.plan, note, policy := a.policy, summary,
        notesFallback := chosen.notesFallback,
        uncovered := if chosen.path = .sync then some (writerSources branch a.previous) else none }

end

/-! ## What each path moves -/

theorem fitLineage_some {note : MemoryNote} {retainedTokens limit : Nat} {carried summary : Str}
    {n : Nat} {lineage : List CheckpointLineageItem}
    (h : fitLineage note retainedTokens limit carried n lineage = some summary) :
    ∃ lineage, summary = renderNote note lineage ++ carried := by
  induction n generalizing lineage with
  | zero =>
    rw [fitLineage] at h
    split_ifs at h
    exact ⟨lineage, (Option.some.inj h).symm⟩
  | succ n ih =>
    rw [fitLineage] at h
    split_ifs at h
    · exact ⟨lineage, (Option.some.inj h).symm⟩
    · exact ih h

theorem workNoteAt_some {nfkc : Str → Str} {len : Str → Nat} {branch : List SessionRecord}
    {index : Nat} {work : WorkNoteEntry} (h : workNoteAt nfkc len branch index = some work) :
    work.index = index ∧ index < branch.length := by
  obtain ⟨entry, hentry, h⟩ := Option.bind_eq_some_iff.mp h
  have hlt := (List.getElem?_eq_some_iff.mp hentry).1
  split_ifs at h
  split at h
  · obtain rfl := Option.some.inj h
    exact ⟨rfl, hlt⟩
  · cases h

theorem workNotes_index {nfkc : Str → Str} {len : Str → Nat} {branch : List SessionRecord}
    {afterId : Option Str} {work : WorkNoteEntry} (h : work ∈ workNotes nfkc len branch afterId) :
    work.index < branch.length := by
  obtain ⟨index, -, h⟩ := List.mem_filterMap.mp h
  obtain ⟨rfl, hlt⟩ := workNoteAt_some h
  exact hlt

/-- The first record kept stands at most one behind the coverage, so nothing uncovered is released. -/
def KeepsFrom (branch : List SessionRecord) (plan : Plan) : Prop :=
  ∃ start entry, start ≤ plan.coveredIndex + 1 ∧ branch[start]? = some entry ∧
    plan.firstKeptEntryId = entry.id

/-- What a commit covers, keeps and carries, path by path. -/
inductive Commits (nfkc : Str → Str) (len : Str → Nat) (sha256 : Sha256) (branch : List SessionRecord)
    (previous : Option ValidatedMemory) (projection : List (ProjectedRecord AgentMessage))
    (armed : Option PreparedCandidate) (c : PreviewCompaction) : Prop
  | complete (candidate : PreparedCandidate) (submission : PreparationSubmission) :
      c.path = .complete → armed = some candidate → submission.branch = branch →
      classifyPreparation sha256 candidate submission = .currentFull →
      c.plan.coveredIndex = branch.length - 1 → c.plan.userMessages = [] →
      Commits nfkc len sha256 branch previous projection armed c
  | prefixed (candidate : PreparedCandidate) (submission : PreparationSubmission) :
      c.path = .prefixed → armed = some candidate → submission.branch = branch →
      reusablePrefix candidate (classifyPreparation sha256 candidate submission) branch =
        some c.plan.coveredIndex →
      KeepsFrom branch c.plan → c.plan.userMessages = [] →
      Commits nfkc len sha256 branch previous projection armed c
  | notes : c.path = .notes → c.plan.coveredIndex < branch.length → KeepsFrom branch c.plan →
      c.plan.userMessages = coveredUserMessages branch (isActive projection) c.plan.coveredIndex
        (carriedUserMessages (previous.map ValidatedMemory.entry)) →
      Commits nfkc len sha256 branch previous projection armed c
  | sync : c.path = .sync → c.uncovered = some (writerSources branch previous) →
      c.plan.coveredIndex = branch.length - 1 → c.plan.userMessages = [] →
      Commits nfkc len sha256 branch previous projection armed c

namespace Attempt

variable {ctx : CompactContext} {a : Attempt}

/-- A plan that commits a prefix ends there and lists the messages it was given. -/
theorem commitPrefix_ok {note : MemoryNote} {last limit : Nat} {users : List SessionRecord}
    {plan : Plan} (h : a.commitPrefix ctx note last limit users = .ok (.ok plan)) :
    plan.coveredIndex = last ∧ plan.userMessages = users ∧ KeepsFrom a.branch plan := by
  unfold commitPrefix at h
  split at h
  · cases h
  · rename_i start hstart
    simp only at h
    split_ifs at h
    · cases h
    · split at h
      · cases h
      · split_ifs at h
        · cases h
        · obtain ⟨-, -, h⟩ := map_ok.mp h
          obtain rfl := Except.ok.inj h
          obtain ⟨hle, hlt, -⟩ := prefixCut_some hstart
          have hentry := List.getElem?_eq_getElem hlt
          exact ⟨rfl, rfl, start, a.branch[start], hle, hentry, by simp [hentry]⟩

/-- A plan that reuses a candidate covers its reusable prefix and lists no messages. -/
theorem reuseAttempt_ok {available : Option (PreparedCandidate × CandidateClassification)}
    {candidate : PreparedCandidate} {plan : Plan}
    (h : a.reuseAttempt ctx available = .ok (some (candidate, plan))) :
    ∃ classification, available = some (candidate, classification) ∧
      reusablePrefix candidate classification a.branch = some plan.coveredIndex ∧
      KeepsFrom a.branch plan ∧ plan.userMessages = [] := by
  unfold reuseAttempt at h
  split at h
  · rename_i candidate' classification _
    split at h
    · cases h
    · rename_i last hlast
      obtain ⟨r, hr, h⟩ := map_ok.mp h
      cases r with
      | error e => cases h
      | ok plan' =>
        obtain ⟨rfl, rfl⟩ := Prod.mk.inj (Option.some.inj h)
        obtain ⟨hcovered, husers, hkeeps⟩ := commitPrefix_ok hr
        exact ⟨classification, rfl, hcovered ▸ hlast, hkeeps, husers⟩
  · cases h

variable {nfkc : Str → Str} {len : Str → Nat}

/-- A plan from notes lists the user messages that it covers and those carried before. -/
theorem notesAttempt_ok {note : Json} {plan : Plan}
    (h : a.notesAttempt ctx nfkc len = .ok (.ok (note, plan))) :
    plan.coveredIndex < a.branch.length ∧ KeepsFrom a.branch plan ∧
      plan.userMessages = coveredUserMessages a.branch (isActive a.projection) plan.coveredIndex
        (carriedUserMessages (a.previous.map ValidatedMemory.entry)) := by
  unfold notesAttempt at h
  simp only at h
  split at h
  · cases h
  · rename_i latest hlatest
    split_ifs at h
    · cases h
    · cases h
    · split at h
      · cases h
      · obtain ⟨r, hr, h⟩ := map_ok.mp h
        cases r with
        | error e => cases h
        | ok plan' =>
          obtain ⟨rfl, rfl⟩ := Prod.mk.inj (Except.ok.inj h)
          obtain ⟨hcovered, husers, hkeeps⟩ := commitPrefix_ok hr
          have hindex := workNotes_index (List.mem_of_getLast? hlatest)
          exact ⟨hcovered ▸ hindex, hkeeps, hcovered ▸ husers⟩

end Attempt

section

variable {nfkc : Str → Str} {len : Str → Nat} {sha256 : Sha256} {ctx : CompactContext}
  {branch : List SessionRecord}

/-- An attempt begins on a branch that is not empty and that the guard accepts. -/
theorem beginAttempt_ok {a : Attempt} (h : beginAttempt len sha256 ctx branch = .ok a) :
    branch ≠ [] ∧ a.branch = branch ∧ a.projection = buildSessionProjection ctx.getTime branch ∧
      Accepted len sha256 ctx.session ctx.version branch a.previous := by
  obtain ⟨previous, hprevious, h⟩ := bind_ok.mp h
  obtain ⟨-, -, h⟩ := bind_ok.mp h
  obtain ⟨completed, hturn, h⟩ := bind_ok.mp h
  have hne : branch ≠ [] := by
    rintro rfl
    cases hturn
  obtain ⟨interrupted, -, h⟩ := bind_ok.mp h
  obtain ⟨recent, -, h⟩ := bind_ok.mp h
  obtain ⟨-, -, h⟩ := bind_ok.mp h
  obtain ⟨-, -, h⟩ := bind_ok.mp h
  obtain ⟨policy, -, h⟩ := bind_ok.mp h
  obtain rfl := Except.ok.inj h
  exact ⟨hne, rfl, rfl, assertPreviewSession_ok.mp hprevious⟩

theorem takeCandidate_some {a : Attempt} {armed : Option PreparedCandidate}
    {candidate : PreparedCandidate} {classification : CandidateClassification}
    (h : takeCandidate sha256 ctx a armed = some (candidate, classification)) :
    ∃ submission, armed = some candidate ∧ submission.branch = a.branch ∧
      classifyPreparation sha256 candidate submission = classification := by
  obtain ⟨candidate', rfl, hmatch⟩ := Option.bind_eq_some_iff.mp h
  clear h
  split at hmatch
  · cases hmatch
  · obtain ⟨rfl, rfl⟩ := Prod.mk.inj (Option.some.inj hmatch)
    exact ⟨_, rfl, rfl, rfl⟩

/-- One compaction, path by path. -/
theorem compact_ok {armed : Option PreparedCandidate} {answer : Json} {c : PreviewCompaction}
    (h : compact nfkc len sha256 ctx branch armed answer = .ok c) :
    branch ≠ [] ∧ ∃ previous, Accepted len sha256 ctx.session ctx.version branch previous ∧
      Commits nfkc len sha256 branch previous (buildSessionProjection ctx.getTime branch) armed c ∧
      ∃ note lineage, c.summary = renderNote note lineage ++ userSection c.plan.userMessages := by
  obtain ⟨a, ha, h⟩ := bind_ok.mp h
  obtain ⟨hne, rfl, hprojection, haccepted⟩ := beginAttempt_ok ha
  obtain ⟨chosen, hchosen, h⟩ := bind_ok.mp h
  obtain ⟨-, -, h⟩ := bind_ok.mp h
  simp only at h
  split at h
  · cases h
  · rename_i summary hsummary
    obtain rfl := Except.ok.inj h
    refine ⟨hne, a.previous, haccepted, ?_, _, fitLineage_some hsummary⟩
    rw [← hprojection]
    unfold Attempt.choosePath at hchosen
    split at hchosen
    · rename_i candidate hcurrent
      obtain rfl := Except.ok.inj hchosen
      obtain ⟨submission, harmed, hbranch, hclass⟩ := takeCandidate_some hcurrent
      exact .complete candidate submission rfl harmed hbranch hclass rfl rfl
    · obtain ⟨reused, hreused, h⟩ := bind_ok.mp hchosen
      cases reused with
      | some r =>
        obtain ⟨candidate, plan⟩ := r
        obtain rfl := Except.ok.inj h
        obtain ⟨classification, havailable, hprefix, hkeeps, husers⟩ := Attempt.reuseAttempt_ok hreused
        obtain ⟨submission, harmed, hbranch, rfl⟩ := takeCandidate_some havailable
        exact .prefixed candidate submission rfl harmed hbranch hprefix hkeeps husers
      | none =>
        simp only at h
        split_ifs at h
        · obtain ⟨r, hr, h⟩ := bind_ok.mp h
          cases r with
          | error fallback =>
            obtain rfl := Except.ok.inj h
            exact .sync rfl rfl rfl rfl
          | ok r =>
            obtain ⟨note, plan⟩ := r
            obtain rfl := Except.ok.inj h
            obtain ⟨hlt, hkeeps, husers⟩ := Attempt.notesAttempt_ok hr
            exact .notes rfl hlt hkeeps husers
        · obtain rfl := Except.ok.inj h
          exact .sync rfl rfl rfl rfl

end

/-! ## Summaries that fit without lineage -/

theorem fittedSummary_fits {note : MemoryNote} {retainedTokens limit : Nat} {carried : Str}
    (h : textTokens (renderNote note [] ++ carried) + retainedTokens ≤ limit) :
    fittedSummary note [] retainedTokens limit carried = some (renderNote note [] ++ carried) := by
  rw [fittedSummary, List.length_nil, fitLineage, if_pos h]

section

variable {nfkc : Str → Str} {len : Str → Nat} {sha256 : Sha256} {ctx : CompactContext} {a : Attempt}
  {note : MemoryNote}

/-- A prefix whose summary fits without lineage, and shrinks the context, is committed. -/
theorem Attempt.commitPrefix_fits {last limit start : Nat} {users : List SessionRecord}
    (hlineage : ctx.checkpointLineage a.branch = [])
    (hcut : prefixCut a.branch a.projection last a.cut = some start)
    (hsection : textTokens (userSection users) ≤ min 6000 (ctx.threshold / 20))
    (hlimit : textTokens (renderNote note [] ++ userSection users) +
      contextTokens ctx (retainedFrom a.projection a.branch start) ≤ limit)
    (hshrinks : textTokens (renderNote note [] ++ userSection users) +
      contextTokens ctx (retainedFrom a.projection a.branch start) <
        contextTokens ctx (a.projection.flatMap ProjectedRecord.messages))
    (hpairs : assertToolPairs ((retainedFrom a.projection a.branch start).map reducible) = .ok ()) :
    a.commitPrefix ctx note last limit users = .ok (.ok ⟨retainedFrom a.projection a.branch start,
      (a.branch[start]?.map SessionRecord.id).getD [], last, users⟩) := by
  rw [commitPrefix, hcut]
  simp only [if_neg (Nat.not_lt.mpr hsection), hlineage, fittedSummary_fits hlimit,
    if_neg (Nat.not_le.mpr hshrinks), hpairs]
  rfl

/-- Work notes that merge into an accepted note are committed as far as their prefix is. -/
theorem Attempt.notesAttempt_merged {latest : WorkNoteEntry} {value : Json} {plan : Plan}
    (hturn : a.interrupted = none) (hfocus : ctx.customInstructions = none)
    (hlatest : (workNotes nfkc len a.branch (a.previous.map ValidatedMemory.coveredThrough)).getLast? =
      some latest)
    (hmerged : (mergeWorkNotes len (a.previousNote.map StoredNote.ofJson)
      ((workNotes nfkc len a.branch (a.previous.map ValidatedMemory.coveredThrough)).map
        WorkNoteEntry.toWorkNote)).map StoredNote.toJson = some value)
    (hnote : validateNote len value (a.branch.take (latest.index + 1)) a.policy.hardTokens = .ok note)
    (hplan : a.commitPrefix ctx note latest.index (ctx.threshold / 2)
      (coveredUserMessages a.branch (isActive a.projection) latest.index
        (carriedUserMessages (a.previous.map ValidatedMemory.entry))) = .ok (.ok plan)) :
    a.notesAttempt ctx nfkc len = .ok (.ok (value, plan)) := by
  simp only [notesAttempt, hlatest, hturn, hfocus, hmerged, hplan, Option.isSome_none,
    Bool.false_eq_true, ↓reduceIte, Option.any_none, Option.bind_some, hnote, Except.toOption,
    Option.map_some, Except.map]

/-- The commit of merged work notes. -/
theorem compact_merged {branch : List SessionRecord} {answer value : Json} {plan : Plan}
    (ha : beginAttempt len sha256 ctx branch = .ok a) (hwork : ctx.workNotes = true)
    (hlineage : ctx.checkpointLineage branch = [])
    (hnotes : a.notesAttempt ctx nfkc len = .ok (.ok (value, plan)))
    (hfits : textTokens (renderNote (MemoryNote.ofJson value) [] ++ userSection plan.userMessages) +
      Attempt.contextTokens ctx plan.kept ≤ ctx.threshold) :
    compact nfkc len sha256 ctx branch none answer = .ok
      { path := .notes, plan, note := value, policy := a.policy
        summary := renderNote (MemoryNote.ofJson value) [] ++ userSection plan.userMessages
        notesFallback := none, uncovered := none } := by
  have hchosen : a.choosePath ctx nfkc len (takeCandidate sha256 ctx a none) =
      .ok ⟨.notes, plan, some value, none⟩ := by
    simp only [Attempt.choosePath, takeCandidate, Option.bind_none, Attempt.reuseAttempt, hwork, hnotes,
      bind, Except.bind, ↓reduceIte]
    rfl
  simp only [compact, ha, hchosen, hlineage, validateReused, bind, Except.bind, Option.getD_some,
    fittedSummary_fits hfits]
  rfl

end

end Compaction
