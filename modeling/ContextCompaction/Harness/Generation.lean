import ContextCompaction.Harness.Inbox
import ContextCompaction.Transition.Reach

/-!
# Commits that work on a conversation

The generation task answers the inputs of a run. Each of its commits starts, extends, hands over or
ends the run, or leaves it alone; the scheduler ends the run of a generation that cannot end it.

* `answer`, `finishToolRound`: the boundaries of a run.
* `Commit`: every commit of a session, and `SessionSystem`: every sequence of them.
-/

namespace Harness

open Js Program Transition

/-! ## Runs -/

/-- Several submissions are settled alike. -/
def settleAll : List SubmissionId → SubmissionSettlement → TxM Unit
  | [], _ => return ()
  | id :: rest, settlement => do
    settleSubmission id settlement
    settleAll rest settlement

/-- End the run owned by `taskId`: settle each of its inputs and remove it. -/
def endRun (conversationId : ConversationId) (taskId : TaskId) (settlement : SubmissionSettlement) :
    TxM Unit := do
  let live ← liveDoc conversationId
  if live.run.any (·.taskId = taskId) then
    settleAll live.inputs settlement
    setLive conversationId ⟨none, none⟩
  else
    setLive conversationId { live with generation := none }

/-- Hand run control from `source` to `target`; the run's inputs move with it. -/
def handOver (conversationId : ConversationId) (source target : TaskId) : TxM Unit := do
  let live ← liveDoc conversationId
  setLive conversationId { live with
    run := live.run.map fun run => if run.taskId = source then ⟨target, run.inputs⟩ else run }

/-- Inputs that a boundary of `taskId`'s run placed. -/
def pushInputs (conversationId : ConversationId) (taskId : TaskId) (users : List SubmissionId) :
    TxM Unit := do
  let live ← liveDoc conversationId
  setLive conversationId { live with
    run := live.run.map fun run =>
      if run.taskId = taskId then ⟨run.taskId, run.inputs ++ users⟩ else run }

/-- The generation of the conversation's live document is replaced. -/
def setGeneration (conversationId : ConversationId) (generation : Option GenerationState) :
    TxM Unit := do
  let live ← liveDoc conversationId
  setLive conversationId { live with generation }

/-- An assistant message becomes an entry. -/
def appendAssistant (conversationId : ConversationId) (message : Json) : TxM EntryRecord :=
  appendEntry conversationId (assistantEntry message)

/-- `{ ...message, stopReason: "aborted" }` -/
def interrupted : Json → Json
  | .obj fields => .obj (mapSet fields (lit "stopReason") (.str (lit "aborted")))
  | message => message

/-- Append what an interrupted attempt has written as an aborted assistant entry. -/
def convertPartial (conversationId : ConversationId) : TxM Unit := do
  let live ← liveDoc conversationId
  match live.generation.bind (·.message) with
  | none => return ()
  | some message => do
    let _ ← appendAssistant conversationId (interrupted message)
    return ()

/-- Harness cleanup for an outcome that the scheduler writes itself; only a generation has a run. -/
def settleSchedulerOutcome (record : TaskRecord) (settlement : SubmissionSettlement) :
    TxM Unit := do
  let live ← liveDoc record.conversationId
  if record.kind = .generation ∧ live.run.any (·.taskId = record.id) then
    convertPartial record.conversationId
    endRun record.conversationId record.id settlement
  else
    return ()

/-! ## Task states -/

/-- Commit after rereading the task: it must be running, and a run invocation ends at an abort
mark. -/
def gated (taskId : TaskId) (abort : Bool) : TxM TaskRecord := do
  let tx ← get
  match tx.store.tasks.find? (·.id = taskId) with
  | none => throw (.noTask taskId)
  | some record => do
    refuseIf (record.state ≠ .running) (.notRunning taskId)
    refuseIf (abort = false ∧ record.abortRequested) (.abortMarked taskId)
    return record

/-- What a runtime commit returns. -/
inductive NextTaskState where
  | running | waiting
  | terminal (outcome : TaskOutcome)

/-- A terminal state holds as `completing` while work that the task owns is live: `held`. -/
def commitState (current : TaskRecord) (next : NextTaskState) (held : Bool) : TxM Unit :=
  setTask { current with state :=
    match next with
    | .running => .running
    | .waiting => .waiting
    | .terminal outcome => if held then .completing outcome else .terminal outcome }

/-! ## Generation -/

/-- Drafts become entries, in their order. -/
def appendEntries (conversationId : ConversationId) : List EntryDraft → TxM Unit
  | [] => return ()
  | draft :: rest => do
    let _ ← appendEntry conversationId draft
    appendEntries conversationId rest

/-- A call of a round starts a tool task, or has its result at once. -/
def startCalls (conversationId : ConversationId) : List (Option EntryDraft) → TxM Unit
  | [] => return ()
  | some result :: rest => do
    let _ ← appendEntry conversationId result
    startCalls conversationId rest
  | none :: rest => do
    let _ ← createTask .tool conversationId
    startCalls conversationId rest

/-- End the run and start the next one for what the boundary placed. -/
def endAndStart (task : TaskRecord) (settlement : SubmissionSettlement)
    (users : List SubmissionId) : TxM Unit := do
  endRun task.conversationId task.id settlement
  if users ≠ [] then startRun task.conversationId users else return ()

/-- The run of a task is handed to a new generation. -/
def handOverToSuccessor (task : TaskRecord) : TxM Unit := do
  let successor ← createGeneration task.conversationId
  handOver task.conversationId task.id successor

/-- A continuation appends a user message and hands the run to a successor generation. -/
def continueRun (task : TaskRecord) (content : Json) (now : Nat) : TxM Unit := do
  let _ ← appendEntry task.conversationId (userEntry content now)
  handOverToSuccessor task
  setGeneration task.conversationId none

/-- A final answer: the final boundary places queued items. The run continues only when the boundary
selected no user item and no reset. -/
def answer (task : TaskRecord) (message : Json) (continuation : Option Json) (now : Nat)
    (modes : QueueModes) (marker : Option EntryId) : TxM Unit := do
  let entry ← appendAssistant task.conversationId message
  let result ← applyBoundary (prepareBoundary task.conversationId modes marker) .final now
  match continuation, decide (result.users = [] ∧ result.reset = false) with
  | some content, true => continueRun task content now
  | _, _ => endAndStart task (.done entry.id) result.users

/-- A boundary that a handoff ends starts the active range at the reset entry. -/
def appendHandoff (boundary : Boundary) (handoff : Option Str) (now : Nat) : TxM Boundary :=
  match handoff with
  | none => return boundary
  | some message => do
    let entry ← appendEntry boundary.conversationId (resetEntry message now)
    return { boundary with head := some entry.id }

/-- The round's tools are terminal: end the run at the final boundary, or hand it to the next
generation at the `postTools` boundary. `added` are the entries of added tools. -/
def finishToolRound (task : TaskRecord) (assistant : EntryId) (added : List EntryDraft)
    (terminate : Bool) (handoff : Option Str) (now : Nat) (modes : QueueModes)
    (marker : Option EntryId) : TxM Unit := do
  let boundary := prepareBoundary task.conversationId modes marker
  appendEntries task.conversationId added
  if terminate ∨ handoff.isSome then
    let boundary ← appendHandoff boundary handoff now
    let result ← applyBoundary boundary .final now
    endAndStart task (.done assistant) result.users
  else
    let result ← applyBoundary boundary .postTools now
    if result.reset then
      endAndStart task (.unanswered (lit "reset") none) result.users
    else
      pushInputs task.conversationId task.id result.users
      handOverToSuccessor task

/-- The callback of a generation's commit. A round's calls are tool tasks, or have their result at
once. -/
inductive GenerationCommit where
  /-- `prepare`: system entries, and a compaction in the background. -/
  | prepared (entries : List EntryDraft) (compaction : Bool)
  /-- `prepare` that waits for a compaction. -/
  | compacting
  /-- `request`: convert what an earlier attempt left. -/
  | requested (attempt : Nat)
  /-- `flush`: what the response has so far. -/
  | flushed (attempt : Nat) (message : Json)
  /-- `retry`, at the end of its wait. -/
  | retried (attempt : Nat)
  /-- `classify`: a deferred response. -/
  | deferred (attempt : Nat)
  /-- `classify`: an overflow that starts a compaction. -/
  | overflowed (message : Json)
  /-- `classify`: an error that is retried. -/
  | failing (message : Json) (attempt : Nat)
  /-- `classify`: an error that ends the run. -/
  | failed (message : Json) (text : Str)
  | failModelError (text : Str)
  | failNoModel
  | startToolRound (message : Json) (calls : List (Option EntryDraft))
  /-- `tools`: the next call of a sequential round. -/
  | startCall
  | answer (message : Json) (continuation : Option Json) (now : Nat) (modes : QueueModes)
    (marker : Option EntryId)
  | finishToolRound (assistant : EntryId) (added : List EntryDraft) (terminate : Bool)
    (handoff : Option Str) (now : Nat) (modes : QueueModes) (marker : Option EntryId)
  /-- `abort`, with the results of the calls that never started. -/
  | aborted (results : List EntryDraft)

/-- The commit that ends an aborted generation. -/
def GenerationCommit.isAbort : GenerationCommit → Bool
  | .aborted _ => true
  | _ => false

/-- A run's inputs end without an answer. -/
def failRun (task : TaskRecord) (reason : Str) (detail : Option Json) : TxM Unit :=
  endRun task.conversationId task.id (.unanswered reason detail)

/-- `live.generation ??= { attempt }`, and its message. -/
def flush (task : TaskRecord) (attempt : Nat) (message : Json) : TxM Unit := do
  let live ← liveDoc task.conversationId
  let generation := live.generation.getD ⟨attempt, none⟩
  setGeneration task.conversationId (some { generation with message := some message })

/-- The task's next state, if the commit sets one. -/
def GenerationCommit.callback (task : TaskRecord) : GenerationCommit → TxM (Option NextTaskState)
  | .prepared entries compaction => do
    appendEntries task.conversationId entries
    if compaction then do
      let _ ← createTask .compaction task.conversationId
      return some .running
    else
      return some .running
  | .compacting => do
    let _ ← createTask .compaction task.conversationId
    return some .waiting
  | .requested attempt => do
    convertPartial task.conversationId
    setGeneration task.conversationId (some ⟨attempt, none⟩)
    return none
  | .flushed attempt message => do
    flush task attempt message
    return none
  | .retried attempt => do
    setGeneration task.conversationId (some ⟨attempt + 1, none⟩)
    return some .running
  | .deferred attempt => do
    setGeneration task.conversationId (some ⟨attempt, none⟩)
    return some .running
  | .overflowed message => do
    let _ ← appendAssistant task.conversationId message
    setGeneration task.conversationId none
    let _ ← createTask .compaction task.conversationId
    return some .waiting
  | .failing message attempt => do
    let _ ← appendAssistant task.conversationId message
    setGeneration task.conversationId (some ⟨attempt, none⟩)
    return some .running
  | .failed message text => do
    let _ ← appendAssistant task.conversationId message
    failRun task (lit "model_error") (some (.str text))
    return some (.terminal .failed)
  | .failModelError text => do
    failRun task (lit "model_error") (some (.str text))
    return some (.terminal .failed)
  | .failNoModel => do
    failRun task (lit "no_model") none
    return some (.terminal .failed)
  | .startToolRound message calls => do
    let _ ← appendAssistant task.conversationId message
    startCalls task.conversationId calls
    setGeneration task.conversationId none
    return some .waiting
  | .startCall => do
    let _ ← createTask .tool task.conversationId
    return some .waiting
  | .answer message continuation now modes marker => do
    Harness.answer task message continuation now modes marker
    return some (.terminal .completed)
  | .finishToolRound assistant added terminate handoff now modes marker => do
    Harness.finishToolRound task assistant added terminate handoff now modes marker
    return some (.terminal .completed)
  | .aborted results => do
    convertPartial task.conversationId
    appendEntries task.conversationId results
    failRun task (lit "aborted") none
    return some (.terminal .aborted)

/-! ## Scheduler -/

/-- The record of a task; without one the commit is refused. -/
def currentTask (taskId : TaskId) : TxM TaskRecord := do
  let tx ← get
  match tx.tasks.find? (·.id = taskId) with
  | none => throw (.noTask taskId)
  | some record => return record

/-- The settlement of a run whose task the scheduler ends. -/
def schedulerSettlement : TaskOutcome → Option SubmissionSettlement
  | .faulted message => some (.unanswered (lit "faulted") (some (.str message)))
  | .orphaned reason => some (.unanswered reason none)
  | _ => none

/-- An outcome that the scheduler decided. While the task's owned work is live it holds as
`completing`, and its cleanup waits for the final commit. -/
def terminate (record : TaskRecord) (outcome : TaskOutcome) (settlement : SubmissionSettlement)
    (held : Bool) : TxM Unit :=
  if held then
    setTask { record with state := .completing outcome }
  else do
    setTask { record with state := .terminal outcome }
    settleSchedulerOutcome record settlement

/-- A live task gets its abort mark. -/
def mark (taskId : TaskId) : TxM Unit := do
  let record ← currentTask taskId
  setTask { record with abortRequested := true }

/-- Abortion is requested of several tasks. -/
def markAll : List TaskId → TxM Unit
  | [] => return ()
  | taskId :: rest => do
    mark taskId
    markAll rest

/-- The queued inputs of several conversations are withdrawn. -/
def withdrawAll : List ConversationId → TxM Unit
  | [] => return ()
  | id :: rest => do
    withdrawQueuedInputs id
    withdrawAll rest

/-- The terminal record of a task that was `completing`; a held scheduler outcome gets its cleanup
here. -/
def finalizeTask (taskId : TaskId) : TxM Unit := do
  let record ← currentTask taskId
  match record.state with
  | .completing outcome => do
    setTask { record with state := .terminal outcome }
    match schedulerSettlement outcome with
    | some settlement => settleSchedulerOutcome record settlement
    | none => return ()
  | _ => return ()

/-- Several tasks are finalized, one after the other. -/
def finalize : List TaskId → TxM Unit
  | [] => return ()
  | taskId :: rest => do
    finalizeTask taskId
    finalize rest

/-- What a reservation pass does with an eligible task. -/
inductive Reservation where
  | start
  | orphan (reason : Str) (held : Bool)

/-- Several tasks are reserved in one commit: each is started, or ended as an orphan. -/
def reserve : List (TaskId × Reservation) → TxM Unit
  | [] => return ()
  | (taskId, .start) :: rest => do
    let record ← currentTask taskId
    refuseIf (record.state ≠ .pending ∧ record.state ≠ .running ∧ record.state ≠ .waiting)
      (.notRunning taskId)
    setTask { record with state := .running }
    reserve rest
  | (taskId, .orphan reason held) :: rest => do
    let record ← currentTask taskId
    refuseIf (record.state ≠ .pending ∧ record.state ≠ .running ∧ record.state ≠ .waiting)
      (.notRunning taskId)
    terminate record (.orphaned reason) (.unanswered reason none) held
    reserve rest

/-- A task that was running when its process ended is pending. -/
def reopenTask (taskId : TaskId) : TxM Unit := do
  let record ← currentTask taskId
  if record.state = .running then setTask { record with state := .pending } else return ()

/-- What `open` commits, before anything is dispatched. -/
def reopen : List TaskId → TxM Unit
  | [] => return ()
  | taskId :: rest => do
    reopenTask taskId
    reopen rest

/-! ## Sessions -/

/-- The commits of a session. Whatever the ownership tree, the registry, hooks, models and tools
decide is an argument. -/
inductive Commit where
  | createConversation
  | admitSubmission (conversationId : ConversationId) (draft : SubmissionDraft) (now : Nat)
    (modes : QueueModes) (marker : Option EntryId)
  | abortSubmission (id : SubmissionId) (conversationId : Option ConversationId)
  /-- `Conversation.abort()` -/
  | abortConversation (reached : List TaskId) (queued : List ConversationId)
  | generation (taskId : TaskId) (commit : GenerationCommit) (held : Bool)
  /-- A compaction places its summary: a write submission, or an entry of the generation it
  blocks. -/
  | placeSummary (taskId : TaskId) (blocking : Bool) (requestId : Str) (entry : EntryDraft)
    (now : Nat) (modes : QueueModes) (marker : Option EntryId) (held : Bool)
  /-- Any other commit of a task that is no generation. -/
  | task (taskId : TaskId) (entries : List EntryDraft) (calls : List (Option EntryDraft))
    (next : NextTaskState) (held : Bool)
  /-- A task of another kind is created outside a task. -/
  | createTask (name : Str) (conversationId : ConversationId)
  | appendEntries (conversationId : ConversationId) (entries : List EntryDraft)
  /-- `open`, when a session is opened again. -/
  | reopen
  | reserve (tasks : List (TaskId × Reservation))
  /-- `step`: a replacement definition takes the task. -/
  | yieldTask (taskId : TaskId)
  /-- `step`: a phase failed. -/
  | fault (taskId : TaskId) (message : Str) (held : Bool)
  | reconcile (marked : List TaskId) (queued : List ConversationId) (done : List TaskId)

/-- A generation's runtime commit. -/
def generationCommit (taskId : TaskId) (commit : GenerationCommit) (held : Bool) : TxM Unit := do
  let record ← gated taskId commit.isAbort
  refuseIf (record.kind ≠ .generation) (.noTask taskId)
  let next ← commit.callback record
  match next with
  | some next => commitState record next held
  | none => return ()

/-- A runtime commit of another task. -/
def taskCommit (taskId : TaskId) (body : TaskRecord → TxM Unit) (next : NextTaskState)
    (held : Bool) : TxM Unit := do
  let record ← gated taskId true
  refuseIf (record.kind = .generation) (.noTask taskId)
  body record
  commitState record next held

/-- A blocking compaction appends its summary at once; one in the background submits it as a write. -/
def placeSummary (blocking : Bool) (requestId : Str) (entry : EntryDraft) (now : Nat)
    (modes : QueueModes) (marker : Option EntryId) (record : TaskRecord) : TxM Unit :=
  if blocking then do
    let _ ← appendEntry record.conversationId entry
    return ()
  else do
    let _ ← admitSubmission record.conversationId ⟨some requestId, .write entry⟩ now modes marker
    return ()

/-- What each commit does inside its transaction. -/
def Commit.callback : Commit → TxM Unit
  | .createConversation => do
    let _ ← Harness.createConversation
    return ()
  | .admitSubmission conversationId draft now modes marker => do
    let _ ← Harness.admitSubmission conversationId draft now modes marker
    return ()
  | .abortSubmission id conversationId => do
    let _ ← Harness.abortSubmission id conversationId
    return ()
  | .abortConversation reached queued => do
    markAll reached
    withdrawAll queued
  | .generation taskId commit held => generationCommit taskId commit held
  | .placeSummary taskId blocking requestId entry now modes marker held =>
    taskCommit taskId (Harness.placeSummary blocking requestId entry now modes marker)
      (.terminal .completed) held
  | .task taskId entries calls next held =>
    taskCommit taskId (fun record => do
      Harness.appendEntries record.conversationId entries
      startCalls record.conversationId calls) next held
  | .createTask name conversationId => do
    let _ ← Harness.createTask (.other name) conversationId
    return ()
  | .appendEntries conversationId entries => Harness.appendEntries conversationId entries
  | .reopen => do
    let tx ← get
    Harness.reopen (tx.store.tasks.map (·.id))
  | .reserve tasks => Harness.reserve tasks
  | .yieldTask taskId => do
    let record ← gated taskId false
    setTask { record with state := .pending }
  | .fault taskId message held => do
    let record ← gated taskId true
    terminate record (.faulted message)
      (.unanswered (lit "faulted") (some (.str message))) held
  | .reconcile marked queued done => do
    markAll marked
    withdrawAll queued
    finalize done

/-- The task whose commit it is. -/
def Commit.scope : Commit → Option TaskId
  | .generation taskId .. => some taskId
  | .placeSummary taskId .. => some taskId
  | .task taskId .. => some taskId
  | _ => none

/-- A commit either changes the store as a whole or is refused. -/
def Commit.run (commit : Commit) (s : Store) : Except TxError Store :=
  (s.commit commit.scope commit.callback).map Prod.snd

/-- A new session, and any commits on it; one that fails may have minted identities. Between two
commits a crash loses nothing that is committed. -/
def SessionSystem : System Store where
  init s := ∃ nextId, s = ⟨nextId, [], [], [], [], fun _ => [], fun _ => ⟨none, none⟩⟩
  step s s' :=
    (∃ commit : Commit, commit.run s = .ok s') ∨ ∃ nextId ≥ s.nextId, s' = { s with nextId }

end Harness
