import ContextCompaction.Js.Json

/-!
# Records of a durable session

What a session stores of conversations: their transcript, the submissions made to them, the inbox
and the run of each, and the tasks that work on them.

* `applySubmissionChange`: what a settlement or a placement does to a submission.
-/

namespace Harness

open Js

/-- The number of a conversation. The IDs of all records are minted from one counter. -/
abbrev ConversationId := Nat
/-- The number of an entry. -/
abbrev EntryId := Nat
/-- The number of a submission. -/
abbrev SubmissionId := Nat
/-- The number of a task. -/
abbrev TaskId := Nat

/-! ## Transcript -/

/-- Where the head of a new entry is. -/
inductive Head where
  | self
  | entry (id : EntryId)
  deriving DecidableEq

/-- An entry to append; `fields` are its messages, data and edits. -/
structure EntryDraft where
  kind : Str
  head : Option Head
  fields : List (Str × Json)

/-- A committed entry; `byTaskId` is the task in whose scope it was appended. -/
structure EntryRecord where
  id : EntryId
  conversationId : ConversationId
  kind : Str
  head : Option EntryId
  fields : List (Str × Json)
  byTaskId : Option TaskId

/-- The message of an entry, as the only one of its `model`. -/
def model (role : Str) (content : Json) (timestamp : Nat) : List (Str × Json) :=
  [(lit "model", .arr [.obj [(lit "role", .str role), (lit "content", content),
    (lit "timestamp", .num (.ofNat timestamp))]])]

/-- `UserEntry`, for a user message. -/
def userEntry (content : Json) (now : Nat) : EntryDraft :=
  ⟨lit "pi.user", none, model (lit "user") content now⟩

/-- `ResetEntry`, for the message of a handoff. -/
def resetEntry (content : Str) (now : Nat) : EntryDraft :=
  ⟨lit "pi.reset", some .self, model (lit "user") (.str content) now⟩

/-- `AssistantEntry`, for a response of the model. -/
def assistantEntry (message : Json) : EntryDraft :=
  ⟨lit "pi.assistant", none, [(lit "model", .arr [message])]⟩

/-! ## Submissions -/

/-- A submission is an input for a run, or an entry to be written. -/
inductive SubmissionType where
  | input | write
  deriving DecidableEq

/-- The status of a submission, with what a record of that status holds. -/
inductive SubmissionStatus where
  | queued
  | placed (entry : EntryId)
  | done (entry : EntryId) (answer : Option EntryId)
  | unanswered (entry : Option EntryId) (reason : Str) (detail : Option Json)

namespace SubmissionStatus

/-- It waits in the inbox. -/
def isQueued : SubmissionStatus → Bool
  | queued => true
  | _ => false

/-- It is in the transcript, and its run has not answered. -/
def isPlaced : SubmissionStatus → Bool
  | placed _ => true
  | _ => false

/-- It will not change any more. -/
def isSettled : SubmissionStatus → Bool
  | done .. => true
  | unanswered .. => true
  | _ => false

end SubmissionStatus

/-- A submission; `requestId` is what its caller knows it by. -/
structure SubmissionRecord where
  id : SubmissionId
  conversationId : ConversationId
  requestId : Option Str
  type : SubmissionType
  status : SubmissionStatus

/-- How a submission ends: with an answer, or with the reason why there is none. -/
inductive SubmissionSettlement where
  | done (answer : EntryId)
  | unanswered (reason : Str) (detail : Option Json)

/-- A staged change: a settlement, or the placement of a queued submission at its entry. -/
inductive SubmissionChange where
  | settled (settlement : SubmissionSettlement)
  | placed (entry : EntryId)

/-- What a commit throws. -/
inductive TxError where
  | noConversation (id : ConversationId)
  | noSubmission (id : SubmissionId)
  | notQueued (id : SubmissionId)
  | notPlaced (id : SubmissionId)
  | requestType (requestId : Str) (type : SubmissionType)
  | conversationBusy (id : ConversationId)
  | noTask (id : TaskId)
  | notRunning (id : TaskId)
  | abortMarked (id : TaskId)
  | noEntries (id : ConversationId)

/-- The record with another status. -/
def SubmissionRecord.withStatus (r : SubmissionRecord) (status : SubmissionStatus) :
    SubmissionRecord :=
  { r with status }

/-- Placement turns a queued input `placed` and a queued write `done`; only a placed input can be
answered. A settled record stays. -/
def applySubmissionChange (current : SubmissionRecord) (change : SubmissionChange) :
    Except TxError SubmissionRecord :=
  match current.status, change with
  | .done .., _ => .ok current
  | .unanswered .., _ => .ok current
  | .queued, .placed entry =>
    match current.type with
    | .input => .ok (current.withStatus (.placed entry))
    | .write => .ok (current.withStatus (.done entry none))
  | .placed _, .placed _ => .error (.notQueued current.id)
  | .queued, .settled (.done _) => .error (.notPlaced current.id)
  | .placed entry, .settled (.done answer) => .ok (current.withStatus (.done entry (some answer)))
  | .queued, .settled (.unanswered reason detail) =>
    .ok (current.withStatus (.unanswered none reason detail))
  | .placed entry, .settled (.unanswered reason detail) =>
    .ok (current.withStatus (.unanswered (some entry) reason detail))

/-! ## Documents -/

/-- What waits in a conversation's inbox. -/
inductive InboxItem where
  | steer (id : SubmissionId) (content : Json)
  | followUp (id : SubmissionId) (content : Json)
  | write (id : SubmissionId) (entry : EntryDraft)

namespace InboxItem

/-- The submission of an item. -/
def id : InboxItem → SubmissionId
  | steer id _ => id
  | followUp id _ => id
  | write id _ => id

/-- The type of an item's submission. -/
def type : InboxItem → SubmissionType
  | write .. => .write
  | _ => .input

/-- It is an input that a run takes between its turns. -/
def isSteer : InboxItem → Bool
  | steer .. => true
  | _ => false

/-- It is an input that waits for the end of a run. -/
def isFollowUp : InboxItem → Bool
  | followUp .. => true
  | _ => false

/-- It is an entry to be written. -/
def isWrite : InboxItem → Bool
  | write .. => true
  | _ => false

/-- A queued reset: a write that starts the active range at itself. -/
def isReset : InboxItem → Bool
  | write _ entry => entry.head = some .self
  | _ => false

end InboxItem

/-- The task that settles the inputs of a run, and those inputs. -/
structure Run where
  taskId : TaskId
  inputs : List SubmissionId
  deriving DecidableEq

/-- The current attempt of a generation, with the message it has written so far. -/
structure GenerationState where
  attempt : Nat
  message : Option Json

/-- `pi.live`; `run` is present exactly while the conversation is busy. -/
structure LiveState where
  run : Option Run
  generation : Option GenerationState

/-- The submissions that the running run has to answer. -/
def LiveState.inputs (live : LiveState) : List SubmissionId := (live.run.map (·.inputs)).getD []

/-! ## Tasks -/

/-- What a task does. -/
inductive TaskKind where
  | generation | tool | compaction
  | other (name : Str)
  deriving DecidableEq

/-- How a task ended; only the scheduler writes `orphaned` and `faulted`. -/
inductive TaskOutcome where
  | completed | failed | aborted
  | orphaned (reason : Str)
  | faulted (message : Str)
  deriving DecidableEq

/-- `completing` holds an outcome while work that the task owns is live. -/
inductive TaskState where
  | pending | running | waiting
  | completing (outcome : TaskOutcome)
  | terminal (outcome : TaskOutcome)
  deriving DecidableEq

/-- The task has ended, and its cleanup is done. -/
def TaskState.isTerminal : TaskState → Bool
  | terminal _ => true
  | _ => false

/-- A task of a conversation. -/
structure TaskRecord where
  id : TaskId
  conversationId : ConversationId
  kind : TaskKind
  abortRequested : Bool
  state : TaskState
  deriving DecidableEq

/-- The committed state. -/
structure Store where
  nextId : Nat
  conversations : List ConversationId
  entries : List EntryRecord
  submissions : List SubmissionRecord
  tasks : List TaskRecord
  inbox : ConversationId → List InboxItem
  live : ConversationId → LiveState

end Harness
