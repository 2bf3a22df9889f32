import ContextCompaction.Harness.Tx

/-!
# Inbox and admission

Submissions that wait for a boundary stand in the inbox of their conversation.

* `applyBoundary`: place the queued items that a boundary selects.
* `admitSubmission`: place a submission at once, or queue it.
* `abortSubmission`, `withdrawQueuedInputs`: take queued submissions back.
-/

namespace Harness

open Js Program

/-! ## Boundaries -/

/-- Whether a boundary places all queued inputs of a kind or only the first. -/
inductive QueueMode where
  | all | oneAtATime
  deriving DecidableEq

/-- The modes of the two kinds of queued inputs. -/
structure QueueModes where
  steeringMode : QueueMode
  followUpMode : QueueMode

/-- What a boundary reads, and the newest head it has seen so far. -/
structure Boundary where
  conversationId : ConversationId
  modes : QueueModes
  head : Option EntryId

/-- Where in a run a boundary is taken: after a batch of tools, or when the run would end. -/
inductive BoundaryAt where
  | postTools | final
  deriving DecidableEq

/-- The submissions that a boundary placed, and whether it placed a write that resets the context. -/
structure BoundaryResult where
  users : List SubmissionId
  reset : Bool

/-- `marker` is the head of the newest head marker, as the store reads it. -/
def prepareBoundary (conversationId : ConversationId) (modes : QueueModes)
    (marker : Option EntryId) : Boundary :=
  ⟨conversationId, modes, marker⟩

/-- Whether a head write targets an entry before the active range, so that placing it would bring
back cut history. -/
def isStale (head : Option EntryId) (entry : EntryDraft) : Bool :=
  match entry.head, head with
  | some (.entry target), some start => target < start
  | _, _ => false

/-- The positions of the items that satisfy `p`. -/
def indexes (p : InboxItem → Bool) (items : List InboxItem) : List Nat :=
  (items.zipIdx.filter (p ·.1)).map (·.2)

/-- The indexes of the items that a mode selects. -/
def pick (p : InboxItem → Bool) (mode : QueueMode) (items : List InboxItem) : List Nat :=
  match mode with
  | .all => indexes p items
  | .oneAtATime => (indexes p items).take 1

/-- The positions of the user items that a boundary places. -/
def selectedUsers (modes : QueueModes) (final : Bool) (items : List InboxItem) : List Nat :=
  (pick InboxItem.isSteer modes.steeringMode items ++
    if final then pick InboxItem.isFollowUp modes.followUpMode items else []).mergeSort

/-- The settlement of a write whose head lies before the active range. -/
def stale : SubmissionSettlement := .unanswered (lit "stale") none

/-- The settlement of a submission that was withdrawn. -/
def aborted : SubmissionSettlement := .unanswered (lit "aborted") none

/-- A write that is not stale gets its entry; a head that it sets starts the active range. -/
def placeWrites (items : List InboxItem) : List Nat → Boundary → TxM Boundary
  | [], boundary => return boundary
  | index :: rest, boundary =>
    match items[index]? with
    | some (.write id draft) =>
      if isStale boundary.head draft then do
        settleSubmission id stale
        placeWrites items rest boundary
      else do
        let entry ← appendEntry boundary.conversationId draft
        placeSubmission id entry.id
        placeWrites items rest
          { boundary with head := (draft.head.map (Head.resolve entry.id)).or boundary.head }
    | _ => placeWrites items rest boundary

/-- The identity and content of a user item. -/
def InboxItem.user? : InboxItem → Option (SubmissionId × Json)
  | .steer id content => some (id, content)
  | .followUp id content => some (id, content)
  | .write .. => none

/-- The user inputs at the given indexes become entries, in that order, and their submissions are placed.
-/
def placeUsers (conversationId : ConversationId) (items : List InboxItem) (now : Nat) :
    List Nat → TxM (List SubmissionId)
  | [] => return []
  | index :: rest =>
    match items[index]?.bind InboxItem.user? with
    | some (id, content) => do
      let entry ← appendEntry conversationId (userEntry content now)
      placeSubmission id entry.id
      let placed ← placeUsers conversationId items now rest
      return id :: placed
    | none => placeUsers conversationId items now rest

/-- Items that a boundary selects, removed by position from the last to the first. -/
def splice (items : List InboxItem) (removed : List Nat) : List InboxItem :=
  (removed.mergeSort (fun i j => j ≤ i)).foldl List.eraseIdx items

/-- Every write, the first or all steers, and at `final` the first or all follow-ups. A queued reset
turns a `postTools` boundary into `final`. -/
def applyBoundary (boundary : Boundary) (place : BoundaryAt) (now : Nat) : TxM BoundaryResult := do
  let items ← inboxDoc boundary.conversationId
  let reset := items.any InboxItem.isReset
  let final := decide (place = .final) || reset
  let writes := indexes InboxItem.isWrite items
  let users := selectedUsers boundary.modes final items
  let _ ← placeWrites items writes boundary
  let placed ← placeUsers boundary.conversationId items now users
  setInbox boundary.conversationId (splice items (writes ++ users))
  return ⟨placed, reset⟩

/-- The caller settles the submission. -/
def removeInboxItem (conversationId : ConversationId) (id : SubmissionId) : TxM Unit := do
  let items ← inboxDoc conversationId
  setInbox conversationId (items.eraseIdx (items.findIdx (·.id = id)))

/-- The items below `index`, from the last to the first. -/
def withdrawBelow (conversationId : ConversationId) : Nat → TxM Unit
  | 0 => return ()
  | index + 1 => do
    let items ← inboxDoc conversationId
    match items[index]?.bind InboxItem.user? with
    | some (id, _) => do
      settleSubmission id aborted
      setInbox conversationId (items.eraseIdx index)
      withdrawBelow conversationId index
    | none => withdrawBelow conversationId index

/-- Withdraw every queued input of a conversation; queued writes stay for later placement. -/
def withdrawQueuedInputs (conversationId : ConversationId) : TxM Unit := do
  let items ← inboxDoc conversationId
  withdrawBelow conversationId items.length

/-! ## Runs -/

/-- A generation owned by its conversation. -/
def createGeneration (conversationId : ConversationId) : TxM TaskId :=
  createTask .generation conversationId

/-- Start a run for placed inputs: a new generation takes `pi.live.run`. -/
def startRun (conversationId : ConversationId) (inputs : List SubmissionId) : TxM Unit := do
  let taskId ← createGeneration conversationId
  let live ← liveDoc conversationId
  setLive conversationId { live with run := some ⟨taskId, inputs⟩ }

/-! ## Submissions -/

/-- What a caller wants done with an input that arrives during a run. -/
inductive WhenBusy where
  | steer | followUp | reject
  deriving DecidableEq

/-- What is submitted: an input to answer, or an entry to write. -/
inductive SubmissionBody where
  | input (content : Json) (whenBusy : Option WhenBusy)
  | write (entry : EntryDraft)

/-- A submission as a caller hands it in; a request ID makes handing it in again harmless. -/
structure SubmissionDraft where
  requestId : Option Str
  body : SubmissionBody

/-- The kind under which the submission is recorded. -/
def SubmissionBody.type : SubmissionBody → SubmissionType
  | input .. => .input
  | write .. => .write

/-- The item that waits for a boundary. -/
def SubmissionBody.item (id : SubmissionId) : SubmissionBody → InboxItem
  | input content whenBusy =>
    if whenBusy = some .steer then .steer id content else .followUp id content
  | write entry => .write id entry

/-- Only an input can ask to be refused while a run is going. -/
def SubmissionBody.rejectsBusy : SubmissionBody → Bool
  | input _ whenBusy => whenBusy = some .reject
  | write _ => false

/-- Queue a submission behind those that wait. -/
def queueSubmission (conversationId : ConversationId) (draft : SubmissionDraft) :
    TxM SubmissionId := do
  let id ← createSubmission conversationId draft.requestId draft.body.type .queued
  let items ← inboxDoc conversationId
  setInbox conversationId (items ++ [draft.body.item id])
  return id

/-- Idle, and nothing waits: a write is appended, an input starts a run. -/
def placeSubmissionNow (boundary : Boundary) (draft : SubmissionDraft) (now : Nat) :
    TxM SubmissionId :=
  let conversationId := boundary.conversationId
  match draft.body with
  | .write value =>
    if isStale boundary.head value then
      createSubmission conversationId draft.requestId .write (.unanswered none (lit "stale") none)
    else do
      let entry ← appendEntry conversationId value
      createSubmission conversationId draft.requestId .write (.done entry.id none)
  | .input content _ => do
    let entry ← appendEntry conversationId (userEntry content now)
    let id ← createSubmission conversationId draft.requestId .input (.placed entry.id)
    startRun conversationId [id]
    return id

/-- Idle, with queued items: the submission stands behind them at a final boundary. -/
def placeSubmissionQueued (boundary : Boundary) (draft : SubmissionDraft) (now : Nat) :
    TxM SubmissionId := do
  let id ← queueSubmission boundary.conversationId draft
  let result ← applyBoundary boundary .final now
  if result.users ≠ [] then
    startRun boundary.conversationId result.users
    return id
  else
    return id

/-- A new submission is queued while a run is going; otherwise a boundary places it at once. -/
def admitNew (conversationId : ConversationId) (draft : SubmissionDraft) (now : Nat)
    (modes : QueueModes) (marker : Option EntryId) : TxM SubmissionId := do
  let live ← liveDoc conversationId
  if live.run.isSome then
    refuseIf draft.body.rejectsBusy (.conversationBusy conversationId)
    queueSubmission conversationId draft
  else
    let boundary := prepareBoundary conversationId modes marker
    let items ← inboxDoc conversationId
    if items ≠ [] then
      placeSubmissionQueued boundary draft now
    else
      placeSubmissionNow boundary draft now

/-- A known request returns its submission without writing. -/
def admitSubmission (conversationId : ConversationId) (draft : SubmissionDraft) (now : Nat)
    (modes : QueueModes) (marker : Option EntryId) : TxM SubmissionId := do
  let tx ← get
  match draft.requestId.bind (tx.store.submissionByRequest conversationId) with
  | some existing =>
    if existing.type ≠ draft.body.type then
      throw (.requestType (draft.requestId.getD []) existing.type)
    else
      return existing.id
  | none => admitNew conversationId draft now modes marker

/-- What became of a request to withdraw a submission. -/
inductive AbortResult where
  | aborted | alreadyPlaced | settled | notFound
  deriving DecidableEq

/-- `Submissions.abort`: withdraw a queued submission; placed inputs and settled submissions are
reported. -/
def abortSubmission (id : SubmissionId) (conversationId : Option ConversationId) :
    TxM AbortResult := do
  let tx ← get
  match tx.store.submission id with
  | none => return .notFound
  | some record =>
    if conversationId.any (· ≠ record.conversationId) then
      return .notFound
    else if record.status.isQueued then
      settleSubmission id aborted
      removeInboxItem record.conversationId id
      return .aborted
    else if record.status.isPlaced then
      return .alreadyPlaced
    else
      return .settled

end Harness
