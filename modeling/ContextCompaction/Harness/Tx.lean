import ContextCompaction.Harness.Records
import ContextCompaction.Program.Spec

/-!
# Transactions of a session

A commit runs a callback on a transaction, which stages writes and changes drafts of the documents.
Staged changes of submissions are resolved when the batch is assembled. A callback that throws, or a
batch that cannot be assembled, leaves the store as it is, but for the identities it minted.
-/

namespace Harness

open Js Program

/-- A transaction. `tasks`, `inbox` and `live` are the candidates over what is committed. -/
structure Tx where
  store : Store
  scope : Option TaskId
  nextId : Nat
  conversations : List ConversationId
  entries : List EntryRecord
  created : List SubmissionRecord
  changes : List (SubmissionId × SubmissionChange)
  tasks : List TaskRecord
  inbox : ConversationId → List InboxItem
  live : ConversationId → LiveState

/-- A callback of a commit: it changes the transaction, or throws. -/
abbrev TxM := Prog Tx TxError

/-- The transaction at its start, in the scope of a task or outside any. -/
def begin (store : Store) (scope : Option TaskId) : Tx where
  store
  scope
  nextId := store.nextId
  conversations := []
  entries := []
  created := []
  changes := []
  tasks := store.tasks
  inbox := store.inbox
  live := store.live

/-! ## Table reads -/

/-- A committed submission. -/
def Store.submission (s : Store) (id : SubmissionId) : Option SubmissionRecord :=
  s.submissions.find? (·.id = id)

/-- The committed submission of a conversation with a request ID. -/
def Store.submissionByRequest (s : Store) (conversationId : ConversationId) (requestId : Str) :
    Option SubmissionRecord :=
  s.submissions.find? fun r => r.conversationId = conversationId ∧ r.requestId = some requestId

/-! ## Table writes -/

/-- The next number. -/
def mintId : TxM Nat := do
  let tx ← get
  modify fun tx => { tx with nextId := tx.nextId + 1 }
  return tx.nextId

/-- `requireConversation`: the conversation is committed or created here. -/
def requireConversation (id : ConversationId) : TxM Unit := do
  let tx ← get
  refuseIf (id ∉ tx.conversations ∧ id ∉ tx.store.conversations) (.noConversation id)

/-- A new conversation. -/
def createConversation : TxM ConversationId := do
  let id ← mintId
  modify fun tx => { tx with conversations := tx.conversations ++ [id] }
  return id

/-- The entry that a head stands for; an entry may name itself before it has its number. -/
def Head.resolve (self : EntryId) : Head → EntryId
  | .self => self
  | .entry id => id

/-- A new entry of a conversation. -/
def appendEntry (conversationId : ConversationId) (value : EntryDraft) : TxM EntryRecord := do
  requireConversation conversationId
  let id ← mintId
  let tx ← get
  let entry : EntryRecord :=
    ⟨id, conversationId, value.kind, value.head.map (Head.resolve id), value.fields, tx.scope⟩
  modify fun tx => { tx with entries := tx.entries ++ [entry] }
  return entry

/-- A new task, which is pending. -/
def createTask (kind : TaskKind) (conversationId : ConversationId) : TxM TaskId := do
  requireConversation conversationId
  let id ← mintId
  modify fun tx => { tx with tasks := tx.tasks ++ [⟨id, conversationId, kind, false, .pending⟩] }
  return id

/-- A raw submission record with a fresh identity. -/
def createSubmission (conversationId : ConversationId) (requestId : Option Str)
    (type : SubmissionType) (status : SubmissionStatus) : TxM SubmissionId := do
  requireConversation conversationId
  let id ← mintId
  modify fun tx =>
    { tx with created := tx.created ++ [⟨id, conversationId, requestId, type, status⟩] }
  return id

/-- Stage the end of a submission. -/
def settleSubmission (id : SubmissionId) (settlement : SubmissionSettlement) : TxM Unit :=
  modify fun tx => { tx with changes := tx.changes ++ [(id, .settled settlement)] }

/-- Stage that a submission is in the transcript. -/
def placeSubmission (id : SubmissionId) (entry : EntryId) : TxM Unit :=
  modify fun tx => { tx with changes := tx.changes ++ [(id, .placed entry)] }

/-- Replace one task record. A task that is terminal stays so. -/
def setTask (value : TaskRecord) : TxM Unit := do
  let tx ← get
  refuseIf (¬ ∃ t ∈ tx.tasks, t.id = value.id ∧ ¬ t.state.isTerminal) (.noTask value.id)
  modify fun tx => { tx with tasks := tx.tasks.map fun t => if t.id = value.id then value else t }

/-! ## Documents -/

/-- The inbox of a conversation. -/
def inboxDoc (conversationId : ConversationId) : TxM (List InboxItem) := do
  return (← get).inbox conversationId

/-- Replace the inbox of a conversation. -/
def setInbox (conversationId : ConversationId) (items : List InboxItem) : TxM Unit :=
  modify fun tx => { tx with inbox := Function.update tx.inbox conversationId items }

/-- The live state of a conversation. -/
def liveDoc (conversationId : ConversationId) : TxM LiveState := do
  return (← get).live conversationId

/-- Replace the live state of a conversation. -/
def setLive (conversationId : ConversationId) (live : LiveState) : TxM Unit :=
  modify fun tx => { tx with live := Function.update tx.live conversationId live }

/-! ## Assembly -/

/-- Resolve one staged change against the latest candidate record. -/
def resolve (table : List SubmissionRecord) (staged : SubmissionId × SubmissionChange) :
    Except TxError (List SubmissionRecord) :=
  match table.find? (·.id = staged.1) with
  | none => .error (.noSubmission staged.1)
  | some current => do
    let next ← applySubmissionChange current staged.2
    return table.map fun r => if r.id = staged.1 then next else r

/-- The store behind the commit; a staged change that its submission does not admit makes it fail. -/
def Tx.assemble (tx : Tx) : Except TxError Store := do
  let submissions ← tx.changes.foldlM resolve (tx.store.submissions ++ tx.created)
  return {
    nextId := tx.nextId
    conversations := tx.store.conversations ++ tx.conversations
    entries := tx.store.entries ++ tx.entries
    submissions
    tasks := tx.tasks
    inbox := tx.inbox
    live := tx.live }

/-- One commit, with what the callback returned. -/
def Store.commit {α : Type} (s : Store) (scope : Option TaskId) (callback : TxM α) :
    Except TxError (α × Store) :=
  match exec callback (begin s scope) with
  | (.error e, _) => .error e
  | (.ok a, tx) => tx.assemble.map fun s' => (a, s')

end Harness
