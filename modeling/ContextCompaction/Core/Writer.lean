import ContextCompaction.Core.WriterPrompts
import ContextCompaction.Program.Spec

/-!
# The writer

`writeMemory` as a program over what it has done so far. The host (its hooks, its transport, its
progress observer and its abort signal) answers every call as it likes, by the whole history of
calls and answers. The time a call takes and the payload that the host shows are left out.

* `complete`: one provider call, reserved before it and settled after it.
* `accept`: the checks of an answer, and the one repair.
* `writeWithSession`, `writeWithFixedWriter`: which calls are made.
-/

namespace Compaction

open Js Program

/-! ## The host -/

/-- What the host throws; the writer does not read it. -/
structure HostError where
  message : Str
  deriving DecidableEq

/-- What is about to be sent. -/
structure WriterDispatchRequest where
  callIndex : Nat
  phase : WriterPhase
  model : Str
  writerEffort : Str
  deriving DecidableEq

/-- How a call ended, as its settlement reports it. -/
inductive CallOutcome where
  | success
  | failed
  | cancelled
  deriving DecidableEq

/-- How a recorded call ended. -/
structure WriterDispatchResult where
  callIndex : Nat
  callId : Str
  phase : WriterPhase
  dispatched : Bool
  outcome : CallOutcome
  usageComplete : Bool
  usage : Option WriterUsage
  deriving DecidableEq

/-- The host's summary of a call's usage. -/
structure UsageSummary where
  input : Number
  output : Number
  cacheRead : Number
  cacheWrite : Number
  reasoning : Option Number
  totalTokens : Number
  cost : Number
  deriving DecidableEq

/-- One writer call as status reports it. -/
structure WriterCallDetail where
  phase : WriterPhase
  effort : Str
  stopReason : Option Str
  envelope : Option NoteEnvelope
  noteBytes : Option Nat
  usage : Option UsageSummary
  deriving DecidableEq

/-- What a repair call is asked to mend. -/
inductive RepairKind where
  | size
  | quotation
  | sources
  deriving DecidableEq

/-- What the host is told between calls: what they have cost so far, call by call. -/
structure WriterProgress where
  writerModel : Str
  writerEffort : Str
  writerCalls : Nat
  usageReports : Nat
  usage : Option WriterUsage
  repairUsed : Bool
  writerCallDetails : List WriterCallDetail
  quotations : Option QuoteCounts
  scope : Option ScopeCounts
  schema : Option SchemaCounts
  repairKind : Option RepairKind
  quotationRepair : Option QuoteRepairOutcome
  toolCallResponses : Nat
  toolCallDeclined : Bool
  deriving DecidableEq

/-- A call of the host, and its answer. -/
inductive WriterEvent where
  | signal (aborted : Bool)
  | progress (progress : WriterProgress) (answer : Except HostError Unit)
  /-- `beforeDispatch`; the answer is `none` where it is not a string. -/
  | reserve (call : WriterDispatchRequest) (answer : Except HostError (Option Str))
  /-- `afterDispatch`. -/
  | settle (call : WriterDispatchResult) (answer : Except HostError Unit)
  | prefixTokens (answer : Except HostError Nat)
  | request (request : WriterRequest) (answer : Except HostError Unit)
  | declineToolCalls (request : HostRequest) (response : WriterResponse) (answer : Except HostError Unit)
  | dispatch (request : HostRequest) (answer : Except HostError Unit)
  | result (answer : Except HostError WriterResponse)
  | summarizeUsage (usage : WriterUsage) (answer : Except HostError UsageSummary)

/-- The host: each answer may depend on all that has happened. -/
structure WriterHost where
  signal : List WriterEvent → Bool
  onProgress : List WriterEvent → WriterProgress → Except HostError Unit
  beforeDispatch : List WriterEvent → WriterDispatchRequest → Except HostError (Option Str)
  afterDispatch : List WriterEvent → WriterDispatchResult → Except HostError Unit
  openTransport : Except HostError WriterTransport
  prefixTokens : List WriterEvent → Except HostError Nat
  request : List WriterEvent → WriterRequest → Except HostError Unit
  declineToolCalls : List WriterEvent → HostRequest → WriterResponse → Except HostError Unit
  dispatch : List WriterEvent → HostRequest → Except HostError Unit
  result : List WriterEvent → Except HostError WriterResponse
  summarizeUsage : List WriterEvent → WriterUsage → Except HostError UsageSummary

/-! ## The state -/

/-- What a writer throws: a refusal of the core, with the diagnosis that a repair needs, or what the host
has thrown. -/
inductive WriterError where
  | failure (f : Failure)
  | host (e : HostError)
  /-- `options.signal.reason`. -/
  | aborted
  | schemaRefusal (message : Str) (diagnosis : SchemaDiagnosis)
  | quotationRefusal (message : Str) (note : MemoryNote) (diagnosis : QuoteDiagnosis)
  /-- A settlement that failed, on top of an earlier failure. -/
  | settlement (original : WriterError) (error : HostError)

/-- The variables of `writeMemory`, and the calls of the host so far. -/
structure WriterState where
  log : List WriterEvent
  usages : List WriterUsage
  writerCalls : Nat
  repairUsed : Bool
  phase : WriterPhase
  calls : List WriterCallDetail
  quotations : Option QuoteCounts
  scope : Option ScopeCounts
  schema : Option SchemaCounts
  repairKind : Option RepairKind
  quotationRepair : Option QuoteRepairOutcome
  toolCallResponses : Nat
  toolCallDeclined : Bool

/-- Before the first call. -/
def WriterState.start : WriterState where
  log := []
  usages := []
  writerCalls := 0
  repairUsed := false
  phase := .generate
  calls := []
  quotations := none
  scope := none
  schema := none
  repairKind := none
  quotationRepair := none
  toolCallResponses := 0
  toolCallDeclined := false

/-- What a run of the writer is given: the platform, the host, the options and the transport. -/
structure WriterContext where
  platform : Platform
  host : WriterHost
  options : BoundedOptions
  transport : WriterTransport

/-- The part of a writer between two values: it talks to the host, changes the state, or throws. -/
abbrev Writer (α : Type) := Prog WriterState WriterError α

/-- A call of the host. -/
def ask {α : Type} (answer : List WriterEvent → Except HostError α)
    (event : Except HostError α → WriterEvent) : Writer α := fun s =>
  ((answer s.log).mapError .host, { s with log := s.log ++ [event (answer s.log)] })

/-- A pure computation of the core. -/
def core {α : Type} (r : Except Failure α) : Writer α := fromExcept (r.mapError .failure)

/-- `new Error(message)`. -/
def refusal (message : String) : WriterError := .failure (.ofText message)

variable (w : WriterContext)

/-- `options.signal.aborted`. -/
def aborted : Writer Bool := fun s =>
  (.ok (w.host.signal s.log), { s with log := s.log ++ [.signal (w.host.signal s.log)] })

/-- `options.signal?.throwIfAborted()`. -/
def throwIfAborted : Writer Unit := do
  refuseIf (← aborted w) .aborted

/-- The report of the calls so far. -/
def WriterState.progress (s : WriterState) : WriterProgress where
  writerModel := w.transport.model
  writerEffort := w.transport.effort
  writerCalls := s.writerCalls
  usageReports := s.usages.length
  usage := if s.usages = [] then none else some (sumMemoryUsage s.usages)
  repairUsed := s.repairUsed
  writerCallDetails := s.calls
  quotations := s.quotations
  scope := s.scope
  schema := s.schema
  repairKind := s.repairKind
  quotationRepair := s.quotationRepair
  toolCallResponses := s.toolCallResponses
  toolCallDeclined := s.toolCallDeclined

/-- Tell the host the progress, if it asked for it. -/
def report : Writer Unit := do
  let s ← get
  if w.options.onProgress then
    ask (w.host.onProgress · (s.progress w)) (.progress (s.progress w))
  else pure ()

/-! ## One provider call -/

/-- How the request went: not sent, sent without a response, or answered. -/
inductive CallAttempt where
  | unsent (error : WriterError)
  | lost (error : WriterError)
  | answered (response : WriterResponse) (failure : Option WriterError)

/-- The request has left the writer. -/
def CallAttempt.dispatched : CallAttempt → Bool
  | .unsent _ => false
  | _ => true

/-- The answer, if one arrived. -/
def CallAttempt.response : CallAttempt → Option WriterResponse
  | .answered response _ => some response
  | _ => none

/-- Why the call is not used. -/
def CallAttempt.failure : CallAttempt → Option WriterError
  | .unsent error | .lost error => some error
  | .answered _ failure => failure

/-- The call is reserved; without hooks there is no ID. -/
def reserve (call : WriterDispatchRequest) : Writer (Option Str) :=
  if w.options.callHooks then do
    match ← ask (w.host.beforeDispatch · call) (.reserve call) with
    | some (u :: id) => pure (some (u :: id))
    | _ => throw (refusal "CONTEXT_WRITER_ACCOUNTING: dispatch reservation did not return an identity")
  else pure none

/-- What precedes the dispatch. Without hooks the observer is told before it. -/
def beginCall (phase : WriterPhase) (effort : Str) : Writer Unit := do
  throwIfAborted w
  modify fun s => { s with
    writerCalls := s.writerCalls + 1
    calls := s.calls ++ [⟨phase, effort, none, none, none, none⟩] }
  if w.options.callHooks then pure () else report w

/-- The last call's details. -/
def modifyLastCall (f : WriterCallDetail → WriterCallDetail) : Writer Unit :=
  modify fun s => { s with calls := s.calls.modify (s.calls.length - 1) f }

/-- What is kept of a response. -/
def recordResponse (response : WriterResponse) : Writer Unit := do
  modifyLastCall fun call => { call with stopReason := some response.stopReason }
  modify fun s =>
    { s with toolCallResponses := if response.callsTool then s.toolCallResponses + 1 else s.toolCallResponses }
  match reportedUsage response with
  | none => pure ()
  | some usage => do
    modify fun s => { s with usages := s.usages ++ [usage] }
    let summary ← ask (w.host.summarizeUsage · usage) (.summarizeUsage usage)
    modifyLastCall fun call => { call with usage := some summary }

/-- The error of a result, if it has one. -/
def errorOf {α : Type} : Except WriterError α → Option WriterError
  | .ok _ => none
  | .error e => some e

/-- What follows the dispatch. With hooks, an observer that fails does not keep the response from being
awaited. -/
def receive : Writer CallAttempt := do
  let observed ← attempt (if w.options.callHooks then report w else pure ())
  match ← attempt (ask w.host.result .result) with
  | .error e => pure (.lost e)
  | .ok response =>
    match ← attempt (recordResponse w response) with
    | .error e => pure (.answered response (some e))
    | .ok () => pure (.answered response (errorOf observed))

/-- The request is sent and its response awaited. -/
def transmit (request : HostRequest) (phase : WriterPhase) (effort : Str) : Writer CallAttempt := do
  match ← attempt (beginCall w phase effort) with
  | .error e => pure (.unsent e)
  | .ok () =>
    match ← attempt (ask (w.host.dispatch · request) (.dispatch request)) with
    | .error e => pure (.lost e)
    | .ok () => receive w

/-- The outcome of a call: cancelled by the signal or the provider, successful if it stopped by itself
without a tool call. -/
def callOutcome (aborted : Bool) (response : Option WriterResponse) : CallOutcome :=
  if aborted || response.any (fun r => r.stopReason = lit "aborted") then .cancelled
  else if response.any (fun r => decide (r.stopReason = lit "stop") && !r.callsTool) then .success
  else .failed

/-- `CONTEXT_WRITER_FAILED` with what the provider says. -/
def writerFailed (response : WriterResponse) : WriterError :=
  .failure (.error (lit "CONTEXT_WRITER_FAILED: " ++ response.errorMessage.getD response.stopReason))

/-- What a failed settlement is reported on top of. -/
def settlementCause (outcome : CallOutcome) (a : CallAttempt) : Writer (Option WriterError) :=
  match a.failure, outcome, a.response with
  | some original, _, _ => pure (some original)
  | none, .cancelled, _ => do
    let reason ← aborted w
    pure (some (if reason then .aborted else refusal "CONTEXT_WRITER_FAILED: aborted"))
  | none, .failed, some response => pure (some (writerFailed response))
  | none, _, _ => pure none

/-- What the host is told when a call has ended. -/
def settlementOf (call : WriterDispatchRequest) (callId : Str) (a : CallAttempt) (outcome : CallOutcome) :
    WriterDispatchResult where
  callIndex := call.callIndex
  callId := callId
  phase := call.phase
  dispatched := a.dispatched
  outcome := outcome
  usageComplete := (a.response.bind reportedUsage).isSome &&
    !a.response.any fun r => r.stopReason = lit "error" || r.stopReason = lit "aborted"
  usage := a.response.bind reportedUsage

/-- The call is settled, whatever became of it; the result is its failure. -/
def settle (call : WriterDispatchRequest) (callId : Str) (a : CallAttempt) : Writer (Option WriterError) := do
  let outcome := callOutcome (← aborted w) a.response
  let settlement := settlementOf call callId a outcome
  match ← attempt (ask (w.host.afterDispatch · settlement) (.settle settlement)) with
  | .ok () => pure a.failure
  | .error error =>
    match ← settlementCause w outcome a, error with
    | some original, .host e => pure (some (.settlement original e))
    | _, error => pure (some error)

/-- The first failure counts; without one there is a response. -/
def finishCall (failure : Option WriterError) (observed : Except WriterError Unit) (a : CallAttempt) :
    Except WriterError WriterResponse :=
  match failure, observed, a with
  | some e, _, _ => .error e
  | none, .error e, _ => .error e
  | none, .ok (), .answered response _ => .ok response
  | none, .ok (), .unsent e | none, .ok (), .lost e => .error e

/-- A call without an ID has no settlement. -/
def settleReserved (call : WriterDispatchRequest) (a : CallAttempt) : Option Str → Writer (Option WriterError)
  | some callId => settle w call callId a
  | none => pure a.failure

/-- What follows a request: its settlement, the observer, and the response or the first failure. -/
def conclude (call : WriterDispatchRequest) (callId : Option Str) (a : CallAttempt) :
    Writer WriterResponse := do
  let failure ← settleReserved w call a callId
  let observed ← attempt (report w)
  fromExcept (finishCall failure observed a)

/-- One call: it is reserved, sent, accounted and settled. -/
def complete (request : HostRequest) (effort : Str) : Writer WriterResponse := do
  throwIfAborted w
  let s ← get
  let call : WriterDispatchRequest := ⟨s.writerCalls + 1, s.phase, w.transport.model, effort⟩
  let callId ← reserve w call
  let a ← transmit w request call.phase effort
  conclude w call callId a

/-! ## The checks of an answer -/

/-- The opening and the closing fence of a code block are removed. -/
def stripFences (text : Str) : Str :=
  let fence := lit "```"
  let body :=
    if fence.isPrefixOf text then
      let rest := text.drop 3
      (if (lit "json").isPrefixOf rest then rest.drop 4 else rest).dropWhile isSpace
    else text
  if fence.isSuffixOf body then
    ((body.take (body.length - 3)).reverse.dropWhile isSpace).reverse
  else body

/-- The text of a response. -/
def responseText (response : WriterResponse) : Str :=
  join "\n" (response.content.filterMap fun block => match block with
    | .text text => some text
    | _ => none)

/-- The JSON of an answer, between fences or not. -/
def parseNote (response : WriterResponse) : Except WriterError Json :=
  if response.stopReason ≠ lit "stop" ∨ response.callsTool then .error (writerFailed response)
  else
    match parse (stripFences (trim (responseText response))) with
    | some value => .ok value
    | none => .error (refusal "CONTEXT_NOTE_INVALID: writer did not return valid JSON")

/-- Whether the message of an error opens with a code. -/
def Failure.hasCode (f : Failure) (code : String) : Bool :=
  match f with
  | .error message | .typeError message => (lit code).isPrefixOf message
  | .noteBudget _ _ => (lit code).isPrefixOf (lit "CONTEXT_NOTE_BUDGET")

/-- The validator decides; a failure is classified for status and the message, never accepted. -/
def validateCandidate (value : Json) (repaired : Bool) : Writer MemoryNote :=
  match validateNoteContent w.platform.len value w.options.branch with
  | .ok note => pure note
  | .error f =>
    if f.hasCode "CONTEXT_NOTE_INVALID" then do
      let diagnosis := diagnoseSchema w.platform.len value
      let counts := schemaCounts diagnosis
      modify fun s => { s with schema := s.schema.or (some counts) }
      report w
      throw (.schemaRefusal (schemaFailureMessage counts) diagnosis)
    else if f.hasCode "CONTEXT_NOTE_SCOPE" then do
      modify fun s => { s with scope := s.scope.or (some (diagnoseScope (MemoryNote.ofJson value) w.options.branch)) }
      report w
      throw (.failure f)
    else if f.hasCode "CONTEXT_NOTE_QUOTE" then do
      let note := MemoryNote.ofJson value
      let diagnosis := diagnoseQuotes w.platform.nfkc w.options.branch note
      let counts := quoteCounts diagnosis.failures
      modify fun s => { s with quotations := s.quotations.or (some counts) }
      report w
      throw (.quotationRefusal (quoteFailureMessage counts repaired) note diagnosis)
    else throw (.failure f)

/-- A note answer loses a schema envelope; a repair's answer is read as sent. -/
def parseCandidate (response : WriterResponse) (note : Bool) : Writer Json := do
  throwIfAborted w
  let parsed ← fromExcept (parseNote response)
  let (value, envelope) := if note then removeNoteEnvelope parsed else (parsed, none)
  modifyLastCall fun call =>
    { call with envelope := envelope.or call.envelope, noteBytes := some (noteBytes value) }
  report w
  pure value

/-- `note.nextSteps.some((step) => step.text.trim())`. -/
def hasNextStep (note : MemoryNote) : Bool := (note.facts .nextSteps).any fun step => trim step.text ≠ []

/-- An unfinished turn needs a next step. -/
def requireNextStep (note : MemoryNote) : Writer Unit :=
  refuseIf (w.options.activeRequests ≠ [] ∧ hasNextStep note = false)
    (refusal "CONTEXT_CONTINUATION_MISSING: an unfinished turn requires an explicit next step or final reporting step")

/-- A note that the core accepts, each fact on one line, with a next step where one is due. -/
def checkCandidate (value : Json) (repaired : Bool) : Writer MemoryNote := do
  let note := oneLineNote (← validateCandidate w value repaired)
  requireNextStep w note
  pure note

/-- The note of an answer, checked. -/
def readCandidate (response : WriterResponse) : Writer MemoryNote := do
  checkCandidate w (← parseCandidate w response true) false

/-! ## The one repair -/

/-- `try { .. } finally { phase = "generate"; }`. -/
def finallyGenerate {α : Type} (m : Writer α) : Writer α := do
  let r ← attempt m
  modify fun s => { s with phase := .generate }
  fromExcept r

/-- The host's own request for a contract request. -/
def buildRequest (request : WriterRequest) : Writer HostRequest := do
  ask (w.host.request · request) (.request request)
  pure (.built request)

/-- The repair is spent. -/
def spendRepair (kind : RepairKind) : Writer Unit :=
  modify fun s => { s with repairUsed := true, repairKind := some kind, phase := .repair }

/-- What a repair's request may use of a window. -/
def repairFits (rules prompt : Str) (maxTokens : Nat) : Bool :=
  decide (textTokens rules + textTokens prompt + maxTokens ≤ min w.transport.contextWindow 64000)

/-- Whether the repair may still be spent. -/
def repairAllowed : Writer Bool := do
  let s ← get
  pure (w.options.noteRepair && !s.repairUsed)

/-- One request, whose answer is read as sent; one that does not fit leaves the refusal as it was. -/
def requestRepair (kind : RepairKind) (rules prompt : Str) (failure : WriterError) : Writer Json := do
  let maxTokens := outputBudget w.transport.maxOutputTokens w.options.noteBudget
  refuseIf (repairFits w rules prompt maxTokens = false) failure
  throwIfAborted w
  spendRepair kind
  finallyGenerate do
    let request ← buildRequest w (.repair rules prompt (lit "off") maxTokens)
    parseCandidate w (← complete w request (lit "off")) false

/-- One call that mends the quotations that failed; what the answer breaks is refused. -/
def repairQuotations (message : Str) (note : MemoryNote) (diagnosis : QuoteDiagnosis) :
    Writer MemoryNote := do
  let failure := WriterError.quotationRefusal message note diagnosis
  refuseIf ((← repairAllowed w) = false ∨ quoteRepairEligible diagnosis = false) failure
  let prompt := quoteRepairPrompt w.platform w.options note diagnosis.failures
  let value ← requestRepair w .quotation (QUOTE_REPAIR_RULES w.platform) prompt failure
  let (repaired, outcome) ← core (applyQuoteRepair w.platform.len note diagnosis.failures value)
  modify fun s => { s with quotationRepair := some outcome }
  report w
  checkCandidate w repaired.toJson true

/-- One call that adds the sources of facts that cite none. -/
def repairSources (message : Str) (diagnosis : SchemaDiagnosis) : Writer MemoryNote := do
  let failure := WriterError.schemaRefusal message diagnosis
  refuseIf ((← repairAllowed w) = false) failure
  match sourcesRepairEligible diagnosis with
  | none => throw failure
  | some note =>
    let prompt := sourcesRepairPrompt w.options note diagnosis.uncited
    let value ← requestRepair w .sources (SOURCES_REPAIR_RULES w.platform) prompt failure
    let repaired ← core (applySourcesRepair w.platform.len note diagnosis.uncited value)
    checkCandidate w repaired.toJson false

/-- A refused candidate may be repaired. -/
def repairRefused : WriterError → Writer MemoryNote
  | .schemaRefusal message diagnosis => repairSources w message diagnosis
  | .quotationRefusal message note diagnosis => repairQuotations w message note diagnosis
  | error => throw error

/-- Repair may consolidate prose, not erase evidence anchors, exact rulings or an occupied section. -/
def repairPreserved (before after : MemoryNote) : Bool :=
  let sources := after.allFacts.flatMap NoteFact.sources
  let supersedes := after.allFacts.flatMap fun item => item.supersedes.getD []
  let quotes := after.allFacts.filterMap NoteFact.quote
  (before.allFacts.all fun item =>
    (item.sources.all fun id => decide (id ∈ sources)) &&
      ((item.supersedes.getD []).all fun id => decide (id ∈ supersedes)) &&
      (item.quote.all fun quote => quote = [] || decide (quote ∈ quotes))) &&
    (noteSections.all fun s => (before.facts s).isEmpty || !(after.facts s).isEmpty) &&
    (before.gaps.isEmpty || !after.gaps.isEmpty)

/-- A shorter note must keep anchors, quotations and occupied sections. -/
def assertRepairPreserved (before after : MemoryNote) : Except Failure Unit :=
  if repairPreserved before after then .ok ()
  else .error (.ofText "CONTEXT_NOTE_REPAIR_LOSS: size repair lost evidence anchors, exact quotations or an occupied section; no checkpoint committed")

/-- The size repair: the whole note, shortened. -/
def repairSize (candidate : MemoryNote) : Writer MemoryNote := do
  let maxTokens := outputBudget w.transport.maxOutputTokens w.options.noteBudget
  let systemPrompt := sizeRepairSystemPrompt w.platform w.options
  let prompt := sizeRepairPrompt w.options candidate
  refuseIf (repairFits w systemPrompt prompt maxTokens = false)
    (refusal "CONTEXT_WRITER_CAPACITY: size-repair request cannot fit its bounded window; no checkpoint committed")
  throwIfAborted w
  spendRepair .size
  finallyGenerate do
    let request ← buildRequest w (.repair systemPrompt prompt w.transport.effort maxTokens)
    let repaired ← readCandidate w (← complete w request w.transport.effort)
    let _ ← core (validateNote w.platform.len repaired.toJson w.options.branch w.options.noteBudget)
    core (assertRepairPreserved candidate repaired)
    pure repaired

/-- The candidate, or what a repair makes of it. -/
def checkOrRepair (value : Json) : Writer MemoryNote := do
  match ← attempt (checkCandidate w value false) with
  | .ok candidate => pure candidate
  | .error error => repairRefused w error

/-- The note of an answer: repaired if it may be, and made shorter if it exceeds its budget. -/
def accept (response : WriterResponse) : Writer MemoryNote := do
  let value ← parseCandidate w response true
  let candidate ← checkOrRepair w value
  let bytes := noteBytes candidate.toJson
  if bytes ≤ w.options.noteBudget * 3 then pure candidate
  else do
    refuseIf ((← repairAllowed w) = false) (.failure (.noteBudget bytes w.options.noteBudget))
    repairSize w candidate

/-! ## The writers -/

/-- At most one tool call is declined, and the same request continued. -/
def declineToolCall (request : HostRequest) (effort : Str) (response : WriterResponse) :
    Writer WriterResponse := do
  let s ← get
  if !response.callsTool || decide (response.stopReason ≠ lit "toolUse") || !w.options.noteRepair ||
      s.toolCallDeclined then
    pure response
  else do
    throwIfAborted w
    modify fun s => { s with toolCallDeclined := true }
    ask (w.host.declineToolCalls · request response) (.declineToolCalls request response)
    complete w (.declined request response) effort

/-- The tokens that a chunk may use. -/
def chunkBudget : Int :=
  min 24000 ((w.transport.contextWindow : Int) - outputBudget w.transport.maxOutputTokens w.options.noteBudget -
    textTokens (fixedSystemPrompt w.platform w.options) - w.options.noteBudget * 3 - 2000)

/-- The note after one more chunk. -/
def writeChunk (note : Option MemoryNote) (chunkCount : Nat) (chunk : List SourcePart) :
    Writer MemoryNote := do
  throwIfAborted w
  let maxTokens := outputBudget w.transport.maxOutputTokens w.options.noteBudget
  let systemPrompt := fixedSystemPrompt w.platform w.options
  let prompt := chunkPrompt w.options note chunkCount chunk
  refuseIf (w.transport.contextWindow < textTokens prompt + textTokens systemPrompt + maxTokens)
    (refusal "CONTEXT_WRITER_CAPACITY: chunk request exceeds the fixed writer's context window")
  let request ← buildRequest w (.chunk systemPrompt prompt w.transport.effort maxTokens)
  let response ← complete w request w.transport.effort
  throwIfAborted w
  accept w response

/-- The chunks, one after the other, over the note so far. -/
def writeChunks : Option MemoryNote → Nat → List (List SourcePart) → Writer (Option MemoryNote × Nat)
  | note, chunkCount, [] => pure (note, chunkCount)
  | note, chunkCount, chunk :: chunks => do
    let note ← writeChunk w note chunkCount chunk
    writeChunks (some note) (chunkCount + 1) chunks

/-- The chunks of a fixed writer. -/
def fixedChunks : List (List SourcePart) := sourceChunks w.options.uncovered (chunkBudget w).toNat

/-- The fixed writer: it reads the evidence chunk by chunk, each with the note so far. -/
def writeWithFixedWriter : Writer (MemoryNote × Nat) := do
  refuseIf (chunkBudget w < 2048)
    (refusal "CONTEXT_WRITER_CAPACITY: fixed writer cannot fit the required evidence and note")
  match ← writeChunks w w.options.previous 0 (fixedChunks w) with
  | (some note, chunkCount + 1) => pure (note, chunkCount + 1)
  | _ => throw (refusal "CONTEXT_NO_NEW_SOURCE: no original evidence available for this checkpoint")

/-- The first instruction that fits: the quotable block goes first, then the openings. -/
def handover (sources : List SessionRecord) (fixedTokens : Nat) : Option Str :=
  let quotable := quotableOriginals sources w.options.activeRequests w.options.noteBudget
  ([(quotable, 80), ([], 80), ([], 40), ([], 0)].map fun (block, head) =>
    handoverInstruction w.platform w.options sources head block).find? fun instruction =>
      decide (fixedTokens + textTokens instruction ≤ w.transport.contextWindow)

/-- The session writer: it reads the evidence in one call behind the provider's context. -/
def writeWithSession : Writer (MemoryNote × Nat) := do
  let maxTokens := outputBudget w.transport.maxOutputTokens w.options.noteBudget
  refuseIf (w.transport.estimatesPrefix = false)
    (refusal "CONTEXT_WRITER_UNAVAILABLE: the session writer needs the current provider context")
  let sources := readableSources w.options.toWriteMemoryOptions
  refuseIf (sources = [])
    (refusal "CONTEXT_NO_NEW_SOURCE: no original evidence available for this checkpoint")
  let estimate ← ask w.host.prefixTokens .prefixTokens
  match handover w sources (estimate + maxTokens) with
  | none => throw (refusal "CONTEXT_WRITER_CAPACITY: the session context leaves no room for the handover request")
  | some instruction => do
    throwIfAborted w
    let request ← buildRequest w (.handover instruction w.transport.effort maxTokens)
    let first ← complete w request w.transport.effort
    let response ← declineToolCall w request w.transport.effort first
    throwIfAborted w
    let note ← accept w response
    pure (note, 1)

/-- The note, and what it cost. -/
structure WriteMemoryResult where
  note : MemoryNote
  usage : WriterUsage
  chunkCount : Nat
  writerModel : Str
  writerEffort : Str

/-- The writer of the transport's role. -/
def writeNote : Writer (MemoryNote × Nat) :=
  match w.transport.role with
  | .session => writeWithSession w
  | .fixed => writeWithFixedWriter w

/-- The run once the transport is open. -/
def writeWith : Writer WriteMemoryResult := do
  let (note, chunkCount) ← writeNote w
  requireNextStep w note
  let s ← get
  pure ⟨note, sumMemoryUsage s.usages, chunkCount, w.transport.model, w.transport.effort⟩

/-- What a run comes to, and what it called. -/
structure WriterRun where
  result : Except WriterError WriteMemoryResult
  log : List WriterEvent

/-- The budgets are checked before the transport is opened. -/
def writeMemory (platform : Platform) (host : WriterHost) (options : WriteMemoryOptions) : WriterRun :=
  match boundOptions options with
  | .error f => ⟨.error (.failure f), []⟩
  | .ok bounded =>
    match host.openTransport with
    | .error e => ⟨.error (.host e), []⟩
    | .ok transport =>
      let r := exec (writeWith ⟨platform, host, bounded, transport⟩) .start
      ⟨r.1, r.2.log⟩

end Compaction
