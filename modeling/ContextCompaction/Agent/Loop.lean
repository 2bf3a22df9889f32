import ContextCompaction.Agent.Declarations
import ContextCompaction.Agent.Host

/-!
# The agent loop

* `runAgentLoop`, `runAgentLoopContinue`: a run from prompts, and a run that goes on from a context.
* `turn`: one turn, from the messages to be delivered to the decision whether another one follows.
-/

namespace Agent

open Js Program

/-- What the loop carries from one turn to the next. -/
structure LoopState where
  context : AgentContext
  newMessages : List Message
  pendingMessages : List Message
  /-- A turn has been completed. -/
  turned : Bool
  hasMoreToolCalls : Bool
  explicitContinuation : Bool

/-- `context.messages.push(...messages)`. -/
def AgentContext.push (context : AgentContext) (messages : List Message) : AgentContext :=
  { context with messages := context.messages ++ messages }

/-- `context.messages[context.messages.length - 1] = message`. -/
def AgentContext.replaceLast (context : AgentContext) (message : Message) : AgentContext :=
  { context with messages := context.messages.dropLast ++ [message] }

variable (host : Host)

/-- The final message: in place of the partial one, or behind the others. -/
def finishStream (response : Response) (context : AgentContext) (added : Bool) :
    Loop (AssistantMessage × AgentContext) := do
  let message ← settle response.result
  if added then
    emit host (.messageEnd (.assistant message))
    pure (message, context.replaceLast (.assistant message))
  else
    announce host (.assistant message)
    pure (message, context.push [.assistant message])

/-- The events of a stream from one on. -/
def streamEvents (response : Response) : List StreamEvent → AgentContext → Bool →
    Loop (AssistantMessage × AgentContext)
  | [], context, added => do
    settle response.ended
    finishStream host response context added
  | .start message :: events, context, _ => do
    emit host (.messageStart (.assistant message))
    streamEvents response events (context.push [.assistant message]) true
  | .update message :: events, context, added => do
    if added then
      emit host (.messageUpdate message)
      streamEvents response events (context.replaceLast (.assistant message)) added
    else streamEvents response events context added
  | .final :: _, context, added => finishStream host response context added

def streamAssistantResponse (context : AgentContext) : Loop (AssistantMessage × AgentContext) := do
  let response ← await (host.stream · context) (.stream context)
  streamEvents host response response.events context false

/-- `createErrorToolResult` as a message. -/
def truncatedResult (toolCall : ToolCall) (now : Nat) : ToolResultMessage where
  toolCallId := toolCall.id
  toolName := toolCall.name
  content := [.obj [(lit "type", .str (lit "text")), (lit "text", .str (lit "Tool call \"" ++
    toolCall.name ++ lit "\" was not executed: the response hit the output token limit, so its " ++
      lit "arguments may be truncated. Re-issue the tool call with complete arguments."))]]
  details := some (.obj [])
  usage := none
  isError := true
  durationMs := none
  timestamp := now

def failToolCallsFromTruncatedMessage : List ToolCall → Loop (List ToolResultMessage)
  | [] => pure []
  | toolCall :: rest => do
    emit host (.toolExecutionStart toolCall)
    let now ← query host.now .clock
    let result := truncatedResult toolCall now
    emit host (.toolExecutionEnd result)
    announce host (.toolResult result)
    let results ← failToolCallsFromTruncatedMessage rest
    pure (result :: results)

/-- The results of the calls of a message, and whether the calls want another turn. -/
def runToolCalls (message : AssistantMessage) : Loop (List ToolResultMessage × Bool) :=
  if message.toolCalls.isEmpty then pure ([], false)
  else if message.stopReason = .length then do
    let results ← failToolCallsFromTruncatedMessage host message.toolCalls
    pure (results, true)
  else do
    let batch ← await (host.executeToolCalls · message) (.executeToolCalls message)
    pure (batch.messages, !batch.terminate)

/-- What happens before the messages of a turn: the context, and the messages to be delivered. -/
def beginTurn (s : LoopState) : Loop (AgentContext × List Message) :=
  if s.turned then do
    let update ← await host.prepareNextTurn .prepareNextTurn
    let context := (update.bind (·.context)).getD s.context
    let prepared := (update.bind (·.messages)).getD []
    let pending ← if s.pendingMessages.isEmpty then poll host .steering else pure s.pendingMessages
    emit host .turnStart
    pure (context, prepared ++ pending)
  else pure (s.context, s.pendingMessages)

/-- One turn; `false` ends the run. -/
def turn (s : LoopState) : Loop (LoopState × Bool) := do
  let (context, pending) ← beginTurn host s
  let now ← query host.now .clock
  let delivered := declareToolChanges now context pending
  announceAll host delivered
  let context := context.push delivered
  let update ← await (host.prepareRequest · context) (.prepareRequest context)
  let context := (update.bind (·.context)).getD context
  let (message, context) ← streamAssistantResponse host context
  let newMessages := s.newMessages ++ delivered ++ [.assistant message]
  if message.Failed then
    let _ ← await host.finishTurn .finishTurn
    emit host (.turnEnd message [])
    emit host (.agentEnd newMessages)
    return (⟨context, newMessages, [], true, false, s.explicitContinuation⟩, false)
  let (results, hasMoreToolCalls) ← runToolCalls host message
  let context := context.push (results.map .toolResult)
  let newMessages := newMessages ++ results.map .toolResult
  let decision ← await host.finishTurn .finishTurn
  emit host (.turnEnd message results)
  if decision = some .end then
    emit host (.agentEnd newMessages)
    return (⟨context, newMessages, [], true, hasMoreToolCalls, s.explicitContinuation⟩, false)
  let steering ← poll host .steering
  let explicitContinuation :=
    decision == some .continue && !(hasMoreToolCalls || !steering.isEmpty)
  return (⟨context, newMessages, steering, true, hasMoreToolCalls, explicitContinuation⟩, true)

/-- Turns as long as something is to be done, then the follow-up messages. -/
def turns : Nat → LoopState → Loop LoopState
  | 0, _ => throw .outOfFuel
  | n + 1, s =>
    if s.hasMoreToolCalls || !s.pendingMessages.isEmpty then do
      let (s, more) ← turn host s
      if more then turns n s else pure s
    else do
      let followUp ← poll host .followUp
      if !followUp.isEmpty then
        turns n { s with
          explicitContinuation := false
          pendingMessages := followUp
          hasMoreToolCalls := true }
      else if s.explicitContinuation then
        turns n { s with explicitContinuation := false, hasMoreToolCalls := true }
      else
        emit host (.agentEnd s.newMessages)
        pure s

def runLoop (n : Nat) (context : AgentContext) (newMessages : List Message) : Loop LoopState := do
  let pending ← poll host .steering
  turns host n
    { context := context
      newMessages := newMessages
      pendingMessages := pending
      turned := false
      hasMoreToolCalls := true
      explicitContinuation := false }

def runAgentLoop (n : Nat) (prompts : List Message) (context : AgentContext) :
    Loop (List Message) := do
  let now ← query host.now .clock
  let initialMessages := declareToolChanges now context prompts
  emit host .agentStart
  emit host .turnStart
  announceAll host initialMessages
  let s ← runLoop host n (context.push initialMessages) initialMessages
  pure s.newMessages

def runAgentLoopContinue (n : Nat) (context : AgentContext) : Loop (List Message) := do
  if context.messages.isEmpty then throw (.refused (lit "Cannot continue: no messages in context"))
  if context.messages.getLast?.any Message.isAssistant then
    throw (.refused (lit "Cannot continue from message role: assistant"))
  emit host .agentStart
  emit host .turnStart
  let s ← runLoop host n context []
  pure s.newMessages

end Agent
