import ContextCompaction.Agent.Transcript
import ContextCompaction.Program.Trace

/-!
# What surrounds the agent loop

The event sink, the message queues, the hooks, the provider stream, the execution of tool calls and
the clock are the host. It answers every question as it likes, by the history of questions and
answers. A hook that is not configured is one that answers nothing. What the conversion of messages
for the provider does is part of the answer of the stream function.
-/

namespace Agent

open Js Program

/-- What is thrown; the loop reads the text of its message. -/
structure Thrown where
  message : Str

/-! ## Answers -/

inductive Queue where
  | steering
  | followUp

/-- `AgentRequestUpdate`: what replaces the context. -/
structure RequestUpdate where
  context : Option AgentContext

/-- `AgentLoopTurnUpdate`. -/
structure TurnUpdate extends RequestUpdate where
  messages : Option (List Message)

inductive TurnDecision where
  | «continue»
  | «end»
  deriving DecidableEq

inductive StreamEvent where
  | start (partialMessage : AssistantMessage)
  /-- A text, thinking or tool call event. -/
  | update (partialMessage : AssistantMessage)
  /-- `done` or `error`. -/
  | final

/-- The events of a stream, how the iteration over them ends, and what `result` gives. -/
structure Response where
  events : List StreamEvent
  ended : Except Thrown Unit
  result : Except Thrown AssistantMessage

/-- The results of the calls of one message. -/
structure ToolCallBatch where
  messages : List ToolResultMessage
  terminate : Bool

/-! ## Events -/

inductive AgentEvent where
  | agentStart
  | turnStart
  | messageStart (message : Message)
  | messageUpdate (message : AssistantMessage)
  | messageEnd (message : Message)
  | toolExecutionStart (toolCall : ToolCall)
  | toolExecutionEnd (result : ToolResultMessage)
  | turnEnd (message : AssistantMessage) (toolResults : List ToolResultMessage)
  | agentEnd (messages : List Message)

/-- A question of the loop, with its answer. -/
inductive Event where
  | emit (event : AgentEvent) (answer : Except Thrown Unit)
  | poll (queue : Queue) (answer : Except Thrown (List Message))
  | prepareNextTurn (answer : Except Thrown (Option TurnUpdate))
  | prepareRequest (context : AgentContext) (answer : Except Thrown (Option RequestUpdate))
  | stream (context : AgentContext) (answer : Except Thrown Response)
  | executeToolCalls (message : AssistantMessage) (answer : Except Thrown ToolCallBatch)
  | finishTurn (answer : Except Thrown (Option TurnDecision))
  | clock (now : Nat)

structure Host where
  emit : List Event → AgentEvent → Except Thrown Unit
  poll : List Event → Queue → Except Thrown (List Message)
  prepareNextTurn : List Event → Except Thrown (Option TurnUpdate)
  prepareRequest : List Event → AgentContext → Except Thrown (Option RequestUpdate)
  stream : List Event → AgentContext → Except Thrown Response
  executeToolCalls : List Event → AssistantMessage → Except Thrown ToolCallBatch
  finishTurn : List Event → Except Thrown (Option TurnDecision)
  now : List Event → Nat

/-! ## Questions -/

/-- Why a run does not reach its end. -/
inductive Halt where
  | thrown (error : Thrown)
  | refused (message : Str)
  /-- The model has run out of steps. -/
  | outOfFuel

abbrev Loop (α : Type) := Prog (List Event) Halt α

/-- A question whose failure ends the run. -/
def await {α : Type} (answer : List Event → Except Thrown α) (event : Except Thrown α → Event) :
    Loop α := do
  match ← query answer event with
  | .ok a => pure a
  | .error e => throw (.thrown e)

/-- What is thrown elsewhere ends the run. -/
def settle {α : Type} : Except Thrown α → Loop α
  | .ok a => pure a
  | .error e => throw (.thrown e)

variable (host : Host)

def emit (event : AgentEvent) : Loop Unit := await (host.emit · event) (.emit event)

/-- `(await config.getSteeringMessages?.()) || []`, and the same for follow-up messages. -/
def poll (queue : Queue) : Loop (List Message) := await (host.poll · queue) (.poll queue)

/-- `message_start` and `message_end`. -/
def announce (message : Message) : Loop Unit := do
  emit host (.messageStart message)
  emit host (.messageEnd message)

def announceAll : List Message → Loop Unit
  | [] => pure ()
  | message :: rest => do
    announce host message
    announceAll rest

end Agent
