import ContextCompaction.Js.JsonParse

/-!
# The transcript of the agent

Messages, the tools that the runtime can execute, and the tools that the system messages of a
transcript declare. A message of a role the loop does not look into is its JSON value.

* `currentTools`: the tools that a transcript declares.
* `toolStateChanges`: what has to be declared for the executable tools to be the declared ones.
* `declareToolChanges`: pending messages that declare it.
-/

namespace Agent

open Js

/-! ## Tools -/

/-- What the model is told of a tool: its name, its text, the schema of its arguments, and whether a
provider may constrain sampling to that schema. -/
structure Tool where
  name : Str
  description : Str
  parameters : Json
  constrainedSampling : Option Json

/-- Whether the calls of a turn with this tool run one after the other. -/
inductive ExecutionMode where
  | sequential
  | parallel
  deriving DecidableEq

/-- A tool that the runtime can execute. -/
structure AgentTool extends Tool where
  executionMode : Option ExecutionMode

/-- `toToolDeclaration`: the tool as it is declared, with its parameters as JSON keeps them. -/
def Tool.declaration (tool : Tool) : Tool :=
  { tool with parameters := (parse (stringify tool.parameters)).getD tool.parameters }

/-- The declaration as `JSON.stringify` writes it: a `constrainedSampling` that is undefined is left out. -/
def Tool.text (tool : Tool) : Str :=
  stringify (.obj ([(lit "name", .str tool.name), (lit "description", .str tool.description),
    (lit "parameters", tool.parameters)] ++
    match tool.constrainedSampling with
    | none => []
    | some sampling => [(lit "constrainedSampling", sampling)]))

/-- Two tools are declared with the same text. -/
def declarationsEqual (left right : Tool) : Bool := left.declaration.text == right.declaration.text

/-! ## Messages -/

/-- The tools that become available, and the names of those that stop being available. -/
structure ToolStateChanges where
  toolsAdded : List Tool
  toolsRemoved : List Str

/-- A system message: instructions, as one content or in sections, and what it does to the declared tools. -/
structure SystemMessage where
  content : Json
  sections : Option Json
  toolsAdded : Option (List Tool)
  toolsRemoved : Option (List Str)
  timestamp : Nat

/-- A call of a tool by the model. -/
structure ToolCall where
  id : Str
  name : Str
  arguments : Json

/-- A content block of an assistant message: a call, or a block that the loop passes on. -/
inductive Block where
  | toolCall (call : ToolCall)
  | other (block : Json)

/-- The call that a block holds, if it is one. -/
def Block.toolCall? : Block → Option ToolCall
  | .toolCall call => some call
  | .other _ => none

/-- Why a response ended. -/
inductive StopReason where
  | pending
  | stop
  | length
  | toolUse
  | error
  | aborted
  | deferred
  deriving DecidableEq

/-- What the loop reads of an assistant message, and the provider's other fields. -/
structure AssistantMessage where
  content : List Block
  stopReason : StopReason
  fields : Json

/-- `message.content.filter((c) => c.type === "toolCall")`. -/
def AssistantMessage.toolCalls (message : AssistantMessage) : List ToolCall :=
  message.content.filterMap Block.toolCall?

/-- The response was broken off, and the run ends with it. -/
def AssistantMessage.Failed (message : AssistantMessage) : Prop :=
  message.stopReason = .error ∨ message.stopReason = .aborted

instance (message : AssistantMessage) : Decidable message.Failed :=
  inferInstanceAs (Decidable (_ ∨ _))

/-- What a call returned, or why it did not. -/
structure ToolResultMessage where
  toolCallId : Str
  toolName : Str
  content : List Json
  details : Option Json
  usage : Option Json
  isError : Bool
  durationMs : Option Nat
  timestamp : Nat

/-- A message of the transcript, by its role. A user message and one of a role of the application are their
JSON values. -/
inductive Message where
  | system (message : SystemMessage)
  | user (message : Json)
  | assistant (message : AssistantMessage)
  | toolResult (message : ToolResultMessage)
  | custom (message : Json)

/-- `message.role === "system"`. -/
def Message.isSystem : Message → Bool
  | .system _ => true
  | _ => false

/-- `message.role === "assistant"`. -/
def Message.isAssistant : Message → Bool
  | .assistant _ => true
  | _ => false

/-- What a request is made from: the transcript, and the tools that can be executed. -/
structure AgentContext where
  messages : List Message
  tools : List AgentTool

/-! ## Declared tools -/

/-- One message of `getCurrentTools`: its removals take effect before its additions. -/
def declareTools (tools : List (Str × Tool)) : Message → List (Str × Tool)
  | .system message =>
    let kept := (message.toolsRemoved.getD []).foldl mapDelete tools
    (message.toolsAdded.getD []).foldl (fun tools tool => mapSet tools tool.name tool) kept
  | _ => tools

/-- `getCurrentTools`: the declared tools behind all messages, in the order in which they came. -/
def currentTools (messages : List Message) : List Tool :=
  (messages.foldl declareTools []).map Prod.snd

/-- The tool has no equal declaration under its name. -/
def undeclared (tools : List Tool) (tool : Tool) : Bool :=
  match mapGet (mapOf (tools.map fun t => (t.name, t))) tool.name with
  | none => true
  | some other => !declarationsEqual other tool

/-- `getToolStateChanges`: a tool whose declaration changes is removed and added. -/
def toolStateChanges (previous current : List Tool) : ToolStateChanges where
  toolsAdded := (current.filter (undeclared previous)).map Tool.declaration
  toolsRemoved := (previous.filter (undeclared current)).map Tool.name

/-- No change. -/
def ToolStateChanges.none : ToolStateChanges := ⟨[], []⟩

/-- Nothing is added or removed. -/
def ToolStateChanges.isEmpty (changes : ToolStateChanges) : Bool :=
  changes.toolsAdded.isEmpty && changes.toolsRemoved.isEmpty

/-- A list field that is left out when it is empty. -/
def unlessEmpty {α : Type} (xs : List α) : Option (List α) := if xs.isEmpty then .none else some xs

/-- `withToolChanges`: the message with these changes in place of its own. -/
def SystemMessage.withToolChanges (message : SystemMessage) (changes : ToolStateChanges) :
    SystemMessage :=
  { message with
    toolsAdded := unlessEmpty changes.toolsAdded
    toolsRemoved := unlessEmpty changes.toolsRemoved }

/-- `!pending.toolsAdded?.length && !pending.toolsRemoved?.length`. -/
def SystemMessage.declaresNothing (message : SystemMessage) : Bool :=
  (message.toolsAdded.getD []).isEmpty && (message.toolsRemoved.getD []).isEmpty

/-- The last system message of a list, with what is before and behind it. -/
def splitLastSystem : List Message → Option (List Message × SystemMessage × List Message)
  | [] => .none
  | message :: rest =>
    match splitLastSystem rest with
    | some (before, last, after) => some (message :: before, last, after)
    | .none =>
      match message with
      | .system last => some ([], last, rest)
      | _ => .none

/-- `declareToolChanges`: the pending messages, with the changes in the last system message among them or in
one of their own, for which the clock is read. -/
def declareToolChanges (now : Nat) (context : AgentContext) (pending : List Message) : List Message :=
  let executable := context.tools.map fun tool => tool.toTool.declaration
  match splitLastSystem pending with
  | some (before, last, after) =>
    let baseline := before ++ .system (last.withToolChanges .none) :: after
    let changes := toolStateChanges (currentTools (context.messages ++ baseline)) executable
    -- The caller's message is kept when it declares no tool changes.
    if changes.isEmpty && last.declaresNothing then pending
    else before ++ .system (last.withToolChanges changes) :: after
  | none =>
    let changes := toolStateChanges (currentTools (context.messages ++ pending)) executable
    if changes.isEmpty then pending
    else
      let update : SystemMessage := ⟨.str [], none, none, none, now⟩
      let index := pending.findIdx fun message => !message.isSystem
      pending.take index ++ .system (update.withToolChanges changes) :: pending.drop index

end Agent
