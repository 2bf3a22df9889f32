import ContextCompaction.Context.Messages

/-!
# Messages for another provider

Before a request the messages of a session, which several models may have written, are made fit for the
model that the request is for.

* `downgradeUnsupportedImages`: images for a model that reads none.
* `firstPass`: thinking blocks of other models, and their call IDs, which the results are to carry too.
* `secondPass`: results for calls that have none.
-/

namespace Provider

open Js
open Context (StopReason)

/-! ## Messages -/

/-- The model that a request is for: its three names, and the kinds of input that it reads. -/
structure Model where
  id : Str
  api : Str
  provider : Str
  input : List Str

/-- A block of a user message or of a tool result. -/
inductive ContentBlock where
  | text (text : Str) (textSignature : Option Str)
  | image (data mimeType : Str)

/-- The content of a user message: one text, or blocks. -/
inductive UserContent where
  | text (text : Str)
  | blocks (content : List ContentBlock)

/-- A message of the user. -/
structure UserMessage where
  content : UserContent
  timestamp : Nat

/-- A call in an assistant message; `thoughtSignature` is opaque and holds for the model that wrote it. -/
structure ToolCall where
  id : Str
  name : Str
  arguments : Json
  thoughtSignature : Option Str
  «namespace» : Option Str

/-- A block of an assistant message. Thinking that is `redacted` is an encrypted text. -/
inductive Block where
  | text (text : Str) (textSignature : Option Str)
  | thinking (thinking : Str) (thinkingSignature : Option Str) (redacted : Bool)
  | toolCall (call : ToolCall)

/-- The call that a block holds, if it is one. -/
def Block.toolCall? : Block → Option ToolCall
  | .toolCall call => some call
  | _ => none

/-- An assistant message: the model that wrote it, why it stopped, and the fields that no pass reads. -/
structure AssistantMessage where
  content : List Block
  api : Str
  provider : Str
  model : Str
  stopReason : StopReason
  fields : Json

/-- `content.filter((b) => b.type === "toolCall")`. -/
def AssistantMessage.toolCalls (message : AssistantMessage) : List ToolCall :=
  message.content.filterMap Block.toolCall?

/-- `stopReason === "error" || stopReason === "aborted"`: an incomplete turn, which is not replayed. -/
def AssistantMessage.failed (message : AssistantMessage) : Bool :=
  message.stopReason == .error || message.stopReason == .aborted

/-- The result of the call with the ID `toolCallId`. -/
structure ToolResultMessage where
  toolCallId : Str
  toolName : Str
  content : List ContentBlock
  isError : Bool
  timestamp : Nat
  fields : Json

/-- A message, by its role; a system message is passed on as it is. -/
inductive Message where
  | system (message : Json)
  | user (message : UserMessage)
  | assistant (message : AssistantMessage)
  | toolResult (message : ToolResultMessage)

/-! ## Images -/

/-- What stands for the images of a user message. -/
def NON_VISION_USER_IMAGE_PLACEHOLDER : Str := lit "(image omitted: model does not support images)"

/-- What stands for the images of a tool result. -/
def NON_VISION_TOOL_IMAGE_PLACEHOLDER : Str := lit "(tool image omitted: model does not support images)"

/-- The loop of `replaceImagesWithPlaceholder`: an image becomes a placeholder, unless the block before it
became one or is a text that reads like one. -/
def replaceFrom (placeholder : Str) : Bool → List ContentBlock → List ContentBlock
  | _, [] => []
  | previousWasPlaceholder, .image _ _ :: rest =>
    (if previousWasPlaceholder then [] else [.text placeholder none]) ++ replaceFrom placeholder true rest
  | _, .text text signature :: rest =>
    .text text signature :: replaceFrom placeholder (text == placeholder) rest

/-- A content without images: consecutive images leave one placeholder. -/
def replaceImagesWithPlaceholder (content : List ContentBlock) (placeholder : Str) : List ContentBlock :=
  replaceFrom placeholder false content

/-- `model.input.includes("image")`. -/
def Model.readsImages (model : Model) : Bool := model.input.contains (lit "image")

/-- One message for a model that reads no images: the blocks of users and results lose them. -/
def downgradeMessage : Message → Message
  | .user message =>
    match message.content with
    | .text _ => .user message
    | .blocks content =>
      .user { message with
        content := .blocks (replaceImagesWithPlaceholder content NON_VISION_USER_IMAGE_PLACEHOLDER) }
  | .toolResult message =>
    .toolResult { message with
      content := replaceImagesWithPlaceholder message.content NON_VISION_TOOL_IMAGE_PLACEHOLDER }
  | message => message

/-- The messages for a model, without images where it reads none. -/
def downgradeUnsupportedImages (messages : List Message) (model : Model) : List Message :=
  if model.readsImages then messages else messages.map downgradeMessage

/-! ## The first pass -/

/-- How the caller makes an ID fit: from the ID, the target model and the message that holds the call. -/
abbrev Normalizer := Str → Model → AssistantMessage → Str

variable (model : Model) (normalizeToolCallId : Option Normalizer)

/-- The message was written by the target model: provider, API and model agree. -/
def AssistantMessage.isSameModel (message : AssistantMessage) : Bool :=
  message.provider == model.provider && message.api == model.api && message.model == model.id

/-- `if (field)` for a string field: it is there and not empty. -/
def truthy (field : Option Str) : Bool := field.any fun text => !text.isEmpty

/-- A thinking block for the target model. Its own is kept if it is redacted, signed or not blank; that of
another model is dropped where it is redacted or blank, and else becomes text. -/
def transformThinking (same : Bool) (thinking : Str) (signature : Option Str) (redacted : Bool) :
    List Block :=
  if redacted then if same then [.thinking thinking signature redacted] else []
  else if same && truthy signature then [.thinking thinking signature redacted]
  else if (trim thinking).isEmpty then []
  else if same then [.thinking thinking signature redacted]
  else [.text thinking none]

/-- A block for the target model, and the map from original to normalized IDs behind it. Calls of another
model lose their signature and get the ID of the normalizer; the map notes an ID that changes. -/
def transformBlock (source : AssistantMessage) (idMap : List (Str × Str)) :
    Block → List Block × List (Str × Str)
  | .thinking thinking signature redacted =>
    (transformThinking (source.isSameModel model) thinking signature redacted, idMap)
  | .text text signature =>
    ([.text text (if source.isSameModel model then signature else none)], idMap)
  | .toolCall call =>
    if source.isSameModel model then ([.toolCall call], idMap)
    else
      let unsigned :=
        if truthy call.thoughtSignature then { call with thoughtSignature := none } else call
      match normalizeToolCallId with
      | none => ([.toolCall unsigned], idMap)
      | some normalize =>
        let normalizedId := normalize call.id model source
        if normalizedId = call.id then ([.toolCall unsigned], idMap)
        else ([.toolCall { unsigned with id := normalizedId }], mapSet idMap call.id normalizedId)

/-- The blocks of one message in order, with the map that each leaves for the next. -/
def transformContent (source : AssistantMessage) : List Block → List (Str × Str) →
    List Block × List (Str × Str)
  | [], idMap => ([], idMap)
  | block :: rest, idMap =>
    let (blocks, idMap) := transformBlock model normalizeToolCallId source idMap block
    let (content, idMap) := transformContent source rest idMap
    (blocks ++ content, idMap)

/-- A result under the ID that the map has noted for its call. -/
def renameResult (idMap : List (Str × Str)) (message : ToolResultMessage) : ToolResultMessage :=
  match mapGet idMap message.toolCallId with
  | none => message
  | some normalizedId =>
    -- An ID that is empty counts as missing.
    if !normalizedId.isEmpty && normalizedId != message.toolCallId then
      { message with toolCallId := normalizedId }
    else message

/-- All messages in order: contents are transformed, and results are renamed by the map of the calls before
them. -/
def firstPass : List (Str × Str) → List Message → List Message
  | _, [] => []
  | idMap, .toolResult message :: rest => .toolResult (renameResult idMap message) :: firstPass idMap rest
  | idMap, .assistant message :: rest =>
    let (content, idMap) := transformContent model normalizeToolCallId message message.content idMap
    .assistant { message with content := content } :: firstPass idMap rest
  | idMap, message :: rest => message :: firstPass idMap rest

/-! ## The second pass -/

/-- The variables of the second pass: what has been pushed, the calls of the last turn that has any, the
results since, and the system messages that wait behind them. -/
structure Pass where
  result : List Message
  pendingToolCalls : List ToolCall
  existingToolResultIds : List Str
  heldSystemMessages : List Message

/-- The result that is made up for a call without one. -/
def noResult (call : ToolCall) (now : Nat) : ToolResultMessage where
  toolCallId := call.id
  toolName := call.name
  content := [.text (lit "No result provided") none]
  isError := true
  timestamp := now
  fields := .obj []

/-- Push a result for each call whose ID is not among the existing ones. The clock is read at each push;
its time is given by what was pushed before. -/
def pushMissing (clock : Nat → Nat) (existing : List Str) : List Message → List ToolCall → List Message
  | result, [] => result
  | result, call :: rest =>
    if call.id ∈ existing then pushMissing clock existing result rest
    else pushMissing clock existing (result ++ [.toolResult (noResult call (clock result.length))]) rest

/-- Give every pending call a result, and then push the system messages that were held. -/
def closePendingToolCalls (clock : Nat → Nat) (s : Pass) : Pass :=
  let s :=
    if s.pendingToolCalls.isEmpty then s
    else { s with
      result := pushMissing clock s.existingToolResultIds s.result s.pendingToolCalls
      pendingToolCalls := []
      existingToolResultIds := [] }
  { s with result := s.result ++ s.heldSystemMessages, heldSystemMessages := [] }

/-- One message of the second pass: a turn or a user message closes the pending calls, a failed turn is left
out, and a system message waits while calls are pending. -/
def secondPassStep (clock : Nat → Nat) (s : Pass) : Message → Pass
  | .assistant message =>
    let s := closePendingToolCalls clock s
    if message.failed then s
    else
      let s :=
        if message.toolCalls.isEmpty then s
        else { s with pendingToolCalls := message.toolCalls, existingToolResultIds := [] }
      { s with result := s.result ++ [.assistant message] }
  | .toolResult message =>
    { s with
      existingToolResultIds := s.existingToolResultIds ++ [message.toolCallId]
      result := s.result ++ [.toolResult message] }
  | .system message =>
    if s.pendingToolCalls.isEmpty then { s with result := s.result ++ [.system message] }
    else { s with heldSystemMessages := s.heldSystemMessages ++ [.system message] }
  | .user message =>
    let s := closePendingToolCalls clock s
    { s with result := s.result ++ [.user message] }

/-- The second pass, which closes the pending calls at the end too. -/
def secondPass (clock : Nat → Nat) (messages : List Message) : List Message :=
  (closePendingToolCalls clock (messages.foldl (secondPassStep clock) ⟨[], [], [], []⟩)).result

/-- The messages for a request to `model`; `clock` stands for `Date.now()`. -/
def transformMessages (clock : Nat → Nat) (messages : List Message) : List Message :=
  secondPass clock (firstPass model normalizeToolCallId [] (downgradeUnsupportedImages messages model))

end Provider
