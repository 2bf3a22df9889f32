import ContextCompaction.Js.Json
import ContextCompaction.Js.Map
import ContextCompaction.Sequences.Settling

/-!
# The messages of a context

The entries of a conversation contribute messages; a provider is sent them with each tool's result behind
its call, and with the prompt in front.

* `orderToolResults`: results behind their calls.
* `segmented_orderToolResults`: an assistant message starts a part of its own.
-/

namespace Context

open Js Sequences

/-- The position of an entry in the log. -/
abbrev EntryId := Nat
/-- The number of a conversation. -/
abbrev ConversationId := Nat

/-! ## Messages -/

/-- A tool call as an assistant message holds it. -/
structure ToolCall where
  id : Str
  name : Str
  arguments : Json

/-- A block of an assistant message: a tool call, or one that the context never looks into. -/
inductive Block where
  | toolCall (call : ToolCall)
  | other (block : Json)

/-- The tool call of a block that is one. -/
def Block.toolCall? : Block → Option ToolCall
  | .toolCall call => some call
  | .other _ => none

/-- Why an assistant message ended. -/
inductive StopReason where
  | pending
  | stop
  | length
  | toolUse
  | error
  | aborted
  | deferred
  deriving DecidableEq

/-- The stop reasons of assistant messages that no model sees. -/
def EXCLUDED_STOP_REASONS : List StopReason := [.aborted, .error, .deferred]

/-- What is read of an assistant message, and the provider's other fields. -/
structure AssistantMessage where
  content : List Block
  stopReason : StopReason
  timestamp : Number
  fields : Json

/-- A tool result; `fields` holds the rest of the message as it stands. -/
structure ToolResultMessage where
  toolCallId : Str
  toolName : Str
  content : Json
  isError : Bool
  details : Option Json
  timestamp : Number
  fields : Json

/-- A message of a conversation, by role. -/
inductive Message where
  | system (message : Json)
  | user (message : Json)
  | assistant (message : AssistantMessage)
  | toolResult (message : ToolResultMessage)

namespace Message

/-- Messages whose role is `system`. -/
def isSystem : Message → Bool
  | system _ => true
  | _ => false

/-- Messages whose role is `user`. -/
def isUser : Message → Bool
  | user _ => true
  | _ => false

/-- Messages whose role is `assistant`. -/
def isAssistant : Message → Bool
  | assistant _ => true
  | _ => false

/-- The result of a call. -/
def answers (call : ToolCall) : Message → Bool
  | toolResult result => decide (result.toolCallId = call.id)
  | _ => false

/-- A response that was not completed is no part of the context. -/
def excluded : Message → Bool
  | assistant message => decide (message.stopReason ∈ EXCLUDED_STOP_REASONS)
  | _ => false

end Message

/-! ## Tool results -/

/-- The text of the result that stands in for a missing one. -/
def MISSING_RESULT_TEXT : Str := lit "Tool result unavailable: history ends before this call completed."

/-- The result that stands in for the missing result of a call. -/
def missingResult (call : ToolCall) (timestamp : Number) : Message :=
  .toolResult
    { toolCallId := call.id
      toolName := call.name
      content := .arr [.obj [(lit "type", .str (lit "text")), (lit "text", .str MISSING_RESULT_TEXT)]]
      isError := true
      details := some (.obj [(lit "reason", .str (lit "missing_result"))])
      timestamp
      fields := .obj [] }

/-- Of the messages behind a call the first result before the next assistant message. -/
def resultOf (rest : List Message) (timestamp : Number) (call : ToolCall) : Message :=
  ((rest.takeWhile (!·.isAssistant)).find? (·.answers call)).getD (missingResult call timestamp)

/-- Each assistant message is followed by the results of its calls, in call order. -/
def orderToolResults : List Message → List Message
  | [] => []
  | .toolResult _ :: rest => orderToolResults rest
  | .assistant message :: rest =>
    .assistant message ::
      (message.content.filterMap Block.toolCall?).map (resultOf rest message.timestamp) ++
        orderToolResults rest
  | message :: rest => message :: orderToolResults rest

/-- A system message that only user messages precede comes first. -/
def leadWithSystem (messages : List Message) : List Message :=
  match messages.findIdx? (!·.isUser) with
  | some (i + 1) =>
    match messages[i + 1]? with
    | some (.system message) => .system message :: (messages.take (i + 1) ++ messages.drop (i + 2))
    | _ => messages
  | _ => messages

theorem takeWhile_boundary {xs ys : List Message} (h : ∀ y ∈ ys.head?, y.isAssistant = true) :
    (xs ++ ys).takeWhile (!·.isAssistant) = xs.takeWhile (!·.isAssistant) := by
  induction xs with
  | nil =>
    cases ys with
    | nil => rfl
    | cons y ys => rw [List.nil_append, List.takeWhile_cons, h y rfl]; rfl
  | cons x xs ih =>
    rw [List.cons_append, List.takeWhile_cons, List.takeWhile_cons, ih]

/-- No result is taken from behind the next assistant message. -/
theorem segmented_orderToolResults : Segmented orderToolResults Message.isAssistant := by
  intro xs ys h
  induction xs with
  | nil => rfl
  | cons x xs ih =>
    cases x with
    | toolResult message => exact ih
    | assistant message =>
      have hresult : resultOf (xs ++ ys) message.timestamp = resultOf xs message.timestamp := by
        funext call
        rw [resultOf, resultOf, takeWhile_boundary h]
      rw [List.cons_append, orderToolResults, orderToolResults, ih, hresult]
      simp only [List.cons_append, List.append_assoc]
    | system message =>
      change Message.system message :: orderToolResults (xs ++ ys) = _
      rw [ih]
      rfl
    | user message =>
      change Message.user message :: orderToolResults (xs ++ ys) = _
      rw [ih]
      rfl

/-! ## Entries -/

/-- What an entry contributes instead of its own messages. -/
inductive EditAction where
  | omit
  | replace (messages : List Message)

structure ContextEdit where
  target : EntryId
  action : EditAction

structure EntryRecord where
  id : EntryId
  conversationId : ConversationId
  kind : Str
  model : Option (List Message)
  data : Option Json
  /-- The first entry of the context that this entry selects. -/
  head : Option EntryId
  edits : Option (List ContextEdit)
  byTaskId : Option Nat

/-- One entry's messages, after its edit. -/
def contribute (entry : EntryRecord) (edit : Option EditAction) : List Message :=
  match edit with
  | some .omit => []
  | some (.replace messages) => messages.filter (!·.excluded)
  | none => (entry.model.getD []).filter (!·.excluded)

end Context
