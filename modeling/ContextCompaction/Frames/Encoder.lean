import ContextCompaction.Js.Json

/-!
# Frames of an assistant message

A stream's events carry the message in the course of its construction, as it stands when an event is
consumed, which may be later than when it was sent. The encoder turns events into frames that can be
replayed.

* `AssistantMessageFrameEncoder.encode`: the frame of an event, if it has one.
* `isJsonPrefix`: whether parsed arguments extend others.
-/

namespace Frames

open Js

/-! ## Messages -/

/-- A block of text. -/
structure TextContent where
  text : Str
  textSignature : Option Str

/-- A block of thinking; `redacted` marks one that is encrypted. -/
structure ThinkingContent where
  thinking : Str
  thinkingSignature : Option Str
  redacted : Option Bool

/-- A block that calls a tool. -/
structure ToolCall where
  id : Str
  name : Str
  arguments : Json
  thoughtSignature : Option Str
  nameSpace : Option Str

/-- The three kinds of blocks. -/
inductive Kind where
  | text | thinking | toolCall
  deriving DecidableEq

/-- The name of a kind, as it stands in an event. -/
def Kind.name : Kind → Str
  | .text => lit "text"
  | .thinking => lit "thinking"
  | .toolCall => lit "toolCall"

/-- A content block of an assistant message. -/
inductive Block where
  | text (content : TextContent)
  | thinking (content : ThinkingContent)
  | toolCall (call : ToolCall)

/-- The kind of a block. -/
def Block.kind : Block → Kind
  | .text _ => .text
  | .thinking _ => .thinking
  | .toolCall _ => .toolCall

/-- Why a message ended; `pending` while it has not. -/
inductive StopReason where
  | pending | stop | length | toolUse | error | aborted | deferred
  deriving DecidableEq

/-- An assistant message with all that a frame carries of it. -/
structure AssistantMessage where
  content : List Block
  api : Str
  provider : Str
  model : Str
  responseModel : Option Str
  responseId : Option Str
  providerThinkingLevel : Option Str
  diagnostics : Option Json
  usage : Json
  stopReason : StopReason
  timestamp : Number

/-- The message of a start frame: without content, and pending. -/
def cloneStartMessage (message : AssistantMessage) : AssistantMessage :=
  { message with content := [], stopReason := .pending }

/-! ## Events and frames -/

/-- `live` is the shared message as it is when the event is encoded, where the encoder reads it. -/
inductive Event where
  | start (live : AssistantMessage)
  | textStart (contentIndex : Nat) (live : AssistantMessage)
  | textDelta (contentIndex : Nat) (delta : Str)
  | textEnd (contentIndex : Nat) (content : Str) (live : AssistantMessage)
  | thinkingStart (contentIndex : Nat) (live : AssistantMessage)
  | thinkingDelta (contentIndex : Nat) (delta : Str)
  | thinkingEnd (contentIndex : Nat) (content : Str) (live : AssistantMessage)
  | toolcallStart (contentIndex : Nat) (live : AssistantMessage)
  | toolcallDelta (contentIndex : Nat) (delta : Str)
  | toolcallEnd (contentIndex : Nat) (toolCall : ToolCall) (live : AssistantMessage)
  | done
  | error

/-- The name of an event. -/
def Event.type : Event → Str
  | .start _ => lit "start"
  | .textStart .. => lit "text_start"
  | .textDelta .. => lit "text_delta"
  | .textEnd .. => lit "text_end"
  | .thinkingStart .. => lit "thinking_start"
  | .thinkingDelta .. => lit "thinking_delta"
  | .thinkingEnd .. => lit "thinking_end"
  | .toolcallStart .. => lit "toolcall_start"
  | .toolcallDelta .. => lit "toolcall_delta"
  | .toolcallEnd .. => lit "toolcall_end"
  | .done => lit "done"
  | .error => lit "error"

/-- A frame of the stream. A delta carries only what the receiver has not seen. -/
inductive Frame where
  | start (message : AssistantMessage)
  | textStart (contentIndex : Nat) (content : TextContent)
  | textDelta (contentIndex : Nat) (delta : Str)
  | textEnd (contentIndex : Nat) (content : Str) (textSignature : Option Str)
  | thinkingStart (contentIndex : Nat) (content : ThinkingContent)
  | thinkingDelta (contentIndex : Nat) (delta : Str)
  | thinkingEnd (contentIndex : Nat) (content : Str) (thinkingSignature : Option Str)
      (redacted : Option Bool)
  | toolcallStart (contentIndex : Nat) (toolCall : ToolCall)
  | toolcallCheckpoint (contentIndex : Nat) (json : Str)
  | toolcallDelta (contentIndex : Nat) (delta : Str)
  | toolcallEnd (contentIndex : Nat) (toolCall : ToolCall)

/-! ## Arguments -/

mutual

/-- The first value could be shown while the second one was still being received. -/
def isJsonPrefix : Json → Json → Bool
  | .str s, .str t => s.isPrefixOf t
  | .arr xs, .arr ys => xs.length ≤ ys.length && isPrefixElements xs ys
  | .obj fs, .obj gs => isPrefixFields fs gs
  | .null, .null => true
  | .bool a, .bool b => a == b
  | .num m, .num n => m == n
  | _, _ => false

/-- The elements, one by one. -/
def isPrefixElements : List Json → List Json → Bool
  | x :: xs, y :: ys => isJsonPrefix x y && isPrefixElements xs ys
  | _, _ => true

/-- The members, looked up by their keys. -/
def isPrefixFields : List (Str × Json) → List (Str × Json) → Bool
  | [], _ => true
  | (key, x) :: fs, gs =>
    (match mapGet gs key with
      | some y => isJsonPrefix x y
      | none => false) && isPrefixFields fs gs

end

/-! ## Encoder -/

/-- `Number.MAX_SAFE_INTEGER`. -/
def MAX_SAFE_INTEGER : Nat := 2 ^ 53 - 1

/-- An index in decimal. -/
def indexText (contentIndex : Nat) : Str := lit contentIndex.repr

/-- `Number.isSafeInteger(contentIndex) && contentIndex >= 0`. -/
def assertContentIndex (contentIndex : Nat) : Except Str Unit :=
  if contentIndex ≤ MAX_SAFE_INTEGER then .ok ()
  else .error (lit "Invalid assistant message frame contentIndex: " ++ indexText contentIndex)

/-- The block that an event is about, as the live message has it. -/
def eventBlock (type : Str) (contentIndex : Nat) (live : AssistantMessage) : Except Str Block := do
  assertContentIndex contentIndex
  match live.content[contentIndex]? with
  | none => .error (type ++ lit " event has no content block at index " ++ indexText contentIndex)
  | some block => .ok block

/-- What the encoder remembers of an open block: of a text, how much the start frame has shown and how
much has arrived; of a call, whether the deltas have caught up with the arguments that the start frame
has shown. -/
inductive EncoderBlockState where
  | text (coveredChars deltaChars : Nat)
  | thinking (coveredChars deltaChars : Nat)
  | toolCall (caughtUp : Bool) (catchupJson snapshotArguments : Str)

/-- The kind of an open block. -/
def EncoderBlockState.kind : EncoderBlockState → Kind
  | .text .. => .text
  | .thinking .. => .thinking
  | .toolCall .. => .toolCall

/-- The encoder of one stream. -/
structure AssistantMessageFrameEncoder where
  started : Bool
  terminal : Bool
  blocks : List (Nat × EncoderBlockState)

namespace AssistantMessageFrameEncoder

/-- An encoder that has seen no event. -/
def initial : AssistantMessageFrameEncoder := ⟨false, false, []⟩

/-- Open a block, which must not be open. -/
def startBlock (e : AssistantMessageFrameEncoder) (contentIndex : Nat) (state : EncoderBlockState) :
    Except Str AssistantMessageFrameEncoder := do
  assertContentIndex contentIndex
  if (mapGet e.blocks contentIndex).isSome then
    .error (lit "Assistant message block " ++ indexText contentIndex ++ lit " starts more than once")
  else .ok { e with blocks := mapSet e.blocks contentIndex state }

/-- An open block of a kind. -/
def block (e : AssistantMessageFrameEncoder) (contentIndex : Nat) (kind : Kind) :
    Except Str EncoderBlockState := do
  assertContentIndex contentIndex
  match mapGet e.blocks contentIndex with
  | none =>
    .error (lit "Assistant message " ++ kind.name ++ lit " block " ++ indexText contentIndex ++
      lit " has not started")
  | some state =>
    if state.kind ≠ kind then
      .error (lit "Assistant message block " ++ indexText contentIndex ++ lit " is " ++ state.kind.name ++
        lit ", not " ++ kind.name)
    else .ok state

/-- Close a block of a kind. -/
def endBlock (e : AssistantMessageFrameEncoder) (contentIndex : Nat) (kind : Kind) :
    Except Str AssistantMessageFrameEncoder := do
  let _ ← e.block contentIndex kind
  .ok { e with blocks := mapDelete e.blocks contentIndex }

/-- Remember a block. -/
def set (e : AssistantMessageFrameEncoder) (contentIndex : Nat) (state : EncoderBlockState) :
    AssistantMessageFrameEncoder :=
  { e with blocks := mapSet e.blocks contentIndex state }

/-- What of a delta the snapshot at the start does not cover. -/
def uncovered (coveredChars deltaChars : Nat) (delta : Str) : Option Str :=
  let covered := coveredChars - deltaChars
  if covered ≥ delta.length then none else some (delta.drop covered)

/-- A delta of text or thinking, without what the start frame has shown. -/
def encodeTextDelta (e : AssistantMessageFrameEncoder) (contentIndex : Nat) (delta : Str) (kind : Kind) :
    Except Str (Option Frame × AssistantMessageFrameEncoder) := do
  match ← e.block contentIndex kind with
  | .toolCall .. => .error (lit "Unreachable text encoder state")
  | .text coveredChars deltaChars =>
    .ok ((uncovered coveredChars deltaChars delta).map (.textDelta contentIndex),
      e.set contentIndex (.text coveredChars (deltaChars + delta.length)))
  | .thinking coveredChars deltaChars =>
    .ok ((uncovered coveredChars deltaChars delta).map (.thinkingDelta contentIndex),
      e.set contentIndex (.thinking coveredChars (deltaChars + delta.length)))

section

-- The parser of streamed JSON is any function.
variable (parseStreamingJson : Str → Json)

/-- Whether the parsed deltas have come to what the start had seen. -/
def reaches (snapshotArguments catchupJson : Str) : Bool :=
  let argumentsValue := parseStreamingJson catchupJson
  stringify argumentsValue == snapshotArguments ||
    isJsonPrefix (parseStreamingJson snapshotArguments) argumentsValue

/-- A delta of a call. Until the deltas reach the arguments that the start frame has shown, they are held
back; then they are sent as one. -/
def encodeToolcallDelta (e : AssistantMessageFrameEncoder) (contentIndex : Nat) (delta : Str) :
    Except Str (Option Frame × AssistantMessageFrameEncoder) := do
  match ← e.block contentIndex .toolCall with
  | .toolCall true _ _ =>
    .ok (if delta.length = 0 then none else some (.toolcallDelta contentIndex delta), e)
  | .toolCall false catchupJson snapshotArguments =>
    let json := catchupJson ++ delta
    if !reaches parseStreamingJson snapshotArguments json then
      .ok (none, e.set contentIndex (.toolCall false json snapshotArguments))
    else
      .ok (if json.length = 0 then none else some (.toolcallCheckpoint contentIndex json),
        e.set contentIndex (.toolCall true [] []))
  | _ => .error (lit "Unreachable tool-call encoder state")

/-- The state of a tool call whose block starts with these arguments. -/
def toolCallState (arguments : Json) : EncoderBlockState :=
  let snapshotArguments := stringify arguments
  if snapshotArguments = stringify (parseStreamingJson []) then .toolCall true [] []
  else .toolCall false [] snapshotArguments

/-- An event at a block of another kind. -/
def wrongBlock {α : Type} (event : Event) (block : Block) (contentIndex : Nat) : Except Str α :=
  .error (event.type ++ lit " event points to " ++ block.kind.name ++ lit " block at index " ++
    indexText contentIndex)

/-- The events between the first and the last. -/
def encodeBlock (e : AssistantMessageFrameEncoder) (event : Event) :
    Except Str (Option Frame × AssistantMessageFrameEncoder) := do
  match event with
  | .textStart i live =>
    match ← eventBlock event.type i live with
    | .text content => do
      let e ← e.startBlock i (.text content.text.length 0)
      .ok (some (.textStart i content), e)
    | block => wrongBlock event block i
  | .textDelta i delta => e.encodeTextDelta i delta .text
  | .textEnd i text live =>
    match ← eventBlock event.type i live with
    | .text content => do
      let e ← e.endBlock i .text
      .ok (some (.textEnd i text content.textSignature), e)
    | block => wrongBlock event block i
  | .thinkingStart i live =>
    match ← eventBlock event.type i live with
    | .thinking content => do
      let e ← e.startBlock i (.thinking content.thinking.length 0)
      .ok (some (.thinkingStart i content), e)
    | block => wrongBlock event block i
  | .thinkingDelta i delta => e.encodeTextDelta i delta .thinking
  | .thinkingEnd i thinking live =>
    match ← eventBlock event.type i live with
    | .thinking content => do
      let e ← e.endBlock i .thinking
      .ok (some (.thinkingEnd i thinking content.thinkingSignature content.redacted), e)
    | block => wrongBlock event block i
  | .toolcallStart i live =>
    match ← eventBlock event.type i live with
    | .toolCall call => do
      let e ← e.startBlock i (toolCallState parseStreamingJson call.arguments)
      .ok (some (.toolcallStart i call), e)
    | block => wrongBlock event block i
  | .toolcallDelta i delta => e.encodeToolcallDelta parseStreamingJson i delta
  | .toolcallEnd i call live =>
    match ← eventBlock event.type i live with
    | .toolCall _ => do
      let e ← e.endBlock i .toolCall
      .ok (some (.toolcallEnd i call), e)
    | block => wrongBlock event block i
  | .start _ | .done | .error => .ok (none, e)

/-- One event: the frame that it is sent as, if any, and the encoder behind it. -/
def encode (e : AssistantMessageFrameEncoder) (event : Event) :
    Except Str (Option Frame × AssistantMessageFrameEncoder) :=
  if e.terminal then
    .error (lit "Assistant message event " ++ event.type ++ lit " follows a terminal event")
  else
    match event with
    | .start live =>
      if e.started then .error (lit "Assistant message stream contains more than one start event")
      else .ok (some (.start (cloneStartMessage live)), { e with started := true })
    | .done =>
      if !e.started then .error (lit "Assistant message done event appears before start")
      else .ok (none, { e with terminal := true })
    | .error => .ok (none, { e with terminal := true })
    | event =>
      if !e.started then
        .error (lit "Assistant message " ++ event.type ++ lit " event appears before start")
      else e.encodeBlock parseStreamingJson event

/-- The frames of events, in order. -/
def encodeAll : AssistantMessageFrameEncoder → List Event →
    Except Str (List Frame × AssistantMessageFrameEncoder)
  | e, [] => .ok ([], e)
  | e, event :: events => do
    let (frame, e) ← e.encode parseStreamingJson event
    let (frames, e) ← encodeAll e events
    .ok (frame.toList ++ frames, e)

end

end AssistantMessageFrameEncoder

end Frames
