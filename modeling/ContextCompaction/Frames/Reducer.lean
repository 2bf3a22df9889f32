import ContextCompaction.Frames.Encoder

/-!
# Replay of frames

* `reduceAssistantMessageFrames`: the message that frames describe.
-/

namespace Frames

open Js

/-- `json` is only used for a tool call. -/
structure ReducerBlockState where
  kind : Kind
  ended : Bool
  json : Str

/-- The locals of the reducer. -/
structure Reducer where
  message : Option AssistantMessage
  frameBeforeStart : Option Str
  states : List (Nat × ReducerBlockState)

def Frame.type : Frame → Str
  | .start _ => lit "start"
  | .textStart .. => lit "text_start"
  | .textDelta .. => lit "text_delta"
  | .textEnd .. => lit "text_end"
  | .thinkingStart .. => lit "thinking_start"
  | .thinkingDelta .. => lit "thinking_delta"
  | .thinkingEnd .. => lit "thinking_end"
  | .toolcallStart .. => lit "toolcall_start"
  | .toolcallCheckpoint .. => lit "toolcall_checkpoint"
  | .toolcallDelta .. => lit "toolcall_delta"
  | .toolcallEnd .. => lit "toolcall_end"

namespace Reducer

def initial : Reducer := ⟨none, none, []⟩

/-- The message and the states after a change of both. -/
def withBlock (r : Reducer) (message : AssistantMessage) (contentIndex : Nat) (block : Block)
    (state : ReducerBlockState) : Reducer :=
  { r with
    message := some { message with content := message.content.set contentIndex block }
    states := mapSet r.states contentIndex state }

def appendBlock (r : Reducer) (message : AssistantMessage) (contentIndex : Nat) (block : Block) :
    Except Str Reducer := do
  assertContentIndex contentIndex
  if contentIndex ≠ message.content.length then
    let reason :=
      if contentIndex < message.content.length then lit "already exists" else lit "would leave a gap"
    .error (lit "Cannot start assistant message block at index " ++ indexText contentIndex ++ lit ": " ++
      reason)
  else
    .ok { r with
      message := some { message with content := message.content ++ [block] }
      states := mapSet r.states contentIndex ⟨block.kind, false, []⟩ }

def activeBlock (r : Reducer) (message : AssistantMessage) (contentIndex : Nat) (expectedKind : Kind)
    (frameType : Str) : Except Str (Block × ReducerBlockState) := do
  assertContentIndex contentIndex
  match mapGet r.states contentIndex, message.content[contentIndex]? with
  | some state, some block =>
    if state.kind ≠ expectedKind ∨ block.kind ≠ expectedKind then
      .error (frameType ++ lit " frame expected " ++ expectedKind.name ++ lit " block at index " ++
        indexText contentIndex ++ lit ", found " ++ block.kind.name)
    else if state.ended then
      .error (frameType ++ lit " frame follows the end of block at index " ++ indexText contentIndex)
    else .ok (block, state)
  | _, _ => .error (frameType ++ lit " frame has no started block at index " ++ indexText contentIndex)

/-- What a frame says where its block and its state contradict each other. -/
def unreachable : Frame → Str
  | .thinkingDelta .. | .thinkingEnd .. => lit "Unreachable thinking frame state"
  | .toolcallCheckpoint .. => lit "Unreachable tool-call checkpoint state"
  | .toolcallDelta .. | .toolcallEnd .. => lit "Unreachable tool-call frame state"
  | _ => lit "Unreachable text frame state"

section

variable (parseStreamingJson : Str → Json)

/-- A frame at a block that has started: the block and the state that it leaves. -/
def changeBlock (frame : Frame) (block : Block) (state : ReducerBlockState) :
    Except Str (Block × ReducerBlockState) :=
  match frame, block with
  | .textDelta _ delta, .text content => .ok (.text { content with text := content.text ++ delta }, state)
  | .textEnd _ text textSignature, .text _ => .ok (.text ⟨text, textSignature⟩, { state with ended := true })
  | .thinkingDelta _ delta, .thinking content =>
    .ok (.thinking { content with thinking := content.thinking ++ delta }, state)
  | .thinkingEnd _ thinking thinkingSignature redacted, .thinking _ =>
    .ok (.thinking ⟨thinking, thinkingSignature, redacted⟩, { state with ended := true })
  | .toolcallCheckpoint _ json, .toolCall call =>
    .ok (.toolCall { call with arguments := parseStreamingJson json }, { state with json })
  | .toolcallDelta _ delta, .toolCall call => .ok (.toolCall call, { state with json := state.json ++ delta })
  | .toolcallEnd _ toolCall, .toolCall _ => .ok (.toolCall toolCall, { state with ended := true })
  | _, _ => .error (unreachable frame)

def change (r : Reducer) (message : AssistantMessage) (contentIndex : Nat) (kind : Kind) (frame : Frame) :
    Except Str Reducer := do
  let (block, state) ← r.activeBlock message contentIndex kind frame.type
  let (block, state) ← changeBlock parseStreamingJson frame block state
  .ok (r.withBlock message contentIndex block state)

/-- A frame behind the start. -/
def reduceBlock (r : Reducer) (message : AssistantMessage) (frame : Frame) : Except Str Reducer :=
  match frame with
  | .textStart i content => r.appendBlock message i (.text content)
  | .thinkingStart i content => r.appendBlock message i (.thinking content)
  | .toolcallStart i toolCall => r.appendBlock message i (.toolCall toolCall)
  | .textDelta i _ | .textEnd i _ _ => r.change parseStreamingJson message i .text frame
  | .thinkingDelta i _ | .thinkingEnd i _ _ _ => r.change parseStreamingJson message i .thinking frame
  | .toolcallCheckpoint i _ | .toolcallDelta i _ | .toolcallEnd i _ =>
    r.change parseStreamingJson message i .toolCall frame
  | .start _ => .ok r

def reduceFrame (r : Reducer) (frame : Frame) : Except Str Reducer :=
  match frame, r.message with
  | .start message, none =>
    match r.frameBeforeStart with
    | some type => .error (type ++ lit " frame appears before the start frame")
    | none => .ok { r with message := some message }
  | .start _, some _ => .error (lit "Assistant message frame sequence contains more than one start frame")
  | frame, none => .ok { r with frameBeforeStart := r.frameBeforeStart.or (some frame.type) }
  | frame, some message => r.reduceBlock parseStreamingJson message frame

/-- The JSON of a tool call that has not ended is parsed once, behind the last frame. -/
def settleCall (message : AssistantMessage) (entry : Nat × ReducerBlockState) :
    Except Str AssistantMessage :=
  let (contentIndex, state) := entry
  if state.kind ≠ .toolCall ∨ state.ended = true ∨ state.json.length = 0 then .ok message
  else
    match message.content[contentIndex]? with
    | some (.toolCall call) =>
      let block := Block.toolCall { call with arguments := parseStreamingJson state.json }
      .ok { message with content := message.content.set contentIndex block }
    | _ => .error (lit "Unreachable tool-call frame state")

end

end Reducer

def reduceAssistantMessageFrames (parseStreamingJson : Str → Json) (frames : List Frame) :
    Except Str (Option AssistantMessage) := do
  let r ← frames.foldlM (Reducer.reduceFrame parseStreamingJson) Reducer.initial
  match r.message with
  | none => .ok none
  | some message => do
    let message ← r.states.foldlM (Reducer.settleCall parseStreamingJson) message
    .ok (some message)

end Frames
