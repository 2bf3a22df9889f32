import ContextCompaction.Cbor.Format
import ContextCompaction.Streams.Feed

/-!
# Frames

Byte strings with their length before them, and the decoder that splits a stream of chunks into them.

* `encodeFrame`: one frame.
* `FrameDecoder.push`, `FrameDecoder.end_`: the calls of a decoder, and what they leave of it.
* `calls`: calls in turn, the failed ones among them.
-/

namespace Framing

open Js

/-! ## Options -/

/-- The number of bytes that hold a payload's length. -/
def FRAME_HEADER_LENGTH : Nat := 4
/-- The largest length that a header can hold. -/
def MAX_UINT32 : Nat := 0xFFFFFFFF
/-- The size of the blocks in which a payload is gathered. -/
def PAYLOAD_BLOCK_SIZE : Nat := 64 * 1024
/-- The bound on a payload unless configured: 16 MiB. -/
def DEFAULT_MAX_FRAME_LENGTH : Nat := 16 * 1024 * 1024

/-- The limit that the options name, or a `RangeError`. -/
def resolveMaxFrameLength (maxFrameLength : Option Number) : Except Str Nat :=
  let value := maxFrameLength.getD (.ofNat DEFAULT_MAX_FRAME_LENGTH)
  if Cbor.isSafeInteger value ∧ (Cbor.isNegative value = false ∨ Cbor.absNat value = 0) ∧
      Cbor.absNat value ≤ MAX_UINT32 then
    .ok (Cbor.absNat value)
  else .error (lit "maxFrameLength must be an integer between 0 and 4294967295")

/-! ## Bytes -/

/-- `target.set(source, offset)` where the source fits. -/
def setBytes (target source : List UInt8) (offset : Nat) : List UInt8 :=
  target.take offset ++ source ++ target.drop (offset + source.length)

/-- `new Uint8Array(length)` -/
def newBytes (length : Nat) : List UInt8 := List.replicate length 0

/-- The four bytes of a length. -/
def headerBytes (length : Nat) : List UInt8 :=
  [(length / 2 ^ 24).toUInt8, (length / 2 ^ 16).toUInt8, (length / 2 ^ 8).toUInt8, length.toUInt8]

/-- The length that four bytes say. -/
def headerValue (header : List UInt8) : Nat :=
  let byte := fun i => (header.getD i 0).toNat
  byte 0 * 0x1000000 + byte 1 * 0x10000 + byte 2 * 0x100 + byte 3

/-- A payload behind its length. -/
def encodeFrame (payload : List UInt8) : Except Str (List UInt8) :=
  if MAX_UINT32 < payload.length then
    .error (lit "Frame payload exceeds the unsigned 32-bit length limit")
  else
    let frame := newBytes (FRAME_HEADER_LENGTH + payload.length)
    let frame := setBytes frame (headerBytes payload.length) 0
    .ok (setBytes frame payload FRAME_HEADER_LENGTH)

/-! ## The decoder -/

/-- A decoder reads until it is ended or has failed. -/
inductive DecoderState where
  | open_
  | ended
  | failed
  deriving DecidableEq

/-- A decoder between two calls: the part of a header it has, and the part of a payload. -/
structure FrameDecoder where
  header : List UInt8
  headerLength : Nat
  maxFrameLength : Nat
  payloadBlocks : List (List UInt8)
  /-- Which of the blocks is being filled. -/
  currentPayloadBlock : Option Nat
  currentPayloadBlockLength : Nat
  expectedPayloadLength : Option Nat
  payloadLength : Nat
  state : DecoderState
  deriving DecidableEq

namespace FrameDecoder

/-- A decoder that has read nothing; the bound must be a valid length. -/
def new (maxFrameLength : Option Number) : Except Str FrameDecoder :=
  (resolveMaxFrameLength maxFrameLength).map fun limit =>
    ⟨newBytes FRAME_HEADER_LENGTH, 0, limit, [], none, 0, none, 0, .open_⟩

/-- Without a payload. -/
def noPayload (d : FrameDecoder) : FrameDecoder :=
  { d with
    payloadBlocks := []
    currentPayloadBlock := none
    currentPayloadBlockLength := 0
    expectedPayloadLength := none
    payloadLength := 0 }

/-- A failed decoder keeps nothing of what it had read. -/
def fail (d : FrameDecoder) : FrameDecoder := { d.noPayload with state := .failed, headerLength := 0 }

/-- A payload is to follow. -/
def expect (d : FrameDecoder) (frameLength : Nat) : FrameDecoder :=
  { d.noPayload with expectedPayloadLength := some frameLength }

/-- How a header ends: the chunk ends in it, an empty frame, a frame that is too long, or a payload
that follows. -/
inductive HeaderEnd where
  | partial_ (d : FrameDecoder)
  | empty (d : FrameDecoder)
  | tooLong (d : FrameDecoder) (message : Str)
  | payload (d : FrameDecoder) (expected : Nat)

/-- Header bytes from the front of the chunk, and the rest of it. -/
def readHeader (d : FrameDecoder) (chunk : List UInt8) : HeaderEnd × List UInt8 :=
  let count := min (FRAME_HEADER_LENGTH - d.headerLength) chunk.length
  let d := { d with
    header := setBytes d.header (chunk.take count) d.headerLength
    headerLength := d.headerLength + count }
  let chunk := chunk.drop count
  if d.headerLength < FRAME_HEADER_LENGTH then (.partial_ d, chunk)
  else
    let frameLength := headerValue d.header
    let d := { d with headerLength := 0 }
    if d.maxFrameLength < frameLength then
      (.tooLong d.fail (lit "Frame length " ++ Cbor.decimal frameLength ++
        lit " exceeds configured limit of " ++ Cbor.decimal d.maxFrameLength), chunk)
    else if frameLength = 0 then (.empty d, chunk)
    else (.payload (d.expect frameLength) frameLength, chunk)

/-- The header before the next payload bytes, unless it has been read. -/
def nextHeader (d : FrameDecoder) (chunk : List UInt8) : HeaderEnd × List UInt8 :=
  match d.expectedPayloadLength with
  | some expected => (.payload d expected, chunk)
  | none => d.readHeader chunk

/-- The block that is being filled. -/
def block (d : FrameDecoder) : Option (List UInt8) :=
  d.currentPayloadBlock.bind fun i => d.payloadBlocks[i]?

/-- A new block, if there is none or it is full. -/
def nextBlock (d : FrameDecoder) (expected : Nat) : FrameDecoder :=
  if d.block.any fun block => d.currentPayloadBlockLength ≠ block.length then d
  else { d with
    payloadBlocks := d.payloadBlocks ++ [newBytes (min PAYLOAD_BLOCK_SIZE (expected - d.payloadLength))]
    currentPayloadBlock := some d.payloadBlocks.length
    currentPayloadBlockLength := 0 }

/-- Some bytes into the block that is being filled, and how many. -/
def fillBlock (d : FrameDecoder) (chunk : List UInt8) : FrameDecoder × Nat :=
  match d.currentPayloadBlock, d.block with
  | some i, some block =>
    let count := min (block.length - d.currentPayloadBlockLength) chunk.length
    ({ d with
      payloadBlocks :=
        d.payloadBlocks.set i (setBytes block (chunk.take count) d.currentPayloadBlockLength)
      currentPayloadBlockLength := d.currentPayloadBlockLength + count
      payloadLength := d.payloadLength + count }, count)
  | _, _ => (d, 0)

/-- Payload bytes from the front of the chunk, and the rest of it; `none` if the loop goes on for more
rounds. -/
def readPayload (expected : Nat) : Nat → FrameDecoder → List UInt8 → Option (FrameDecoder × List UInt8)
  | rounds, d, chunk =>
    if chunk ≠ [] ∧ d.payloadLength < expected then
      match rounds with
      | 0 => none
      | rounds + 1 =>
        let filled := (d.nextBlock expected).fillBlock chunk
        readPayload expected rounds filled.1 (chunk.drop filled.2)
    else some (d, chunk)

/-- The blocks one after another. -/
def joinBlocks (expected : Nat) (blocks : List (List UInt8)) : List UInt8 :=
  (blocks.foldl (fun joined block => (setBytes joined.1 block joined.2, joined.2 + block.length))
    (newBytes expected, 0)).1

/-- The payload, once it is complete. -/
def takePayload (d : FrameDecoder) (expected : Nat) : FrameDecoder × List (List UInt8) :=
  if d.payloadLength = expected then
    match d.payloadBlocks with
    | [block] => (d.noPayload, [block])
    | blocks => (d.noPayload, [joinBlocks expected blocks])
  else (d, [])

/-- The loop over a chunk: the frames that it completes, or an error; `none` if the loop goes on for
more rounds. -/
def readChunk : Nat → FrameDecoder → List UInt8 → List (List UInt8) →
    Option (FrameDecoder × Except Str (List (List UInt8)))
  | _, d, [], frames => some (d, .ok frames)
  | 0, _, _ :: _, _ => none
  | rounds + 1, d, byte :: bytes, frames =>
    match d.nextHeader (byte :: bytes) with
    | (.partial_ d, chunk) => readChunk rounds d chunk frames
    | (.empty d, chunk) => readChunk rounds d chunk (frames ++ [[]])
    | (.tooLong d message, _) => some (d, .error message)
    | (.payload d expected, chunk) => do
      let read ← readPayload expected chunk.length d chunk
      let taken := read.1.takePayload expected
      readChunk rounds taken.1 read.2 (frames ++ taken.2)

/-- The refusal of a decoder that is not open. -/
def closed (d : FrameDecoder) : Option Str :=
  match d.state with
  | .open_ => none
  | .ended => some (lit "Frame decoder has ended")
  | .failed => some (lit "Frame decoder has failed")

/-- A chunk's bytes are read, and the frames that they complete are returned. `none` means that the loop
ran out of rounds. -/
def push (d : FrameDecoder) (chunk : List UInt8) :
    Option (FrameDecoder × Except Str (List (List UInt8))) :=
  match d.closed with
  | some message => some (d, .error message)
  | none => readChunk chunk.length d chunk []

/-- The end of the stream is an error inside a header or a payload. -/
def end_ (d : FrameDecoder) : FrameDecoder × Except Str Unit :=
  match d.closed with
  | some message => (d, .error message)
  | none =>
    if d.headerLength ≠ 0 ∨ d.expectedPayloadLength ≠ none then
      (d.fail, .error (lit "Truncated frame at end of stream"))
    else ({ d with state := .ended }, .ok ())

end FrameDecoder

/-! ## Calls -/

/-- A caller pushes a chunk or announces the end of the stream. -/
inductive Call where
  | push (chunk : List UInt8)
  | end_

/-- What a call returns; the end of a stream returns no frames. -/
abbrev Answer := Except Str (List (List UInt8))

/-- What a call leaves behind and answers; the end of the stream answers with no frames. -/
def call (d : FrameDecoder) : Call → Option (FrameDecoder × Answer)
  | .push chunk => d.push chunk
  | .end_ => some (d.end_.1, d.end_.2.map fun _ => [])

/-- Calls in turn; a client may go on after a failure. -/
def calls : FrameDecoder → List Call → Option (FrameDecoder × List Answer)
  | d, [] => some (d, [])
  | d, c :: cs => do
    let r ← call d c
    let r' ← calls r.1 cs
    some (r'.1, r.2 :: r'.2)

/-- The chunks of a stream, and its end. -/
def stream (chunks : List (List UInt8)) : List Call := chunks.map .push ++ [.end_]

end Framing
