import ContextCompaction.Js.TextDecoder
import ContextCompaction.Output.Slices

/-!
# Running output

`OutputBuffer` holds what bounding the output so far needs of it. Head retention stops storing once the
window is full, tail retention drops what the window no longer needs.

* `decodedText`: the text of the chunks that arrived.
* `pushAll`, `run`: chunks, and chunks with snapshots between them.
-/

namespace Output

open Js Sequences

/-- Output omitted before a chunk. -/
structure ShellOutputSkip where
  bytes : Nat
  newlines : Nat
  endsWithNewline : Bool
  deriving DecidableEq, Repr

/-- A chunk: text, or bytes that may end within a character. -/
inductive OutputChunk where
  | text (text : Str)
  | bytes (bytes : List UInt8)
  deriving DecidableEq, Repr

structure StoredChunk where
  text : Str
  bytes : Nat
  newlines : Nat
  deriving DecidableEq, Repr

/-- Retained output and what the limits dropped. -/
structure BoundedOutput where
  text : Str
  droppedBytes : Int
  droppedLines : Int
  deriving DecidableEq, Repr

/-- The class `[\x00-\x08\x0b-\x1f\ufff9-\ufffb]`. -/
def invalidOutput (u : UInt16) : Bool :=
  u ≤ 0x08 || (0x0B ≤ u && u ≤ 0x1F) || (0xFFF9 ≤ u && u ≤ 0xFFFB)

/-- Remove control characters that break display and transcripts; tabs and newlines stay. -/
def sanitizeOutput (text : Str) : Str := text.filter fun u => !invalidOutput u

def countNewlines (text : Str) : Nat := text.count 10

/-- Lines of text with so many newlines; a final unterminated line counts. -/
def lines (newlines : Nat) (terminated : Bool) : Nat := newlines + if terminated then 0 else 1

def endsWithNewline (text : Str) : Bool := text.getLast? == some 10

/-- The shortest suffix with more than `maxBytes` bytes or more than `maxLines` newlines, or all of
the text. -/
def tailMargin (text : Str) (limits : OutputLimits) : Str :=
  let bytes := utf8 text
  let byteStart :=
    if bytes.length > limits.maxBytes then characterEnd bytes (bytes.length - limits.maxBytes - 1)
    else 0
  let lineStart := (nthPrev NEWLINE bytes limits.maxLines bytes.length).getD 0
  let start := max byteStart lineStart
  if start = 0 then text else decodeUtf8 (bytes.drop start)

/-- Bounded running output of one tool call. -/
structure OutputBuffer where
  decoder : DecodeState
  started : Bool
  /-- For head the start of the stream, for tail a suffix that still contains the next window. -/
  chunks : List StoredChunk
  storedBytes : Nat
  storedNewlines : Nat
  full : Bool
  totalBytes : Nat
  totalNewlines : Nat
  endsWithNewline : Bool

def OutputBuffer.new : OutputBuffer :=
  { decoder := .start
    started := false
    chunks := []
    storedBytes := 0
    storedNewlines := 0
    full := false
    totalBytes := 0
    totalNewlines := 0
    endsWithNewline := true }

variable (limits : OutputLimits)

/-- Drop leading chunks while the rest still holds more than a window: the chunks that stay, their
bytes and their newlines. -/
def dropLeading : List StoredChunk → Nat → Nat → List StoredChunk × Nat × Nat
  | first :: second :: rest, bytes, newlines =>
    let bytesAfter := bytes - first.bytes
    let newlinesAfter := newlines - first.newlines
    if bytesAfter ≤ limits.maxBytes + 1 ∧ newlinesAfter ≤ limits.maxLines + 1 then
      (first :: second :: rest, bytes, newlines)
    else dropLeading (second :: rest) bytesAfter newlinesAfter
  | chunks, bytes, newlines => (chunks, bytes, newlines)

namespace OutputBuffer

variable (b : OutputBuffer)

def accept (text : Str) : Bool × OutputBuffer :=
  if text = [] then (false, b)
  else
    let bytes := byteLength text
    let newlines := countNewlines text
    let b := { b with
      totalBytes := b.totalBytes + bytes
      totalNewlines := b.totalNewlines + newlines
      endsWithNewline := Output.endsWithNewline text }
    if b.full then (true, b)
    else
      let b := { b with
        chunks := b.chunks ++ [StoredChunk.mk text bytes newlines]
        storedBytes := b.storedBytes + bytes
        storedNewlines := b.storedNewlines + newlines }
      match limits.retain with
      | .head =>
        -- Nothing past a full window is ever needed.
        (true, { b with
          full := limits.maxBytes < b.storedBytes || limits.maxLines ≤ b.storedNewlines })
      | .tail =>
        let rest := dropLeading limits b.chunks b.storedBytes b.storedNewlines
        (true, { b with chunks := rest.1, storedBytes := rest.2.1, storedNewlines := rest.2.2 })

/-- Count omitted output; nothing stored before it can be in the window. -/
def skip (skipped : ShellOutputSkip) : OutputBuffer :=
  if skipped.bytes = 0 then b
  else
    { b with
      totalBytes := b.totalBytes + skipped.bytes
      totalNewlines := b.totalNewlines + skipped.newlines
      endsWithNewline := skipped.endsWithNewline
      chunks := []
      storedBytes := 0
      storedNewlines := 0 }

/-- Accept a chunk: whether anything was accepted, or the error. -/
def push (chunk : OutputChunk) (skipped : Option ShellOutputSkip) : Except Str Bool × OutputBuffer :=
  let isText := match chunk with
    | .text _ => true
    | .bytes _ => false
  let flush := isText || skipped.isSome
  -- Bytes of an incomplete character from an earlier byte chunk come first.
  let pending := if flush then decodeFlush b.decoder else []
  let decoder := if flush then .start else b.decoder
  let decoded := match chunk with
    | .text text => (text, decoder)
    | .bytes bytes => decodeBytes decoder bytes
  let first := !b.started && decide (pending = []) && skipped.isNone
  let text :=
    if first && !isText && decoded.1.head? == some (0xFEFF : UInt16) then decoded.1.drop 1 else decoded.1
  let b := { b with
    decoder := decoded.2
    started := b.started || decide (pending ≠ []) || decide (decoded.1 ≠ []) || skipped.isSome }
  match skipped with
  | none =>
    let accepted := b.accept limits (pending ++ text)
    (.ok accepted.1, accepted.2)
  | some skipped =>
    if limits.retain ≠ .tail then (.error (lit "Skipped output requires tail retention"), b)
    else (.ok true, (((b.accept limits pending).2.skip skipped).accept limits text).2)

/-- Flush an incomplete trailing character as a replacement character. -/
def finish : OutputBuffer :=
  ({ b with decoder := .start }.accept limits (decodeFlush b.decoder)).2

/-- Retained, sanitized output and what the limits dropped from the whole stream. -/
def snapshot : BoundedOutput × OutputBuffer :=
  let stored := (b.chunks.map (·.text)).flatten
  let kept := boundOutput stored limits
  let storedLines := lines b.storedNewlines (decide (stored = []) || Output.endsWithNewline stored)
  let keptLines := storedLines - kept.droppedLines
  let next :=
    if limits.retain = .tail ∨ 1 < b.chunks.length then
      let text := if limits.retain = .tail then tailMargin stored limits else stored
      let bytes := if limits.retain = .tail then byteLength text else b.storedBytes
      let chunks := if text = [] then []
        else [StoredChunk.mk text bytes (countNewlines text)]
      { b with
        chunks := chunks
        storedBytes := bytes
        storedNewlines := (chunks.head?.map (·.newlines)).getD 0 }
    else b
  ({ text := sanitizeOutput kept.text
     droppedBytes := b.totalBytes - kept.bytes
     droppedLines := lines b.totalNewlines b.endsWithNewline - keptLines }, next)

end OutputBuffer

/-! ## The whole output -/

/-- The units of chunks with whether bytes were decoded to them, and the decoder after them. A text
chunk ends an incomplete character. -/
def decodeChunks : DecodeState → List OutputChunk → List (UInt16 × Bool) × DecodeState
  | state, [] => ([], state)
  | state, .text text :: chunks =>
    let rest := decodeChunks .start chunks
    ((decodeFlush state).map (·, true) ++ text.map (·, false) ++ rest.1, rest.2)
  | state, .bytes bytes :: chunks =>
    let decoded := decodeBytes state bytes
    let rest := decodeChunks decoded.2 chunks
    (decoded.1.map (·, true) ++ rest.1, rest.2)

/-- The text without a byte-order mark of the bytes that it starts with. -/
def withoutMark : List (UInt16 × Bool) → Str
  | (0xFEFF, true) :: units => units.map (·.1)
  | units => units.map (·.1)

/-- The text decoded so far. -/
def decodedText (chunks : List OutputChunk) : Str := withoutMark (decodeChunks .start chunks).1

/-- The whole output, bounded. -/
def boundWhole (limits : OutputLimits) (text : Str) : BoundedOutput :=
  let out := boundOutput text limits
  { text := sanitizeOutput out.text
    droppedBytes := out.droppedBytes
    droppedLines := out.droppedLines }

/-- What happens to a buffer. -/
inductive Event where
  | push (chunk : OutputChunk)
  | snapshot

/-- The chunks that were pushed. -/
def pushes (events : List Event) : List OutputChunk :=
  events.filterMap fun
    | .push chunk => some chunk
    | .snapshot => none

/-- The buffer after events, none of which skips output. -/
def run (limits : OutputLimits) (b : OutputBuffer) (events : List Event) : OutputBuffer :=
  events.foldl
    (fun b event => match event with
      | .push chunk => (b.push limits chunk none).2
      | .snapshot => (b.snapshot limits).2) b

end Output
