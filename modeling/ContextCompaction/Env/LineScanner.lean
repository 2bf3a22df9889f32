import ContextCompaction.Js.TextDecoder
import ContextCompaction.Sequences.Pieces

/-!
# Where the lines of a file are

`LineScanner` is fed the bytes of a file in order and finds the bytes of a range of lines, and how many
bytes their text takes. It keeps a decoder for the selection and one for its first line, and no text.

* `LineScanner.push`, `LineScanner.finish`: the scan.
* `scanLines`: what the scan is for, said of the whole file.
-/

namespace Env

open Js Sequences

def NEWLINE : UInt8 := 0x0A

/-- Whether decoding the whole input drops its first three bytes as a byte-order mark. -/
def startsWithBom (firstBytes : List UInt8) : Bool := [0xEF, 0xBB, 0xBF].isPrefixOf firstBytes

/-- UTF-8 byte length of decoded text. -/
def decodedBytes (text : Str) : Nat := if text = [] then 0 else byteLength text

/-- Where lines of a file are. -/
structure LineScan where
  newlines : Nat
  start : Nat
  end_ : Nat
  firstLineEnd : Nat
  lastLineStart : Nat
  selectedBytes : Nat
  firstLineBytes : Nat
  deriving DecidableEq, Repr

structure LineScanner where
  startLine : Nat
  /-- `none` is to the end. -/
  endLine : Option Nat
  position : Nat
  newlines : Nat
  lineStart : Nat
  start : Option Nat
  end_ : Option Nat
  firstLineEnd : Option Nat
  lastLineStart : Option Nat
  selectedBytes : Nat
  firstLineBytes : Nat
  selection : Option DecodeState
  firstLine : Option DecodeState
  /-- The first bytes, held until it is known whether they are a byte-order mark. -/
  head : Option (List UInt8)
  bom : Bool

namespace LineScanner

def begin (s : LineScanner) (start : Nat) : LineScanner :=
  { s with
    start := some start
    lastLineStart := if s.endLine.any (s.startLine = · - 1) then some start else s.lastLineStart
    selection := some .start
    firstLine := some .start }

/-- The constructor, for line numbers that are integers. -/
def new (startLine : Nat) (endLine : Option Nat) : Except Str LineScanner :=
  if ¬ startLine < 2 ^ 53 ∨ endLine.any (fun endLine => ¬ startLine < endLine ∨ ¬ endLine < 2 ^ 53) then
    .error (lit "Invalid line range")
  else
    let s : LineScanner := {
      startLine, endLine, position := 0, newlines := 0, lineStart := 0, start := none, end_ := none
      firstLineEnd := none, lastLineStart := none, selectedBytes := 0, firstLineBytes := 0
      selection := none, firstLine := none, head := some [], bom := false }
    .ok (if startLine = 0 then s.begin 0 else s)

def endFirstLine (s : LineScanner) (position : Nat) : LineScanner :=
  { s with
    firstLineEnd := some position
    firstLineBytes := s.firstLineBytes + (s.firstLine.map fun d => decodedBytes (decodeFlush d)).getD 0
    firstLine := none }

def endSelection (s : LineScanner) (position : Nat) : LineScanner :=
  { s with
    end_ := some position
    selectedBytes := s.selectedBytes + (s.selection.map fun d => decodedBytes (decodeFlush d)).getD 0
    selection := none }

/-- Feed `chunk[from, to)`, which starts at file offset `base`, to the decoders of the ranges still
open. -/
def feed (s : LineScanner) (chunk : List UInt8) (base from_ to_ : Nat) : LineScanner :=
  -- Decoding the whole file drops a leading byte-order mark.
  let from_ := if s.bom && decide (base + from_ < 3) then min to_ (3 - base) else from_
  if to_ ≤ from_ then s
  else
    let bytes := (chunk.take to_).drop from_
    { s with
      selectedBytes := s.selectedBytes +
        (s.selection.map fun d => decodedBytes (decodeBytes d bytes).1).getD 0
      selection := s.selection.map fun d => (decodeBytes d bytes).2
      firstLineBytes := s.firstLineBytes +
        (s.firstLine.map fun d => decodedBytes (decodeBytes d bytes).1).getD 0
      firstLine := s.firstLine.map fun d => (decodeBytes d bytes).2 }

/-- The newline at `index` ends the line `s.newlines`. It belongs to the selection between selected
lines only. -/
def newline (s : LineScanner) (chunk : List UInt8) (base from_ index : Nat) : LineScanner :=
  let s := s.feed chunk base from_ index
  let line := s.newlines
  let position := base + index
  let s := if line = s.startLine then s.endFirstLine position else s
  let s := if s.endLine.any (line = · - 1) then s.endSelection position else s
  let s := s.feed chunk base index (index + 1)
  let s := { s with newlines := s.newlines + 1, lineStart := position + 1 }
  let s := if s.newlines = s.startLine then s.begin s.lineStart else s
  if s.endLine.any (s.newlines = · - 1) then { s with lastLineStart := some s.lineStart } else s

/-- The newlines of a chunk, from `index` on: `rest` is `chunk[index:]`, and what stands before `from_`
has been fed. -/
def newlinesFrom (chunk : List UInt8) (base : Nat) :
    List UInt8 → Nat → Nat → LineScanner → LineScanner × Nat
  | [], _, from_, s => (s, from_)
  | b :: rest, index, from_, s =>
    if b = NEWLINE then
      newlinesFrom chunk base rest (index + 1) (index + 1) (s.newline chunk base from_ index)
    else newlinesFrom chunk base rest (index + 1) from_ s

def process (s : LineScanner) (chunk : List UInt8) : LineScanner :=
  let base := s.position
  let (s, from_) := newlinesFrom chunk base chunk 0 0 s
  let s := s.feed chunk base from_ chunk.length
  { s with position := s.position + chunk.length }

def releaseHead (s : LineScanner) : LineScanner :=
  let head := s.head.getD []
  { s with head := none, bom := startsWithBom head }.process head

def push (s : LineScanner) (chunk : List UInt8) : LineScanner :=
  match s.head with
  | some head =>
    let take := min (3 - head.length) chunk.length
    let head := head ++ chunk.take take
    let s := { s with head := some head }
    if head.length < 3 then s else s.releaseHead.process (chunk.drop take)
  | none => s.process chunk

def finish (s : LineScanner) : LineScan :=
  let s := if s.head ≠ none then s.releaseHead else s
  let size := s.position
  match s.start with
  | none =>
    { newlines := s.newlines, start := size, end_ := size, firstLineEnd := size, lastLineStart := size
      selectedBytes := 0, firstLineBytes := 0 }
  | some start =>
    let s := if s.firstLineEnd = none then s.endFirstLine size else s
    let s := if s.end_ = none then s.endSelection size else s
    { newlines := s.newlines
      start
      end_ := s.end_.getD size
      firstLineEnd := s.firstLineEnd.getD size
      -- A selection that reaches past the last line ends with the last line.
      lastLineStart := s.lastLineStart.getD s.lineStart
      selectedBytes := s.selectedBytes
      firstLineBytes := s.firstLineBytes }

end LineScanner

/-! ## The whole file -/

/-- `new TextDecoder().decode(bytes)`. -/
def decodeText (bytes : List UInt8) : Str :=
  decodeUtf8 (if startsWithBom bytes then bytes.drop 3 else bytes)

/-- The scan of a whole file. A selection past the last line is empty at the end of the file. -/
def scanLines (bytes : List UInt8) (startLine : Nat) (endLine : Option Nat) : LineScan :=
  let lines := bytes.splitOn NEWLINE
  let texts := (decodeText bytes).splitOn 0x0A
  if startLine < lines.length then
    let stop := min (endLine.getD lines.length) lines.length
    { newlines := lines.length - 1
      start := pieceStart lines startLine
      end_ := pieceEnd lines (stop - 1)
      firstLineEnd := pieceEnd lines startLine
      lastLineStart := pieceStart lines (stop - 1)
      selectedBytes := byteLength (join "\n" ((texts.take stop).drop startLine))
      firstLineBytes := byteLength (texts[startLine]?.getD []) }
  else
    { newlines := lines.length - 1, start := bytes.length, end_ := bytes.length
      firstLineEnd := bytes.length, lastLineStart := bytes.length, selectedBytes := 0
      firstLineBytes := 0 }

end Env
