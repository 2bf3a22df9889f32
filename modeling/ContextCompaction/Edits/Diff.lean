import Mathlib.Data.List.Sort
import Mathlib.Data.List.DropRight
import ContextCompaction.Js.Except
import ContextCompaction.Js.Split
import ContextCompaction.Sequences.LineGroups

/-!
# Edits of a text

The code of `edit-diff.ts` in `packages/coding-agent/src/core/tools` and in `packages/durable/src/tools`, and what
`edit.ts` writes.

* `normalizeToLF`, `detectLineEnding`, `restoreLineEndings`, `stripBom`: the form that edits work on.
* `normalizeForFuzzyMatch`: the form in which a text is looked for when it does not occur as it is.
* `applyEditsToNormalizedContent`: the edits found, checked, and applied.
* `editText`: what the tool writes for what it read.

`text.normalize("NFKC")` is a parameter.
-/

namespace Edits

open Js Sequences

/-- `"\r"`. -/
def cr : UInt16 := 0x0D

/-- `"\n"`. -/
def lf : UInt16 := 0x0A

/-- The line ending of a file, by its first line feed. -/
inductive LineEnding where
  | crlf
  | lf
  deriving DecidableEq, Repr

/-- The text of a line ending. -/
def LineEnding.text : LineEnding → Str
  | .crlf => [cr, Edits.lf]
  | .lf => [Edits.lf]

/-- Whether the first line feed of a text stands behind a carriage return. -/
def detectLineEnding (content : Str) : LineEnding :=
  match indexFrom content [lf] 0, indexFrom content [cr, lf] 0 with
  | none, _ => .lf
  | _, none => .lf
  | some lfIdx, some crlfIdx => if crlfIdx < lfIdx then .crlf else .lf

/-- `text.replace(/\r\n/g, "\n")`. -/
def replaceCrlf : Str → Str
  | [] => []
  | [u] => [u]
  | u :: v :: rest => if u = cr ∧ v = lf then lf :: replaceCrlf rest else u :: replaceCrlf (v :: rest)

/-- Each `"\r\n"` and each other carriage return becomes a line feed. -/
def normalizeToLF (text : Str) : Str := (replaceCrlf text).map fun u => if u = cr then lf else u

/-- The line feeds of a text written with the file's ending. -/
def restoreLineEndings (text : Str) (ending : LineEnding) : Str :=
  if ending = .crlf then text.flatMap fun u => if u = lf then [cr, lf] else [u] else text

/-- The mark, if the text starts with one, and the text behind it. -/
def stripBom (content : Str) : Str × Str :=
  match content with
  | [] => ([], [])
  | u :: rest => if u = 0xFEFF then ([u], rest) else ([], u :: rest)

/-! ## The fuzzy form -/

/-- `s.trimEnd()`. -/
def trimEnd (s : Str) : Str := s.rdropWhile isSpace

/-- The single quotation marks that are matched as `'`. -/
def isSingleQuote (u : UInt16) : Bool := 0x2018 ≤ u && u ≤ 0x201B

/-- The double quotation marks that are matched as `"`. -/
def isDoubleQuote (u : UInt16) : Bool := 0x201C ≤ u && u ≤ 0x201F

/-- The dashes and hyphens that are matched as `-`, the minus sign among them. -/
def isDash (u : UInt16) : Bool := (0x2010 ≤ u && u ≤ 0x2015) || u == 0x2212

/-- The spaces that are matched as `" "`. -/
def isSpecialSpace (u : UInt16) : Bool :=
  u == 0x00A0 || (0x2002 ≤ u && u ≤ 0x200A) || u == 0x202F || u == 0x205F || u == 0x3000

/-- `text.replace(/[p]/g, r)` for a replacement of one unit. -/
def replaceUnits (p : UInt16 → Bool) (r : UInt16) (text : Str) : Str :=
  text.map fun u => if p u then r else u

/-- Quotes, dashes and spaces in their ASCII form. -/
def toAscii (text : Str) : Str :=
  replaceUnits isSpecialSpace 0x20 (replaceUnits isDash 0x2D
    (replaceUnits isDoubleQuote 0x22 (replaceUnits isSingleQuote 0x27 text)))

section Fuzzy

variable (nfkc : Str → Str)

/-- The form in which texts are compared when the exact one is not found: NFKC, no spaces at the ends of
lines, and plain quotation marks, dashes and spaces. -/
def normalizeForFuzzyMatch (text : Str) : Str :=
  toAscii ([lf].intercalate (((nfkc text).splitOn lf).map trimEnd))

/-- Where a text was found, and in which form of the content. -/
structure FuzzyMatch where
  index : Nat
  matchLength : Nat
  usedFuzzyMatch : Bool
  contentForReplacement : Str

/-- A result that is not found uses no fuzzy match. -/
def fuzzyFindText (content oldText : Str) : Option FuzzyMatch :=
  match indexFrom content oldText 0 with
  | some exactIndex => some ⟨exactIndex, oldText.length, false, content⟩
  | none =>
    let fuzzyContent := normalizeForFuzzyMatch nfkc content
    let fuzzyOldText := normalizeForFuzzyMatch nfkc oldText
    match indexFrom fuzzyContent fuzzyOldText 0 with
    | none => none
    | some fuzzyIndex => some ⟨fuzzyIndex, fuzzyOldText.length, true, fuzzyContent⟩

/-- How often the old text stands in the content, both normalized; `split` counts places that do not
overlap. -/
def countOccurrences (content oldText : Str) : Int :=
  (split (normalizeForFuzzyMatch nfkc oldText) (normalizeForFuzzyMatch nfkc content)).length - 1

end Fuzzy

/-! ## Lines -/

/-- `content.match(/[^\n]*\n|[^\n]+/g) ?? []`. -/
def splitLinesWithEndings (content : Str) : List Str := lines lf content

/-- A line by where it starts and where the next one does. -/
structure LineSpan where
  start : Nat
  stop : Nat
  deriving DecidableEq, Repr

/-- The spans of lines, of which the first starts at the offset. -/
def spansFrom : Nat → List Str → List LineSpan
  | _, [] => []
  | offset, line :: rest => ⟨offset, offset + line.length⟩ :: spansFrom (offset + line.length) rest

/-- The spans of all lines of a content. -/
def getLineSpans (content : Str) : List LineSpan := spansFrom 0 (splitLinesWithEndings content)

/-- `matchIndex`, `matchLength` and `newText` are `start`, `length` and `text`. -/
abbrev TextReplacement := Splice UInt16

/-- A replacement, and the position of the edit that it comes from. -/
structure MatchedEdit extends TextReplacement where
  editIndex : Nat

/-- What is thrown for a replacement that no line holds. -/
def outsideBase : Str := lit "Replacement range is outside the base content."

/-- The lines from the one that the replacement starts in to the first that reaches its end. -/
def getReplacementLineRange (lines : List LineSpan) (replacement : TextReplacement) : Except Str (Nat × Nat) :=
  match lines.findIdx? fun line => decide (line.start ≤ replacement.start ∧ replacement.start < line.stop) with
  | none => .error outsideBase
  | some startLine =>
    let endLine := startLine + (lines.drop startLine).findIdx fun line => !decide (line.stop < replacement.stop)
    if lines.length ≤ endLine then .error outsideBase else .ok (startLine, endLine + 1)

/-- The replacements, the last one first, in a content that starts at `offset`. -/
def applyReplacements (content : Str) (replacements : List TextReplacement) (offset : Nat) : Str :=
  replacements.foldr (fun replacement result =>
    let matchIndex := replacement.start - offset
    result.take matchIndex ++ replacement.text ++ result.drop (matchIndex + replacement.length)) content

/-- The replacement joins the last group if it starts in one of its lines. -/
def addReplacement (lines : List LineSpan) (groups : List (LineGroup UInt16)) (replacement : TextReplacement) :
    Except Str (List (LineGroup UInt16)) := do
  let (startLine, endLine) ← getReplacementLineRange lines replacement
  match groups.getLast? with
  | some current =>
    if startLine < current.endLine then
      return groups.dropLast ++
        [⟨current.startLine, max current.endLine endLine, current.replacements ++ [replacement]⟩]
    else return groups ++ [⟨startLine, endLine, [replacement]⟩]
  | none => return groups ++ [⟨startLine, endLine, [replacement]⟩]

/-- The text of the groups from the base, with the original lines before, between and behind them. -/
def assemble (originalLines : List Str) (baseLines : List LineSpan) (baseContent : Str) :
    Nat → Str → List (LineGroup UInt16) → Str
  | originalLineIndex, result, [] => result ++ (originalLines.drop originalLineIndex).flatten
  | originalLineIndex, result, group :: groups =>
    let result := result ++ between originalLines originalLineIndex group.startLine
    let groupStartOffset := ((baseLines[group.startLine]?).map LineSpan.start).getD 0
    let groupEndOffset := ((baseLines[group.endLine - 1]?).map LineSpan.stop).getD 0
    let result := result ++ applyReplacements (slice baseContent groupStartOffset groupEndOffset)
      group.replacements groupStartOffset
    assemble originalLines baseLines baseContent group.endLine result groups

/-- The original content, in which only the lines that a replacement touches come from the base content.
-/
def applyReplacementsPreservingUnchangedLines (originalContent baseContent : Str)
    (replacements : List TextReplacement) : Except Str Str := do
  let originalLines := splitLinesWithEndings originalContent
  let baseLines := getLineSpans baseContent
  if originalLines.length ≠ baseLines.length then
    throw (lit "Cannot preserve unchanged lines because the base content has a different line count.")
  let sortedReplacements := replacements.insertionSort fun a b => a.start ≤ b.start
  let groups ← sortedReplacements.foldlM (addReplacement baseLines) []
  return assemble originalLines baseLines baseContent 0 [] groups

/-! ## Errors -/

/-- A number in a template. -/
def shown (n : Nat) : Str := lit (toString n)

/-- The error of an edit whose old text is not in the file. -/
def getNotFoundError (path : Str) (editIndex totalEdits : Nat) : Str :=
  if totalEdits = 1 then
    lit "Could not find the exact text in " ++ path ++
      lit ". The old text must match exactly including all whitespace and newlines."
  else
    lit "Could not find edits[" ++ shown editIndex ++ lit "] in " ++ path ++
      lit ". The oldText must match exactly including all whitespace and newlines."

/-- The error of an edit whose old text is in the file more than once. -/
def getDuplicateError (path : Str) (editIndex totalEdits : Nat) (occurrences : Int) : Str :=
  if totalEdits = 1 then
    lit "Found " ++ lit (toString occurrences) ++ lit " occurrences of the text in " ++ path ++
      lit ". The text must be unique. Please provide more context to make it unique."
  else
    lit "Found " ++ lit (toString occurrences) ++ lit " occurrences of edits[" ++ shown editIndex ++ lit "] in " ++
      path ++ lit ". Each oldText must be unique. Please provide more context to make it unique."

/-- The error of an edit without an old text. -/
def getEmptyOldTextError (path : Str) (editIndex totalEdits : Nat) : Str :=
  if totalEdits = 1 then lit "oldText must not be empty in " ++ path ++ lit "."
  else lit "edits[" ++ shown editIndex ++ lit "].oldText must not be empty in " ++ path ++ lit "."

/-- The error of edits that leave the content. -/
def getNoChangeError (path : Str) (totalEdits : Nat) : Str :=
  if totalEdits = 1 then
    lit "No changes made to " ++ path ++ lit ". The replacement produced identical content. This might indicate an issue with special characters or the text not existing as expected."
  else lit "No changes made to " ++ path ++ lit ". The replacements produced identical content."

/-- The error of two edits that touch the same place. -/
def getOverlapError (path : Str) (previous current : Nat) : Str :=
  lit "edits[" ++ shown previous ++ lit "] and edits[" ++ shown current ++ lit "] overlap in " ++ path ++
    lit ". Merge them into one edit or target disjoint regions."

/-! ## Edits -/

/-- A text to be replaced by another one. -/
structure Edit where
  oldText : Str
  newText : Str
  deriving DecidableEq, Repr

/-- The edit with line feeds only. -/
def Edit.normalized (edit : Edit) : Edit := ⟨normalizeToLF edit.oldText, normalizeToLF edit.newText⟩

/-- The content before the edits and behind them. -/
structure AppliedEditsResult where
  baseContent : Str
  newContent : Str
  deriving DecidableEq, Repr

/-- Of edits in the order of their places, the first that starts inside the one before it. -/
def checkOverlaps (path : Str) : List MatchedEdit → Except Str Unit
  | previous :: current :: rest =>
    if current.start < previous.stop then .error (getOverlapError path previous.editIndex current.editIndex)
    else checkOverlaps path (current :: rest)
  | _ => .ok ()

section Apply

variable (nfkc : Str → Str)

/-- The place of one edit: its old text must be in the base, and only once. -/
def matchEdit (base path : Str) (totalEdits : Nat) (edit : Edit) (i : Nat) : Except Str MatchedEdit :=
  match fuzzyFindText nfkc base edit.oldText with
  | none => .error (getNotFoundError path i totalEdits)
  | some matchResult =>
    let occurrences := countOccurrences nfkc base edit.oldText
    if 1 < occurrences then .error (getDuplicateError path i totalEdits occurrences)
    else .ok ⟨⟨matchResult.index, matchResult.matchLength, edit.newText⟩, i⟩

/-- Some edit of the list needs the fuzzy form. -/
def usesFuzzyMatch (content : Str) (normalizedEdits : List Edit) : Bool :=
  normalizedEdits.any fun edit => (fuzzyFindText nfkc content edit.oldText).any (·.usedFuzzyMatch)

/-- All edits of one call, each matched against the content before any of them. -/
def applyEditsToNormalizedContent (normalizedContent : Str) (edits : List Edit) (path : Str) :
    Except Str AppliedEditsResult := do
  let normalizedEdits := edits.map Edit.normalized
  if let some i := normalizedEdits.findIdx? (·.oldText.isEmpty) then
    throw (getEmptyOldTextError path i normalizedEdits.length)
  let usedFuzzyMatch := usesFuzzyMatch nfkc normalizedContent normalizedEdits
  let replacementBaseContent :=
    if usedFuzzyMatch then normalizeForFuzzyMatch nfkc normalizedContent else normalizedContent
  let matchedEdits ← normalizedEdits.zipIdx.mapM fun (edit, i) =>
    matchEdit nfkc replacementBaseContent path normalizedEdits.length edit i
  let matchedEdits := matchedEdits.insertionSort fun a b => a.start ≤ b.start
  checkOverlaps path matchedEdits
  let replacements := matchedEdits.map (·.toSplice)
  let newContent ←
    if usedFuzzyMatch then
      applyReplacementsPreservingUnchangedLines normalizedContent replacementBaseContent replacements
    else pure (applyReplacements replacementBaseContent replacements 0)
  if normalizedContent = newContent then throw (getNoChangeError path normalizedEdits.length)
  return ⟨normalizedContent, newContent⟩

/-- What the edit tool writes for the text it read. -/
def editText (read : Str) (edits : List Edit) (path : Str) : Except Str Str := do
  let (bom, content) := stripBom read
  let originalEnding := detectLineEnding content
  let normalizedContent := normalizeToLF content
  let result ← applyEditsToNormalizedContent nfkc normalizedContent edits path
  return bom ++ restoreLineEndings result.newContent originalEnding

end Apply

end Edits
