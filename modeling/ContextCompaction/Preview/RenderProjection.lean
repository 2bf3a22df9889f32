import ContextCompaction.Core.Lineage
import ContextCompaction.Core.WorkNotes
import ContextCompaction.Sequences.Settling

/-!
# Rendering candidates

The model may see a checkpoint in another rendering than the stored one: old failed paths without their
evidence, repeated lineage sentences once, and sources with the role of the record that they cite.

* `projectedHead`: the note, with facts of the foldable sections cut down to their text and sources.
* `foldLineage`: the lineage section, with each sentence at its first place only.
* `projectSummary`: the rendering, from the stored summary, its note and the branch.
-/

namespace Compaction

open Js Sequences

inductive RenderCandidate where
  | foldedFailedPaths
  | lineageOnce
  | citedRoles
  deriving DecidableEq

/-- The lineage section's opening, behind the note. -/
def LINEAGE_START : Str := lit "\n\n## priorCheckpoints\n"

/-- Every section behind the note starts with it. -/
def SECTION_BOUNDARY : Str := lit "\n\n## "

def LINEAGE_ITEM_START : Str := lit "- through "

/-- It stands for an item whose sentences all appeared before. -/
def LINEAGE_REPEAT : Str := lit "(state as above)"

/-- `[.!?。！？…]`, which a sentence of the lineage ends with -/
def endsSentence (u : UInt16) : Bool := isAsciiStop u || isWideStop u || u == 0x2026

/-! ## Facts -/

/-- The role tag of one cited record. -/
def citedRole (entry : SessionRecord) : Str :=
  let role := sourceRole entry
  if role = lit "user" then lit "user"
  else if role = lit "assistant" then lit "assistant"
  else if role = lit "toolResult" ∨ role = lit "bashExecution" then lit "tool"
  else role

def quoteText (item : NoteFact) : Str :=
  match item.quote with
  | none | some [] => []
  | some q => lit "\n  Exact source: " ++ quote q

def supersedesText (item : NoteFact) : Str :=
  match item.supersedes with
  | none | some [] => []
  | some ids => lit " (supersedes: " ++ join ", " ids ++ lit ")"

/-- One fact line in `renderNote`'s shape, with the projection's source labels. -/
def factLine (item : NoteFact) (label : Str → Str) : Str :=
  lit "- " ++ item.text ++ quoteText item ++ lit " [" ++ join ", " (item.sources.map label) ++ lit "]" ++
    supersedesText item

/-- The one-line fold of a fact. -/
def foldedFactLine (item : NoteFact) (label : Str → Str) : Str :=
  lit "- " ++ fold item.text ++ lit " [" ++ join ", " (item.sources.map label) ++ lit "]"

def FOLDABLE_SECTIONS : List NoteSection := [.failedPaths, .reasons]

/-- A rendered note whose facts have these lines. -/
def headOf (note : MemoryNote) (lines : NoteSection → List Str) : Str :=
  OPENING ++ lit "\n\n" ++
    join "\n\n" (noteSections.map (fun s => lit "## " ++ lit s.name ++ lit "\n" ++ join "\n" (lines s)) ++
      (if note.gaps = [] then [] else [renderGaps note.gaps]))

def projectedHead (note : MemoryNote) (label : Str → Str) (folds : NoteFact → Bool) (fold : Bool) : Str :=
  headOf note fun s => (note.facts s).map fun item =>
    if fold && decide (s ∈ FOLDABLE_SECTIONS) && folds item then foldedFactLine item label
    else factLine item label

/-! ## Lineage -/

/-- `text.split(/(?<=[.!?。！？…]) /u)`, behind a unit or at the start -/
def splitSentences : Option UInt16 → Str → List Str
  | _, [] => [[]]
  | before, u :: text =>
    if u = 0x20 ∧ before.any endsSentence then [] :: splitSentences (some u) text
    else
      match splitSentences (some u) text with
      | [] => [[u]]
      | sentence :: rest => (u :: sentence) :: rest

/-- The sentences that are not seen yet. -/
def unseen (seen : List Str) : List Str → List Str
  | [] => []
  | sentence :: rest =>
    if sentence ∈ seen then unseen seen rest else sentence :: unseen (seen ++ [sentence]) rest

/-- One line of the section, and the sentences seen up to its end. -/
def foldLine (seen : List Str) (line : Str) : List Str × Str :=
  if ¬ LINEAGE_ITEM_START <+: line then (seen, line)
  else
    match indexFrom line (lit ": ") LINEAGE_ITEM_START.length with
    | none => (seen, line)
    | some separator =>
      let kept := unseen seen (splitSentences none (line.drop (separator + 2)))
      (seen ++ kept, line.take separator ++ lit ": " ++
        if kept = [] then LINEAGE_REPEAT else join " " kept)

def foldLines : List Str → List Str → List Str
  | _, [] => []
  | seen, line :: lines => (foldLine seen line).2 :: foldLines (foldLine seen line).1 lines

/-- The `lineage-once` fold of the stored lineage section. -/
def foldLineage (tail : Str) : Str :=
  match indexFrom tail LINEAGE_START 0 with
  | none => tail
  | some start =>
    let bodyStart := start + LINEAGE_START.length
    let bodyEnd := (indexFrom tail SECTION_BOUNDARY bodyStart).getD tail.length
    tail.take bodyStart ++ join "\n" (foldLines [] ((slice tail bodyStart bodyEnd).splitOn 0x0A)) ++
      tail.drop bodyEnd

/-! ## The projection -/

structure ProjectionInput where
  /-- The committed checkpoint's stored summary. -/
  summary : Str
  note : MemoryNote
  /-- The checkpoint's ID on the branch. -/
  entryId : Str
  branch : List SessionRecord
  candidates : List RenderCandidate

/-- The role of each record by its ID, of several with one ID of the first. -/
def citedRoles (branch : List SessionRecord) : List (Str × Str) :=
  branch.foldl (fun roles entry => mapSetFirst roles entry.id (citedRole entry)) []

/-- A source as the projection shows it. -/
def sourceLabel (branch : List SessionRecord) (candidates : List RenderCandidate) (id : Str) : Str :=
  if .citedRoles ∈ candidates then
    id ++ lit " (" ++ (mapGet (citedRoles branch) id).getD (lit "unknown") ++ lit ")"
  else id

/-- The newest compaction before the checkpoint. -/
def previousCheckpoint (branch : List SessionRecord) (entryId : Str) : Option Nat :=
  (branch.findIdx? fun entry => entry.id = entryId).bind fun checkpointIndex =>
    findLastIndex? (fun entry => decide (entry.type = .compaction)) (branch.take checkpointIndex)

/-- Only a fact whose every source precedes the previous checkpoint is old enough to fold. -/
def foldsBefore (branch : List SessionRecord) (entryId : Str) (item : NoteFact) : Bool :=
  (previousCheckpoint branch entryId).any fun previous =>
    item.sources.all fun id => (mapGet (firstPositions branch) id).any fun at_ => decide (at_ < previous)

/-- The checkpoint text that the model sees. -/
def projectSummary (input : ProjectionInput) : Str :=
  if input.candidates = [] then input.summary
  else
    let head := renderNote input.note []
    if ¬ head <+: input.summary then input.summary
    else
      let tail := input.summary.drop head.length
      let label := sourceLabel input.branch input.candidates
      let fold := decide (.foldedFailedPaths ∈ input.candidates)
      let tail := if .lineageOnce ∈ input.candidates then foldLineage tail else tail
      let projected := if fold ∨ .citedRoles ∈ input.candidates then
        projectedHead input.note label (foldsBefore input.branch input.entryId) fold else head
      projected ++ tail

end Compaction
