import ContextCompaction.Context.Ranges

/-!
# Where a compaction cuts

A compaction summarizes the entries before a cut, and the summary's head is the entry at the cut.

* `estimateMessageTokens`: the size of a message.
* `selectCut`: the cut that keeps enough, at an entry that a result of earlier calls does not follow.
* `summarizedMessages`: what is summarized.
-/

namespace Context

open Js

/-! ## Sizes -/

/-- The strings of a record's fields that are not `null`. -/
def sectionTexts (sections : Json) : List Str :=
  ((sections.obj?.getD []).map Prod.snd).filterMap Json.str?

/-- The text of a block of type `text`. -/
def textOf (block : Json) : Option Str :=
  if (block.get? (lit "type")).bind Json.str? = some (lit "text") then (block.get? (lit "text")).bind Json.str?
  else none

def contentText : Json → Str
  | .str text => text
  | content => join "\n" ((content.arr?.getD []).filterMap textOf)

def getSystemMessageText (message : Json) : Str :=
  let parts := contentText ((message.get? (lit "content")).getD .null) ::
    sectionTexts ((message.get? (lit "sections")).getD .null)
  join "\n\n" (parts.filter (!·.isEmpty))

/-- `Math.ceil(chars / CHARS_PER_TOKEN)`, with 3.5 characters per token. -/
def tokensOf (chars : Nat) : Nat := (2 * chars + 6) / 7

def ESTIMATED_IMAGE_CHARS : Nat := 4800

def estimateTextAndImageContentChars : Json → Nat
  | .str text => text.length
  | content => ((content.arr?.getD []).map fun block =>
      ((textOf block).map List.length).getD ESTIMATED_IMAGE_CHARS).sum

/-- A field that is missing or empty says nothing of tools. -/
def estimateToolsTokens : Option Json → Nat
  | some (.arr []) => 0
  | some tools => tokensOf (stringify tools).length
  | none => 0

def blockChars : Block → Nat
  | .toolCall call => call.name.length + (stringify call.arguments).length
  | .other block => ((textOf block).orElse fun _ => (block.get? (lit "thinking")).bind Json.str?).elim 0 List.length

def estimateMessageTokens : Message → Nat
  | .system message =>
    tokensOf (getSystemMessageText message).length + estimateToolsTokens (message.get? (lit "toolsAdded")) +
      estimateToolsTokens (message.get? (lit "toolsRemoved"))
  | .user message => tokensOf (estimateTextAndImageContentChars ((message.get? (lit "content")).getD .null))
  | .toolResult message => tokensOf (estimateTextAndImageContentChars message.content)
  | .assistant message => tokensOf (message.content.map blockChars).sum

/-- `kept < keepRecentTokens`. -/
def fewer (kept : Nat) : Number → Bool
  | .nan => false
  | .infinite negative => !negative
  | .finite negative abs _ => decide ((kept : ℚ) < signed negative abs)

/-! ## Candidates -/

/-- The IDs of the calls, if it is an assistant message. -/
def Message.calls? : Message → Option (List Str)
  | .assistant message => some ((message.content.filterMap Block.toolCall?).map ToolCall.id)
  | _ => none

/-- The calls of the last assistant message of some contributions, the last contribution first. -/
def precedingCalls (before : List (List Message)) : List Str :=
  (before.findSome? fun contribution => contribution.reverse.findSome? Message.calls?).getD []

/-- A result of the calls comes before the next assistant message. -/
def resultFollows (calls : List Str) : List Message → Bool
  | [] => false
  | .assistant _ :: _ => false
  | .toolResult result :: rest => decide (result.toolCallId ∈ calls) || resultFollows calls rest
  | _ :: rest => resultFollows calls rest

def isCandidate (contributions : List (List Message)) (index : Nat) : Bool :=
  match contributions[index]?.bind List.head? with
  | some (.assistant _) => true
  | some (.user _) =>
    let calls := precedingCalls (contributions.take index).reverse
    -- The entry starts with the user message, so that the first assistant message is behind it.
    calls.isEmpty || !resultFollows calls (contributions.drop index).flatten
  | _ => false

/-! ## The cut -/

/-- The walk back over the first contributions, until enough is kept. -/
def keptFrom (contributions : List (List Message)) (keepRecentTokens : Number) (start : Nat) :
    Nat → Nat → Option Nat
  | 0, _ => none
  | n + 1, kept =>
    let kept := kept + ((contributions[start + n]?.getD []).map estimateMessageTokens).sum
    if fewer kept keepRecentTokens then keptFrom contributions keepRecentTokens start n kept
    else some (start + n)

/-- The first entry behind the head marker. -/
def ContextView.start (view : ContextView) : Nat := if view.head.isNone then 0 else 1

def selectCut (view : ContextView) (keepRecentTokens : Number) : Option Nat := do
  let contributions := view.contributions
  let start := view.start
  let candidates := (List.range' start (contributions.length - start)).filter (isCandidate contributions)
  let index ← keptFrom contributions keepRecentTokens start (contributions.length - start) 0
  let cut ← (candidates.find? fun candidate => index ≤ candidate).or candidates.getLast?
  if ((contributions.take cut).drop start).any (!·.isEmpty) then some cut else none

/-- The messages of the entries before the cut. -/
def summarizedMessages (view : ContextView) (cut : Nat) : List Message :=
  orderToolResults (view.contributions.take cut).flatten

end Context
