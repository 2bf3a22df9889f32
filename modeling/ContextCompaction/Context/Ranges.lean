import ContextCompaction.Context.Store

/-!
# Context reads

The context of a conversation starts at the head of its newest head marker and goes to the newest entry,
or to a cut-off. A reader keeps the range that a read derived, and extends it on the next read by the
entries behind it.

* `readContext`: a read of its own; `readContextFrom`: one that reuses a range.
* `reads`: a run of reads while the store grows.
* `Store.HeadsReached`: no head marker names a head that later entries have not reached.
-/

namespace Context

open Js Sequences

structure ContextBounds where
  head : Option EntryRecord
  tail : EntryId

structure ContextView where
  head : Option EntryRecord
  entries : List EntryRecord
  contributions : List (List Message)
  messages : List Message

def emptyView : ContextView := ⟨none, [], [], []⟩

structure ContextRange where
  bounds : ContextBounds
  entries : List EntryRecord
  view : ContextView
  /-- Targets of the edits in `entries`. -/
  edited : List EntryId
  settled : List Message
  open_ : List Message

/-- The bounds of the context, or of the context cut off at a visible entry. -/
def captureContextBounds (s : Store) (conversationId : ConversationId) (at_ : Option EntryId) :
    Except ReadError (Option ContextBounds) := do
  match at_ with
  | none =>
    let page ← s.scanEntries conversationId none none 1 none
    match page.items.head? with
    | none => pure none
    | some newest => do
      let head ← s.findLatestHeadMarker conversationId newest.id
      pure (some ⟨head, newest.id⟩)
  | some tail =>
    match ← s.entry conversationId tail with
    | none => throw (.notVisible tail conversationId)
    | some _ => do
      let head ← s.findLatestHeadMarker conversationId tail
      pure (some ⟨head, tail⟩)

/-- The head marker followed by the range's non-head entries, or the whole range without a marker. -/
def selectActive (head : Option EntryRecord) (range : List EntryRecord) : List EntryRecord :=
  match head with
  | none => range
  | some marker => marker :: range.filter fun e => e.head.isNone

/-- The edits of a range by target, of which the newest counts. -/
def editsOf (entries : List EntryRecord) : List (EntryId × ContextEdit) :=
  mapOf ((entries.flatMap fun e => e.edits.getD []).map fun edit => (edit.target, edit))

/-- `settle()` of a context's messages. -/
def settleMessages (settled open_ : List Message) : List Message × List Message :=
  settle orderToolResults Message.isAssistant settled open_

def deriveRange (bounds : ContextBounds) (entries : List EntryRecord) : ContextRange :=
  let edits := editsOf entries
  let active := selectActive bounds.head entries
  let contributions := active.map fun e => contribute e ((mapGet edits e.id).map ContextEdit.action)
  let parts := settleMessages [] contributions.flatten
  { bounds
    entries
    view :=
      { head := bounds.head
        entries := active
        contributions
        messages := leadWithSystem (parts.1 ++ orderToolResults parts.2) }
    edited := edits.map Prod.fst
    settled := parts.1
    open_ := parts.2 }

/-- An edit among the new entries can change an earlier one, so that the whole range is derived again. -/
def extendRange (previous : ContextRange) (bounds : ContextBounds) (added : List EntryRecord) :
    ContextRange :=
  let entries := previous.entries ++ added
  if added.any fun e => e.edits.isSome || e.head.isSome || decide (e.id ∈ previous.edited) then
    deriveRange bounds entries
  else
    let contributions := added.map fun e => contribute e none
    let parts := settleMessages previous.settled (previous.open_ ++ contributions.flatten)
    { bounds
      entries
      view :=
        { head := bounds.head
          entries := previous.view.entries ++ added
          contributions := previous.view.contributions ++ contributions
          messages := leadWithSystem (parts.1 ++ orderToolResults parts.2) }
      edited := previous.edited
      settled := parts.1
      open_ := parts.2 }

/-- The visible range of bounds: from the head marker's head, or transcript start, through the tail. -/
def scanBounds (s : Store) (conversationId : ConversationId) (bounds : ContextBounds) :
    Except ReadError (List EntryRecord) :=
  s.scanRange conversationId (bounds.head.bind EntryRecord.head) (some bounds.tail)

/-- A read that reuses no range. -/
def readContext (s : Store) (conversationId : ConversationId) (at_ : Option EntryId) :
    Except ReadError ContextView := do
  match ← captureContextBounds s conversationId at_ with
  | none => pure emptyView
  | some bounds => do
    let entries ← scanBounds s conversationId bounds
    pure (deriveRange bounds entries).view

/-- The bounds are captured on the Session line, and the entries scanned off it, where the store may have
grown. -/
def readContextFrom (captured scanned : Store) (conversationId : ConversationId) (at_ : Option EntryId)
    (previous : Option ContextRange) : Except ReadError (ContextView × Option ContextRange) := do
  match ← captureContextBounds captured conversationId at_ with
  | none => pure (emptyView, none)
  | some bounds => do
    let range ← do
      match previous.filter fun p => p.bounds.head.map EntryRecord.id = bounds.head.map EntryRecord.id with
      | none => do
        let entries ← scanBounds scanned conversationId bounds
        pure (deriveRange bounds entries)
      | some previous =>
        if bounds.tail = previous.bounds.tail then pure previous
        else if bounds.tail < previous.bounds.tail then
          pure (deriveRange bounds (previous.entries.filter fun e => e.id ≤ bounds.tail))
        else do
          let added ← scanned.scanRange conversationId (some (previous.bounds.tail + 1)) (some bounds.tail)
          pure (extendRange previous bounds added)
    pure (range.view, some range)

/-! ## Runs -/

structure Read where
  captured : Store
  scanned : Store
  at_ : Option EntryId

/-- The views of some reads, each given the range of the one before. A read that throws returns none, and
its caller keeps the range it had. -/
def reads (conversationId : ConversationId) :
    Option ContextRange → List Read → List (Except ReadError ContextView)
  | _, [] => []
  | previous, r :: rest =>
    match readContextFrom r.captured r.scanned conversationId r.at_ previous with
    | .ok (view, range) => .ok view :: reads conversationId range rest
    | .error e => .error e :: reads conversationId previous rest

/-- Reads of a store while it grows. -/
inductive Grows : Store → List Read → Store → Prop
  | nil {s s' : Store} (h : s.Commits s') : Grows s [] s'
  | cons {s s' : Store} {r : Read} {rest : List Read} (hcaptured : s.Commits r.captured)
      (hscanned : r.captured.Commits r.scanned) (hrest : Grows r.scanned rest s') :
      Grows s (r :: rest) s'

/-- No entry that a head marker still heads is before the head that the marker names. -/
def Store.HeadsReached (s : Store) (conversationId : ConversationId) : Prop :=
  ∀ m ∈ s.visible conversationId, ∀ h ∈ m.head, ∀ e ∈ s.visible conversationId, m.id < e.id →
    (∀ m' ∈ s.visible conversationId, m.id < m'.id → m'.id ≤ e.id → m'.head = none) → h ≤ e.id

end Context
