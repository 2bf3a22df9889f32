import ContextCompaction.Core.Checkpoints
import ContextCompaction.Core.History

/-!
# The typed list

`listHistory` on a frozen snapshot: the facts of one section that its checkpoints recorded, its file
edits, or its errors, newest first and with the price of reading each in full. Nothing is stored, so
every page computes its list again.

* `noteItems`, `editItems`, `errorItems`: the items of a kind.
* `readTokens`: what a read of a record returns, in tokens.
* `listHistory`: one page.
-/

namespace Compaction

open Js

/-! ## Items -/

/-- What a view lists: the facts of one note section, the edits, or the errors. -/
inductive HistoryViewKind where
  | note (section_ : NoteSection)
  | edits
  | errors
  deriving DecidableEq

/-- The kind as a request and a page name it. -/
def HistoryViewKind.name : HistoryViewKind → Str
  | .note s => lit s.name
  | .edits => lit "edits"
  | .errors => lit "errors"

/-- The bound on the length of an item's excerpt. -/
def VIEW_EXCERPT_CHARS : Nat := 400

/-- The tools whose calls count as edits. -/
def EDIT_TOOLS : List Str := [lit "edit", lit "write"]

/-- A record that an item rests on. -/
structure Located where
  entryId : Str
  role : Str
  position : Nat

/-- A slice of an entry's text and where it starts. -/
structure ViewExcerpt where
  entryId : Str
  offset : Nat
  text : Str

/-- A fact that a committed checkpoint recorded; an empty quotation or list is left out of its
JSON. -/
structure NoteDraft where
  kind : NoteSection
  summary : Str
  quote : Str
  sources : List Located
  supersedes : List Str
  recordedAt : Nat
  excerpt : ViewExcerpt
  supersededBy : List Str
  sourceRevisedBy : List Str
  inLatestCheckpoint : Bool

/-- What became of an edit, as its result says; an edit may be without one. -/
inductive EditOutcome where
  | ok
  | error
  | noResult

/-- The outcome as a page names it. -/
def EditOutcome.name : EditOutcome → Str
  | .ok => lit "ok"
  | .error => lit "error"
  | .noResult => lit "no-result"

/-- An edit before its price is known: the call, its path and its outcome. -/
structure EditDraft where
  entryId : Str
  position : Nat
  tool : Str
  path : Str
  outcome : EditOutcome

/-- An error before its price is known: a failed tool result, or a shell command that ended with a code
other than 0. -/
structure ErrorDraft where
  entryId : Str
  role : Str
  position : Nat
  tool : Option Str
  exitCode : Option Number
  excerpt : ViewExcerpt

/-- An item before its page prices it. -/
inductive ViewDraft where
  | note (draft : NoteDraft)
  | edit (draft : EditDraft)
  | error (draft : ErrorDraft)

/-- An item with the cost of a full read, and whether it is needed. -/
structure HistoryViewItem where
  draft : ViewDraft
  readTokens : Nat
  inContext : Bool

/-- A page of a view; `cursor` is there when more follow, `message` when there is nothing to list. -/
structure HistoryViewPage where
  sessionId : Str
  leafId : Option Str
  scopeHash : Str
  kind : HistoryViewKind
  items : List HistoryViewItem
  cursor : Option Str
  message : Option Str

/-! ### Their JSON -/

/-- The excerpt as a page holds it. -/
def ViewExcerpt.json (e : ViewExcerpt) : Json :=
  .obj [(lit "entryId", .str e.entryId), (lit "offset", .num (.ofNat e.offset)),
    (lit "text", .str e.text)]

/-- The source of a fact as a page holds it. -/
def Located.json (l : Located) : Json :=
  .obj [(lit "entryId", .str l.entryId), (lit "role", .str l.role),
    (lit "position", .num (.ofNat l.position))]

/-- A list of strings, absent if it is empty. -/
def nonemptyStrs (ss : List Str) : Option Json := if ss = [] then none else some (.arr (ss.map .str))

/-- The item's own fields, in the order in which a page holds them. -/
def ViewDraft.fields : ViewDraft → List (String × Option Json)
  | .note d =>
    [("kind", some (.str (lit d.kind.name))), ("summary", some (.str d.summary)),
      ("quote", if d.quote = [] then none else some (.str d.quote)),
      ("sources", some (.arr (d.sources.map Located.json))),
      ("supersedes", nonemptyStrs d.supersedes),
      ("recordedAt", some (.num (.ofNat d.recordedAt))), ("excerpt", some d.excerpt.json),
      ("supersededBy", nonemptyStrs d.supersededBy),
      ("sourceRevisedBy", nonemptyStrs d.sourceRevisedBy),
      ("inLatestCheckpoint", some (.bool d.inLatestCheckpoint))]
  | .edit d =>
    [("kind", some (.str (lit "edits"))), ("entryId", some (.str d.entryId)),
      ("position", some (.num (.ofNat d.position))), ("tool", some (.str d.tool)),
      ("path", some (.str d.path)), ("outcome", some (.str d.outcome.name))]
  | .error d =>
    [("kind", some (.str (lit "errors"))), ("entryId", some (.str d.entryId)),
      ("role", some (.str d.role)), ("position", some (.num (.ofNat d.position))),
      ("tool", d.tool.map .str), ("exitCode", d.exitCode.map .num), ("excerpt", some d.excerpt.json)]

/-- The item as a page holds it, its price and its place behind its own fields. -/
def HistoryViewItem.json (item : HistoryViewItem) : Json :=
  .obj (present (item.draft.fields ++ [("readTokens", some (.num (.ofNat item.readTokens))),
    ("inContext", if item.inContext then some (.bool true) else none)]))

section

variable (t : TextTables)

/-! ## Terms -/

/-- The term rules of a search. -/
def viewTerms (query : Str) : List Str := searchTerms t query

/-- The start of a record's text, or what surrounds the first term. -/
def viewExcerpt (entry : SessionRecord) (terms : List Str) : ViewExcerpt :=
  let text := sourceText entry
  let hits := terms.filterMap fun term => indexFrom (t.lower text) term 0
  let offset := hits.min?.getD 0 - 80
  ⟨entry.id, offset, slice text offset (offset + VIEW_EXCERPT_CHARS)⟩

/-- Whether a text holds one of the terms. -/
def matchesTerm (text : Str) (terms : List Str) : Bool :=
  terms.any fun term => includes (t.lower text) term

/-! ## Facts -/

/-- An array of strings. -/
def strings? (value : Option Json) : Option (List Str) :=
  (value.bind Json.arr?).bind fun xs => xs.mapM Json.str?

/-- The note of a committed checkpoint, as far as it is one. -/
def checkpointNote (entry : SessionRecord) : Option (List (Str × Json)) :=
  if entry.type = .compaction then
    (entry.details.bind Json.obj?).bind fun details =>
      if strField? details "kind" = some CONTEXT_MEMORY_KIND ∧
          (field details "version").bind count? = some 1 then
        (field details "note").bind Json.obj?
      else none
  else none

/-- A fact of any section, for the revisions. -/
structure DistinctFact where
  section_ : NoteSection
  sources : List Str
  supersedes : List Str

/-- What the walk over the checkpoints has read. -/
structure FactWalk where
  distinct : List (Str × DistinctFact)
  recorded : List (Str × NoteDraft × Nat)
  seen : List (Str × Nat)

/-- The source that stands last on the branch. -/
def newestSource (position : List (Str × Nat)) (sources : List Str) : Str :=
  match sources with
  | [] => []
  | first :: rest => rest.foldl (fun a b =>
      if (mapGet position b).getD 0 ≤ (mapGet position a).getD 0 then a else b) first

/-- One fact of the checkpoint at `index`. -/
def readFact (entries : List SessionRecord) (position : List (Str × Nat)) (kind : NoteSection)
    (terms : List Str) (index : Nat) (section_ : NoteSection) (walk : FactWalk) (fact : Json) :
    FactWalk :=
  match fact.obj? with
  | none => walk
  | some fields =>
    match strField? fields "text" with
    | none => walk
    | some summary =>
      let sources := ((strings? (field fields "sources")).getD []).filter fun id =>
        (mapGet position id).isSome
      if sources = [] then walk
      else
        let supersedes := (strings? (field fields "supersedes")).getD []
        let quote := (strField? fields "quote").getD []
        let base := stringify (.arr [.str (lit section_.name),
          .arr ((sources.insertionSort fun a b => keyLe a b).map .str), .str quote])
        let occurrence := (mapGet walk.seen base).getD 0
        let key := base ++ lit "#" ++ (Number.ofNat occurrence).text
        let walk := { walk with
          seen := mapSet walk.seen base (occurrence + 1)
          distinct := mapSet walk.distinct key ⟨section_, sources, supersedes⟩ }
        if section_ ≠ kind then walk
        else
          let at_ := fun id => (mapGet position id).getD 0
          let draft : NoteDraft :=
            { kind, summary, quote, supersedes
              sources := sources.map fun id =>
                ⟨id, (entries[at_ id]?.map sourceRole).getD [], at_ id⟩
              recordedAt := ((mapGet walk.recorded key).map fun r => r.1.recordedAt).getD index
              excerpt := (entries[at_ (newestSource position sources)]?.map fun entry =>
                viewExcerpt t entry terms).getD ⟨[], 0, []⟩
              supersededBy := [], sourceRevisedBy := [], inLatestCheckpoint := false }
          { walk with recorded := mapSet walk.recorded key (draft, index) }

/-- The facts of one checkpoint, section by section. -/
def readCheckpoint (entries : List SessionRecord) (position : List (Str × Nat)) (kind : NoteSection)
    (terms : List Str) (walk : FactWalk) (index : Nat) (note : List (Str × Json)) : FactWalk :=
  noteSections.foldl (fun walk section_ =>
    (((field note section_.name).bind Json.arr?).getD []).foldl
      (readFact t entries position kind terms index section_) walk) { walk with seen := [] }

/-- The facts that name an entry in `supersedes`, by that entry. -/
def revisionsOf (distinct : List DistinctFact) (id : Str) : List DistinctFact :=
  distinct.flatMap fun fact => (fact.supersedes.filter (· = id)).map fun _ => fact

/-- How many facts of the section rest on an entry and do not replace it. -/
def onSource (distinct : List DistinctFact) (kind : NoteSection) (id : Str) : Nat :=
  ((distinct.filter fun fact => fact.section_ = kind).map fun fact =>
    (fact.sources.filter fun source => source = id ∧ source ∉ fact.supersedes).length).sum

/-- The entries that replace, or revise, what a fact rests on. -/
def markRevisions (distinct : List DistinctFact) (kind : NoteSection) (draft : NoteDraft) :
    List Str × List Str :=
  draft.sources.foldl (fun marks source =>
    let later := revisionsOf distinct source.entryId
    let same := later.filter fun fact => fact.section_ = kind
    let others := (later.filter fun fact => fact.section_ ≠ kind).flatMap DistinctFact.sources
    let ids := same.flatMap DistinctFact.sources
    if same ≠ [] ∧ onSource distinct kind source.entryId ≤ same.length then
      (marks.1 ++ ids, marks.2 ++ others)
    else (marks.1, marks.2 ++ ids ++ others)) ([], [])

/-- The facts of one section, each once in its latest wording. -/
def noteItems (entries : List SessionRecord) (kind : NoteSection) (terms : List Str) :
    List NoteDraft :=
  let position := mapOf (entries.zipIdx.map fun e => (e.1.id, e.2))
  let checkpoints := entries.zipIdx.filterMap fun e => (checkpointNote e.1).map fun note => (e.2, note)
  let walk := checkpoints.foldl (fun walk c => readCheckpoint t entries position kind terms walk c.1 c.2)
    ⟨[], [], []⟩
  let latest := checkpoints.getLast?.map Prod.fst
  let distinct := walk.distinct.map Prod.snd
  walk.recorded.map fun (_, draft, lastSeen) =>
    let own := draft.sources.map Located.entryId
    let marks := markRevisions distinct kind draft
    { draft with
      supersededBy := (setOf marks.1).filter fun id => id ∉ own
      sourceRevisedBy := (setOf marks.2).filter fun id => id ∉ own ∧ id ∉ marks.1
      inLatestCheckpoint := decide (latest = some lastSeen) }

/-! ## Edits and errors -/

/-- `message[key]`, a flag that may be absent. -/
def boolField? (fields : List (Str × Json)) (key : String) : Option Bool :=
  match field fields key with
  | some (.bool b) => some b
  | _ => none

/-- The `isError` flag of each tool result, by its call. -/
def resultFlags (entries : List SessionRecord) : List (Str × Option Bool) :=
  mapOf (entries.filterMap fun entry =>
    if entry.type = .message ∧ entry.role = lit "toolResult" then
      (strField? entry.message "toolCallId").map fun id => (id, boolField? entry.message "isError")
    else none)

/-- The edit that a block of a message calls for. -/
def editItemOf (results : List (Str × Option Bool)) (entry : SessionRecord) (position : Nat)
    (block : List (Str × Json)) : Option EditDraft :=
  if strField? block "type" = some (lit "toolCall") then
    (strField? block "name").bind fun tool =>
      if tool ∈ EDIT_TOOLS then
        ((field block "arguments").bind fun arguments =>
          (arguments.obj?.bind fun fields => strField? fields "path")).map fun path =>
            { entryId := entry.id, position, tool, path
              outcome := match (strField? block "id").bind fun id => (mapGet results id).join with
                | none => .noResult
                | some true => .error
                | some false => .ok }
      else none
  else none

/-- The calls of edit tools on the branch, oldest first. -/
def editItems (entries : List SessionRecord) : List EditDraft :=
  let results := resultFlags entries
  entries.zipIdx.flatMap fun e =>
    if e.1.type = .message ∧ e.1.role = lit "assistant" then
      ((field e.1.message "content").elim [] blocks).filterMap (editItemOf results e.1 e.2)
    else []

/-- The error that a record is. -/
def errorItemOf (terms : List Str) (entry : SessionRecord) (position : Nat) : Option ErrorDraft :=
  if entry.type ≠ .message then none
  else if entry.role = lit "toolResult" ∧ boolField? entry.message "isError" = some true then
    some ⟨entry.id, lit "toolResult", position, strField? entry.message "toolName", none,
      viewExcerpt t entry terms⟩
  else if entry.role = lit "bashExecution" then
    match (field entry.message "exitCode").bind Json.num? with
    | some code =>
      if code.isZero then none
      else some ⟨entry.id, lit "bashExecution", position, none, some code, viewExcerpt t entry terms⟩
    | none => none
  else none

/-- The errors on the branch, oldest first. -/
def errorItems (entries : List SessionRecord) (terms : List Str) : List ErrorDraft :=
  entries.zipIdx.filterMap fun e => errorItemOf t terms e.1 e.2

/-! ## The list -/

/-- The latest source of a fact, or the record's own position. -/
def newest : ViewDraft → Nat
  | .note d => (d.sources.map Located.position).foldl max 0
  | .edit d => d.position
  | .error d => d.position

/-- What the terms are looked for in. -/
def searchable (entries : List SessionRecord) : ViewDraft → Str
  | .note d => join "\n" (d.summary :: d.quote :: d.sources.map fun source =>
      (entries[source.position]?.map sourceText).getD [])
  | .edit d => d.tool ++ lit " " ++ d.path
  | .error d => d.tool.getD [] ++ lit " " ++ (entries[d.position]?.map sourceText).getD []

/-- All items of a kind. -/
def allItems (kind : HistoryViewKind) (terms : List Str) (entries : List SessionRecord) :
    List ViewDraft :=
  match kind with
  | .edits => (editItems entries).map ViewDraft.edit
  | .errors => (errorItems t entries terms).map ViewDraft.error
  | .note s => (noteItems t entries s terms).map ViewDraft.note

/-- The items of a kind that hold a term of the query, newest first. -/
def viewItems (kind : HistoryViewKind) (terms : List Str) (entries : List SessionRecord) :
    List ViewDraft :=
  ((allItems t kind terms entries).filter fun item =>
    terms = [] || matchesTerm t (searchable entries item) terms).insertionSort
      fun a b => newest b ≤ newest a

end

/-! ## Prices -/

/-- The excerpt of a search result as a page holds it. -/
def HistoryExcerpt.json (x : HistoryExcerpt) : Json :=
  .obj [(lit "entryId", .str x.entryId), (lit "parentId", orNull x.parentId), (lit "role", .str x.role),
    (lit "position", .num (.ofNat x.position)), (lit "offset", .num (.ofNat x.offset)),
    (lit "text", .str x.text)]

/-- The page as the model receives it. -/
def HistoryPage.json (page : HistoryPage) : Json :=
  .obj (present [("sessionId", some (.str page.sessionId)), ("leafId", some (orNull page.leafId)),
    ("scopeHash", some (.str page.scopeHash)),
    ("entries", some (.arr (page.entries.map HistoryExcerpt.json))),
    ("cursor", page.cursor.map .str), ("message", page.message.map .str)])

section

variable (t : TextTables) (sha256 : Sha256)

/-- The pages of a read, following cursors. -/
def readPages (single : HistorySnapshot) (id : Str) (position : Nat) :
    Nat → Option Str → Nat → Except Failure Nat
  -- Each page returns a part of one text, so the text's length bounds them.
  | 0, _, _ => .error (.error [])
  | fuel + 1, cursor, tokens => do
    let page ← queryHistory t sha256 single (HistoryQuery.json ⟨.read, none, some id, cursor, none⟩) 4000
    let tokens := tokens + textTokens (stringify (HistoryPage.json { page with
      entries := page.entries.map fun hit => { hit with position } }))
    match page.cursor with
    | none => .ok tokens
    | some [] => .ok tokens
    | some cursor => readPages single id position fuel (some cursor) tokens

/-- The tokens of what a read of a record returns. -/
def readTokens (snapshot : HistorySnapshot) (entry : SessionRecord) (position : Nat) :
    Except Failure Nat :=
  if sourceText entry = [] ∨ 64 < entry.id.length then .ok 0
  else readPages t sha256 { snapshot with entries := [entry] } entry.id position
    (sourceText entry).length none 0

/-- The records that an item's price covers. -/
def ViewDraft.priced : ViewDraft → List (Str × Nat)
  | .note d => d.sources.map fun source => (source.entryId, source.position)
  | .edit d => [(d.entryId, d.position)]
  | .error d => [(d.entryId, d.position)]

/-- The cost of the record at a position. -/
def costAt (snapshot : HistorySnapshot) (position : Nat) : Except Failure Nat :=
  match snapshot.entries[position]? with
  | none => .ok 0
  | some entry => readTokens t sha256 snapshot entry position

/-- An item with the price of its records. -/
def priceItem (snapshot : HistorySnapshot) (inContext : Str → Bool) (draft : ViewDraft) :
    Except Failure HistoryViewItem := do
  let costs ← draft.priced.mapM fun source => costAt t sha256 snapshot source.2
  pure ⟨draft, costs.sum, draft.priced.all fun source => inContext source.1⟩

/-! ## Pages -/

/-- The loop over the items from `index` on. The first item of a page is returned at any size, so
what remains may fall below zero. -/
def fillView (price : ViewDraft → Except Failure HistoryViewItem) (started : Bool) :
    List ViewDraft → Nat → Int → Except Failure (List HistoryViewItem × Nat)
  | [], index, _ => .ok ([], index)
  | draft :: rest, index, remaining => do
    let item ← price draft
    let tokens := textTokens (stringify item.json)
    if remaining < tokens ∧ started = true then .ok ([], index)
    else
      let filled ← fillView price true rest (index + 1) (remaining - tokens)
      .ok (item :: filled.1, filled.2)

/-- The part of a list request that its cursors are bound to. -/
def listSignature (kind : HistoryViewKind) (query : Option Str) : Str :=
  sha256 (utf8 (stringify (.arr [.str (lit "list"), .str kind.name, .str (query.getD []),
    .str (lit "view-v2")])))

/-- What a cursor of a list says. -/
def listCursor (snapshot : HistorySnapshot) (signature : Str) (index : Nat) : Json :=
  .obj [(lit "sessionId", .str snapshot.sessionId), (lit "leafId", orNull snapshot.leafId),
    (lit "scope", .str snapshot.scopeHash), (lit "signature", .str signature),
    (lit "index", .num (.ofNat index))]

/-- The snapshot and the index that a list request starts from. -/
def openListCursor (snapshot : HistorySnapshot) (signature : Str) :
    Option Str → Except Failure (HistorySnapshot × Nat)
  | none => .ok (snapshot, 0)
  | some [] => .ok (snapshot, 0)
  | some text =>
    match decodeCursor text with
    | none => .error (.ofText "HISTORY_CURSOR_INVALID")
    | some cursor =>
      match cursorIndex? cursor "index" with
      | some index =>
        if cursorStr? cursor "sessionId" = some snapshot.sessionId ∧
            cursorStr? cursor "signature" = some signature then
          (pinSnapshot sha256 snapshot cursor).map fun pinned => (pinned, index)
        else .error (.ofText "HISTORY_CURSOR_INVALID: repeat the original operation, kind and query with the cursor, or restart the list")
      | none => .error (.ofText "HISTORY_CURSOR_INVALID: repeat the original operation, kind and query with the cursor, or restart the list")

/-- The page of a list that starts at an index. -/
def viewPage (snapshot : HistorySnapshot) (kind : HistoryViewKind) (signature : Str)
    (items : List ViewDraft) (index budgetTokens : Nat) (inContext : Str → Bool) :
    Except Failure HistoryViewPage := do
  let filled ← fillView (priceItem t sha256 snapshot inContext) false (items.drop index) index
    (pageTokens budgetTokens)
  .ok
    { sessionId := snapshot.sessionId
      leafId := snapshot.leafId
      scopeHash := snapshot.scopeHash
      kind
      items := filled.1
      cursor :=
        if filled.2 < items.length then some (cursorText (listCursor snapshot signature filled.2))
        else none
      message :=
        if filled.1 = [] then some (lit "No items of this kind on this branch. The list comes from earlier checkpoints and tool records and can miss what a writer left out; search before concluding the history lacks it.")
        else none }

/-- One kind of item on the snapshot's branch, newest first. -/
def listHistory (snapshot : HistorySnapshot) (kind : Option HistoryViewKind) (query cursor : Option Str)
    (budgetTokens : Nat) (inContext : Str → Bool) : Except Failure HistoryViewPage :=
  match kind with
  | none => .error (.ofText "HISTORY_KIND_REQUIRED: list needs a kind")
  | some kind => do
    let signature := listSignature sha256 kind query
    let (snapshot, index) ← openListCursor sha256 snapshot signature cursor
    let terms := viewTerms t (query.getD [])
    viewPage t sha256 snapshot kind signature (viewItems t kind terms snapshot.entries) index
      budgetTokens inContext

end

end Compaction
