import ContextCompaction.Core.Config
import ContextCompaction.Core.Diagnostics
import ContextCompaction.Core.Identity
import ContextCompaction.Js.Base64

/-!
# Search and read

`queryHistory` on a frozen snapshot of one branch: a ranked literal search with short excerpts, and
a read of one record's whole text. A page ends when its budget is spent; its cursor names the
snapshot, the query and the place to continue from.

The Unicode tables are parameters: the classes of code points, and `toLocaleLowerCase`.

* `searchTerms`, `excerptStart`: the words of a query, and where an excerpt starts.
* `openCursor`: the snapshot and the place that a cursor names.
* `queryHistory`: one page.
-/

namespace Compaction

open Js

/-- What the platform says about strings. -/
structure TextTables where
  /-- The length that a string bound of a schema measures. -/
  len : Str → Nat
  /-- `text.toLocaleLowerCase()`. -/
  lower : Str → Str
  /-- `/[\p{L}\p{N}]/u` on one code point. -/
  letterOrNumber : Str → Bool
  /-- `/\p{Script=Han}/u` on one code point. -/
  han : Str → Bool

/-! ## Requests and pages -/

/-- A frozen snapshot of one branch. -/
structure HistorySnapshot where
  sessionId : Str
  leafId : Option Str
  scopeHash : Str
  entries : List SessionRecord

inductive HistoryOperation where
  | search
  | read
  deriving DecidableEq

/-- `"search"` or `"read"`. -/
def HistoryOperation.name : HistoryOperation → Str
  | .search => lit "search"
  | .read => lit "read"

def historyQuerySchema : Schema :=
  .object [(lit "operation", false, .union [.literal (lit "search"), .literal (lit "read")]),
    (lit "query", true, .string 0 1000), (lit "entryId", true, .string 0 64),
    (lit "cursor", true, .string 0 2000), (lit "grantId", true, .string 0 128)]

/-- A request that passed its schema. -/
structure HistoryQuery where
  operation : HistoryOperation
  query : Option Str
  entryId : Option Str
  cursor : Option Str
  grantId : Option Str
  deriving DecidableEq

/-- The properties of a request, the absent ones among them. -/
def HistoryQuery.fields (request : HistoryQuery) : List (String × Option Json) :=
  [("operation", some (.str request.operation.name)), ("query", request.query.map .str),
    ("entryId", request.entryId.map .str), ("cursor", request.cursor.map .str),
    ("grantId", request.grantId.map .str)]

/-- The request as the client sends it. -/
def HistoryQuery.json (request : HistoryQuery) : Json := .obj (present request.fields)

/-- A request as the code reads it. -/
def readQuery (request : Json) : HistoryQuery :=
  let get := fun key => (request.get? (lit key)).bind Json.str?
  ⟨if get "operation" = some (lit "read") then .read else .search, get "query", get "entryId",
    get "cursor", get "grantId"⟩

structure HistoryExcerpt where
  entryId : Str
  parentId : Option Str
  role : Str
  position : Nat
  offset : Nat
  text : Str
  deriving DecidableEq

structure HistoryPage where
  sessionId : Str
  leafId : Option Str
  scopeHash : Str
  entries : List HistoryExcerpt
  cursor : Option Str
  message : Option Str
  deriving DecidableEq

/-! ## Terms -/

/-- The code points of a string, each as its units; a surrogate that stands alone is one. -/
def codePoints : Str → List Str
  | [] => []
  | [u] => [[u]]
  | u :: v :: s =>
    if isHigh u && isLow v then [u, v] :: codePoints s else [u] :: codePoints (v :: s)

/-- The matches of `/[p]{min,}/gu`: the longest runs of code points in the class. -/
def matchRuns (p : Str → Bool) (min : Nat) (s : Str) : List Str :=
  (((codePoints s).splitOnP fun point => !p point).filter fun run =>
    decide (min ≤ run.length)).map List.flatten

variable (t : TextTables)

/-- `[\p{L}\p{N}_./:-]` -/
def TextTables.word (point : Str) : Bool :=
  t.letterOrNumber point || decide (point ∈ [lit "_", lit ".", lit "/", lit ":", lit "-"])

def searchTerms (query : Str) : List Str :=
  let words := matchRuns t.word 1 (t.lower query)
  let chinese := matchRuns t.han 2 query
  (setOf (words ++ chinese.flatMap fun word =>
    (List.range (word.length - 1)).map fun i => slice word i (i + 2))).take 64

def roleWeight (role : Str) : Nat :=
  if role = lit "user" then 3
  else if role = lit "assistant" then 2
  else if role = lit "toolResult" ∨ role = lit "bashExecution" then 0
  else 1

def HISTORY_TOOL : Str := lit "context_history"

/-- A result of the retrieval tool. -/
def isRetrievalOutput (entry : SessionRecord) : Bool :=
  decide (entry.type = .message) && decide (entry.role = lit "toolResult") &&
    decide (strField? entry.message "toolName" = some HISTORY_TOOL)

/-! ## Where an excerpt starts -/

/-- Occurrences counted for each term. -/
def HIT_LIMIT : Nat := 4096

/-- Terms meet within this many units of a window's first hit. -/
def HIT_WINDOW : Nat := 400

/-- Where a term occurs. -/
structure Hit where
  at_ : Nat
  term : Nat
  deriving DecidableEq

/-- The places of a word from `start` on, at most `limit` of them. -/
def hitsFrom (normalized word : Str) : Nat → Nat → List Nat
  | 0, _ => []
  | limit + 1, start =>
    match indexFrom normalized word start with
    | none => []
    | some at_ => at_ :: hitsFrom normalized word limit (at_ + 1)

/-- The hits of every term, in the order of the text. -/
def termHits (normalized : Str) (terms : List Str) : List Hit :=
  (terms.zipIdx.flatMap fun e => (hitsFrom normalized e.1 HIT_LIMIT 0).map fun at_ =>
    ⟨at_, e.2⟩).insertionSort fun a b => a.at_ < b.at_ ∨ (a.at_ = b.at_ ∧ a.term ≤ b.term)

/-- The hits that a window opened at `first` reaches, counted for each term, and the rest. -/
def enterWindow (first : Nat) : List Hit → List (Nat × Nat) → List Hit × List (Nat × Nat)
  | [], inWindow => ([], inWindow)
  | hit :: ahead, inWindow =>
    if hit.at_ - first ≤ HIT_WINDOW then
      enterWindow first ahead (mapSet inWindow hit.term ((mapGet inWindow hit.term).getD 0 + 1))
    else (hit :: ahead, inWindow)

/-- The window moves on to the next hit. -/
def leaveWindow (inWindow : List (Nat × Nat)) (term : Nat) : List (Nat × Nat) :=
  let left := (mapGet inWindow term).getD 1 - 1
  if left = 0 then mapDelete inWindow term else mapSet inWindow term left

/-- The start of the earliest window with the most terms. -/
def bestWindow : List Hit → List Hit → List (Nat × Nat) → Nat → Nat → Nat
  | [], _, _, best, _ => best
  | first :: hits, ahead, inWindow, best, most =>
    let entered := enterWindow first.at_ ahead inWindow
    let inWindow := leaveWindow entered.2 first.term
    if most < entered.2.length then bestWindow hits entered.1 inWindow first.at_ entered.2.length
    else bestWindow hits entered.1 inWindow best most

/-- Where a search excerpt starts: 120 units before the earliest window that holds the most distinct
terms. -/
def excerptStart (normalized : Str) (terms : List Str) : Nat :=
  match termHits normalized terms with
  | [] => 0
  | first :: hits => bestWindow (first :: hits) (first :: hits) [] first.at_ 0 - 120

/-! ## Cursors -/

/-- The text of a cursor. -/
def cursorText (cursor : Json) : Str := toBase64url (utf8 (stringify cursor))

/-- `JSON.parse(Buffer.from(cursor, "base64url").toString("utf8"))`. -/
def decodeCursor (cursor : Str) : Option Json := parse (decodeUtf8 (fromBase64url cursor))

/-- A property of a cursor that is a string. -/
def cursorStr? (cursor : Json) (key : String) : Option Str := (cursor.get? (lit key)).bind Json.str?

/-- A property that is a safe integer and not negative. -/
def cursorIndex? (cursor : Json) (key : String) : Option Nat :=
  ((cursor.get? (lit key)).bind count?).filter isSafe

section

variable (sha256 : Sha256)

/-- The branch that a cursor was issued for: the snapshot itself, or the prefix of it that ends at
the cursor's leaf. -/
def pinSnapshot (snapshot : HistorySnapshot) (cursor : Json) : Except Failure HistorySnapshot :=
  if cursorStr? cursor "scope" = some snapshot.scopeHash then .ok snapshot
  else
    match snapshot.entries.findIdx? fun entry => some entry.id = cursorStr? cursor "leafId" with
    | none => .error (.ofText "HISTORY_CURSOR_INVALID: source is no longer on this branch")
    | some last =>
      let pinned := snapshot.entries.take (last + 1)
      if cursorStr? cursor "scope" = some (hashEntries sha256 pinned) then
        .ok { snapshot with
          leafId := pinned.getLast?.map SessionRecord.id
          entries := pinned
          scopeHash := hashEntries sha256 pinned }
      else .error (.ofText "HISTORY_CURSOR_INVALID: source is no longer on this branch")

/-- The snapshot, the index and the offset that a request starts from. -/
def openCursor (snapshot : HistorySnapshot) (signature : Str) :
    Option Str → Except Failure (HistorySnapshot × Nat × Nat)
  | none => .ok (snapshot, 0, 0)
  | some [] => .ok (snapshot, 0, 0)
  | some text =>
    match decodeCursor text with
    | none => .error (.ofText "HISTORY_CURSOR_INVALID")
    | some cursor =>
      match cursorIndex? cursor "index", cursorIndex? cursor "offset" with
      | some index, some offset =>
        if cursorStr? cursor "sessionId" = some snapshot.sessionId ∧
            cursorStr? cursor "signature" = some signature then
          (pinSnapshot sha256 snapshot cursor).map fun pinned => (pinned, index, offset)
        else .error (.ofText "HISTORY_CURSOR_INVALID: repeat the original operation, query, entryId and grantId with the cursor, or restart the query on the current branch")
      | _, _ => .error (.ofText "HISTORY_CURSOR_INVALID: repeat the original operation, query, entryId and grantId with the cursor, or restart the query on the current branch")

/-- The part of a request that its cursors are bound to. -/
def querySignature (request : HistoryQuery) : Str :=
  sha256 (utf8 (stringify (.arr [.str request.operation.name, orNull request.query,
    orNull request.entryId, .str (lit "rank-v3")])))

/-- What a cursor says. -/
def historyCursor (snapshot : HistorySnapshot) (signature : Str) (index offset : Nat) : Json :=
  .obj [(lit "sessionId", .str snapshot.sessionId), (lit "leafId", orNull snapshot.leafId),
    (lit "scope", .str snapshot.scopeHash), (lit "signature", .str signature),
    (lit "index", .num (.ofNat index)), (lit "offset", .num (.ofNat offset))]

end

/-! ## Ranking -/

structure HistoryCandidate where
  entry : SessionRecord
  text : Str
  score : Nat
  weight : Nat
  position : Nat

/-- More matched terms first, then conversation turns, then newest. -/
def HistoryCandidate.Before (a b : HistoryCandidate) : Prop :=
  b.score < a.score ∨ (b.score = a.score ∧
    (b.weight < a.weight ∨ (b.weight = a.weight ∧ b.position ≤ a.position)))

instance : DecidableRel HistoryCandidate.Before := fun a b => by unfold HistoryCandidate.Before; infer_instance

/-- How well a record matches. -/
def matchScore (terms : List Str) (entry : SessionRecord) (normalized : Str) : Nat :=
  (terms.map fun term => if entry.id = term then 10 else if includes normalized term then 1 else 0).sum

/-- The candidate that a record is. -/
def candidateOf (request : HistoryQuery) (terms : List Str) (entry : SessionRecord)
    (position : Nat) : Option HistoryCandidate :=
  let text := sourceText entry
  if text = [] then none
  else
    match request.operation with
    | .read =>
      if some entry.id = request.entryId then some ⟨entry, text, 1, 0, position⟩ else none
    | .search =>
      if isRetrievalOutput entry then none
      else
        let score := matchScore terms entry (t.lower text)
        if score = 0 then none
        else some ⟨entry, text, score, roleWeight (sourceRole entry), position⟩

/-- The records that match, in the order of the pages. -/
def candidates (request : HistoryQuery) (terms : List Str) (entries : List SessionRecord) :
    List HistoryCandidate :=
  (entries.zipIdx.filterMap fun e => candidateOf t request terms e.1 e.2).insertionSort
    HistoryCandidate.Before

/-! ## Pages -/

/-- What an excerpt costs. -/
def excerptCost (text : Str) : Nat := textTokens (quote text) + 100

/-- The tokens of a page's excerpts. -/
def pageTokens (budgetTokens : Nat) : Nat := max 512 (min 4000 budgetTokens) - 350

/-- An excerpt that is to be cut. -/
def overflows (remaining : Nat) (excerpt : Str) : Bool :=
  decide (remaining < excerptCost excerpt) && decide (excerpt ≠ [])

/-- The part of a text from `start` on that fits a page. -/
def fitExcerpt (text : Str) (start charLimit remaining : Nat) : Str :=
  shrink (overflows remaining) (slice text start (start + charLimit))

/-- The excerpt of a candidate that starts at `start`. -/
def HistoryCandidate.excerpt (c : HistoryCandidate) (start : Nat) (text : Str) : HistoryExcerpt :=
  ⟨c.entry.id, c.entry.parentId, sourceRole c.entry, c.position, start, text⟩

/-- The loop over the candidates from `index` on: the excerpts of the page, and the index and the
offset to continue from. -/
def fillPage (operation : HistoryOperation) (terms : List Str) :
    List HistoryCandidate → Nat → Nat → Nat → List HistoryExcerpt × Nat × Nat
  | [], index, offset, _ => ([], index, offset)
  | c :: rest, index, offset, remaining =>
    let start := match operation with
      | .search => excerptStart (t.lower c.text) terms
      | .read => offset
    let charLimit := match operation with
      | .search => 1400
      | .read => remaining * 2
    let excerpt := fitExcerpt c.text start charLimit remaining
    if excerpt = [] then ([], index, offset)
    else if operation = .read ∧ start + excerpt.length < c.text.length then
      ([c.excerpt start excerpt], index, start + excerpt.length)
    else if remaining - excerptCost excerpt < 250 then ([c.excerpt start excerpt], index + 1, 0)
    else
      let filled := fillPage operation terms rest (index + 1) 0 (remaining - excerptCost excerpt)
      (c.excerpt start excerpt :: filled.1, filled.2)

/-- The page that starts at a place in the candidates of a snapshot. -/
def historyPage (snapshot : HistorySnapshot) (request : HistoryQuery) (signature : Str)
    (terms : List Str) (ranked : List HistoryCandidate) (index offset budgetTokens : Nat) : HistoryPage :=
  let filled := fillPage t request.operation terms (ranked.drop index) index offset
    (pageTokens budgetTokens)
  { sessionId := snapshot.sessionId
    leafId := snapshot.leafId
    scopeHash := snapshot.scopeHash
    entries := filled.1
    cursor :=
      if filled.2.1 < ranked.length then
        some (cursorText (historyCursor snapshot signature filled.2.1 filled.2.2))
      else none
    message :=
      if filled.1 = [] then
        some (lit "No matching evidence in this authorized branch. Do not infer missing history.")
      else none }

/-- The page of a request that passed its schema. -/
def runQuery (sha256 : Sha256) (snapshot : HistorySnapshot) (request : HistoryQuery)
    (budgetTokens : Nat) : Except Failure HistoryPage := do
  let signature := querySignature sha256 request
  let (snapshot, index, offset) ← openCursor sha256 snapshot signature request.cursor
  let terms := searchTerms t (request.query.getD [])
  let ranked := candidates t request terms snapshot.entries
  if request.operation = .search ∧ terms = [] then
    .error (.ofText "HISTORY_QUERY_REQUIRED: supply search keywords or read an entry ID")
  else if request.operation = .read ∧ request.entryId.getD [] = [] then
    .error (.ofText "HISTORY_ENTRY_REQUIRED")
  else if request.operation = .read ∧ ranked = [] then
    .error (.ofText "HISTORY_SCOPE_DENIED: entry is not in this readable scope")
  else .ok (historyPage t snapshot request signature terms ranked index offset budgetTokens)

/-- Branch-scoped literal search and paginated reads. -/
def queryHistory (sha256 : Sha256) (snapshot : HistorySnapshot) (request : Json)
    (budgetTokens : Nat) : Except Failure HistoryPage :=
  if check t.len historyQuerySchema request then
    runQuery t sha256 snapshot (readQuery request) budgetTokens
  else .error (.ofText "HISTORY_QUERY_INVALID")

end Compaction
