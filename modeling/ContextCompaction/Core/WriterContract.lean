import ContextCompaction.Core.Chunks
import ContextCompaction.Core.Diagnostics

/-!
# The writer contract

What the writer is given, what it asks the host to send, and the texts of its requests. A note is
written in schema order.

What TypeBox and the Unicode tables say is the parameter `Platform`.
-/

namespace Compaction

open Js

/-- Code outside the repository: TypeBox, and what a regular expression takes from Unicode. -/
structure Platform where
  /-- The length that a string bound of a schema measures. -/
  len : Str → Nat
  /-- `text.normalize("NFKC")`. -/
  nfkc : Str → Str
  /-- `quote.match(/[\p{L}\p{N}_./:-]{4,}/gu) ?? []`. -/
  words : Str → List Str
  /-- `JSON.stringify` of the three schemas. -/
  noteSchemaText : Str
  quoteRepairSchemaText : Str
  sourcesRepairSchemaText : Str

/-! ## Usage -/

/-- What a request cost, by kind of token and in all. -/
structure UsageCost where
  input : Number
  output : Number
  cacheRead : Number
  cacheWrite : Number
  total : Number
  deriving DecidableEq

/-- Provider usage, optional breakdowns included. -/
structure WriterUsage where
  input : Number
  output : Number
  cacheRead : Number
  cacheWrite : Number
  totalTokens : Number
  cacheWrite1h : Option Number
  reasoning : Option Number
  cost : UsageCost
  deriving DecidableEq

/-- The usage of no request. -/
def zeroUsage : WriterUsage :=
  let zero := Number.ofNat 0
  ⟨zero, zero, zero, zero, zero, none, none, ⟨zero, zero, zero, zero, zero⟩⟩

/-- `if (x !== undefined) sum = (sum ?? 0) + x`. -/
def addReported (sum : Option Number) : Option Number → Option Number
  | none => sum
  | some x => some ((sum.getD (.ofNat 0)).add x)

/-- Usages are added field by field; an optional field is reported when either reports it. -/
def WriterUsage.add (sum usage : WriterUsage) : WriterUsage where
  input := sum.input.add usage.input
  output := sum.output.add usage.output
  cacheRead := sum.cacheRead.add usage.cacheRead
  cacheWrite := sum.cacheWrite.add usage.cacheWrite
  totalTokens := sum.totalTokens.add usage.totalTokens
  cacheWrite1h := addReported sum.cacheWrite1h usage.cacheWrite1h
  reasoning := addReported sum.reasoning usage.reasoning
  cost :=
    { input := sum.cost.input.add usage.cost.input
      output := sum.cost.output.add usage.cost.output
      cacheRead := sum.cost.cacheRead.add usage.cost.cacheRead
      cacheWrite := sum.cost.cacheWrite.add usage.cost.cacheWrite
      total := sum.cost.total.add usage.cost.total }

/-- The usage of several requests. -/
def sumMemoryUsage (usages : List WriterUsage) : WriterUsage := usages.foldl WriterUsage.add zeroUsage

/-! ## Requests and responses -/

/-- Which model writes: the session's, or one fixed for notes. -/
inductive WriterRole where
  | session
  | fixed
  deriving DecidableEq

/-- What a request is for: to write a note, or to repair one. -/
inductive WriterPhase where
  | generate
  | repair
  deriving DecidableEq

/-- A writer request as the contract states it. -/
inductive WriterRequest where
  | chunk (systemPrompt prompt reasoning : Str) (maxTokens : Nat)
  | repair (systemPrompt prompt reasoning : Str) (maxTokens : Nat)
  | handover (instruction reasoning : Str) (maxTokens : Nat)
  deriving DecidableEq

/-- A block of a response, as far as the writer tells them apart. -/
inductive WriterResponseBlock where
  | text (text : Str)
  | thinking
  | toolCall
  deriving DecidableEq

/-- Blocks that call a tool, which the writer never asks for. -/
def WriterResponseBlock.isToolCall : WriterResponseBlock → Bool
  | .toolCall => true
  | _ => false

/-- A response as the provider hands it over. -/
structure WriterResponse where
  stopReason : Str
  errorMessage : Option Str
  content : List WriterResponseBlock
  usage : WriterUsage
  deriving DecidableEq

/-- `response.content.some((block) => block.type === "toolCall")`. -/
def WriterResponse.callsTool (response : WriterResponse) : Bool :=
  response.content.any WriterResponseBlock.isToolCall

/-- The usage of a response; all zero is unknown, never free. -/
def reportedUsage (response : WriterResponse) : Option WriterUsage :=
  let usage := response.usage
  if [usage.input, usage.output, usage.cacheRead, usage.cacheWrite, usage.totalTokens,
      usage.cost.total].all Number.isZero then none
  else some usage

/-- The host's own request: built from a contract request, or continued with its tool calls declined. -/
inductive HostRequest where
  | built (request : WriterRequest)
  | declined (request : HostRequest) (response : WriterResponse)
  deriving DecidableEq

/-- The resolved writer. `prefixTokens` is absent when the host gave no estimate. -/
structure WriterTransport where
  model : Str
  effort : Str
  role : WriterRole
  contextWindow : Nat
  maxOutputTokens : Nat
  estimatesPrefix : Bool

/-! ## Options -/

/-- `config`, the evidence, the budgets and whether the observers are installed. -/
structure WriteMemoryOptions where
  noteRepair : Bool
  previous : Option MemoryNote
  increments : List MemoryNote
  uncovered : List SessionRecord
  branch : List SessionRecord
  noteTokens : Number
  baseNoteTokens : Option Number
  customInstructions : Option Str
  activeRequests : List SessionRecord
  onProgress : Bool
  callHooks : Bool

/-- The options with the budgets checked and bounded. -/
structure BoundedOptions extends WriteMemoryOptions where
  noteBudget : Nat
  baseNoteBudget : Nat

/-- A budget that `Number.isSafeInteger(n) && n >= 500` accepts. -/
def noteBudget? (n : Number) : Option Nat := (count? (.num n)).filter fun n => isSafe n && decide (500 ≤ n)

/-- The budgets are checked, and bounded by what a checkpoint may store. -/
def boundOptions (options : WriteMemoryOptions) : Except Failure BoundedOptions :=
  let refused := Failure.ofText "CONTEXT_CONFIG: writer note budgets must be integer counts >= 500"
  match noteBudget? options.noteTokens, options.baseNoteTokens.map noteBudget? with
  | some noteTokens, none =>
    .ok { options with noteBudget := min noteTokens MAX_NOTE_TOKENS, baseNoteBudget := min noteTokens MAX_NOTE_TOKENS }
  | some noteTokens, some (some base) =>
    .ok { options with
      noteBudget := min noteTokens MAX_NOTE_TOKENS
      baseNoteBudget := min base (min noteTokens MAX_NOTE_TOKENS) }
  | _, _ => .error refused

/-- The output that a request reserves: twice the note's budget, at least 4096 and at most what the model
can put out. -/
def outputBudget (maxOutputTokens noteTokens : Nat) : Nat :=
  min maxOutputTokens (max 4096 (noteTokens * 2))

/-! ## Evidence in a request -/

/-- The entries that a note cites, by excerpts within a budget. -/
def referencedEvidence (note : Option MemoryNote) (branch : List SessionRecord) (budget : Nat) :
    List Json :=
  let referenced := (note.map fun note => note.allFacts.flatMap NoteFact.sources).getD []
  let excerpts := (branch.filter fun entry => entry.id ∈ referenced).map fun entry =>
    Json.obj [(lit "entryId", .str entry.id), (lit "role", .str (sourceRole entry)),
      (lit "text", .str ((sourceText entry).take 1400))]
  let costs := excerpts.map fun e => textTokens (stringify e)
  -- What is left out counts too.
  (excerpts.zipIdx.filter fun e => decide ((costs.take (e.2 + 1)).sum ≤ budget)).map Prod.fst

/-- An entry as the citation manifest lists it. -/
def entryOpening (entry : SessionRecord) (head : Nat) : Str :=
  let opening := entry.id ++ lit " " ++ sourceRole entry
  if head = 0 then opening
  else opening ++ lit ": " ++ (replaceRuns isSpace (lit " ") (sourceText entry)).take head

/-- `{ entryId, text }` of an entry. -/
def originalJson (entry : SessionRecord) : Json :=
  .obj [(lit "entryId", .str entry.id), (lit "text", .str (sourceText entry))]

/-- User messages in full, the newest that fit, in conversation order. -/
def quotableOriginals (sources active : List SessionRecord) (budgetTokens : Nat) : List Json :=
  let kept := sources.foldr
    (fun entry (kept : List Json × Nat) =>
      if sourceRole entry ≠ lit "user" ∨ entry.id ∈ active.map SessionRecord.id then kept
      else
        let tokens := textTokens (stringify (originalJson entry))
        if sourceText entry = [] ∨ budgetTokens < kept.2 + tokens then kept
        else (originalJson entry :: kept.1, kept.2 + tokens))
    ([], 0)
  kept.1

/-- The openings of the newest entries within a budget, in conversation order. -/
def openingsWithin (budget : Nat) (sources : List SessionRecord) : List Str :=
  let kept := sources.foldr
    (fun entry (kept : List Str × Nat × Bool) =>
      let used := kept.2.1 + textTokens (entryOpening entry 80)
      if kept.2.2 || decide (budget < used) then (kept.1, used, true)
      else (entryOpening entry 80 :: kept.1, used, false))
    ([], 0, false)
  kept.1

/-- The uncovered entries that say something. -/
def readableSources (options : WriteMemoryOptions) : List SessionRecord :=
  options.uncovered.filter fun entry => sourceText entry ≠ []

/-- What a sources repair may cite. -/
def citableEvidence (note : MemoryNote) (options : BoundedOptions) : List (Str × Json) :=
  let sources := readableSources options.toWriteMemoryOptions
  [(lit "requests", .arr (options.activeRequests.map originalJson ++
      quotableOriginals sources options.activeRequests options.noteBudget)),
    (lit "cited", .arr (referencedEvidence (some note) options.branch options.noteBudget)),
    (lit "entries", strings (openingsWithin options.noteBudget sources))]

end Compaction
