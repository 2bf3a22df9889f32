import ContextCompaction.Core.Checkpoints
import ContextCompaction.Core.Guards

/-!
# Reductions

A reduction replaces old tool results by one line in the projected view. `reduceRecords` computes it
from the records and the cache lifetime; `Date.parse` is the parameter `dateParse`, with `none` for
NaN.

* `reduceRecord`: the decision on one record, from the indices over the whole list.
* `applyReduction`: the view, applied to projected messages.
* `Replaceable`: the turns, reads and citations that let a result be replaced, over the records alone.
* `eligibleAt_spec`: the record by which turns and reads make a result eligible.
-/

namespace Compaction

open Js

/-! ## Records -/

/-- The message fields that the reduction reads. -/
structure ReductionRecordMessage extends ReducibleMessage where
  stopReason : Option Str
  isError : Option Bool

/-- The record fields that the reduction reads. -/
structure ReductionRecord where
  id : Str
  type : Str
  timestamp : Str
  message : Option ReductionRecordMessage
  customType : Option Str
  summary : Option Str
  details : Option Json
  data : Option Json

/-- A tool result that the projection replaces, the line that replaces it and what this saves. -/
structure ReducedEntry where
  recordId : Str
  toolCallId : Str
  line : Str
  tokensRemoved : Nat
  deriving DecidableEq

/-- The reduced view of a branch and what it saves altogether. -/
structure ReductionView where
  entries : List ReducedEntry
  tokensRemoved : Nat
  deriving DecidableEq

/-- The bound on the tokens that follow an entry, as a multiple of what its reduction saves. -/
def REDUCTION_SUFFIX_RATIO : Nat := 1

/-- The cache lifetime of a model that declares none: one hour. -/
def DEFAULT_CACHE_LIFETIME_MS : Nat := 3600000

/-- The bound on the quoted first line of a replaced result. -/
def REDUCTION_HEAD_CHARS : Nat := 120

/-- Call-argument keys recognized as a tool's primary target, in precedence order. -/
def TARGET_KEYS : List String := ["path", "file_path", "filePath", "file", "entryId", "url", "uri"]

/-- The tools whose results are never reduced. -/
def EXCLUDED_TOOLS : List Str := [lit "context_note"]

/-! ## Texts -/

/-- `Math.ceil(text.length / 4)`. -/
def reductionTokens (text : Str) : Nat := (text.length + 3) / 4

/-- The texts of a content that is all text. -/
def textBlocks (content : Option Json) : Option (List Str) :=
  (content.bind Json.arr?).bind fun blocks =>
    blocks.mapM fun block => block.obj?.bind fun b =>
      if strField? b "type" = some (lit "text") then strField? b "text" else none

/-- The record's visible text. -/
def ReductionRecord.recordText (record : ReductionRecord) : Str :=
  match decide (record.type = lit "message"), record.message with
  | true, some message =>
    match message.content with
    | some (.str s) => s
    | some (.arr xs) => join "\n" (xs.map fun block =>
        ((block.get? (lit "text")).bind Json.str?).getD (stringify block))
    | _ => []
  | _, _ => record.summary.getD []

/-- The primary target of a tool call; empty when none is recognized. -/
def callTarget (args : Option Json) : Str :=
  match args.bind Json.obj? with
  | none => []
  | some fields =>
    (TARGET_KEYS.findSome? fun key => (strField? fields key).filter (· ≠ [])).getD []

/-- The text on one line, runs of white space as one space. -/
def oneLine (text : Str) : Str := trim (replaceRuns isSpace (lit " ") text)

/-- `text.split(/\r?\n/, 1)[0]`. -/
def firstLine : Str → Str
  | [] => []
  | [u] => if u = 0x0A then [] else [u]
  | u :: v :: s =>
    if u = 0x0A then [] else if u = 0x0D ∧ v = 0x0A then [] else u :: firstLine (v :: s)

/-- The line that replaces an eligible result's text. -/
def reductionLine (tool target head recordId : Str) : Str :=
  let shownTarget := (oneLine target).take REDUCTION_HEAD_CHARS
  lit "[reduced tool result] " ++ tool ++ lit " " ++
    (if shownTarget = [] then lit "(no target)" else shownTarget) ++ lit " => " ++
    (oneLine head).take REDUCTION_HEAD_CHARS ++ lit " | entry " ++ recordId ++
    lit "; context_history reads this entry back in full"

/-! ## The indices -/

/-- A paired call: its tool and recognized target. -/
structure ToolCall where
  name : Str
  target : Str
  deriving DecidableEq

/-- The message of a message record. -/
def messageOf (record : ReductionRecord) : Option ReductionRecordMessage :=
  if record.type = lit "message" then record.message else none

/-- The calls of an assistant record, in order. -/
def recordCalls (record : ReductionRecord) : List (Str × ToolCall) :=
  match messageOf record with
  | none => []
  | some message =>
    if message.role = lit "assistant" then
      ((message.content.bind Json.arr?).getD []).filterMap fun block =>
        block.obj?.bind fun b =>
          if strField? b "type" = some (lit "toolCall") then
            (strField? b "id").bind fun id => (strField? b "name").map fun name =>
              (id, ⟨name, callTarget (field b "arguments")⟩)
          else none
    else []

/-- A completed assistant turn. -/
def completesTurn (record : ReductionRecord) : Bool :=
  (messageOf record).any fun message =>
    decide (message.role = lit "assistant") && decide (message.stopReason = some (lit "stop"))

/-- The call ID and the texts of a tool result that is no error and all text. -/
def textResult (record : ReductionRecord) : Option (Str × List Str) :=
  (messageOf record).bind fun message =>
    if message.role = lit "toolResult" ∧ message.isError ≠ some true then
      message.toolCallId.bind fun id => (textBlocks message.content).map fun texts => (id, texts)
    else none

/-- What one pass over the branch collects: where turns end, the calls by ID, and the results by tool and
target. -/
structure ReductionIndex where
  stops : List Nat
  calls : List (Str × ToolCall)
  resultsByTarget : List (Str × List Nat)

/-- The key of a tool and a target. -/
def targetKey (call : ToolCall) : Str := call.name ++ lit "\n" ++ call.target

/-- One record of the pass over the list. -/
def ReductionIndex.add (ix : ReductionIndex) (e : ReductionRecord × Nat) : ReductionIndex where
  stops := if completesTurn e.1 then ix.stops ++ [e.2] else ix.stops
  calls := (recordCalls e.1).foldl (fun calls c => mapSet calls c.1 c.2) ix.calls
  resultsByTarget :=
    match (textResult e.1).bind fun r => mapGet ix.calls r.1 with
    | none => ix.resultsByTarget
    | some call =>
      if call.target = [] then ix.resultsByTarget
      else mapSet ix.resultsByTarget (targetKey call)
        ((mapGet ix.resultsByTarget (targetKey call)).getD [] ++ [e.2])

/-- The index of a branch. -/
def reductionIndex (records : List ReductionRecord) : ReductionIndex :=
  records.zipIdx.foldl ReductionIndex.add ⟨[], [], []⟩

/-- The sources that stand alone under some fact of a note, in the order they are read. -/
def soleSources (value : Option Json) : List Str :=
  ((value.bind Json.obj?).getD []).flatMap fun section_ =>
    (section_.2.arr?.getD []).filterMap fun item =>
      match (item.get? (lit "sources")).bind Json.arr? with
      | some [source] => source.str?
      | _ => none

/-- The IDs that a record's note protects. -/
def protectedBy (record : ReductionRecord) : List Str :=
  (if record.type = lit "compaction" ∧
      ((record.details.bind fun d => d.get? (lit "kind")).bind Json.str?) = some CONTEXT_MEMORY_KIND then
    soleSources (record.details.bind fun d => d.get? (lit "note"))
  else []) ++
  if record.type = lit "custom" ∧ record.customType = some (lit "context-memory-note") then
    soleSources record.data
  else []

/-- IDs that are the only source of some fact, with the first record that cites them. -/
def soleEvidenceFrom (records : List ReductionRecord) : List (Str × Nat) :=
  records.zipIdx.foldl (fun from_ e =>
    (protectedBy e.1).foldl (fun from_ id => mapSetFirst from_ id e.2) from_) []

/-- The visible tokens of each prefix. -/
def prefixTokens (records : List ReductionRecord) : List Nat :=
  records.scanl (fun sum record => sum + reductionTokens record.recordText) 0

/-! ## The decision -/

/-- The record at which a result becomes eligible: its turn completed, and a later turn finished or
the same target was read again. -/
def eligibleAt (ix : ReductionIndex) (call : ToolCall) (index : Nat) : Option Nat :=
  (ix.stops.findIdx? fun stop => decide (index < stop)).bind fun stopAt =>
    let consumedAt := ix.stops[stopAt + 1]?
    let siblings :=
      if call.target = [] then [] else (mapGet ix.resultsByTarget (targetKey call)).getD []
    let supersededAt := (siblings.find? fun at_ => decide (index < at_)).map fun laterRead =>
      max laterRead ((ix.stops[stopAt]?).getD 0)
    match consumedAt, supersededAt with
    | some a, some b => some (min a b)
    | a, b => a.or b

section

variable (dateParse : Str → Option Int) (lifetimeMs : Number)

/-- `gapMs > lifetimeMs`. -/
def exceeds (gapMs : Int) : Number → Bool
  | .nan => false
  | .infinite negative => negative
  | .finite negative abs _ => decide ((if negative then -abs else abs) < (gapMs : ℚ))

/-- The time to the next record exceeds the lifetime. -/
def idle (record : ReductionRecord) (next : Option ReductionRecord) : Bool :=
  (next.bind fun next => (dateParse next.timestamp).bind fun later =>
    (dateParse record.timestamp).map fun earlier => later - earlier).any fun gap =>
      exceeds gap lifetimeMs

/-- What one list of records is reduced with. -/
structure Reducer where
  records : List ReductionRecord
  ix : ReductionIndex
  protectedFrom : List (Str × Nat)
  tokens : List Nat

/-- A branch with everything that decides about its entries. -/
def reducer (records : List ReductionRecord) : Reducer :=
  ⟨records, reductionIndex records, soleEvidenceFrom records, prefixTokens records⟩

/-- The text of a result, unless it is empty. -/
def resultText (texts : List Str) : Option Str :=
  if join "\n" texts = [] then none else some (join "\n" texts)

/-- The decision on a result whose call is known. -/
def reduceCall (r : Reducer) (record : ReductionRecord) (index : Nat) (toolCallId text : Str)
    (call : ToolCall) : Option ReducedEntry :=
  if call.name ∈ EXCLUDED_TOOLS then none
  else (eligibleAt r.ix call index).bind fun eligible =>
    let line := reductionLine call.name call.target (firstLine text) record.id
    let removed := reductionTokens text - reductionTokens line
    let suffixTokens := r.tokens.getD (eligible + 1) 0 - r.tokens.getD (index + 1) 0
    if (mapGet r.protectedFrom record.id).any fun citedFrom => decide (citedFrom ≤ eligible) then none
    else if removed = 0 then none
    else if removed * REDUCTION_SUFFIX_RATIO < suffixTokens ∧
        idle dateParse lifetimeMs record r.records[index + 1]? = false then none
    else some ⟨record.id, toolCallId, line, removed⟩

/-- The decision on one record. -/
def reduceRecord (r : Reducer) (record : ReductionRecord) (index : Nat) : Option ReducedEntry :=
  (textResult record).bind fun result =>
    (resultText result.2).bind fun text =>
      (mapGet r.ix.calls result.1).bind fun call =>
        reduceCall dateParse lifetimeMs r record index result.1 text call

end

/-- The reduced view of a branch. -/
def reduceRecords (dateParse : Str → Option Int) (records : List ReductionRecord)
    (cacheLifetimeMs : Option Number) : ReductionView :=
  let lifetimeMs := cacheLifetimeMs.getD (.ofNat DEFAULT_CACHE_LIFETIME_MS)
  let entries := records.zipIdx.filterMap fun e =>
    reduceRecord dateParse lifetimeMs (reducer records) e.1 e.2
  ⟨entries, (entries.map ReducedEntry.tokensRemoved).sum⟩

/-- The content of a replacement. -/
def lineContent (line : Str) : Json :=
  .arr [.obj [(lit "type", .str (lit "text")), (lit "text", .str line)]]

/-- The lines of a view, by call ID; of equal IDs the last counts. -/
def viewLines (view : ReductionView) : List (Str × Str) :=
  mapOf (view.entries.map fun entry => (entry.toolCallId, entry.line))

/-- One projected message under a view. -/
def reduceMessage (lines : List (Str × Str)) (message : ReducibleMessage) : ReducibleMessage :=
  match (if message.role = lit "toolResult" then message.toolCallId else none).bind (mapGet lines) with
  | none => message
  | some line => { message with content := some (lineContent line) }

/-- The messages with the view's lines in place of the results they name. -/
def applyReduction (messages : List ReducibleMessage) (view : ReductionView) : List ReducibleMessage :=
  if view.entries = [] then messages else messages.map (reduceMessage (viewLines view))

/-! ## What the indices hold -/

theorem reductionIndex_append (read : List ReductionRecord) (record : ReductionRecord) :
    reductionIndex (read ++ [record]) = (reductionIndex read).add (record, read.length) := by
  simp [reductionIndex, List.zipIdx_append]

theorem calls_reductionIndex (records : List ReductionRecord) :
    (reductionIndex records).calls = mapOf (records.flatMap recordCalls) := by
  induction records using List.reverseRecOn with
  | nil => rfl
  | append_singleton read record ih =>
    rw [reductionIndex_append, ReductionIndex.add, ih, List.flatMap_append, mapOf_append]
    simp

/-- The completed turns, in order. -/
theorem stops_spec (records : List ReductionRecord) :
    (reductionIndex records).stops.Pairwise (· < ·) ∧
      ∀ k, k ∈ (reductionIndex records).stops ↔
        ∃ record, records[k]? = some record ∧ completesTurn record = true := by
  induction records using List.reverseRecOn with
  | nil => simp [reductionIndex]
  | append_singleton read record ih =>
    obtain ⟨hsorted, hmem⟩ := ih
    have hlt : ∀ k ∈ (reductionIndex read).stops, k < read.length := by
      intro k hk
      obtain ⟨r, hr, -⟩ := (hmem k).mp hk
      exact (List.getElem?_eq_some_iff.mp hr).1
    rw [reductionIndex_append, ReductionIndex.add]
    by_cases hc : completesTurn record = true
    · simp only [hc, ↓reduceIte]
      constructor
      · rw [List.pairwise_append]
        refine ⟨hsorted, List.pairwise_singleton _ _, fun a ha b hb => ?_⟩
        obtain rfl := List.mem_singleton.mp hb
        exact hlt a ha
      · intro k
        rw [List.mem_append, List.mem_singleton, hmem, List.getElem?_append]
        grind
    · simp only [hc, Bool.false_eq_true, ↓reduceIte]
      refine ⟨hsorted, fun k => ?_⟩
      rw [hmem, List.getElem?_append]
      grind

/-- A completed turn stands at an index. -/
def StopAt (records : List ReductionRecord) (s : Nat) : Prop :=
  ∃ record, records[s]? = some record ∧ completesTurn record = true

/-- A read of a target: a text result whose call stands before it. -/
def ReadAt (records : List ReductionRecord) (k : Nat) (call : ToolCall) : Prop :=
  ∃ record result, records[k]? = some record ∧ textResult record = some result ∧
    mapGet (mapOf ((records.take k).flatMap recordCalls)) result.1 = some call ∧ call.target ≠ []

/-- The reads under each key, in order. -/
theorem reads_spec (records : List ReductionRecord) (key : Str) :
    ((mapGet (reductionIndex records).resultsByTarget key).getD []).Pairwise (· < ·) ∧
      ∀ k, k ∈ (mapGet (reductionIndex records).resultsByTarget key).getD [] ↔
        ∃ call, ReadAt records k call ∧ targetKey call = key := by
  induction records using List.reverseRecOn with
  | nil => simp [reductionIndex, ReadAt]
  | append_singleton read record ih =>
    obtain ⟨hsorted, hmem⟩ := ih
    have hlt : ∀ k ∈ (mapGet (reductionIndex read).resultsByTarget key).getD [], k < read.length := by
      intro k hk
      obtain ⟨call, ⟨r, -, hr, -⟩, -⟩ := (hmem k).mp hk
      exact (List.getElem?_eq_some_iff.mp hr).1
    -- A read before the new record is the same in both lists.
    have hold : ∀ k call, k < read.length → (ReadAt (read ++ [record]) k call ↔ ReadAt read k call) := by
      intro k call hk
      unfold ReadAt
      rw [List.getElem?_append_left hk, List.take_append_of_le_length (by omega)]
    have hnew : ∀ call, ReadAt (read ++ [record]) read.length call ↔
        (textResult record).bind (fun r => mapGet (reductionIndex read).calls r.1) = some call ∧
          call.target ≠ [] := by
      intro call
      unfold ReadAt
      rw [calls_reductionIndex, List.take_left]
      simp only [List.getElem?_concat_length, Option.some.injEq, Option.bind_eq_some_iff]
      grind
    have hbeyond : ∀ k call, read.length < k → ¬ ReadAt (read ++ [record]) k call := by
      rintro k call hk ⟨r, -, hr, -⟩
      have := (List.getElem?_eq_some_iff.mp hr).1
      simp at this
      omega
    -- The positions of the longer list, if the new record adds `added` to the old ones.
    have hcases : ∀ k, (∃ call, ReadAt (read ++ [record]) k call ∧ targetKey call = key) ↔
        k ∈ (mapGet (reductionIndex read).resultsByTarget key).getD [] ∨ (k = read.length ∧
          ∃ call, ReadAt (read ++ [record]) read.length call ∧ targetKey call = key) := by
      intro k
      rw [hmem]
      rcases Nat.lt_trichotomy k read.length with hk | rfl | hk
      · simp only [hold k _ hk, hk.ne, false_and, or_false]
      · constructor
        · exact fun h => .inr ⟨rfl, h⟩
        · rintro (⟨call, ⟨r, -, hr, -⟩, -⟩ | ⟨-, h⟩)
          · exact absurd (List.getElem?_eq_some_iff.mp hr).1 (by omega)
          · exact h
      · constructor
        · rintro ⟨call, h, -⟩
          exact absurd h (hbeyond k call hk)
        · rintro (⟨call, ⟨r, -, hr, -⟩, -⟩ | ⟨rfl, -⟩)
          · exact absurd (List.getElem?_eq_some_iff.mp hr).1 (by omega)
          · omega
    rw [reductionIndex_append]
    simp only [hcases, hnew, ReductionIndex.add]
    cases hread : (textResult record).bind (fun r => mapGet (reductionIndex read).calls r.1) with
    | none =>
      refine ⟨hsorted, fun k => ?_⟩
      simp
    | some call =>
      by_cases ht : call.target = []
      · simp only [ht, ↓reduceIte]
        refine ⟨hsorted, fun k => ?_⟩
        grind
      · simp only [ht, ↓reduceIte]
        by_cases hk : targetKey call = key
        · subst hk
          rw [mapGet_mapSet_self, Option.getD_some]
          constructor
          · rw [List.pairwise_append]
            refine ⟨hsorted, List.pairwise_singleton _ _, fun a ha b hb => ?_⟩
            obtain rfl := List.mem_singleton.mp hb
            exact hlt a ha
          · intro k
            rw [List.mem_append, List.mem_singleton]
            grind
        · rw [mapGet_mapSet, if_neg hk]
          refine ⟨hsorted, fun k => ?_⟩
          grind

/-! ## When a result becomes eligible -/

/-- In an increasing list the first element above a bound is below every other one above it. -/
theorem find?_le_of_pairwise {l : List Nat} (h : l.Pairwise (· < ·)) {i k : Nat} (hk : k ∈ l)
    (hi : i < k) : ∃ m, l.find? (fun x => decide (i < x)) = some m ∧ m ≤ k ∧ i < m ∧ m ∈ l := by
  induction l with
  | nil => cases hk
  | cons x l ih =>
    rw [List.pairwise_cons] at h
    by_cases hx : i < x
    · refine ⟨x, by simp [hx], ?_, hx, List.mem_cons_self⟩
      rcases List.mem_cons.mp hk with rfl | hk
      · exact Nat.le_refl _
      · exact Nat.le_of_lt (h.1 k hk)
    · rcases List.mem_cons.mp hk with rfl | hk
      · exact absurd hi hx
      · obtain ⟨m, hm, hle, him, hmem⟩ := ih h.2 hk
        exact ⟨m, by simp [hx, hm], hle, him, List.mem_cons_of_mem _ hmem⟩

/-- The first stop above a bound, and the stop behind it. -/
theorem stopAt_spec {stops : List Nat} (h : stops.Pairwise (· < ·)) {i s : Nat} (hs : s ∈ stops)
    (hi : i < s) : ∃ a t, stops.findIdx? (fun stop => decide (i < stop)) = some a ∧
      stops[a]? = some t ∧ i < t ∧ t ≤ s ∧
      ∀ s' ∈ stops, t < s' → ∃ t', stops[a + 1]? = some t' ∧ t < t' ∧ t' ≤ s' := by
  induction stops with
  | nil => cases hs
  | cons x stops ih =>
    rw [List.pairwise_cons] at h
    by_cases hx : i < x
    · refine ⟨0, x, by simp [List.findIdx?_cons, hx], rfl, hx, ?_, fun s' hs' hlt => ?_⟩
      · rcases List.mem_cons.mp hs with rfl | hs
        · exact Nat.le_refl _
        · exact Nat.le_of_lt (h.1 s hs)
      · have hs' := (List.mem_cons.mp hs').resolve_left (by omega)
        cases stops with
        | nil => cases hs'
        | cons y stops =>
          refine ⟨y, rfl, h.1 y List.mem_cons_self, ?_⟩
          rcases List.mem_cons.mp hs' with rfl | hs'
          · exact Nat.le_refl _
          · exact Nat.le_of_lt ((List.pairwise_cons.mp h.2).1 s' hs')
    · have hs := (List.mem_cons.mp hs).resolve_left (by omega)
      obtain ⟨a, t, ha, ht, hit, hts, hnext⟩ := ih h.2 hs
      refine ⟨a + 1, t, by simp [List.findIdx?_cons, hx, ha], ht, hit, hts, fun s' hs' hlt => ?_⟩
      have hxt : x < t := h.1 t (List.mem_of_getElem? ht)
      exact hnext s' ((List.mem_cons.mp hs').resolve_left (by omega)) hlt

/-- The reads of a call's target. -/
def readsOf (ix : ReductionIndex) (call : ToolCall) : List Nat :=
  if call.target = [] then [] else (mapGet ix.resultsByTarget (targetKey call)).getD []

/-- A result is eligible by a record exactly when a stop after it and either a second stop or a
later read of its target stand up to that record. -/
theorem eligibleAt_le {ix : ReductionIndex} {call : ToolCall} (hstops : ix.stops.Pairwise (· < ·))
    (hreads : (readsOf ix call).Pairwise (· < ·)) (i n : Nat) :
    (∃ e, eligibleAt ix call i = some e ∧ e ≤ n) ↔
      ∃ s ∈ ix.stops, i < s ∧ s ≤ n ∧
        ((∃ s' ∈ ix.stops, s < s' ∧ s' ≤ n) ∨ ∃ k ∈ readsOf ix call, i < k ∧ k ≤ n) := by
  have hdef : eligibleAt ix call i =
      (ix.stops.findIdx? fun stop => decide (i < stop)).bind fun stopAt =>
        match ix.stops[stopAt + 1]?, ((readsOf ix call).find? fun at_ => decide (i < at_)).map
            fun laterRead => max laterRead ((ix.stops[stopAt]?).getD 0) with
        | some a, some b => some (min a b)
        | a, b => a.or b := rfl
  constructor
  · rintro ⟨e, he, hn⟩
    rw [hdef] at he
    obtain ⟨a, ha, he⟩ := Option.bind_eq_some_iff.mp he
    obtain ⟨hlt, hi, -⟩ := List.findIdx?_eq_some_iff_getElem.mp ha
    have hi : i < ix.stops[a] := by simpa using hi
    have hget : ix.stops[a]? = some ix.stops[a] := List.getElem?_eq_getElem hlt
    have hsecond : ∀ s', ix.stops[a + 1]? = some s' → s' ∈ ix.stops ∧ ix.stops[a] < s' := by
      intro s' hs'
      obtain ⟨hlt', rfl⟩ := List.getElem?_eq_some_iff.mp hs'
      exact ⟨List.getElem_mem _, List.pairwise_iff_getElem.mp hstops _ _ hlt hlt' (by omega)⟩
    have hread : ∀ k, (readsOf ix call).find? (fun at_ => decide (i < at_)) = some k →
        k ∈ readsOf ix call ∧ i < k := by
      intro k hk
      exact ⟨List.mem_of_find?_eq_some hk, by simpa using List.find?_some hk⟩
    refine ⟨ix.stops[a], List.getElem_mem _, hi, ?_⟩
    rw [hget, Option.getD_some] at he
    cases hs' : ix.stops[a + 1]? with
    | none =>
      cases hk : (readsOf ix call).find? fun at_ => decide (i < at_) with
      | none => simp [hs', hk] at he
      | some k =>
        simp only [hs', hk, Option.map_some, Option.none_or, Option.some.injEq] at he
        have := hread k hk
        exact ⟨by omega, .inr ⟨k, this.1, this.2, by omega⟩⟩
    | some s' =>
      have hs'' := hsecond s' hs'
      cases hk : (readsOf ix call).find? fun at_ => decide (i < at_) with
      | none =>
        simp only [hs', hk, Option.map_none, Option.some_or, Option.some.injEq] at he
        exact ⟨by omega, .inl ⟨s', hs''.1, hs''.2, by omega⟩⟩
      | some k =>
        simp only [hs', hk, Option.map_some, Option.some.injEq] at he
        have := hread k hk
        rcases Nat.le_total s' (max k ix.stops[a]) with h | h
        · exact ⟨by omega, .inl ⟨s', hs''.1, hs''.2, by omega⟩⟩
        · exact ⟨by omega, .inr ⟨k, this.1, this.2, by omega⟩⟩
  · rintro ⟨s, hs, hi, hn, h⟩
    obtain ⟨a, t, ha, ht, hit, hts, hnext⟩ := stopAt_spec hstops hs hi
    rw [hdef, ha, Option.bind_some, ht, Option.getD_some]
    rcases h with ⟨s', hs', hlt, hle⟩ | ⟨k, hk, hik, hkn⟩
    · obtain ⟨t', ht', -, hle'⟩ := hnext s' hs' (by omega)
      rw [ht']
      cases (readsOf ix call).find? fun at_ => decide (i < at_) with
      | none => exact ⟨t', rfl, by omega⟩
      | some k => exact ⟨min t' (max k t), rfl, by omega⟩
    · obtain ⟨m, hm, hmk, -, -⟩ := find?_le_of_pairwise hreads hk hik
      rw [hm]
      cases ix.stops[a + 1]? with
      | none => exact ⟨max m t, rfl, by omega⟩
      | some t' => exact ⟨min t' (max m t), rfl, by omega⟩

/-- By record `n` a turn has completed after the result at `i`, and a later turn has finished or the
call's target was read again. -/
def DueBy (records : List ReductionRecord) (call : ToolCall) (i n : Nat) : Prop :=
  ∃ s, i < s ∧ s ≤ n ∧ StopAt records s ∧
    ((∃ s', s < s' ∧ s' ≤ n ∧ StopAt records s') ∨
      ∃ k, i < k ∧ k ≤ n ∧ call.target ≠ [] ∧
        ∃ call', ReadAt records k call' ∧ targetKey call' = targetKey call)

/-- The same over the records. -/
theorem eligibleAt_spec (records : List ReductionRecord) (call : ToolCall) (i n : Nat) :
    (∃ e, eligibleAt (reductionIndex records) call i = some e ∧ e ≤ n) ↔
      DueBy records call i n := by
  obtain ⟨hstops, hstop⟩ := stops_spec records
  obtain ⟨hreads, hread⟩ := reads_spec records (targetKey call)
  have hsorted : (readsOf (reductionIndex records) call).Pairwise (· < ·) := by
    unfold readsOf
    split
    · exact .nil
    · exact hreads
  have hmem : ∀ k, k ∈ readsOf (reductionIndex records) call ↔ call.target ≠ [] ∧
      ∃ call', ReadAt records k call' ∧ targetKey call' = targetKey call := by
    intro k
    unfold readsOf
    split
    · rename_i h
      simp [h]
    · rename_i h
      rw [hread]
      simp [h]
  rw [eligibleAt_le hstops hsorted]
  simp only [hstop, hmem, DueBy, StopAt]
  grind

/-! ## Sums and citations -/

/-- The visible tokens of some records. -/
def visibleTokens (records : List ReductionRecord) : Nat :=
  (records.map fun record => reductionTokens record.recordText).sum

/-- The running sums are the tokens of the prefixes. -/
theorem prefixTokens_getD {records : List ReductionRecord} {n : Nat} (h : n ≤ records.length) :
    (prefixTokens records).getD n 0 = visibleTokens (records.take n) := by
  have hscan : ∀ (records : List ReductionRecord) (init n : Nat), n ≤ records.length →
      (records.scanl (fun sum record => sum + reductionTokens record.recordText) init).getD n 0 =
        init + visibleTokens (records.take n) := by
    intro records
    induction records with
    | nil =>
      intro init n hn
      obtain rfl : n = 0 := by simpa using hn
      rfl
    | cons record records ih =>
      intro init n hn
      rw [List.scanl_cons]
      cases n with
      | zero => rfl
      | succ n =>
        have := ih (init + reductionTokens record.recordText) n (by simpa using hn)
        simp only [List.getD_cons_succ, this, List.take_succ_cons, visibleTokens, List.map_cons,
          List.sum_cons]
        omega
  have := hscan records 0 n h
  rwa [Nat.zero_add] at this

theorem visibleTokens_sub {records : List ReductionRecord} {i n : Nat} (h : i ≤ n) :
    visibleTokens (records.take n) - visibleTokens (records.take i) =
      visibleTokens ((records.take n).drop i) := by
  have hsplit : records.take n = records.take i ++ (records.take n).drop i := by
    conv_lhs => rw [← List.take_append_drop i (records.take n), List.take_take, Nat.min_eq_left h]
  have hsum : visibleTokens (records.take n) =
      visibleTokens (records.take i) + visibleTokens ((records.take n).drop i) := by
    conv_lhs => rw [hsplit]
    simp [visibleTokens]
  omega

/-- An ID is protected from the first record that cites it alone. -/
theorem mapGet_soleEvidenceFrom (records : List ReductionRecord) (id : Str) :
    mapGet (soleEvidenceFrom records) id = records.findIdx? fun r => decide (id ∈ protectedBy r) := by
  have hone : ∀ (ids : List Str) (m : List (Str × Nat)) (k : Nat),
      mapGet (ids.foldl (fun from_ id => mapSetFirst from_ id k) m) id =
        (mapGet m id).or (if id ∈ ids then some k else none) := by
    intro ids
    induction ids with
    | nil => simp
    | cons x ids ih =>
      intro m k
      rw [List.foldl_cons, ih, mapGet_mapSetFirst]
      by_cases hx : x = id
      · subst hx
        cases mapGet m x <;> simp
      · cases mapGet m id <;> simp [hx, Ne.symm hx]
  induction records using List.reverseRecOn with
  | nil => rfl
  | append_singleton read record ih =>
    have hadd : soleEvidenceFrom (read ++ [record]) =
        (protectedBy record).foldl (fun from_ id => mapSetFirst from_ id read.length)
          (soleEvidenceFrom read) := by
      simp [soleEvidenceFrom, List.zipIdx_append]
    rw [hadd, hone, ih, List.findIdx?_append]
    by_cases h : id ∈ protectedBy record <;> simp [h]

/-! ## The clauses of one decision -/

section

variable (dateParse : Str → Option Int) (lifetimeMs : Number)

/-- The tokens that the line of a call saves. -/
def tokensSaved (record : ReductionRecord) (text : Str) (call : ToolCall) : Nat :=
  reductionTokens text - reductionTokens (reductionLine call.name call.target (firstLine text) record.id)

/-- The entry of a reduced result. -/
def entryOf (record : ReductionRecord) (toolCallId text : Str) (call : ToolCall) : ReducedEntry :=
  ⟨record.id, toolCallId, reductionLine call.name call.target (firstLine text) record.id,
    tokensSaved record text call⟩

/-- The clauses on what stands between a result and the record at which it is eligible. -/
structure Passes (records : List ReductionRecord) (record : ReductionRecord) (index : Nat) (text : Str)
    (call : ToolCall) (eligible : Nat) : Prop where
  notSole : ∀ r ∈ records.take (eligible + 1), record.id ∉ protectedBy r
  cheaper : tokensSaved record text call ≠ 0
  timely : visibleTokens ((records.take (eligible + 1)).drop (index + 1)) ≤ tokensSaved record text call ∨
    idle dateParse lifetimeMs record records[index + 1]? = true

variable {dateParse lifetimeMs}

/-- An entry becomes eligible at a later record of the branch. -/
theorem eligibleAt_bounds {records : List ReductionRecord} {call : ToolCall} {i e : Nat}
    (h : eligibleAt (reductionIndex records) call i = some e) : i < e ∧ e < records.length := by
  obtain ⟨s, his, hse, ⟨r, hr, hc⟩, hsecond⟩ := (eligibleAt_spec records call i e).mp ⟨e, h, Nat.le_refl _⟩
  have hslt := (List.getElem?_eq_some_iff.mp hr).1
  refine ⟨by omega, ?_⟩
  have hbound : ∃ e', eligibleAt (reductionIndex records) call i = some e' ∧
      e' ≤ records.length - 1 := by
    refine (eligibleAt_spec records call i _).mpr ⟨s, his, by omega, ⟨r, hr, hc⟩, ?_⟩
    refine hsecond.imp (fun ⟨s', hlt, _, hs'⟩ => ?_) fun ⟨k, hik, _, hne, call', hread, hkey⟩ => ?_
    · obtain ⟨r', hr', hc'⟩ := hs'
      have := (List.getElem?_eq_some_iff.mp hr').1
      exact ⟨s', hlt, by omega, r', hr', hc'⟩
    · obtain ⟨r', result, hr', hrest⟩ := hread
      have := (List.getElem?_eq_some_iff.mp hr').1
      exact ⟨k, hik, by omega, hne, call', ⟨r', result, hr', hrest⟩, hkey⟩
  obtain ⟨e', he', hle⟩ := hbound
  obtain rfl := Option.some.inj (h.symm.trans he')
  omega

/-- Longer lists show more tokens. -/
theorem visibleTokens_take_le (records : List ReductionRecord) {n m : Nat} (h : n ≤ m) (i : Nat) :
    visibleTokens ((records.take n).drop i) ≤ visibleTokens ((records.take m).drop i) := by
  unfold visibleTokens
  refine List.Sublist.sum_le_sum ?_ fun _ _ => Nat.zero_le _
  exact ((List.take_sublist_take_left h).drop i).map _

/-- What passes at a record passes at every earlier one. -/
theorem Passes.earlier {records : List ReductionRecord} {record : ReductionRecord} {index m n : Nat}
    {text : Str} {call : ToolCall} (h : Passes dateParse lifetimeMs records record index text call n)
    (hle : m ≤ n) : Passes dateParse lifetimeMs records record index text call m where
  notSole r hr := h.notSole r ((List.take_sublist_take_left (by omega)).subset hr)
  cheaper := h.cheaper
  timely := h.timely.imp_left (Nat.le_trans (visibleTokens_take_le records (by omega) _))

variable (dateParse lifetimeMs) in
/-- The records let a result be replaced under a call. -/
structure Replaceable (records : List ReductionRecord) (record : ReductionRecord) (index : Nat)
    (text : Str) (call : ToolCall) : Prop where
  allowed : call.name ∉ EXCLUDED_TOOLS
  inTime : ∃ n, DueBy records call index n ∧
    Passes dateParse lifetimeMs records record index text call n

/-- The earliest record by which a result is due decides. -/
theorem replaceable_iff {records : List ReductionRecord} {record : ReductionRecord} {index : Nat}
    {text : Str} {call : ToolCall} :
    Replaceable dateParse lifetimeMs records record index text call ↔ call.name ∉ EXCLUDED_TOOLS ∧
      ∃ e, eligibleAt (reductionIndex records) call index = some e ∧
        Passes dateParse lifetimeMs records record index text call e := by
  constructor
  · rintro ⟨hallowed, n, hdue, hpasses⟩
    obtain ⟨e, he, hle⟩ := (eligibleAt_spec records call index n).mpr hdue
    exact ⟨hallowed, e, he, hpasses.earlier hle⟩
  · rintro ⟨hallowed, e, he, hpasses⟩
    exact ⟨hallowed, e, (eligibleAt_spec records call index e).mp ⟨e, he, Nat.le_refl _⟩, hpasses⟩

/-- A result is reduced exactly when the records let it be replaced under its call. -/
theorem reduceCall_some {records : List ReductionRecord} {record : ReductionRecord} {index : Nat}
    {toolCallId text : Str} {call : ToolCall} {entry : ReducedEntry} :
    reduceCall dateParse lifetimeMs (reducer records) record index toolCallId text call = some entry ↔
      entry = entryOf record toolCallId text call ∧
        Replaceable dateParse lifetimeMs records record index text call := by
  rw [replaceable_iff, and_left_comm]
  unfold reduceCall
  by_cases hex : call.name ∈ EXCLUDED_TOOLS
  · simp [hex]
  · cases he : eligibleAt (reductionIndex records) call index with
    | none => simp [hex, reducer, he]
    | some e =>
      obtain ⟨hie, hlt⟩ := eligibleAt_bounds he
      have htokens : (prefixTokens records).getD (e + 1) 0 - (prefixTokens records).getD (index + 1) 0 =
          visibleTokens ((records.take (e + 1)).drop (index + 1)) := by
        rw [prefixTokens_getD (by omega), prefixTokens_getD (by omega), visibleTokens_sub (by omega)]
      have hsole : ((mapGet (soleEvidenceFrom records) record.id).any fun citedFrom =>
          decide (citedFrom ≤ e)) = false ↔ ∀ r ∈ records.take (e + 1), record.id ∉ protectedBy r := by
        rw [mapGet_soleEvidenceFrom]
        constructor
        · intro h r hr hmem
          obtain ⟨j, hj, rfl⟩ := List.mem_take_iff_getElem.mp hr
          cases hf : records.findIdx? fun r => decide (record.id ∈ protectedBy r) with
          | none =>
            rw [List.findIdx?_eq_none_iff] at hf
            have := hf _ (List.getElem_mem (by omega : j < records.length))
            simp [hmem] at this
          | some k =>
            obtain ⟨hk, -, hmin⟩ := List.findIdx?_eq_some_iff_getElem.mp hf
            have hke : ¬ k ≤ e := by simpa [hf] using h
            have := hmin j (by omega)
            simp [hmem] at this
        · intro h
          cases hf : records.findIdx? fun r => decide (record.id ∈ protectedBy r) with
          | none => rfl
          | some k =>
            obtain ⟨hk, hp, -⟩ := List.findIdx?_eq_some_iff_getElem.mp hf
            have hke : ¬ k ≤ e := fun hle =>
              h _ (List.mem_take_iff_getElem.mpr ⟨k, by omega, rfl⟩) (by simpa using hp)
            simpa using hke
      have hpasses : Passes dateParse lifetimeMs records record index text call e ↔
          (∀ r ∈ records.take (e + 1), record.id ∉ protectedBy r) ∧ tokensSaved record text call ≠ 0 ∧
            (visibleTokens ((records.take (e + 1)).drop (index + 1)) ≤ tokensSaved record text call ∨
              idle dateParse lifetimeMs record records[index + 1]? = true) :=
        ⟨fun h => ⟨h.notSole, h.cheaper, h.timely⟩, fun ⟨h₁, h₂, h₃⟩ => ⟨h₁, h₂, h₃⟩⟩
      simp only [hex, ↓reduceIte, reducer, he, Option.bind_some, not_false_eq_true, true_and,
        Option.some.injEq, exists_eq_left', hpasses, ← hsole, htokens]
      rw [show reductionTokens text - reductionTokens (reductionLine call.name call.target
        (firstLine text) record.id) = tokensSaved record text call from rfl]
      cases ((mapGet (soleEvidenceFrom records) record.id).any fun citedFrom => decide (citedFrom ≤ e))
      · by_cases hs : tokensSaved record text call = 0
        · simp [hs]
        · by_cases ht : tokensSaved record text call * REDUCTION_SUFFIX_RATIO <
              visibleTokens ((records.take (e + 1)).drop (index + 1)) ∧
              idle dateParse lifetimeMs record records[index + 1]? = false
          · have hno : ¬ (visibleTokens ((records.take (e + 1)).drop (index + 1)) ≤
                tokensSaved record text call ∨
                idle dateParse lifetimeMs record records[index + 1]? = true) := by
              rw [ REDUCTION_SUFFIX_RATIO, Nat.mul_one] at ht
              simp [ht.2, ht.1]
            simp only [hs, hno, Bool.false_eq_true, ↓reduceIte, if_pos ht, and_false, reduceCtorEq]
          · have hyes : visibleTokens ((records.take (e + 1)).drop (index + 1)) ≤
                tokensSaved record text call ∨
                idle dateParse lifetimeMs record records[index + 1]? = true := by
              rw [ REDUCTION_SUFFIX_RATIO, Nat.mul_one] at ht
              by_contra hno
              rw [not_or, Bool.not_eq_true, Nat.not_le] at hno
              exact ht hno
            simp only [hs, ht, hyes, Bool.false_eq_true, ↓reduceIte, Option.some.injEq,
              not_false_eq_true, and_self, and_true, ne_eq]
            exact eq_comm
      · simp

end

end Compaction
