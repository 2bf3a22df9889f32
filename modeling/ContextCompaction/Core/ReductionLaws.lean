import ContextCompaction.Core.Reduction
import ContextCompaction.Js.JsonOrder

/-!
# Laws of reductions

* `keepsReductions_iff` (rule G2): an appended list of records keeps every reduction exactly when it
  gives no replaceable result's call ID to a call of another line.
* `reduced_iff_contract`: the one pass decides what the module's contract says over prefixes.
* `touchesOnlyReduced_iff` (rule G5): the view changes reduced results only, exactly when no other
  tool result has a replaceable one's call ID.
-/

namespace Compaction

open Js

section

variable (dateParse : Str → Option Int) (lifetimeMs : Number)

/-- The entry of the record at an index. -/
def entryAt (records : List ReductionRecord) (i : Nat) : Option ReducedEntry :=
  records[i]?.bind fun record => reduceRecord dateParse lifetimeMs (reducer records) record i

/-- The lifetime that a view is computed with. -/
def lifetimeOf (cacheLifetimeMs : Option Number) : Number :=
  cacheLifetimeMs.getD (.ofNat DEFAULT_CACHE_LIFETIME_MS)

/-- The view lists, in order, the entry of every record that has one. -/
theorem entries_reduceRecords (records : List ReductionRecord) (cacheLifetimeMs : Option Number) :
    (reduceRecords dateParse records cacheLifetimeMs).entries =
      (List.range records.length).filterMap
        (entryAt dateParse (lifetimeOf cacheLifetimeMs) records) := by
  have hzip : ∀ (l : List ReductionRecord) (f : ReductionRecord → Nat → Option ReducedEntry),
      l.zipIdx.filterMap (fun e => f e.1 e.2) =
        (List.range l.length).filterMap fun i => l[i]?.bind fun record => f record i := by
    intro l f
    induction l using List.reverseRecOn with
    | nil => rfl
    | append_singleton l x ih =>
      rw [List.zipIdx_append, List.filterMap_append, ih, List.length_append, List.length_singleton,
        List.range_succ, List.filterMap_append]
      congr 1
      · apply List.filterMap_congr
        intro i hi
        rw [List.getElem?_append_left (List.mem_range.mp hi)]
      · simp only [List.zipIdx_singleton, Nat.zero_add, List.filterMap_cons, List.filterMap_nil,
          List.getElem?_concat_length, Option.bind_some]
  exact hzip records _

/-- The last call of an ID. -/
def callOf (records : List ReductionRecord) (toolCallId : Str) : Option ToolCall :=
  mapGet (mapOf (records.flatMap recordCalls)) toolCallId

/-- A text result stands at an index, with its call ID and its text. -/
structure TextAt (records : List ReductionRecord) (i : Nat) (record : ReductionRecord)
    (toolCallId text : Str) : Prop where
  atIndex : records[i]? = some record
  isResult : (textResult record).bind (fun r => (resultText r.2).map fun t => (r.1, t)) =
    some (toolCallId, text)

/-- A record is reduced exactly when it is a result whose call is replaceable. -/
theorem entryAt_some {records : List ReductionRecord} {i : Nat} {entry : ReducedEntry} :
    entryAt dateParse lifetimeMs records i = some entry ↔
      ∃ record toolCallId text call, TextAt records i record toolCallId text ∧
        callOf records toolCallId = some call ∧ entry = entryOf record toolCallId text call ∧
        Replaceable dateParse lifetimeMs records record i text call := by
  have hcalls : (reducer records).ix.calls = mapOf (records.flatMap recordCalls) :=
    calls_reductionIndex records
  unfold entryAt reduceRecord
  simp only [Option.bind_eq_some_iff, reduceCall_some, hcalls]
  constructor
  · rintro ⟨record, hr, result, hres, text, ht, call, hc, rfl, hreplace⟩
    exact ⟨record, result.1, text, call, ⟨hr, by simp [hres, ht]⟩, hc, rfl, hreplace⟩
  · rintro ⟨record, toolCallId, text, call, ⟨hr, hres⟩, hc, rfl, hreplace⟩
    obtain ⟨result, hresult, h⟩ := Option.bind_eq_some_iff.mp hres
    obtain ⟨t, ht, heq⟩ := Option.map_eq_some_iff.mp h
    obtain ⟨rfl, rfl⟩ := Prod.mk.inj heq
    exact ⟨record, hr, result, hresult, t, ht, call, hc, rfl, hreplace⟩

/-! ## Appended records -/

variable {dateParse lifetimeMs}

theorem readAt_append {read more : List ReductionRecord} {k : Nat} {call : ToolCall}
    (hk : k < read.length) : ReadAt (read ++ more) k call ↔ ReadAt read k call := by
  unfold ReadAt
  rw [List.getElem?_append_left hk, List.take_append_of_le_length (by omega)]

theorem stopAt_append {read more : List ReductionRecord} {k : Nat} (hk : k < read.length) :
    StopAt (read ++ more) k ↔ StopAt read k := by
  unfold StopAt
  rw [List.getElem?_append_left hk]

/-- Whether a call is due by a record depends on the records up to it. -/
theorem dueBy_append {read more : List ReductionRecord} {call : ToolCall} {i n : Nat}
    (hn : n < read.length) : DueBy (read ++ more) call i n ↔ DueBy read call i n := by
  constructor
  · rintro ⟨s, his, hsn, hs, h⟩
    refine ⟨s, his, hsn, (stopAt_append (by omega)).mp hs, h.imp ?_ ?_⟩
    · rintro ⟨s', hlt, hle, hs'⟩
      exact ⟨s', hlt, hle, (stopAt_append (by omega)).mp hs'⟩
    · rintro ⟨k, hik, hkn, hne, call', hread, hkey⟩
      exact ⟨k, hik, hkn, hne, call', (readAt_append (by omega)).mp hread, hkey⟩
  · rintro ⟨s, his, hsn, hs, h⟩
    refine ⟨s, his, hsn, (stopAt_append (by omega)).mpr hs, h.imp ?_ ?_⟩
    · rintro ⟨s', hlt, hle, hs'⟩
      exact ⟨s', hlt, hle, (stopAt_append (by omega)).mpr hs'⟩
    · rintro ⟨k, hik, hkn, hne, call', hread, hkey⟩
      exact ⟨k, hik, hkn, hne, call', (readAt_append (by omega)).mpr hread, hkey⟩

/-- Whether an entry passes at a record depends on the records up to it. -/
theorem passes_append {read more : List ReductionRecord} {record : ReductionRecord} {i e : Nat}
    {text : Str} {call : ToolCall} (hie : i < e) (he : e < read.length) :
    Passes dateParse lifetimeMs (read ++ more) record i text call e ↔
      Passes dateParse lifetimeMs read record i text call e := by
  have htake : (read ++ more).take (e + 1) = read.take (e + 1) :=
    List.take_append_of_le_length (by omega)
  have hnext : (read ++ more)[i + 1]? = read[i + 1]? := List.getElem?_append_left (by omega)
  constructor
  · rintro ⟨h₁, h₂, h₃⟩
    rw [htake] at h₁ h₃
    rw [hnext] at h₃
    exact ⟨h₁, h₂, h₃⟩
  · rintro ⟨h₁, h₂, h₃⟩
    refine ⟨htake ▸ h₁, h₂, ?_⟩
    rw [htake, hnext]
    exact h₃

variable (dateParse lifetimeMs)

/-- Every reduced result stays reduced, by the same entry, when records are appended. -/
def KeepsReductions (read more : List ReductionRecord) : Prop :=
  ∀ i entry, entryAt dateParse lifetimeMs read i = some entry →
    entryAt dateParse lifetimeMs (read ++ more) i = some entry

/-- The last appended call that has the ID of a replaceable result is the result's own call; or it is
of no excluded tool, writes the same line, and the result is due under it as well, by a record up to
which nothing keeps it. -/
def KeepsCalls (read more : List ReductionRecord) : Prop :=
  ∀ i record toolCallId text call, TextAt read i record toolCallId text →
    callOf read toolCallId = some call → Replaceable dateParse lifetimeMs read record i text call →
    ∀ call', callOf more toolCallId = some call' →
      call' = call ∨
        (call'.name ∉ EXCLUDED_TOOLS ∧
          reductionLine call'.name call'.target (firstLine text) record.id =
            reductionLine call.name call.target (firstLine text) record.id ∧
          ∃ n, DueBy (read ++ more) call' i n ∧
            Passes dateParse lifetimeMs (read ++ more) record i text call n)

variable {dateParse lifetimeMs}

theorem callOf_append (read more : List ReductionRecord) (id : Str) :
    callOf (read ++ more) id = (callOf more id).or (callOf read id) := by
  unfold callOf
  rw [List.flatMap_append, mapGet_mapOf, mapGet_mapOf, mapGet_mapOf, List.reverse_append,
    mapGet_append]

theorem TextAt.append {read : List ReductionRecord} {i : Nat} {record : ReductionRecord}
    {toolCallId text : Str} (h : TextAt read i record toolCallId text)
    (more : List ReductionRecord) : TextAt (read ++ more) i record toolCallId text where
  atIndex := by
    rw [List.getElem?_append_left (List.getElem?_eq_some_iff.mp h.atIndex).1, h.atIndex]
  isResult := h.isResult

/-- An index has one text result. -/
theorem TextAt.unique {records : List ReductionRecord} {i : Nat} {record record' : ReductionRecord}
    {toolCallId toolCallId' text text' : Str} (h : TextAt records i record toolCallId text)
    (h' : TextAt records i record' toolCallId' text') :
    record' = record ∧ toolCallId' = toolCallId ∧ text' = text := by
  obtain rfl := Option.some.inj (h'.atIndex.symm.trans h.atIndex)
  exact ⟨rfl, Prod.mk.inj (Option.some.inj (h'.isResult.symm.trans h.isResult))⟩

/-- A result stays replaceable under its own call. -/
theorem Replaceable.append {read : List ReductionRecord} {record : ReductionRecord} {i : Nat}
    {text : Str} {call : ToolCall} (h : Replaceable dateParse lifetimeMs read record i text call)
    (more : List ReductionRecord) :
    Replaceable dateParse lifetimeMs (read ++ more) record i text call := by
  obtain ⟨hallowed, e, he, hpasses⟩ := replaceable_iff.mp h
  obtain ⟨hie, hlt⟩ := eligibleAt_bounds he
  have hdue := (eligibleAt_spec read call i e).mp ⟨e, he, Nat.le_refl _⟩
  exact ⟨hallowed, e, (dueBy_append hlt).mpr hdue, (passes_append hie hlt).mpr hpasses⟩

/-- Only the line of a call counts for what stands behind a result. -/
theorem Passes.of_line {records : List ReductionRecord} {record : ReductionRecord} {i n : Nat}
    {text : Str} {call call' : ToolCall}
    (hline : reductionLine call'.name call'.target (firstLine text) record.id =
      reductionLine call.name call.target (firstLine text) record.id)
    (h : Passes dateParse lifetimeMs records record i text call n) :
    Passes dateParse lifetimeMs records record i text call' n := by
  have hsaved : tokensSaved record text call' = tokensSaved record text call := by
    simp only [tokensSaved, hline]
  exact ⟨h.notSole, hsaved ▸ h.cheaper, hsaved ▸ h.timely⟩

/-- Appending keeps every reduction exactly when no appended call takes the ID of a reduced result,
unless it reduces this result to the same line. -/
theorem keepsReductions_iff_keepsCalls {read more : List ReductionRecord} :
    KeepsReductions dateParse lifetimeMs read more ↔ KeepsCalls dateParse lifetimeMs read more := by
  constructor
  · intro h i record toolCallId text call htext hc hreplace call' hc'
    have hentry : entryAt dateParse lifetimeMs read i = some (entryOf record toolCallId text call) :=
      (entryAt_some _ _).mpr ⟨record, toolCallId, text, call, htext, hc, rfl, hreplace⟩
    obtain ⟨record', toolCallId', text', call'', htext', hc'', heq, hallowed, n, hdue, hpasses⟩ :=
      (entryAt_some _ _).mp (h i _ hentry)
    obtain ⟨rfl, rfl, rfl⟩ := (htext.append more).unique htext'
    rw [callOf_append, hc', Option.some_or] at hc''
    obtain rfl := Option.some.inj hc''
    have hline := congrArg ReducedEntry.line heq
    exact .inr ⟨hallowed, hline.symm, n, hdue, hpasses.of_line hline⟩
  · intro h i entry hentry
    obtain ⟨record, toolCallId, text, call, htext, hc, rfl, hreplace⟩ :=
      (entryAt_some _ _).mp hentry
    rw [entryAt_some]
    cases hc' : callOf more toolCallId with
    | none =>
      refine ⟨record, toolCallId, text, call, htext.append more, ?_, rfl, hreplace.append more⟩
      rw [callOf_append, hc', Option.none_or, hc]
    | some call' =>
      refine ⟨record, toolCallId, text, call', htext.append more, ?_, ?_⟩
      · rw [callOf_append, hc', Option.some_or]
      · rcases h i record toolCallId text call htext hc hreplace call' hc' with
          rfl | ⟨hallowed, hline, n, hdue, hpasses⟩
        · exact ⟨rfl, hreplace.append more⟩
        · exact ⟨by simp only [entryOf, tokensSaved, hline], hallowed, n, hdue, hpasses.of_line hline⟩

theorem mem_entries {records : List ReductionRecord} {cacheLifetimeMs : Option Number}
    {entry : ReducedEntry} :
    entry ∈ (reduceRecords dateParse records cacheLifetimeMs).entries ↔
      ∃ i, entryAt dateParse (lifetimeOf cacheLifetimeMs) records i = some entry := by
  rw [entries_reduceRecords, List.mem_filterMap]
  constructor
  · rintro ⟨i, -, h⟩
    exact ⟨i, h⟩
  · rintro ⟨i, h⟩
    obtain ⟨record, toolCallId, text, call, htext, -⟩ := (entryAt_some _ _).mp h
    exact ⟨i, List.mem_range.mpr (List.getElem?_eq_some_iff.mp htext.atIndex).1, h⟩

/-- Appended records keep every reduction exactly when they keep the calls of reduced results: of the
entries at each index, and of the listed entries where no two records have one ID. -/
theorem keepsReductions_iff (read more : List ReductionRecord) (cacheLifetimeMs : Option Number) :
    (KeepsReductions dateParse (lifetimeOf cacheLifetimeMs) read more ↔
      KeepsCalls dateParse (lifetimeOf cacheLifetimeMs) read more) ∧
    (KeepsCalls dateParse (lifetimeOf cacheLifetimeMs) read more →
      (reduceRecords dateParse read cacheLifetimeMs).entries ⊆
        (reduceRecords dateParse (read ++ more) cacheLifetimeMs).entries) ∧
    (((read ++ more).map ReductionRecord.id).Nodup →
      (reduceRecords dateParse read cacheLifetimeMs).entries ⊆
        (reduceRecords dateParse (read ++ more) cacheLifetimeMs).entries →
      KeepsCalls dateParse (lifetimeOf cacheLifetimeMs) read more) := by
  refine ⟨keepsReductions_iff_keepsCalls, fun h entry hentry => ?_, fun hids hsub => ?_⟩
  · obtain ⟨i, hi⟩ := mem_entries.mp hentry
    exact mem_entries.mpr ⟨i, keepsReductions_iff_keepsCalls.mpr h i entry hi⟩
  · refine keepsReductions_iff_keepsCalls.mp fun i entry hi => ?_
    obtain ⟨j, hj⟩ := mem_entries.mp (hsub (mem_entries.mpr ⟨i, hi⟩))
    obtain ⟨record, toolCallId, text, call, htext, -, rfl, -⟩ := (entryAt_some _ _).mp hi
    obtain ⟨record', toolCallId', text', call', htext', -, heq, -⟩ := (entryAt_some _ _).mp hj
    -- The record ID of an entry names its index.
    have hlt := (List.getElem?_eq_some_iff.mp htext.atIndex).1
    obtain rfl : i = j := by
      refine (List.getElem?_inj (by simp; omega) hids (j := j)).mp ?_
      rw [List.getElem?_map, List.getElem?_map, (htext.append more).atIndex, htext'.atIndex,
        Option.map_some, Option.map_some]
      exact congrArg some (congrArg ReducedEntry.recordId heq)
    exact hj

end

/-! ### A reused call ID -/

/-- A message record that carries nothing else. -/
def messageEntry (id : String) (message : ReductionRecordMessage) : ReductionRecord :=
  ⟨lit id, lit "message", [], some message, none, none, none, none⟩

def callMessage (toolCallId name path : String) : ReductionRecordMessage :=
  ⟨⟨lit "assistant", none, some (.arr [.obj [(lit "type", .str (lit "toolCall")),
    (lit "id", .str (lit toolCallId)), (lit "name", .str (lit name)),
    (lit "arguments", .obj [(lit "path", .str (lit path))])]])⟩, none, none⟩

def resultMessage (toolCallId : String) (text : Str) : ReductionRecordMessage :=
  ⟨⟨lit "toolResult", some (lit toolCallId), some (lineContent text)⟩, none, none⟩

def stopMessage : ReductionRecordMessage := ⟨⟨lit "assistant", none, none⟩, some (lit "stop"), none⟩

/-- A long result of the first batch. -/
def longText : Str := List.replicate 800 0x78

/-- A finished read, and the turn after it. -/
def firstBatch : List ReductionRecord :=
  [messageEntry "a" (callMessage "c" "read" "p"), messageEntry "b" (resultMessage "c" longText),
    messageEntry "d" stopMessage, messageEntry "e" stopMessage]

/-- A later batch with the same call ID. -/
def secondBatch : List ReductionRecord :=
  [messageEntry "f" (callMessage "c" "read" "q"), messageEntry "g" (resultMessage "c" (lit "new")),
    messageEntry "h" stopMessage]

/-- The messages of message records. -/
def recordMessages (records : List ReductionRecord) : List ReducibleMessage :=
  records.filterMap fun record => (messageOf record).map ReductionRecordMessage.toReducibleMessage

/-- A later call of the same ID changes the line of an earlier result. -/
theorem not_keepsReductions_reusedId :
    (assertToolPairs (recordMessages firstBatch)).isOk = true ∧
      (assertToolPairs (recordMessages (firstBatch ++ secondBatch))).isOk = true ∧
      ∃ entry ∈ (reduceRecords (fun _ => none) firstBatch none).entries,
        entry ∉ (reduceRecords (fun _ => none) (firstBatch ++ secondBatch) none).entries := by
  decide +kernel

/-! ## The contract over prefixes -/

/-- A text result of a call of some record stands at an index. -/
def ResultAt (records : List ReductionRecord) (k : Nat) (call : ToolCall) : Prop :=
  ∃ record result, records[k]? = some record ∧ textResult record = some result ∧
    (result.1, call) ∈ records.flatMap recordCalls

instance (records : List ReductionRecord) (s : Nat) : Decidable (StopAt records s) :=
  decidable_of_iff (∃ record ∈ records[s]?, completesTurn record = true) (by simp [StopAt])

instance (records : List ReductionRecord) (k : Nat) (call : ToolCall) :
    Decidable (ResultAt records k call) :=
  decidable_of_iff (∃ result ∈ records[k]?.bind textResult, (result.1, call) ∈ records.flatMap recordCalls)
    (by simp only [ResultAt, Option.mem_def, Option.bind_eq_some_iff]; grind)

section

variable (dateParse : Str → Option Int) (lifetimeMs : Number)

/-- The module's contract on the result at an index, evaluated on one list of records alone. -/
def ContractOn (p : List ReductionRecord) (i : Nat) : Prop :=
  ∃ record toolCallId text call, p[i]? = some record ∧
    (textResult record).bind (fun r => (resultText r.2).map fun t => (r.1, t)) =
      some (toolCallId, text) ∧
    (toolCallId, call) ∈ p.flatMap recordCalls ∧ call.name ∉ EXCLUDED_TOOLS ∧
    (∃ s, i < s ∧ StopAt p s ∧
      ((∃ s', s < s' ∧ StopAt p s') ∨ ∃ k, i < k ∧ call.target ≠ [] ∧ ResultAt p k call)) ∧
    (∀ r ∈ p, record.id ∉ protectedBy r) ∧ tokensSaved record text call ≠ 0 ∧
    (visibleTokens (p.drop (i + 1)) ≤ tokensSaved record text call ∨
      idle dateParse lifetimeMs record p[i + 1]? = true)

instance (p : List ReductionRecord) (i : Nat) : Decidable (ContractOn dateParse lifetimeMs p i) :=
  decidable_of_iff
    (∃ record ∈ p[i]?,
      ∃ r ∈ (textResult record).bind fun r => (resultText r.2).map fun t => (r.1, t),
      ∃ c ∈ p.flatMap recordCalls, c.1 = r.1 ∧ c.2.name ∉ EXCLUDED_TOOLS ∧
        (∃ s ∈ List.range p.length, i < s ∧ StopAt p s ∧
          ((∃ s' ∈ List.range p.length, s < s' ∧ StopAt p s') ∨
            ∃ k ∈ List.range p.length, i < k ∧ c.2.target ≠ [] ∧ ResultAt p k c.2)) ∧
        (∀ r ∈ p, record.id ∉ protectedBy r) ∧ tokensSaved record r.2 c.2 ≠ 0 ∧
        (visibleTokens (p.drop (i + 1)) ≤ tokensSaved record r.2 c.2 ∨
          idle dateParse lifetimeMs record p[i + 1]? = true)) <| by
    have hstop : ∀ s, StopAt p s → s ∈ List.range p.length := fun s ⟨_, hr, _⟩ =>
      List.mem_range.mpr (List.getElem?_eq_some_iff.mp hr).1
    have hresult : ∀ k call, ResultAt p k call → k ∈ List.range p.length := fun k _ ⟨_, _, hr, _⟩ =>
      List.mem_range.mpr (List.getElem?_eq_some_iff.mp hr).1
    constructor
    · rintro ⟨record, hr, ⟨id, text⟩, hres, ⟨_, call⟩, hc, rfl, hex, ⟨s, -, his, hs, h⟩, hrest⟩
      refine ⟨record, _, text, call, hr, hres, hc, hex, ⟨s, his, hs, h.imp ?_ ?_⟩, hrest⟩
      · rintro ⟨s', -, h⟩
        exact ⟨s', h⟩
      · rintro ⟨k, -, h⟩
        exact ⟨k, h⟩
    · rintro ⟨record, id, text, call, hr, hres, hc, hex, ⟨s, his, hs, h⟩, hrest⟩
      refine ⟨record, hr, (id, text), hres, (id, call), hc, rfl, hex,
        ⟨s, hstop s hs, his, hs, h.imp ?_ ?_⟩, hrest⟩
      · rintro ⟨s', hlt, hs'⟩
        exact ⟨s', hstop s' hs', hlt, hs'⟩
      · rintro ⟨k, hik, hne, hk⟩
        exact ⟨k, hresult k _ hk, hik, hne, hk⟩

/-- The reduced results are those that satisfy the contract on some prefix. -/
def ReducesByContract (records : List ReductionRecord) : Prop :=
  ∀ i, (∃ entry, entryAt dateParse lifetimeMs records i = some entry) ↔
    ∃ n, i < n ∧ n ≤ records.length ∧ ContractOn dateParse lifetimeMs (records.take n) i

end

/-- Every text result of a call stands behind the call. -/
def ResultsFollowCalls (records : List ReductionRecord) : Prop :=
  ∀ k record result call, records[k]? = some record → textResult record = some result →
    (result.1, call) ∈ records.flatMap recordCalls →
    (result.1, call) ∈ (records.take k).flatMap recordCalls

/-- No tool's name contains a line feed. -/
def PlainToolNames (records : List ReductionRecord) : Prop :=
  ∀ c ∈ records.flatMap recordCalls, (0x0A : UInt16) ∉ c.2.name

/-- No two calls have one ID. -/
def DistinctCalls (records : List ReductionRecord) : Prop :=
  ((records.flatMap recordCalls).map Prod.fst).Nodup

/-- For tool names without a newline, the key tells calls apart by tool and target. -/
theorem targetKey_inj {call call' : ToolCall} (h : (0x0A : UInt16) ∉ call.name)
    (h' : (0x0A : UInt16) ∉ call'.name) : targetKey call = targetKey call' ↔ call = call' := by
  constructor
  · intro heq
    have hname : ∀ c : ToolCall, (0x0A : UInt16) ∉ c.name →
        (targetKey c).takeWhile (· ≠ 0x0A) = c.name ∧
          (targetKey c).dropWhile (· ≠ 0x0A) = 0x0A :: c.target := by
      intro c hc
      have hall : ∀ u ∈ c.name, decide (u ≠ (0x0A : UInt16)) = true := by
        intro u hu
        exact decide_eq_true (ne_of_mem_of_not_mem hu hc)
      have hkey : targetKey c = c.name ++ 0x0A :: c.target := by
        rw [targetKey, List.append_assoc]
        rfl
      rw [hkey]
      constructor
      · rw [List.takeWhile_append_of_pos hall]
        simp
      · rw [List.dropWhile_append_of_pos hall]
        simp
    obtain ⟨h₁, h₂⟩ := hname call h
    obtain ⟨h₁', h₂'⟩ := hname call' h'
    rw [heq] at h₁ h₂
    have hn : call.name = call'.name := h₁.symm.trans h₁'
    have ht : call.target = call'.target := (List.cons.inj (h₂.symm.trans h₂')).2
    cases call
    cases call'
    simp_all
  · rintro rfl
    rfl

/-- With distinct IDs, the call of an ID is the one that has it. -/
theorem callOf_eq_some {records : List ReductionRecord} (h : DistinctCalls records) {id : Str}
    {call : ToolCall} : callOf records id = some call ↔ (id, call) ∈ records.flatMap recordCalls := by
  unfold callOf
  rw [mapOf_eq_self h]
  exact (mem_iff_mapGet h).symm

theorem DistinctCalls.take {records : List ReductionRecord} (h : DistinctCalls records) (n : Nat) :
    DistinctCalls (records.take n) := by
  unfold DistinctCalls at *
  refine h.sublist (List.Sublist.map _ ?_)
  exact List.Sublist.flatMap (List.take_sublist n records) _

theorem mem_flatMap_take {records : List ReductionRecord} {n m : Nat} (h : n ≤ m)
    {c : Str × ToolCall} (hc : c ∈ (records.take n).flatMap recordCalls) :
    c ∈ (records.take m).flatMap recordCalls :=
  (List.Sublist.flatMap (List.take_sublist_take_left h) _).subset hc

theorem mem_flatMap_of_take {records : List ReductionRecord} {n : Nat} {c : Str × ToolCall}
    (hc : c ∈ (records.take n).flatMap recordCalls) : c ∈ records.flatMap recordCalls :=
  (List.Sublist.flatMap (List.take_sublist n records) _).subset hc

theorem stopAt_take {records : List ReductionRecord} {n s : Nat} :
    StopAt (records.take n) s ↔ s < n ∧ StopAt records s := by
  unfold StopAt
  constructor
  · rintro ⟨r, hr, hc⟩
    have hlt : s < n := by
      have := (List.getElem?_eq_some_iff.mp hr).1
      rw [List.length_take] at this
      omega
    rw [List.getElem?_take_of_lt hlt] at hr
    exact ⟨hlt, r, hr, hc⟩
  · rintro ⟨hlt, r, hr, hc⟩
    exact ⟨r, by rw [List.getElem?_take_of_lt hlt, hr], hc⟩

section

variable {records : List ReductionRecord} (hcalls : DistinctCalls records)
  (hfollow : ResultsFollowCalls records) (hnames : PlainToolNames records)
include hcalls hfollow hnames

/-- A read of a call's key is a result of the call. -/
theorem readAt_iff_resultAt {id : Str} {call : ToolCall} (hc : (id, call) ∈ records.flatMap recordCalls)
    {k n : Nat} (hk : k < n) :
    (call.target ≠ [] ∧ ∃ call', ReadAt records k call' ∧ targetKey call' = targetKey call) ↔
      call.target ≠ [] ∧ ResultAt (records.take n) k call := by
  refine and_congr_right fun hne => ⟨?_, ?_⟩
  · rintro ⟨call', ⟨record, result, hr, hres, hget, -⟩, hkey⟩
    have hmem : (result.1, call') ∈ (records.take k).flatMap recordCalls :=
      (callOf_eq_some (hcalls.take k)).mp hget
    obtain rfl := (targetKey_inj (hnames _ (mem_flatMap_of_take hmem)) (hnames _ hc)).mp hkey
    refine ⟨record, result, ?_, hres, mem_flatMap_take hk.le hmem⟩
    rw [List.getElem?_take_of_lt hk, hr]
  · rintro ⟨record, result, hr, hres, hmem⟩
    rw [List.getElem?_take_of_lt hk] at hr
    have hmem' := hfollow k record result call hr hres (mem_flatMap_of_take hmem)
    exact ⟨call, ⟨record, result, hr, hres, (callOf_eq_some (hcalls.take k)).mpr hmem', hne⟩, rfl⟩

/-- The turns and reads that make a result eligible, seen on a prefix. -/
theorem eligible_iff_take {id : Str} {call : ToolCall} (hc : (id, call) ∈ records.flatMap recordCalls)
    (i n : Nat) :
    (∃ e, eligibleAt (reductionIndex records) call i = some e ∧ e ≤ n) ↔
      ∃ s, i < s ∧ StopAt (records.take (n + 1)) s ∧
        ((∃ s', s < s' ∧ StopAt (records.take (n + 1)) s') ∨
          ∃ k, i < k ∧ call.target ≠ [] ∧ ResultAt (records.take (n + 1)) k call) := by
  rw [eligibleAt_spec]
  constructor
  · rintro ⟨s, his, hsn, hs, h⟩
    refine ⟨s, his, stopAt_take.mpr ⟨by omega, hs⟩, h.imp ?_ ?_⟩
    · rintro ⟨s', hlt, hle, hs'⟩
      exact ⟨s', hlt, stopAt_take.mpr ⟨by omega, hs'⟩⟩
    · rintro ⟨k, hik, hkn, hread⟩
      exact ⟨k, hik, (readAt_iff_resultAt hcalls hfollow hnames hc (by omega)).mp hread⟩
  · rintro ⟨s, his, hs, h⟩
    obtain ⟨hsn, hs⟩ := stopAt_take.mp hs
    refine ⟨s, his, by omega, hs, h.imp ?_ ?_⟩
    · rintro ⟨s', hlt, hs'⟩
      obtain ⟨hsn', hs'⟩ := stopAt_take.mp hs'
      exact ⟨s', hlt, by omega, hs'⟩
    · rintro ⟨k, hik, hread⟩
      have hk : k < n + 1 := by
        obtain ⟨-, _, _, hr, -⟩ := hread
        have := (List.getElem?_eq_some_iff.mp hr).1
        rw [List.length_take] at this
        omega
      exact ⟨k, hik, by omega, (readAt_iff_resultAt hcalls hfollow hnames hc hk).mpr hread⟩

end

/-- The one pass reduces what the contract reduces over prefixes, where results follow their calls
and a key names its tool and target. -/
theorem reduced_iff_contract (dateParse : Str → Option Int) (cacheLifetimeMs : Option Number)
    (records : List ReductionRecord) (hcalls : DistinctCalls records)
    (hfollow : ResultsFollowCalls records) (hnames : PlainToolNames records) :
    (reduceRecords dateParse records cacheLifetimeMs).entries =
        (List.range records.length).filterMap
          (entryAt dateParse (lifetimeOf cacheLifetimeMs) records) ∧
      ReducesByContract dateParse (lifetimeOf cacheLifetimeMs) records := by
  refine ⟨entries_reduceRecords _ _ _, fun i => ⟨?_, ?_⟩⟩
  · rintro ⟨entry, hentry⟩
    obtain ⟨record, toolCallId, text, call, ⟨hr, hres⟩, hc, -, hreplace⟩ :=
      (entryAt_some _ _).mp hentry
    obtain ⟨hex, e, he, hp⟩ := replaceable_iff.mp hreplace
    obtain ⟨hie, hel⟩ := eligibleAt_bounds he
    have hmem := (callOf_eq_some hcalls).mp hc
    obtain ⟨result, hresult, hid⟩ : ∃ result, textResult record = some result ∧
        result.1 = toolCallId := by
      obtain ⟨result, hresult, h⟩ := Option.bind_eq_some_iff.mp hres
      obtain ⟨t, -, heq⟩ := Option.map_eq_some_iff.mp h
      exact ⟨result, hresult, congrArg Prod.fst heq⟩
    have hbefore := hfollow i record result call hr hresult (hid ▸ hmem)
    rw [hid] at hbefore
    -- The record at which it is eligible closes the prefix.
    refine ⟨e + 1, by omega, hel, record, toolCallId, text, call, ?_, hres,
      mem_flatMap_take (by omega) hbefore, hex, ?_, hp.notSole, hp.cheaper, ?_⟩
    · rw [List.getElem?_take_of_lt (by omega), hr]
    · exact (eligible_iff_take hcalls hfollow hnames hmem i e).mp ⟨e, he, Nat.le_refl _⟩
    · rw [List.getElem?_take_of_lt (by omega)]
      exact hp.timely
  · rintro ⟨n, hin, hn, record, toolCallId, text, call, hr, hres, hin', hex, hturns, hsole, hcheap,
      htime⟩
    have hmem := mem_flatMap_of_take hin'
    obtain ⟨m, rfl⟩ : ∃ m, n = m + 1 := ⟨n - 1, by omega⟩
    rw [List.getElem?_take_of_lt hin] at hr
    obtain ⟨e, he, hem⟩ := (eligible_iff_take hcalls hfollow hnames hmem i m).mpr hturns
    obtain ⟨hie, -⟩ := eligibleAt_bounds he
    refine ⟨_, (entryAt_some _ _).mpr ⟨record, toolCallId, text, call, ⟨hr, hres⟩,
      (callOf_eq_some hcalls).mpr hmem, rfl,
      replaceable_iff.mpr ⟨hex, e, he, ?_, hcheap, ?_⟩⟩⟩
    · exact fun r hr => hsole r ((List.take_sublist_take_left (by omega)).subset hr)
    · rw [List.getElem?_take_of_lt (by omega)] at htime
      exact htime.imp_left (Nat.le_trans (visibleTokens_take_le records (by omega) _))

instance (records : List ReductionRecord) : Decidable (ResultsFollowCalls records) :=
  decidable_of_iff
    (∀ k ∈ List.range records.length, ∀ result ∈ records[k]?.bind textResult,
      ∀ c ∈ records.flatMap recordCalls, c.1 = result.1 →
        c ∈ (records.take k).flatMap recordCalls) <| by
    constructor
    · intro h k record result call hr hres hc
      exact h k (List.mem_range.mpr (List.getElem?_eq_some_iff.mp hr).1) result (by simp [hr, hres])
        _ hc rfl
    · rintro h k - result hres ⟨_, call⟩ hc rfl
      obtain ⟨record, hr, hres⟩ := Option.bind_eq_some_iff.mp hres
      exact h k record result call hr hres hc

theorem reduced_iff_contract_firstBatch :
    DistinctCalls firstBatch ∧ ResultsFollowCalls firstBatch ∧ PlainToolNames firstBatch ∧
      ReducesByContract (fun _ => none) (lifetimeOf none) firstBatch := by
  have hcalls : DistinctCalls firstBatch := by
    unfold DistinctCalls
    decide +kernel
  have hnames : PlainToolNames firstBatch := by
    unfold PlainToolNames
    decide +kernel
  have hfollow : ResultsFollowCalls firstBatch := by decide +kernel
  exact ⟨hcalls, hfollow, hnames,
    (reduced_iff_contract (fun _ => none) none firstBatch hcalls hfollow hnames).2⟩

/-- A result that stands before its call, with a long text between them. -/
def earlyResult : List ReductionRecord :=
  [messageEntry "a" (resultMessage "c" longText), messageEntry "b" stopMessage,
    messageEntry "d" stopMessage,
    messageEntry "e" ⟨⟨lit "user", none, some (.str longText)⟩, none, none⟩,
    messageEntry "f" (callMessage "c" "read" "p")]

/-- Two calls of different tools with one key. -/
def sharedKey : List ReductionRecord :=
  [messageEntry "a" (callMessage "c" "a\nb" "p"), messageEntry "b" (callMessage "d" "a" "b\np"),
    messageEntry "e" (resultMessage "c" longText), messageEntry "f" (resultMessage "d" (lit "new")),
    messageEntry "g" stopMessage]

/-- A result before its call is reduced though no prefix satisfies the contract; and so is one whose
key another tool's read shares. -/
theorem not_reducesByContract_samples :
    (DistinctCalls earlyResult ∧
      ¬ ReducesByContract (fun _ => none) (lifetimeOf none) earlyResult) ∧
      DistinctCalls sharedKey ∧
        ¬ ReducesByContract (fun _ => none) (lifetimeOf none) sharedKey := by
  have hreduced : ∀ records i, (entryAt (fun _ => none) (lifetimeOf none) records i).isSome = true →
      (∀ n ∈ List.range (records.length + 1),
        ¬ ContractOn (fun _ => none) (lifetimeOf none) (records.take n) i) →
      ¬ ReducesByContract (fun _ => none) (lifetimeOf none) records := by
    intro records i hentry hno h
    obtain ⟨n, -, hn, hcontract⟩ := (h i).mp (Option.isSome_iff_exists.mp hentry)
    exact hno n (List.mem_range.mpr (by omega)) hcontract
  refine ⟨⟨?_, hreduced _ 0 ?_ ?_⟩, ?_, hreduced _ 2 ?_ ?_⟩
  · unfold DistinctCalls
    decide +kernel
  · decide +kernel
  · decide +kernel
  · unfold DistinctCalls
    decide +kernel
  · decide +kernel
  · decide +kernel

/-! ## The applied view -/

/-- The projection of a record: a message record's message, and for another record a message that is
no tool result. -/
def project (other : ReductionRecord → Option { m : ReducibleMessage // m.role ≠ lit "toolResult" })
    (record : ReductionRecord) : Option ReducibleMessage :=
  match messageOf record with
  | some message => some message.toReducibleMessage
  | none => (other record).map Subtype.val

/-- A message under the entry of its own record. -/
def underEntry (message : ReducibleMessage) : Option ReducedEntry → ReducibleMessage
  | none => message
  | some entry => { message with content := some (lineContent entry.line) }

section

variable (dateParse : Str → Option Int)

/-- The view changes the messages of reduced records only, each to its own line, and keeps what
`assertToolPairs` says of the messages of any sub-list. -/
def TouchesOnlyReduced (records : List ReductionRecord) (cacheLifetimeMs : Option Number) : Prop :=
  ∀ other, ∀ sub : List (ReductionRecord × Nat), sub.Sublist records.zipIdx →
    applyReduction (sub.filterMap fun e => project other e.1)
        (reduceRecords dateParse records cacheLifetimeMs) =
      (sub.filterMap fun e => (project other e.1).map fun message =>
        underEntry message (entryAt dateParse (lifetimeOf cacheLifetimeMs) records e.2)) ∧
    assertToolPairs (applyReduction (sub.filterMap fun e => project other e.1)
        (reduceRecords dateParse records cacheLifetimeMs)) =
      assertToolPairs (sub.filterMap fun e => project other e.1)

/-- Where a text result is replaceable under the last call of its ID, any tool result of that ID is
replaceable with the same line; or it is not replaceable, and consists of that line. -/
def LinesAgree (records : List ReductionRecord) (cacheLifetimeMs : Option Number) : Prop :=
  ∀ i record toolCallId text call, TextAt records i record toolCallId text →
    callOf records toolCallId = some call →
    Replaceable dateParse (lifetimeOf cacheLifetimeMs) records record i text call →
    ∀ j record' message, records[j]? = some record' → messageOf record' = some message →
      message.role = lit "toolResult" → message.toolCallId = some toolCallId →
      (∃ text', TextAt records j record' toolCallId text' ∧
        Replaceable dateParse (lifetimeOf cacheLifetimeMs) records record' j text' call ∧
        reductionLine call.name call.target (firstLine text') record'.id =
          reductionLine call.name call.target (firstLine text) record.id) ∨
      ((∀ text', TextAt records j record' toolCallId text' →
          ¬ Replaceable dateParse (lifetimeOf cacheLifetimeMs) records record' j text' call) ∧
        message.content =
          some (lineContent (reductionLine call.name call.target (firstLine text) record.id)))

end

@[simp] theorem lineContent_inj {line line' : Str} : lineContent line = lineContent line' ↔ line = line' := by
  simp [lineContent]

theorem reduceMessage_nil (message : ReducibleMessage) : reduceMessage [] message = message := by
  unfold reduceMessage
  split
  · rfl
  · rename_i h
    obtain ⟨_, -, h⟩ := Option.bind_eq_some_iff.mp h
    cases h

theorem applyReduction_eq_map (messages : List ReducibleMessage) (view : ReductionView) :
    applyReduction messages view = messages.map (reduceMessage (viewLines view)) := by
  unfold applyReduction
  split
  · rename_i h
    have hlines : viewLines view = [] := by simp [viewLines, h, mapOf]
    rw [hlines, funext reduceMessage_nil, List.map_id']
  · rfl

theorem reduceMessage_of_role {message : ReducibleMessage} (lines : List (Str × Str))
    (h : message.role ≠ lit "toolResult") : reduceMessage lines message = message := by
  simp [reduceMessage, h]

/-- A result takes the line of its call ID. -/
theorem reduceMessage_result {message : ReducibleMessage} {lines : List (Str × Str)} {id : Str}
    (h : message.role = lit "toolResult") (hid : message.toolCallId = some id) :
    reduceMessage lines message = match mapGet lines id with
      | none => message
      | some line => { message with content := some (lineContent line) } := by
  cases hline : mapGet lines id <;> simp [reduceMessage, h, hid, hline]

/-- A line is a reduced record's of that call ID. -/
theorem viewLines_some {dateParse : Str → Option Int} {records : List ReductionRecord}
    {cacheLifetimeMs : Option Number} {id line : Str}
    (h : mapGet (viewLines (reduceRecords dateParse records cacheLifetimeMs)) id = some line) :
    ∃ i entry, entryAt dateParse (lifetimeOf cacheLifetimeMs) records i = some entry ∧
      entry.toolCallId = id ∧ entry.line = line := by
  have hmem := mem_of_mapGet ((mapGet_mapOf _ _).symm.trans h)
  obtain ⟨entry, hentry, heq⟩ := List.mem_map.mp (List.mem_reverse.mp hmem)
  obtain ⟨rfl, rfl⟩ := Prod.mk.inj heq
  obtain ⟨i, hi⟩ := mem_entries.mp hentry
  exact ⟨i, entry, hi, rfl, rfl⟩

/-- Every reduced record's call ID has a line. -/
theorem viewLines_isSome {dateParse : Str → Option Int} {records : List ReductionRecord}
    {cacheLifetimeMs : Option Number} {i : Nat} {entry : ReducedEntry}
    (h : entryAt dateParse (lifetimeOf cacheLifetimeMs) records i = some entry) :
    ∃ line, mapGet (viewLines (reduceRecords dateParse records cacheLifetimeMs)) entry.toolCallId =
      some line := by
  refine Option.ne_none_iff_exists'.mp fun hnone => ?_
  rw [viewLines, mapGet_mapOf, mapGet_eq_none] at hnone
  refine hnone (List.mem_map.mpr ⟨(entry.toolCallId, entry.line), ?_, rfl⟩)
  exact List.mem_reverse.mpr (List.mem_map.mpr ⟨entry, mem_entries.mpr ⟨i, h⟩, rfl⟩)

/-- Content lines do not matter to the pairs. -/
theorem assertToolPairs_applyReduction (messages : List ReducibleMessage) (view : ReductionView) :
    assertToolPairs (applyReduction messages view) = assertToolPairs messages := by
  have hstep : ∀ pending message,
      pairStep pending (reduceMessage (viewLines view) message) = pairStep pending message := by
    intro pending message
    by_cases hrole : message.role = lit "toolResult"
    · unfold reduceMessage
      split
      · rfl
      · exact pairStep_content hrole _ _
    · rw [reduceMessage_of_role _ hrole]
  unfold assertToolPairs
  rw [applyReduction_eq_map, List.foldlM_map]
  simp only [hstep]

/-- A text result is a tool result's, with its call ID. -/
theorem TextAt.message {records : List ReductionRecord} {i : Nat} {record : ReductionRecord}
    {toolCallId text : Str} (h : TextAt records i record toolCallId text) :
    ∃ message, messageOf record = some message ∧ message.role = lit "toolResult" ∧
      message.toolCallId = some toolCallId := by
  obtain ⟨result, hresult, hres⟩ := Option.bind_eq_some_iff.mp h.isResult
  obtain ⟨t, -, heq⟩ := Option.map_eq_some_iff.mp hres
  obtain ⟨rfl, -⟩ := Prod.mk.inj heq
  obtain ⟨message, hm, hresult⟩ := Option.bind_eq_some_iff.mp hresult
  split at hresult
  next hrole =>
    obtain ⟨id, hid, hresult⟩ := Option.bind_eq_some_iff.mp hresult
    obtain ⟨texts, -, rfl⟩ := Option.map_eq_some_iff.mp hresult
    exact ⟨message, hm, hrole.1, hid⟩
  next => cases hresult

/-- A reduced record is a tool result with the entry's call ID. -/
theorem message_of_entryAt {dateParse : Str → Option Int} {lifetimeMs : Number}
    {records : List ReductionRecord} {i : Nat} {entry : ReducedEntry}
    (h : entryAt dateParse lifetimeMs records i = some entry) :
    ∃ record message, records[i]? = some record ∧ messageOf record = some message ∧
      message.role = lit "toolResult" ∧ message.toolCallId = some entry.toolCallId := by
  obtain ⟨record, toolCallId, text, call, htext, -, rfl, -⟩ := (entryAt_some _ _).mp h
  obtain ⟨message, hm, hrole, hid⟩ := htext.message
  exact ⟨record, message, htext.atIndex, hm, hrole, hid⟩

/-- A tool result that is not replaceable under the call of its ID has no entry. -/
theorem entryAt_eq_none {dateParse : Str → Option Int} {lifetimeMs : Number}
    {records : List ReductionRecord} {j : Nat} {record : ReductionRecord}
    {message : ReductionRecordMessage} {toolCallId : Str} {call : ToolCall}
    (hr : records[j]? = some record) (hm : messageOf record = some message)
    (hid : message.toolCallId = some toolCallId) (hc : callOf records toolCallId = some call)
    (hnot : ∀ text, TextAt records j record toolCallId text →
      ¬ Replaceable dateParse lifetimeMs records record j text call) :
    entryAt dateParse lifetimeMs records j = none := by
  refine Option.eq_none_iff_forall_ne_some.mpr fun entry he => ?_
  obtain ⟨record', toolCallId', text, call', htext, hc', -, hreplace⟩ := (entryAt_some _ _).mp he
  obtain rfl := Option.some.inj (htext.atIndex.symm.trans hr)
  obtain ⟨message', hm', -, hid'⟩ := htext.message
  obtain rfl := Option.some.inj (hm'.symm.trans hm)
  obtain rfl := Option.some.inj (hid'.symm.trans hid)
  obtain rfl := Option.some.inj (hc'.symm.trans hc)
  exact hnot text htext hreplace

section

variable {dateParse : Str → Option Int} {records : List ReductionRecord}
  {cacheLifetimeMs : Option Number}

/-- What the view makes of one record's message, where the lines agree. -/
theorem reduceMessage_of_linesAgree (h : LinesAgree dateParse records cacheLifetimeMs)
    (other : ReductionRecord → Option { m : ReducibleMessage // m.role ≠ lit "toolResult" })
    {j : Nat} {record : ReductionRecord} (hr : records[j]? = some record)
    {message : ReducibleMessage} (hp : project other record = some message) :
    reduceMessage (viewLines (reduceRecords dateParse records cacheLifetimeMs)) message =
      underEntry message (entryAt dateParse (lifetimeOf cacheLifetimeMs) records j) := by
  -- Only a tool result with a call ID has an entry.
  have hentry : ∀ entry, entryAt dateParse (lifetimeOf cacheLifetimeMs) records j = some entry →
      ∃ m, messageOf record = some m ∧ m.role = lit "toolResult" ∧
        m.toolCallId = some entry.toolCallId := by
    intro entry he
    obtain ⟨record', m, hr', hm, hrole, hid⟩ := message_of_entryAt he
    obtain rfl := Option.some.inj (hr.symm.trans hr')
    exact ⟨m, hm, hrole, hid⟩
  unfold project at hp
  cases hm : messageOf record with
  | none =>
    rw [hm] at hp
    obtain ⟨m, -, rfl⟩ := Option.map_eq_some_iff.mp hp
    cases he : entryAt dateParse (lifetimeOf cacheLifetimeMs) records j with
    | none => exact reduceMessage_of_role _ m.2
    | some entry =>
      obtain ⟨m', hm', -⟩ := hentry entry he
      grind
  | some m =>
    rw [hm] at hp
    obtain rfl := Option.some.inj hp
    by_cases hrole : m.role = lit "toolResult"
    · cases hid : m.toolCallId with
      | none =>
        cases he : entryAt dateParse (lifetimeOf cacheLifetimeMs) records j with
        | none => simp [reduceMessage, hid, underEntry]
        | some entry => grind
      | some id =>
        rw [reduceMessage_result hrole hid]
        cases hline : mapGet (viewLines (reduceRecords dateParse records cacheLifetimeMs)) id with
        | none =>
          cases he : entryAt dateParse (lifetimeOf cacheLifetimeMs) records j with
          | none => rfl
          | some entry =>
            obtain ⟨m', hm', -, hid'⟩ := hentry entry he
            obtain ⟨line, hsome⟩ := viewLines_isSome he
            grind
        | some line =>
          obtain ⟨i, entry, hi, rfl, rfl⟩ := viewLines_some hline
          obtain ⟨record', toolCallId, text, call, htext, hc, rfl, hreplace⟩ := (entryAt_some _ _).mp hi
          rcases h i record' toolCallId text call htext hc hreplace j record m hr hm hrole hid with
            ⟨text', htext', hreplace', hsame⟩ | ⟨hnot, hcontent⟩
          · rw [(entryAt_some _ _).mpr ⟨record, toolCallId, text', call, htext', hc, rfl, hreplace'⟩]
            simp only [underEntry, entryOf, hsame]
          · rw [entryAt_eq_none hr hm hid hc hnot]
            simp only [underEntry, entryOf, ← hcontent]
    · rw [reduceMessage_of_role _ hrole]
      cases he : entryAt dateParse (lifetimeOf cacheLifetimeMs) records j with
      | none => rfl
      | some entry => grind

/-- The view touches reduced records only, exactly when the lines of each call ID agree. -/
theorem touchesOnlyReduced_iff (dateParse : Str → Option Int) (records : List ReductionRecord)
    (cacheLifetimeMs : Option Number) :
    TouchesOnlyReduced dateParse records cacheLifetimeMs ↔
      LinesAgree dateParse records cacheLifetimeMs := by
  constructor
  · intro h
    have hone : ∀ j record message id line, records[j]? = some record →
        messageOf record = some message → message.role = lit "toolResult" →
        message.toolCallId = some id →
        mapGet (viewLines (reduceRecords dateParse records cacheLifetimeMs)) id = some line →
        ReducibleMessage.content { message.toReducibleMessage with content := some (lineContent line) } =
          (underEntry message.toReducibleMessage
            (entryAt dateParse (lifetimeOf cacheLifetimeMs) records j)).content := by
      intro j record message id line hr hm hrole hid hline
      have hsub : [(record, j)].Sublist records.zipIdx := by
        rw [List.singleton_sublist, List.mem_zipIdx_iff_getElem?]
        exact hr
      have hp : project (fun _ => none) record = some message.toReducibleMessage := by
        simp [project, hm]
      have happ := (h (fun _ => none) _ hsub).1
      simp only [applyReduction_eq_map, List.filterMap_cons, hp, List.filterMap_nil, List.map_cons,
        List.map_nil, Option.map_some, reduceMessage_result hrole hid, hline, List.cons.injEq,
        and_true] at happ
      exact congrArg ReducibleMessage.content happ
    intro i record toolCallId text call htext hc hreplace j record' message hr hm hrole hid
    have hi : entryAt dateParse (lifetimeOf cacheLifetimeMs) records i =
        some (entryOf record toolCallId text call) :=
      (entryAt_some _ _).mpr ⟨record, toolCallId, text, call, htext, hc, rfl, hreplace⟩
    obtain ⟨line, hline⟩ := viewLines_isSome hi
    obtain ⟨own, hown, hrole', hid'⟩ := htext.message
    have hself := hone i record own _ line htext.atIndex hown hrole' hid' hline
    have hthat := hone j record' message _ line hr hm hrole hid hline
    rw [hi] at hself
    obtain rfl : line = _ := lineContent_inj.mp (Option.some.inj hself)
    cases he : entryAt dateParse (lifetimeOf cacheLifetimeMs) records j with
    | none =>
      rw [he] at hthat
      refine .inr ⟨fun text' htext' hreplace' => ?_, hthat.symm⟩
      have := (entryAt_some _ _).mpr ⟨record', toolCallId, text', call, htext', hc, rfl, hreplace'⟩
      rw [he] at this
      cases this
    | some other =>
      rw [he] at hthat
      obtain ⟨record'', toolCallId', text', call', htext', hc', rfl, hreplace'⟩ :=
        (entryAt_some _ _).mp he
      obtain rfl := Option.some.inj (htext'.atIndex.symm.trans hr)
      obtain ⟨message', hm', -, hid''⟩ := htext'.message
      obtain rfl := Option.some.inj (hm'.symm.trans hm)
      obtain rfl := Option.some.inj (hid''.symm.trans hid)
      obtain rfl := Option.some.inj (hc'.symm.trans hc)
      exact .inl ⟨text', htext', hreplace', (lineContent_inj.mp (Option.some.inj hthat)).symm⟩
  · intro h other sub hsub
    refine ⟨?_, assertToolPairs_applyReduction _ _⟩
    rw [applyReduction_eq_map, List.map_filterMap]
    refine List.filterMap_congr fun e he => ?_
    have hr := List.mem_zipIdx_iff_getElem?.mp (hsub.subset he)
    cases hp : project other e.1 with
    | none => rfl
    | some message => exact congrArg some (reduceMessage_of_linesAgree h other hr hp)

end

/-- Of a batch with one long result only this result changes. -/
example : ((recordMessages firstBatch).zip (applyReduction (recordMessages firstBatch)
    (reduceRecords (fun _ => none) firstBatch none))).map (fun p =>
      decide (p.1.content.map stringify = p.2.content.map stringify)) = [true, false, true, true] := by
  decide +kernel

/-- A fresh result takes the line of an old one with its call ID. -/
theorem not_touchesOnlyReduced_reusedId :
    (assertToolPairs (recordMessages (firstBatch ++ secondBatch))).isOk = true ∧
      ¬ TouchesOnlyReduced (fun _ => none) (firstBatch ++ secondBatch) none := by
  refine ⟨by decide +kernel, fun h => ?_⟩
  have happ := (h (fun _ => none) _ (List.Sublist.refl _)).1
  have hcontents := congrArg (List.map fun m => m.content.map stringify) happ
  revert hcontents
  decide +kernel

end Compaction
