import ContextCompaction.Core.Records

/-!
# Source identity

The hash of a list of records frames each serialized record with a line feed. There are two
serializations: `JSON.stringify` ("pi") and the canonical form of RFC 8785 ("jcs").

* `serializeRecord`: a record in either serialization; only the canonical one can throw.
* `hashEntries`: the hash of whole lists; `hashEntryPrefixes`: of several prefixes in one pass.
* `hashEntryPrefixes_eq`: at each boundary the one pass gives the hash of that prefix, and it hands
  out each record once.
-/

namespace Compaction

open Js

/-! ## RFC 8785 -/

/-- The first surrogate that stands alone, as the text of the error. -/
def surrogateFault : Str → Option String
  | [] => none
  | [u] =>
    if isHigh u then some "JCS: unpaired high surrogate"
    else if isLow u then some "JCS: unpaired low surrogate" else none
  | u :: v :: s =>
    if isHigh u then
      if isLow v then surrogateFault s else some "JCS: unpaired high surrogate"
    else if isLow u then some "JCS: unpaired low surrogate"
    else surrogateFault (v :: s)

/-- A JSON string; it must hold Unicode scalar values. -/
def stringLiteral (value : Str) : Except Failure Str :=
  match surrogateFault value with
  | some message => .error (.typeError (lit message))
  | none => .ok (quote value)

/-- The order of `Array.prototype.sort` on strings: by code units. -/
def keyLe : Str → Str → Bool
  | [], _ => true
  | _ :: _, [] => false
  | u :: s, v :: t => decide (u < v) || (u == v && keyLe s t)

/-- The members of an object in key order, with commas between them. -/
def canonicalMembers (members : List (Str × Except Failure Str)) : Except Failure Str := do
  let texts ← (members.insertionSort fun a b => keyLe a.1 b.1).mapM fun (key, value) => do
    let key ← stringLiteral key
    let value ← value
    pure (key ++ lit ":" ++ value)
  pure (join "," texts)

mutual

/-- RFC 8785 JCS of a JSON value. -/
def canonicalize : Json → Except Failure Str
  | .null => .ok (lit "null")
  | .bool b => .ok (if b then lit "true" else lit "false")
  | .num n =>
    match n with
    | .finite .. => .ok n.json
    | _ => .error (.typeError (lit "JCS: non-finite number"))
  | .str s => stringLiteral s
  | .arr xs => do
    let values ← canonicalElements xs
    pure (lit "[" ++ join "," values ++ lit "]")
  | .obj fields => do
    let members ← canonicalMembers (canonicalFields fields)
    pure (lit "\x7b" ++ members ++ lit "\x7d")

def canonicalElements : List Json → Except Failure (List Str)
  | [] => .ok []
  | x :: xs => do
    let value ← canonicalize x
    let values ← canonicalElements xs
    pure (value :: values)

/-- Each property with its text; the error of a value counts when its turn comes. -/
def canonicalFields : List (Str × Json) → List (Str × Except Failure Str)
  | [] => []
  | (key, v) :: fields => (key, canonicalize v) :: canonicalFields fields

end

/-- The message fields that enter the normalized form. -/
def messageFields : List String :=
  ["role", "content", "stopReason", "errorMessage", "toolCallId", "toolName", "isError", "command",
    "output", "exitCode", "fullOutputPath", "excludeFromContext"]

/-- The structural fields of a record. -/
def normalizeRecord (record : SessionRecord) : List (Str × Json) :=
  let get := fun key => (key, field record.fields key)
  present ([get "id", get "parentId", get "type", get "timestamp"] ++
    match record.type with
    | .message =>
      [("message", some (.obj (present (messageFields.map fun key =>
        (key, field record.message key)))))]
    | .compaction => [get "summary", get "firstKeptEntryId", get "tokensBefore", get "details"]
    | .custom => [get "customType", get "data"]
    | .customMessage => [get "content"]
    | .branchSummary => [get "summary"]
    | .contextEdit => [get "targetId", get "replacement"]
    | .other _ => [])

def serializeCanonicalRecord (record : SessionRecord) : Except Failure Str :=
  canonicalize (.obj (normalizeRecord record))

/-! ## Hashes -/

inductive Serialization where
  | pi
  | jcs
  deriving DecidableEq

/-- The text of a record that enters a hash. -/
def serializeRecord : Serialization → SessionRecord → Except Failure Str
  | .pi, record => .ok (stringify record.json)
  | .jcs, record => serializeCanonicalRecord record

/-- `hash.update(serialized).update("\n")`. -/
def frame (serialized : Str) : List UInt8 := utf8 serialized ++ [0x0A]

/-- The hexadecimal SHA-256 digest. -/
abbrev Sha256 := List UInt8 → Str

variable (sha256 : Sha256)

/-- `hashEntries`. -/
def hashEntries (entries : List SessionRecord) : Str :=
  sha256 (entries.flatMap fun entry => frame (stringify entry.json))

/-- `hashCanonicalRecords`. -/
def hashCanonicalRecords (records : List SessionRecord) : Except Failure Str := do
  let frames ← records.mapM fun record => (serializeCanonicalRecord record).map frame
  pure (sha256 frames.flatten)

/-- The hash that belongs to a serialization. -/
def hashRecords : Serialization → List SessionRecord → Except Failure Str
  | .pi, entries => .ok (hashEntries sha256 entries)
  | .jcs, records => hashCanonicalRecords sha256 records

/-- A computation that hands out serialized records before it returns or throws. -/
structure Logged (α : Type) where
  serialized : List (Nat × Str)
  result : Except Failure α

/-- The pass of `hashEntryPrefixes` from a position on, with the bytes hashed so far. -/
def prefixLoop (serialization : Serialization) (requested : List Nat) :
    List SessionRecord → Nat → List UInt8 → List (Nat × Str) → Logged (List (Nat × Str))
  | [], _, _, result => ⟨[], .ok result⟩
  | entry :: entries, index, hashed, result =>
    match serializeRecord serialization entry with
    | .error e => ⟨[], .error e⟩
    | .ok serialized =>
      let hashed := hashed ++ frame serialized
      let result :=
        if index + 1 ∈ requested then mapSet result (index + 1) (sha256 hashed) else result
      let rest := prefixLoop serialization requested entries (index + 1) hashed result
      ⟨(index, serialized) :: rest.serialized, rest.result⟩

/-- `hashEntryPrefixes` and `hashCanonicalRecordPrefixes`: the hash of each requested prefix. A
length of a list is a safe integer, so only the upper bound is checked. -/
def hashEntryPrefixes (serialization : Serialization) (entries : List SessionRecord)
    (prefixLengths : List Nat) : Logged (List (Nat × Str)) :=
  if prefixLengths.any fun length => entries.length < length then
    ⟨[], .error (.ofText "CONTEXT_SOURCE_PREFIX: invalid source prefix boundary")⟩
  else
    let last := prefixLengths.foldl max 0
    let result := if 0 ∈ prefixLengths then [(0, sha256 [])] else []
    prefixLoop sha256 serialization prefixLengths (entries.take last) 0 [] result

/-! ## One pass and whole lists -/

/-- A record that the serialization does not refuse. -/
def Serializes (serialization : Serialization) (entry : SessionRecord) : Prop :=
  ∃ text, serializeRecord serialization entry = .ok text

/-- The text of a record that serializes. -/
def recordText (serialization : Serialization) (entry : SessionRecord) : Str :=
  (serializeRecord serialization entry).toOption.getD []

/-- The bytes that the hash of some records covers. -/
def frames (serialization : Serialization) (entries : List SessionRecord) : List UInt8 :=
  entries.flatMap fun entry => frame (recordText serialization entry)

theorem serializeRecord_eq {serialization : Serialization} {entry : SessionRecord}
    (h : Serializes serialization entry) :
    serializeRecord serialization entry = .ok (recordText serialization entry) := by
  obtain ⟨text, h⟩ := h
  rw [recordText, h]
  rfl

theorem serializes_pi (entry : SessionRecord) : Serializes .pi entry := ⟨_, rfl⟩

/-- The hash of records that serialize is that of their frames. -/
theorem hashRecords_eq {serialization : Serialization} {entries : List SessionRecord}
    (h : ∀ entry ∈ entries, Serializes serialization entry) :
    hashRecords sha256 serialization entries = .ok (sha256 (frames serialization entries)) := by
  cases serialization with
  | pi => rfl
  | jcs =>
    have hm : ∀ entries : List SessionRecord, (∀ entry ∈ entries, Serializes .jcs entry) →
        entries.mapM (fun record => (serializeCanonicalRecord record).map frame) =
          .ok (entries.map fun entry => frame (recordText .jcs entry)) := by
      intro entries h
      induction entries with
      | nil => rfl
      | cons entry entries ih =>
        have he := serializeRecord_eq (h entry List.mem_cons_self)
        rw [serializeRecord] at he
        rw [List.mapM_cons, he, ih fun e he => h e (List.mem_cons_of_mem _ he)]
        rfl
    rw [hashRecords, hashCanonicalRecords, hm entries h, frames, List.flatMap_def]
    rfl

/-- The pass over some records: each is handed out once, and each requested boundary gets the hash
of what has been read up to it. -/
theorem prefixLoop_eq {serialization : Serialization} (requested : List Nat)
    {entries : List SessionRecord} (h : ∀ entry ∈ entries, Serializes serialization entry)
    (index : Nat) (hashed : List UInt8) (result : List (Nat × Str)) :
    let run := prefixLoop sha256 serialization requested entries index hashed result
    run.serialized = (entries.zipIdx index).map (fun e => (e.2, recordText serialization e.1)) ∧
      ∃ found, run.result = .ok found ∧ ∀ n, mapGet found n =
        if index < n ∧ n ≤ index + entries.length ∧ n ∈ requested then
          some (sha256 (hashed ++ frames serialization (entries.take (n - index))))
        else mapGet result n := by
  induction entries generalizing index hashed result with
  | nil =>
    refine ⟨rfl, result, rfl, fun n => ?_⟩
    rw [if_neg]
    simp only [List.length_nil]
    omega
  | cons entry entries ih =>
    have he := serializeRecord_eq (h entry List.mem_cons_self)
    obtain ⟨hlog, found, hfound, hget⟩ := ih (fun e he => h e (List.mem_cons_of_mem _ he))
      (index + 1) (hashed ++ frame (recordText serialization entry))
      (if index + 1 ∈ requested then
        mapSet result (index + 1) (sha256 (hashed ++ frame (recordText serialization entry)))
      else result)
    refine ⟨?_, found, ?_, fun n => ?_⟩
    · simp only [prefixLoop, he, hlog, List.zipIdx_cons, List.map_cons]
    · simp only [prefixLoop, he, hfound]
    · have hother : n ≠ index + 1 → mapGet (if index + 1 ∈ requested then
          mapSet result (index + 1) (sha256 (hashed ++ frame (recordText serialization entry)))
          else result) n = mapGet result n := by
        intro hne
        split
        · rw [mapGet_mapSet, if_neg (Ne.symm hne)]
        · rfl
      rw [hget]
      rcases Nat.lt_trichotomy n (index + 1) with hn | rfl | hn
      · rw [hother (by omega), if_neg fun hc => by have := hc.1; omega,
          if_neg fun hc => by have := hc.1; omega]
      · by_cases hr : index + 1 ∈ requested
        · simp [hr, frames]
        · simp [hr]
      · have hk : n - index = (n - (index + 1)) + 1 := by omega
        simp only [hk, List.take_succ_cons, List.length_cons, frames, List.flatMap_cons,
          List.append_assoc, hother (show n ≠ index + 1 by omega)]
        by_cases hr : n ∈ requested
        · have harith : (index + 1 < n ∧ n ≤ index + 1 + entries.length) ↔
              (index < n ∧ n ≤ index + (entries.length + 1)) := by omega
          simp only [hr, and_true, harith]
        · simp only [hr, and_false]

theorem le_foldl_max (lengths : List Nat) (init : Nat) :
    init ≤ lengths.foldl max init ∧ ∀ n ∈ lengths, n ≤ lengths.foldl max init := by
  induction lengths generalizing init with
  | nil => simp
  | cons m lengths ih =>
    obtain ⟨h1, h2⟩ := ih (max init m)
    refine ⟨by simp only [List.foldl_cons]; omega, fun n hn => ?_⟩
    rcases List.mem_cons.mp hn with rfl | hn
    · simp only [List.foldl_cons]; omega
    · exact h2 n hn

theorem foldl_max_le {lengths : List Nat} {init bound : Nat} (hi : init ≤ bound)
    (h : ∀ n ∈ lengths, n ≤ bound) : lengths.foldl max init ≤ bound := by
  induction lengths generalizing init with
  | nil => exact hi
  | cons m lengths ih =>
    have hm := h m List.mem_cons_self
    exact ih (by omega) fun n hn => h n (List.mem_cons_of_mem _ hn)

/-- At each boundary the one pass gives the hash of the whole prefix. -/
theorem hashEntryPrefixes_eq {serialization : Serialization} {entries : List SessionRecord}
    (h : ∀ entry ∈ entries, Serializes serialization entry) {prefixLengths : List Nat}
    (hb : ∀ n ∈ prefixLengths, n ≤ entries.length) :
    let run := hashEntryPrefixes sha256 serialization entries prefixLengths
    run.serialized = ((entries.take (prefixLengths.foldl max 0)).zipIdx).map
        (fun e => (e.2, recordText serialization e.1)) ∧
      ∃ found, run.result = .ok found ∧ ∀ n, mapGet found n =
        if n ∈ prefixLengths then some (sha256 (frames serialization (entries.take n))) else none := by
  have hlast : prefixLengths.foldl max 0 ≤ entries.length := foldl_max_le (Nat.zero_le _) hb
  have hany : (prefixLengths.any fun length => entries.length < length) = false := by
    simpa using hb
  obtain ⟨hlog, found, hfound, hget⟩ := prefixLoop_eq sha256 prefixLengths
    (fun e he => h e (List.mem_of_mem_take he) : ∀ e ∈ entries.take (prefixLengths.foldl max 0), _)
    0 [] (if 0 ∈ prefixLengths then [(0, sha256 [])] else [])
  refine ⟨?_, found, ?_, fun n => ?_⟩
  · simp only [hashEntryPrefixes, hany, Bool.false_eq_true, ↓reduceIte, hlog]
  · simp only [hashEntryPrefixes, hany, Bool.false_eq_true, ↓reduceIte, hfound]
  · rw [hget]
    rcases Nat.eq_zero_or_pos n with rfl | hn
    · by_cases h0 : 0 ∈ prefixLengths <;> simp [h0, frames]
    · by_cases hr : n ∈ prefixLengths
      · have hle := (le_foldl_max prefixLengths 0).2 n hr
        have hmin : min n (prefixLengths.foldl max 0) = n := Nat.min_eq_left hle
        rw [if_pos ⟨hn, by simp only [List.length_take]; omega, hr⟩, if_pos hr]
        simp [List.take_take, hmin]
      · rw [if_neg fun hc => hr hc.2.2, if_neg hr]
        split
        · simp only [mapGet_cons, mapGet_nil, ite_eq_right_iff, reduceCtorEq, imp_false]
          omega
        · rfl

end Compaction
