import ContextCompaction.Core.Checkpoints
import ContextCompaction.Preview.Projection

/-!
# Branched sessions

`createBranchedSession` makes a new session of one branch. Labels are entries of the tree: the fork
drops those on the branch, re-chains the rest, and writes the labels that are in force behind it.

* `getBranch`: the walk from an entry to its root.
* `assertReadableBranch`: what the host asks of a branch that it opens.
* `Rechain`: the pass that drops labels.
-/

namespace Compaction

open Js

/-! ## Branches -/

/-- `id ? byId.get(id) : undefined` -/
def lookup (byId : List (Str × SessionRecord)) (id : Option Str) : Option SessionRecord :=
  (id.filter (· ≠ [])).bind (mapGet byId)

/-- The walk towards the root; `none` where it takes more than `fuel` steps. -/
def ancestors (byId : List (Str × SessionRecord)) :
    Nat → Option SessionRecord → Option (List SessionRecord)
  | _, none => some []
  | 0, some _ => none
  | fuel + 1, some current =>
    (ancestors byId fuel (lookup byId current.parentId)).map (current :: ·)

/-- The entries from the root to `startId`; `none` where parents form a cycle (`getBranch_complete`). -/
def getBranch (entries : List SessionRecord) (startId : Option Str) : Option (List SessionRecord) :=
  let byId := recordsById entries
  (ancestors byId entries.length (lookup byId startId)).map List.reverse

/-- `leafId`, as `_buildIndex` sets it. -/
def leafId (entries : List SessionRecord) : Option Str := entries.getLast?.map SessionRecord.id

/-! ## Labels -/

def isLabel (entry : SessionRecord) : Bool := entry.type = .other (lit "label")

/-- The index takes in an entry. An absent or empty label clears that of its target. -/
def labelStep (labels : List (Str × Str × Str)) (entry : SessionRecord) : List (Str × Str × Str) :=
  if isLabel entry then
    if strField entry.fields "label" ≠ [] then
      mapSet labels (strField entry.fields "targetId")
        (strField entry.fields "label", entry.timestamp)
    else mapDelete labels (strField entry.fields "targetId")
  else labels

/-- `labelsById` and `labelTimestampsById`, which have the same keys. -/
def labelsById (entries : List SessionRecord) : List (Str × Str × Str) := entries.foldl labelStep []

def getLabel (entries : List SessionRecord) (id : Str) : Option Str :=
  (mapGet (labelsById entries) id).map Prod.fst

/-! ## Readable branches -/

/-- A checkpoint of a method whose history cannot be read. -/
def opaqueCheckpoint (entry : SessionRecord) : Bool :=
  (entry.details.bind Json.obj?).any (fun details =>
    strField? details "kind" = some (lit "pi-codex-remote-compaction")) ||
  ["PI_CODEX_REMOTE_CHECKPOINT:", "stores the older history opaquely",
    "Full replay requires @narumitw/pi-codex-compact"].any fun phrase =>
      includes entry.summary (lit phrase)

variable (len : Str → Nat) (sha256 : Sha256)

/-- Opaque placeholders and damaged memory checkpoints are refused. -/
def assertReadableBranch (branch : List SessionRecord) : Except Failure Unit :=
  match lastCompaction branch with
  | none => .ok ()
  | some latest =>
    if opaqueCheckpoint latest then
      .error (.ofText "CONTEXT_MIGRATION_REQUIRED: this branch contains an opaque checkpoint; migrate a verified copy before resuming")
    else (latestMemory len sha256 .pi branch).map fun _ => ()

/-! ## Entries of a fork -/

theorem field_mapSet_ne {fields : List (Str × Json)} {key key' : String} {v : Json}
    (h : key' ≠ key) : field (mapSet fields (lit key) v) key' = field fields key' := by
  rw [field, field, mapGet_mapSet, if_neg fun heq => h (lit_inj.mp heq).symm]

theorem field_mapSet_self {fields : List (Str × Json)} {key : String} {v : Json} :
    field (mapSet fields (lit key) v) key = some v := mapGet_mapSet_self _ _ _

/-- `{ ...entry, parentId }` -/
def SessionRecord.relinked (entry : SessionRecord) (parentId : Option Str) : SessionRecord where
  fields := mapSet entry.fields (lit "parentId") (orNull parentId)
  typed := by
    have htyped := entry.typed
    have hparent : isNull (orNull parentId) || isStr (orNull parentId) := by cases parentId <;> rfl
    simp only [recordTyped, hasStr, strField, strField?, field_mapSet_self, ne_eq, String.reduceEq,
      not_false_eq_true, field_mapSet_ne, Option.any_some, hparent] at htyped ⊢
    simp only [Bool.and_eq_true, Bool.and_true] at htyped ⊢
    exact ⟨⟨⟨htyped.1.1.1.1, htyped.1.1.2⟩, htyped.1.2⟩, htyped.2⟩

/-- `{ ...entry, firstKeptEntryId }` -/
def SessionRecord.keptFrom (entry : SessionRecord) (firstKeptEntryId : Str) : SessionRecord where
  fields := mapSet entry.fields (lit "firstKeptEntryId") (.str firstKeptEntryId)
  typed := by
    have htyped := entry.typed
    have hstr : isStr (.str firstKeptEntryId) := rfl
    simp only [recordTyped, hasStr, strField, strField?, field_mapSet_self, ne_eq, String.reduceEq,
      not_false_eq_true, field_mapSet_ne] at htyped ⊢
    cases hname : RecordType.ofName (((field entry.fields "type").bind Json.str?).getD []) <;>
      simp_all

/-! ## Dropping labels -/

/-- What the pass has kept, what each dropped label is replaced by, and the labels that wait for the
entry behind them. -/
structure Rechain where
  retained : List SessionRecord
  replacementByLabelId : List (Str × Str)
  pendingLabelIds : List Str
  parentId : Option Str

/-- A cut at a dropped label moves to the entry behind it. -/
def redirected (replacementByLabelId : List (Str × Str)) (entry : SessionRecord) : Str :=
  if entry.firstKeptEntryId = entry.id then entry.id
  else (mapGet replacementByLabelId entry.firstKeptEntryId).getD entry.firstKeptEntryId

def rechained (replacementByLabelId : List (Str × Str)) (parentId : Option Str)
    (entry : SessionRecord) : SessionRecord :=
  if entry.type = .compaction then
    (entry.relinked parentId).keptFrom (redirected replacementByLabelId entry)
  else entry.relinked parentId

def Rechain.step (st : Rechain) (entry : SessionRecord) : Rechain :=
  if isLabel entry then
    { st with pendingLabelIds := st.pendingLabelIds ++ [entry.id] }
  else
    let replacementByLabelId := st.pendingLabelIds.foldl (fun m labelId => mapSet m labelId entry.id)
      st.replacementByLabelId
    { retained := st.retained ++ [rechained replacementByLabelId st.parentId entry]
      replacementByLabelId
      pendingLabelIds := []
      parentId := some entry.id }

def rechain (path : List SessionRecord) : Rechain := path.foldl Rechain.step ⟨[], [], [], none⟩

/-! ## Writing labels -/

/-- A short ID of a new UUID that is not taken; after 100 collisions a whole one. -/
def generateId (randomUUID : Nat → Str) (taken : List Str) : Str :=
  (((List.range 100).map fun i => (randomUUID i).take 8).find? (· ∉ taken)).getD (randomUUID 100)

def labelRecord (id : Str) (parentId : Option Str) (timestamp targetId label : Str) :
    SessionRecord where
  fields := [(lit "type", .str (lit "label")), (lit "id", .str id), (lit "parentId", orNull parentId),
    (lit "timestamp", .str timestamp), (lit "targetId", .str targetId), (lit "label", .str label)]
  typed := by
    cases parentId <;>
      simp [recordTyped, hasStr, strField, strField?, field, RecordType.ofName, orNull, isNull, isStr]

/-- The label entries of a fork, each behind the one before. The `k`-th draws its ID from
`randomUUID k`. -/
def labelEntries (randomUUID : Nat → Nat → Str) :
    List (Str × Str × Str) → Nat → List Str → Option Str → List SessionRecord
  | [], _, _, _ => []
  | (targetId, label, timestamp) :: rest, k, taken, parentId =>
    let id := generateId (randomUUID k) taken
    labelRecord id parentId timestamp targetId label ::
      labelEntries randomUUID rest (k + 1) (taken ++ [id]) (some id)

/-- The labels in force on kept entries. -/
def labelsToWrite (entries retained : List SessionRecord) : List (Str × Str × Str) :=
  (labelsById entries).filter fun e => e.1 ∈ retained.map SessionRecord.id

/-- The entries of the fork of a path. A persisted session and one in memory get the same ones. -/
def forkEntries (randomUUID : Nat → Nat → Str) (entries path : List SessionRecord) :
    List SessionRecord :=
  let retained := (rechain path).retained
  retained ++ labelEntries randomUUID (labelsToWrite entries retained) 0
    (retained.map SessionRecord.id) ((leafId retained).filter (· ≠ []))

/-- The entries of the new session; `none` where parents form a cycle. -/
def createBranchedSession (randomUUID : Nat → Nat → Str) (entries : List SessionRecord)
    (leafId : Str) : Option (Except Failure (List SessionRecord)) :=
  (getBranch entries (some leafId)).map fun path =>
    match assertReadableBranch len sha256 path with
    | .error e => .error e
    | .ok () =>
      if path = [] then .error (.error (lit "Entry " ++ leafId ++ lit " not found"))
      else .ok (forkEntries randomUUID entries path)

/-- The messages of a branch, as the model gets them. -/
def contextMessages (getTime : GetTime) (path : List SessionRecord) : List AgentMessage :=
  (buildSessionProjection getTime path).flatMap (·.messages)

end Compaction
