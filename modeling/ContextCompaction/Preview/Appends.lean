import ContextCompaction.Js.Reread
import ContextCompaction.Preview.Compact
import ContextCompaction.Preview.ForkReads

/-!
# Appends to a session

The manager appends an entry behind the leaf, or moves the leaf to an entry that is there.
`assertCandidate` stands before an append; `assertReadableBranch` before a move, and before a session
file is opened.

* `SessionManager`: the tree in memory.
* `appendEntry`, `branch`, `resetLeaf`: what changes it.
* `Run`: these in any order, with the state behind each append.
-/

namespace Compaction

open Js

/-! ## The check of a candidate -/

/-- `fields[key] === id`, where an ID is a string or `null`. -/
def namesId (fields : List (Str × Json)) (key : String) : Option Str → Bool
  | none => (field fields key).any isNull
  | some id => decide (strField? fields key = some id)

variable (len : Str → Nat) (sha256 : Sha256)

/-- What a memory checkpoint must say of the branch that it stands behind. -/
def matchesSource (entry : SessionRecord) (details : List (Str × Json)) (sessionId : Str)
    (branch : List SessionRecord) : Bool :=
  ((field details "snapshot").bind Json.obj?).any (fun snapshot =>
    decide (strField? snapshot "sessionId" = some sessionId) &&
      namesId snapshot "leafId" entry.parentId &&
      namesId snapshot "lastCheckpointId" ((lastCompaction branch).map SessionRecord.id)) &&
  (decide (entry.firstKeptEntryId = CONTEXT_KEEP_NONE) ||
    branch.any fun item => item.id = entry.firstKeptEntryId) &&
  decide (strField? details "sourceHash" = some (hashEntries sha256 branch))

/-- The branch must be readable; a memory checkpoint must match it, and pass behind it. -/
def assertCandidate (entry : SessionRecord) (sessionId : Str) (branch : List SessionRecord) :
    Except Failure Unit := do
  assertReadableBranch len sha256 branch
  match entry.details.bind Json.obj? with
  | none => .ok ()
  | some details =>
    if entry.type ≠ .compaction ∨ strField? details "kind" ≠ some CONTEXT_MEMORY_KIND then .ok ()
    else if !matchesSource sha256 entry details sessionId branch then
      .error (.ofText "CONTEXT_SOURCE_CHANGED: checkpoint no longer matches its source branch")
    else (latestMemory len sha256 .pi (branch ++ [entry])).map fun _ => ()

/-! ## The manager -/

/-- The tree in memory, without what belongs to the file. -/
structure SessionManager where
  sessionId : Str
  entries : List SessionRecord
  leafId : Option Str
  native : ∀ e ∈ entries, e.json.Native
  known : ∀ id ∈ leafId, id ∈ entries.map SessionRecord.id

namespace SessionManager

def ids (s : SessionManager) : List Str := s.entries.map SessionRecord.id

/-- `_appendEntry`; `none` where the walk to the root does not end. -/
def appendEntry (s : SessionManager) (entry : SessionRecord) (h : entry.json.Native) :
    Option (Except Failure SessionManager) :=
  (getBranch s.entries entry.parentId).map fun branch =>
    (assertCandidate len sha256 entry s.sessionId branch).map fun _ =>
      { sessionId := s.sessionId
        entries := s.entries ++ [entry]
        leafId := some entry.id
        native := by simpa [or_imp, forall_and] using ⟨s.native, h⟩
        known := by simp }

/-- The leaf moves to an entry whose branch can be read. -/
def branch (s : SessionManager) (branchFromId : Str) : Option (Except Failure SessionManager) :=
  if h : branchFromId ∈ s.entries.map SessionRecord.id then
    (getBranch s.entries (some branchFromId)).map fun branch =>
      (assertReadableBranch len sha256 branch).map fun _ =>
        { s with leafId := some branchFromId, known := fun _ hid => Option.some.inj hid ▸ h }
  else some (.error (.error (lit "Entry " ++ branchFromId ++ lit " not found")))

def resetLeaf (s : SessionManager) : SessionManager :=
  { s with leafId := none, known := fun _ hid => nomatch hid }

end SessionManager

/-! ## What is appended -/

/-- UUIDs that do not occur in the session, whole or cut to eight characters, as the name of a parent;
and the last one not as an ID. -/
structure UnusedUUIDs (randomUUID : Nat → Str) (entries : List SessionRecord) : Prop where
  length : ∀ i, (randomUUID i).length = 36
  ids : randomUUID 100 ∉ entries.map SessionRecord.id
  parents : ∀ e ∈ entries, ∀ id ∈ e.parentId, ∀ i, id ≠ (randomUUID i).take 8 ∧ id ≠ randomUUID i

/-- The entries that the operations of the manager make: behind the leaf or, for the summary of a
path that is left, behind any entry or at the root. -/
structure Appendable (s : SessionManager) (entry : SessionRecord) : Prop where
  native : entry.json.Native
  drawn : ∃ randomUUID, UnusedUUIDs randomUUID s.entries ∧ entry.id = generateId randomUUID s.ids
  parent : entry.parentId = s.leafId ∨
    entry.type = .branchSummary ∧ ∀ id ∈ entry.parentId, id ∈ s.ids

/-- Appends and moves that the manager accepts; with each append, the state behind it. -/
inductive Run (start : SessionManager) :
    List (SessionRecord × SessionManager) → SessionManager → Prop
  | start : Run start [] start
  | append {appends s entry s'} (run : Run start appends s) (h : Appendable s entry)
      (hs : s.appendEntry len sha256 entry h.native = some (.ok s')) :
      Run start (appends ++ [(entry, s')]) s'
  | branch {appends s s'} (run : Run start appends s) (id : Str)
      (hs : s.branch len sha256 id = some (.ok s')) : Run start appends s'
  | resetLeaf {appends s} (run : Run start appends s) : Run start appends s.resetLeaf

/-! ## Reopening -/

/-- What is read back of an entry's line. -/
def Reread (e r : SessionRecord) : Prop := parse (stringify e.json) = some r.json

/-- The branch that a file is opened at: from its last entry to the root. -/
def buildSessionPath (entries : List SessionRecord) : Option (List SessionRecord) :=
  (ancestors (recordsById entries) entries.length entries.getLast?).map List.reverse

/-- The branch at the leaf is readable, in memory and as it is read back, where the leaf is again the
last entry. -/
structure SessionManager.Readable (s : SessionManager) : Prop where
  memory : ∃ branch, getBranch s.entries s.leafId = some branch ∧
    assertReadableBranch len sha256 branch = .ok ()
  reopened : ∀ stored, List.Forall₂ Reread s.entries stored →
    ∃ branch, getBranch stored s.leafId = some branch ∧ buildSessionPath stored = some branch ∧
      assertReadableBranch len sha256 branch = .ok ()

end Compaction
