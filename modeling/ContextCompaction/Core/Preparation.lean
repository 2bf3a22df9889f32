import ContextCompaction.Core.Evidence
import ContextCompaction.Js.SameText

/-!
# Prepared candidates

A note can be prepared ahead of a compaction, from a frozen snapshot of the branch. At submission
`classifyPreparation` decides whether the evidence is still what the snapshot saw, by its hashes.

* `hashValues_inj`: without collisions a hash determines the text of each hashed value.
* `sourceText_sameText`: records with the same text are the same evidence.
* `reusable_of_classify`: a candidate that may be committed was prepared from the prefix that it
  is committed over.
-/

namespace Compaction

open Js

/-! ## What a hash determines -/

/-- `hashEntries` on any JSON values. -/
def hashValues (sha256 : Sha256) (values : List Json) : Str :=
  sha256 (values.flatMap fun v => frame (stringify v))

theorem hashEntries_eq (sha256 : Sha256) (entries : List SessionRecord) :
    hashEntries sha256 entries = hashValues sha256 (entries.map SessionRecord.json) := by
  rw [hashEntries, hashValues, List.flatMap_map]

/-- Lines without line feeds, each ended by one, are told apart. -/
theorem lines_inj {lines lines' : List Str} (h : ∀ l ∈ lines, (0x0A : UInt16) ∉ l)
    (h' : ∀ l ∈ lines', (0x0A : UInt16) ∉ l)
    (heq : (lines.flatMap fun l => l ++ [0x0A]) = lines'.flatMap fun l => l ++ [0x0A]) :
    lines = lines' := by
  have hcut : ∀ (l r : Str), (0x0A : UInt16) ∉ l →
      (l ++ 0x0A :: r).takeWhile (· ≠ 0x0A) = l ∧ (l ++ 0x0A :: r).dropWhile (· ≠ 0x0A) = 0x0A :: r := by
    intro l r hl
    have hall : ∀ u ∈ l, decide (u ≠ (0x0A : UInt16)) = true :=
      fun u hu => decide_eq_true (ne_of_mem_of_not_mem hu hl)
    rw [List.takeWhile_append_of_pos hall, List.dropWhile_append_of_pos hall]
    simp
  induction lines generalizing lines' with
  | nil =>
    cases lines' with
    | nil => rfl
    | cons l' lines' => simp at heq
  | cons l lines ih =>
    cases lines' with
    | nil => simp at heq
    | cons l' lines' =>
      rw [List.forall_mem_cons] at h h'
      simp only [List.flatMap_cons, List.append_assoc, List.singleton_append] at heq
      obtain ⟨ht, hd⟩ := hcut l (lines.flatMap fun l => l ++ [0x0A]) h.1
      obtain ⟨ht', hd'⟩ := hcut l' (lines'.flatMap fun l => l ++ [0x0A]) h'.1
      rw [heq] at ht hd
      rw [ht.symm.trans ht', ih h.2 h'.2 (List.cons.inj (hd.symm.trans hd')).2]

/-- Without collisions a hash determines the text of each value. -/
theorem hashValues_inj {sha256 : Sha256} (hsha : Function.Injective sha256) {xs ys : List Json}
    (h : hashValues sha256 xs = hashValues sha256 ys) : List.Forall₂ SameText xs ys := by
  have hdecode : ∀ vs : List Json, decodeUtf8 (vs.flatMap fun v => frame (stringify v)) =
      (vs.map stringify).flatMap fun l => l ++ [0x0A] := by
    intro vs
    induction vs with
    | nil => rfl
    | cons v vs ih =>
      have hformed : wellFormed (stringify v) = true := (printable_stringify v).1
      have hline : frame (stringify v) = utf8 (stringify v ++ [0x0A]) := by
        rw [utf8_append hformed]
        rfl
      rw [List.flatMap_cons, List.map_cons, List.flatMap_cons, hline, decodeUtf8_utf8_append, ih]
      rw [wellFormed_append hformed]
      rfl
  have hlf : ∀ (vs : List Json), ∀ l ∈ vs.map stringify, (0x0A : UInt16) ∉ l := by
    intro vs l hl
    obtain ⟨v, -, rfl⟩ := List.mem_map.mp hl
    exact lf_notMem_stringify v
  have htexts := congrArg decodeUtf8 (hsha h)
  rw [hdecode, hdecode] at htexts
  have hmap := lines_inj (hlf xs) (hlf ys) htexts
  rw [← List.forall₂_eq_eq_eq, List.forall₂_map_left_iff, List.forall₂_map_right_iff] at hmap
  exact hmap

/-! ## Records with the same text -/

theorem rel_cases {α β : Type} {R : α → β → Prop} {v : Option α} {w : Option β}
    (h : Option.Rel R v w) : (v = none ∧ w = none) ∨ ∃ a b, v = some a ∧ w = some b ∧ R a b := by
  cases h with
  | none => exact .inl ⟨rfl, rfl⟩
  | some h => exact .inr ⟨_, _, rfl, rfl, h⟩

theorem sameFields_field {fs gs : List (Str × Json)} (h : SameFields fs gs) (key : String) :
    Option.Rel SameText (field fs key) (field gs key) := h.get (lit key)

theorem sameFields_strField {fs gs : List (Str × Json)} (h : SameFields fs gs) (key : String) :
    strField fs key = strField gs key := by
  unfold strField strField?
  rcases rel_cases (sameFields_field h key) with ⟨hv, hw⟩ | ⟨a, b, hv, hw, hab⟩
  · rw [hv, hw]
  · rw [hv, hw, Option.bind_some, Option.bind_some, hab.str?]

/-- The properties of an optional object. -/
theorem rel_obj {v w : Option Json} (h : Option.Rel SameText v w) :
    SameFields ((v.bind Json.obj?).getD []) ((w.bind Json.obj?).getD []) := by
  rcases rel_cases h with ⟨rfl, rfl⟩ | ⟨a, b, rfl, rfl, hab⟩
  · exact .nil
  · simp only [Option.bind_some]
    rcases rel_cases hab.obj? with ⟨ha, hb⟩ | ⟨fs, gs, ha, hb, hfg⟩
    · rw [ha, hb]
      exact .nil
    · rw [ha, hb]
      exact hfg

section

variable {r r' : SessionRecord} (h : SameText r.json r'.json)
include h

theorem sameFields_record : SameFields r.fields r'.fields := by
  obtain ⟨gs, heq, hs⟩ := sameText_obj h
  obtain rfl := Json.obj.inj heq
  exact hs

theorem id_sameText : r.id = r'.id := sameFields_strField (sameFields_record h) "id"

theorem type_sameText : r.type = r'.type := by
  rw [SessionRecord.type, SessionRecord.type, sameFields_strField (sameFields_record h) "type"]

theorem sameFields_message : SameFields r.message r'.message :=
  rel_obj (sameFields_field (sameFields_record h) "message")

theorem isUser_sameText : r.isUser = r'.isUser := by
  rw [SessionRecord.isUser, SessionRecord.isUser, type_sameText h, SessionRecord.role,
    SessionRecord.role, sameFields_strField (sameFields_message h) "role"]

end

theorem map_stringify_rel {v w : Option Json} (h : Option.Rel SameText v w) :
    v.map stringify = w.map stringify := by
  cases h with
  | none => rfl
  | some h => exact congrArg some h

theorem blocks_sameText {a b : Json} (h : SameText a b) :
    List.Forall₂ SameFields (blocks a) (blocks b) := by
  have hobj : ∀ {x y : Json}, SameText x y → SameFields (x.obj?.getD []) (y.obj?.getD []) := by
    intro x y h
    exact rel_obj (v := some x) (w := some y) (.some h)
  unfold blocks
  rw [List.forall₂_map_left_iff, List.forall₂_map_right_iff]
  rcases rel_cases h.arr? with ⟨ha, hb⟩ | ⟨xs, ys, ha, hb, hxy⟩
  · rw [ha, hb]
    exact .nil
  · rw [ha, hb]
    exact hxy.imp fun _ _ => hobj

theorem map_eq_of_forall₂ {α β : Type} {R : α → α → Prop} {f : α → β} (hf : ∀ x y, R x y → f x = f y)
    {xs ys : List α} (h : List.Forall₂ R xs ys) : xs.map f = ys.map f := by
  induction h with
  | nil => rfl
  | cons hxy _ ih => rw [List.map_cons, List.map_cons, hf _ _ hxy, ih]

theorem blockText_sameFields {b b' : List (Str × Json)} (h : SameFields b b') :
    blockText b = blockText b' := by
  unfold blockText
  rw [sameFields_strField h "type", sameFields_strField h "text"]
  split
  · rfl
  · split
    · refine stringify_present ?_
      simp only [List.map_cons, List.map_nil, map_stringify_rel (sameFields_field h _)]
    · rfl

theorem partText_sameFields {b b' : List (Str × Json)} (h : SameFields b b') :
    partText b = partText b' := by
  rw [partText, partText, sameFields_strField h "type", sameFields_strField h "text"]

/-- A content is absent, a text, or blocks, in both records alike. -/
theorem content_cases {v w : Option Json} (h : Option.Rel SameText v w) :
    (v = none ∧ w = none) ∨ (∃ s, v = some (.str s) ∧ w = some (.str s)) ∨
      ∃ a b, v = some a ∧ w = some b ∧ a.str? = none ∧ b.str? = none ∧
        List.Forall₂ SameFields (blocks a) (blocks b) := by
  rcases rel_cases h with hnone | ⟨a, b, rfl, rfl, hab⟩
  · exact .inl hnone
  · cases ha : a.str? with
    | some s =>
      obtain rfl := Json.str?_eq_some.mp ha
      rw [sameText_str hab]
      exact .inr (.inl ⟨s, rfl, rfl⟩)
    | none => exact .inr (.inr ⟨a, b, rfl, rfl, ha, hab.str? ▸ ha, blocks_sameText hab⟩)

/-- Records with the same text are the same evidence. -/
theorem sourceText_sameText {r r' : SessionRecord} (h : SameText r.json r'.json) :
    sourceText r = sourceText r' := by
  have hr := sameFields_record h
  have hm := sameFields_message h
  unfold sourceText
  rw [← type_sameText h]
  cases r.type with
  | message =>
    simp only
    rw [show r.role = r'.role from sameFields_strField hm "role"]
    by_cases hbash : r'.role = lit "bashExecution"
    · rw [if_pos hbash, if_pos hbash]
      refine stringify_present ?_
      simp only [List.map_cons, List.map_nil, map_stringify_rel (sameFields_field hm _)]
    · rw [if_neg hbash, if_neg hbash]
      rcases content_cases (sameFields_field hm "content") with
        ⟨hv, hw⟩ | ⟨s, hv, hw⟩ | ⟨a, b, hv, hw, ha, hb, hblocks⟩
      · rw [hv, hw]
      · rw [hv, hw]
      · have htexts := map_eq_of_forall₂ (fun _ _ h => blockText_sameFields h) hblocks
        rw [hv, hw]
        cases a with
        | str s => cases ha
        | _ =>
          cases b with
          | str s => cases hb
          | _ => exact congrArg (join "\n") htexts
  | customMessage =>
    simp only
    rcases content_cases (sameFields_field hr "content") with
      ⟨hv, hw⟩ | ⟨s, hv, hw⟩ | ⟨a, b, hv, hw, ha, hb, hblocks⟩
    · rw [hv, hw]
    · rw [hv, hw]
    · have htexts := map_eq_of_forall₂ (fun _ _ h => partText_sameFields h) hblocks
      rw [hv, hw]
      cases a with
      | str s => cases ha
      | _ =>
        cases b with
        | str s => cases hb
        | _ => exact congrArg (join "\n") htexts
  | branchSummary => exact sameFields_strField hr "summary"
  | _ => rfl

/-- Branches with the same texts have the same citable texts. -/
theorem textById_sameText {branch branch' : List SessionRecord}
    (h : List.Forall₂ SameText (branch.map SessionRecord.json) (branch'.map SessionRecord.json)) :
    textById branch = textById branch' := by
  rw [List.forall₂_map_left_iff, List.forall₂_map_right_iff] at h
  have hmap := map_eq_of_forall₂ (f := fun r : SessionRecord => (r.id, sourceText r))
    (fun _ _ h => Prod.ext (id_sameText h) (sourceText_sameText h)) h
  funext id
  rw [textById_eq, textById_eq, hmap]

/-! ## Snapshots -/

/-- Policy identities; they leave out the note budget, which is checked as a size bound. -/
structure PreparationWriterIdentity where
  role : Str
  model : Str
  effort : Str
  policyHash : Str
  promptHash : Str
  schemaHash : Str
  contextHash : Option Str
  deriving DecidableEq

/-- The identity as it is hashed. -/
def PreparationWriterIdentity.toJson (w : PreparationWriterIdentity) : Json :=
  .obj [(lit "role", .str w.role), (lit "model", .str w.model), (lit "effort", .str w.effort),
    (lit "policyHash", .str w.policyHash), (lit "promptHash", .str w.promptHash),
    (lit "schemaHash", .str w.schemaHash), (lit "contextHash", orNull w.contextHash)]

/-- What a note is prepared from: the branch through its last record, for one session and one writer. -/
structure PreparationInput where
  sessionId : Str
  epoch : Number
  branch : List SessionRecord
  coveredThrough : Str
  processedUserEntryIds : List Str
  writer : PreparationWriterIdentity
  noteBudget : Json

/-- A record's place in the branch. -/
structure Ancestor where
  id : Str
  parentId : Option Str
  deriving DecidableEq

/-- An ancestor as it is hashed. -/
def Ancestor.toJson (a : Ancestor) : Json :=
  .obj [(lit "id", .str a.id), (lit "parentId", orNull a.parentId)]

/-- The latest checkpoint: its ID and hash. -/
structure BaseCheckpoint where
  id : Str
  hash : Str
  deriving DecidableEq

/-- A checkpoint as it is hashed. -/
def BaseCheckpoint.toJson (c : BaseCheckpoint) : Json :=
  .obj [(lit "id", .str c.id), (lit "hash", .str c.hash)]

/-- A frozen input: the branch by its IDs and hashes, and the identity that follows from all of it. -/
structure PreparationSnapshot where
  candidateId : Str
  sessionId : Str
  epoch : Number
  branchAncestry : List Ancestor
  branchAncestryHash : Str
  baseCheckpoint : Option BaseCheckpoint
  coveredThrough : Str
  sourceHash : Str
  entryIds : List Str
  originalIds : List Str
  userHorizon : List Str
  userHorizonHash : Str
  writer : PreparationWriterIdentity
  noteBudget : Json
  sources : List SessionRecord

/-- Who wrote a note, in which calls. -/
structure PreparationProvenance where
  writerRole : Str
  writerModel : Str
  writerEffort : Str
  callIds : List Str

/-- The provenance as it is hashed. -/
def PreparationProvenance.toJson (p : PreparationProvenance) : Json :=
  .obj [(lit "writerRole", .str p.writerRole), (lit "writerModel", .str p.writerModel),
    (lit "writerEffort", .str p.writerEffort), (lit "callIds", strings p.callIds)]

/-- A finished note with the snapshot that it was written for; the hashes bind the two. -/
structure PreparedCandidate where
  input : PreparationSnapshot
  note : Json
  noteHash : Str
  bytes : Nat
  provenance : PreparationProvenance
  provenanceHash : Str
  outputHash : Str

/-- The state of the session when a candidate is to be used. -/
structure PreparationSubmission where
  sessionId : Str
  epoch : Number
  branch : List SessionRecord
  writer : PreparationWriterIdentity
  noteBudget : Json
  customInstructions : Option Str

/-- Why a candidate is good for its prefix only. -/
inductive StaleReason where
  | newUserInput
  | newSources
  | userHorizonIncomplete
  | customInstructions
  | submissionBudget
  deriving DecidableEq

/-- Why a candidate is not used at all. -/
inductive InvalidReason where
  | sessionChanged
  | epochChanged
  | branchChanged
  | baseCheckpointChanged
  | sourceChanged
  | writerChanged
  | configurationInvalid
  deriving DecidableEq

/-- How far a candidate can be used. -/
inductive CandidateClassification where
  | currentFull
  | staleReusable (reason : StaleReason)
  | invalid (reason : InvalidReason)
  deriving DecidableEq

/-- What every malformed input is refused with. -/
def inputError : Failure := .ofText "CONTEXT_PREPARATION_INPUT: invalid preparation snapshot"

/-- No ID is empty or repeated. -/
def uniqueIds (ids : List Str) : Bool := ids.all (· ≠ []) && decide ids.Nodup

/-- Each record names the one before as its parent, from `previous` on. -/
def linked : Option Str → List SessionRecord → Bool
  | _, [] => true
  | previous, entry :: branch => decide (entry.parentId = previous) && linked (some entry.id) branch

/-- A branch whose records follow each other from a root, under unique IDs. -/
def linearBranch (branch : List SessionRecord) : Bool :=
  decide (branch ≠ []) && uniqueIds (branch.map SessionRecord.id) && linked none branch

/-- The newest checkpoint record. -/
def lastCompaction (branch : List SessionRecord) : Option SessionRecord :=
  branch.reverse.find? fun entry => entry.type = .compaction

/-- `Number.isSafeInteger(n) && n >= 0`. -/
def safeCount (n : Number) : Bool := (count? (.num n)).any isSafe

/-- The efforts that a writer can be configured with. -/
def PREPARATION_EFFORTS : List Str :=
  [lit "off", lit "minimal", lit "low", lit "medium", lit "high", lit "xhigh", lit "max"]

/-- An identity in which everything is set that its role needs. -/
def writerIdentity (writer : PreparationWriterIdentity) : Except Failure PreparationWriterIdentity :=
  if !(writer.role = lit "session" || writer.role = lit "fixed") ||
      !includes writer.model (lit "/") || decide (lit "/" <+: writer.model) ||
      decide (lit "/" <:+ writer.model) || writer.effort ∉ PREPARATION_EFFORTS ||
      [writer.policyHash, writer.promptHash, writer.schemaHash].any (· = []) ||
      writer.contextHash = some [] || (writer.role = lit "session" && writer.contextHash = none) then
    .error inputError
  else .ok writer

/-- The seven fields of a valid policy. -/
def notePolicy (budget : Json) : Except Failure Json :=
  (storedNoteLimit (some budget)).map fun _ =>
    .obj (present (["version", "mode", "tier", "sourceTokens", "previousTokens", "baseTokens",
      "hardTokens"].map fun key => (key, budget.get? (lit key))))

/-- The positions of the horizon among the covered user messages increase. -/
def increasingIn (userIds : List Str) (horizon : List Str) : Bool :=
  (horizon.zip horizon.tail).all fun p => decide (userIds.idxOf p.1 < userIds.idxOf p.2)

variable (sha256 : Sha256)

/-- The newest checkpoint of a branch, by its ID and the hash of its record. -/
def lastCheckpoint (branch : List SessionRecord) : Option BaseCheckpoint :=
  (lastCompaction branch).map fun entry => ⟨entry.id, hashEntries sha256 [entry]⟩

/-- `lastCheckpoint(branch)` as JSON. -/
def checkpointJson (checkpoint : Option BaseCheckpoint) : Json :=
  checkpoint.elim .null BaseCheckpoint.toJson

/-- What the candidate's ID hashes. -/
def envelope (s : PreparationSnapshot) : Json :=
  .obj [(lit "version", .num (.ofNat 1)), (lit "sessionId", .str s.sessionId),
    (lit "epoch", .num s.epoch), (lit "branchAncestry", .arr (s.branchAncestry.map Ancestor.toJson)),
    (lit "branchAncestryHash", .str s.branchAncestryHash),
    (lit "baseCheckpoint", checkpointJson s.baseCheckpoint),
    (lit "coverage", .obj [(lit "coveredThrough", .str s.coveredThrough),
      (lit "sourceHash", .str s.sourceHash), (lit "entryIds", strings s.entryIds),
      (lit "originalIds", strings s.originalIds)]),
    (lit "userHorizon", .obj [(lit "entryIds", strings s.userHorizon),
      (lit "hash", .str s.userHorizonHash)]),
    (lit "writer", s.writer.toJson), (lit "noteBudget", s.noteBudget)]

/-- The snapshot that is frozen of a branch covered through `last`. -/
def snapshotOf (input : PreparationInput) (last : Nat) (writer : PreparationWriterIdentity)
    (noteBudget : Json) : PreparationSnapshot :=
  let sources := input.branch.take (last + 1)
  let ancestry := input.branch.map fun entry => (⟨entry.id, entry.parentId⟩ : Ancestor)
  let snapshot : PreparationSnapshot :=
    { candidateId := [], sessionId := input.sessionId, epoch := input.epoch,
      branchAncestry := ancestry,
      branchAncestryHash := hashValues sha256 (.obj [(lit "sessionId", .str input.sessionId)] ::
        ancestry.map Ancestor.toJson),
      baseCheckpoint := lastCheckpoint sha256 input.branch,
      coveredThrough := input.coveredThrough, sourceHash := hashEntries sha256 sources,
      entryIds := sources.map SessionRecord.id,
      originalIds := (sources.filter fun entry => sourceText entry ≠ []).map SessionRecord.id,
      userHorizon := input.processedUserEntryIds,
      userHorizonHash := hashValues sha256 (input.processedUserEntryIds.map .str),
      writer, noteBudget, sources }
  { snapshot with candidateId := hashValues sha256 [envelope snapshot] }

/-- Freeze the branch and the policies that a note is prepared under. -/
def freezePreparationInput (input : PreparationInput) : Except Failure PreparationSnapshot :=
  match input.branch.findIdx? fun entry => entry.id = input.coveredThrough with
  | none => .error inputError
  | some last =>
    let userIds := ((input.branch.take (last + 1)).filter SessionRecord.isUser).map SessionRecord.id
    if input.sessionId = [] || !safeCount input.epoch || !linearBranch input.branch then
      .error inputError
    else if (lastCompaction input.branch).any fun base =>
        (input.branch.findIdx? fun entry => entry.id = base.id).any fun at_ => decide (last < at_) then
      .error inputError
    else if !uniqueIds input.processedUserEntryIds ||
        input.processedUserEntryIds.any (· ∉ userIds) ||
        !increasingIn userIds input.processedUserEntryIds then
      .error inputError
    else do
      let writer ← writerIdentity input.writer
      let noteBudget ← notePolicy input.noteBudget
      pure (snapshotOf sha256 input last writer noteBudget)

variable (len : Str → Nat)

/-- The candidate of a writer's result. -/
def finalizePreparation (input : PreparationSnapshot) (note : Json)
    (provenance : PreparationProvenance) : Except Failure PreparedCandidate :=
  if provenance.writerRole ≠ input.writer.role ∨ provenance.writerModel ≠ input.writer.model ∨
      provenance.writerEffort ≠ input.writer.effort then
    .error (.ofText "CONTEXT_PREPARATION_WRITER: result writer differs from the frozen configured writer")
  else if provenance.callIds = [] ∨ uniqueIds provenance.callIds = false then
    .error (.ofText "CONTEXT_PREPARATION_PROVENANCE: missing or ambiguous call accounting links")
  else do
    let hardTokens ← storedNoteLimit (some input.noteBudget)
    let _ ← validateNote len note input.sources hardTokens
    let noteHash := hashValues sha256 [note]
    let provenanceHash := hashValues sha256 [provenance.toJson]
    pure
      { input, note, noteHash, bytes := noteBytes note, provenance, provenanceHash,
        outputHash := hashValues sha256 [.obj [(lit "candidateId", .str input.candidateId),
          (lit "noteHash", .str noteHash), (lit "provenanceHash", .str provenanceHash)]] }

/-- The writer and the budget of a submission: what is wrong with them, or the hard budget. -/
def submissionPolicy (input : PreparationSnapshot) (submission : PreparationSubmission) :
    Except InvalidReason Nat :=
  match writerIdentity submission.writer with
  | .error _ => .error .configurationInvalid
  | .ok writer =>
    if hashValues sha256 [writer.toJson] ≠ hashValues sha256 [input.writer.toJson] then
      .error .writerChanged
    else
      match storedNoteLimit (some submission.noteBudget) with
      | .error _ => .error .configurationInvalid
      | .ok hardTokens => .ok hardTokens

/-- What is left to check when the evidence, the writer and the budget are the same. -/
def classifyTail (candidate : PreparedCandidate) (submission : PreparationSubmission)
    (hardTokens : Nat) : CandidateClassification :=
  let read := submission.branch.take candidate.input.entryIds.length
  let tail := submission.branch.drop candidate.input.entryIds.length
  if hardTokens * 3 < candidate.bytes then .staleReusable .submissionBudget
  else if submission.customInstructions.any (trim · ≠ []) then .staleReusable .customInstructions
  else if tail.any SessionRecord.isUser then .staleReusable .newUserInput
  else if tail ≠ [] then .staleReusable .newSources
  else if read.any fun entry => entry.isUser && decide (entry.id ∉ candidate.input.userHorizon) then
    .staleReusable .userHorizonIncomplete
  else .currentFull

/-- Whether a candidate may be used for a submission. -/
def classifyPreparation (candidate : PreparedCandidate) (submission : PreparationSubmission) :
    CandidateClassification :=
  let input := candidate.input
  if submission.sessionId ≠ input.sessionId then .invalid .sessionChanged
  else if !strictEqual submission.epoch input.epoch then .invalid .epochChanged
  else if !linearBranch submission.branch || input.branchAncestry.zipIdx.any fun e =>
      (submission.branch[e.2]?.map fun entry => (⟨entry.id, entry.parentId⟩ : Ancestor)) ≠ some e.1 then
    .invalid .branchChanged
  else if stringify (checkpointJson (lastCheckpoint sha256 submission.branch)) ≠
      stringify (checkpointJson input.baseCheckpoint) then .invalid .baseCheckpointChanged
  else if hashEntries sha256 (submission.branch.take input.entryIds.length) ≠ input.sourceHash then
    .invalid .sourceChanged
  else
    match submissionPolicy sha256 input submission with
    | .error reason => .invalid reason
    | .ok hardTokens => classifyTail candidate submission hardTokens

/-- The last index that a prepared note covers, where it can be committed for that prefix. -/
def reusablePrefix (candidate : PreparedCandidate) (classification : CandidateClassification)
    (branch : List SessionRecord) : Option Nat :=
  if classification = .staleReusable .newUserInput ∨ classification = .staleReusable .newSources then
    let last := candidate.input.entryIds.length - 1
    if (branch.take (last + 1)).any fun entry =>
        entry.isUser && decide (entry.id ∉ candidate.input.userHorizon) then none
    else some last
  else none

/-! ## What a reusable candidate has seen -/

variable {sha256 len}

/-- What an accepted input is frozen as. -/
theorem freezePreparationInput_ok {input : PreparationInput} {snapshot : PreparationSnapshot}
    (h : freezePreparationInput sha256 input = .ok snapshot) :
    ∃ last writer noteBudget,
      (input.branch.findIdx? fun entry => entry.id = input.coveredThrough) = some last ∧
        snapshot = snapshotOf sha256 input last writer noteBudget := by
  unfold freezePreparationInput at h
  split at h
  · cases h
  · rename_i last hlast
    simp only at h
    split_ifs at h
    obtain ⟨writer, -, h⟩ := bind_ok.mp h
    obtain ⟨noteBudget, -, h⟩ := bind_ok.mp h
    exact ⟨last, writer, noteBudget, hlast, (Except.ok.inj h).symm⟩

/-- What an accepted result is. -/
theorem finalizePreparation_ok {input : PreparationSnapshot} {note : Json}
    {provenance : PreparationProvenance} {candidate : PreparedCandidate}
    (h : finalizePreparation sha256 len input note provenance = .ok candidate) :
    candidate.input = input ∧ candidate.bytes = noteBytes candidate.note ∧
      ∃ memory, validateNoteContent len candidate.note input.sources = .ok memory := by
  unfold finalizePreparation at h
  split_ifs at h
  obtain ⟨hardTokens, -, h⟩ := bind_ok.mp h
  obtain ⟨memory, hmemory, h⟩ := bind_ok.mp h
  obtain rfl := Except.ok.inj h
  exact ⟨rfl, rfl, memory, (validateNote_ok.mp hmemory).1⟩

/-- A classification for which a candidate can be committed. -/
def Committable (c : CandidateClassification) : Prop :=
  c = .currentFull ∨ c = .staleReusable .newUserInput ∨ c = .staleReusable .newSources

/-- The checks that such a classification has passed. -/
structure Unchanged (sha256 : Sha256) (candidate : PreparedCandidate)
    (submission : PreparationSubmission) (hardTokens : Nat) : Prop where
  checkpoint : stringify (checkpointJson (lastCheckpoint sha256 submission.branch)) =
    stringify (checkpointJson candidate.input.baseCheckpoint)
  sources : hashEntries sha256 (submission.branch.take candidate.input.entryIds.length) =
    candidate.input.sourceHash
  policy : submissionPolicy sha256 candidate.input submission = .ok hardTokens
  size : candidate.bytes ≤ hardTokens * 3
  instructions : submission.customInstructions.any (trim · ≠ []) = false

/-- A candidate that may be committed was prepared from an unchanged session. -/
theorem classifyPreparation_unchanged {candidate : PreparedCandidate}
    {submission : PreparationSubmission}
    (h : Committable (classifyPreparation sha256 candidate submission)) :
    ∃ hardTokens, Unchanged sha256 candidate submission hardTokens ∧
      classifyPreparation sha256 candidate submission = classifyTail candidate submission hardTokens := by
  unfold classifyPreparation at h ⊢
  simp only at h ⊢
  split_ifs at h ⊢ with h₁ h₂ h₃ h₄ h₅
  all_goals first
    | (rcases h with h | h | h <;> cases h)
    | skip
  cases hp : submissionPolicy sha256 candidate.input submission with
  | error reason => simp [hp, Committable] at h
  | ok hardTokens =>
    simp only [hp] at h
    refine ⟨hardTokens, ⟨by simpa using h₄, by simpa using h₅, hp, ?_, ?_⟩, rfl⟩
    · by_contra hlt
      rw [classifyTail, if_pos (by omega)] at h
      simp [Committable] at h
    · by_contra hcustom
      unfold classifyTail at h
      simp only at h
      split_ifs at h <;> simp_all [Committable]

/-- With nothing behind it, the prefix is the branch and all its user messages have been seen. -/
theorem classifyTail_currentFull {candidate : PreparedCandidate} {submission : PreparationSubmission}
    {hardTokens : Nat} (h : classifyTail candidate submission hardTokens = .currentFull) :
    submission.branch.drop candidate.input.entryIds.length = [] ∧
      ∀ entry ∈ submission.branch.take candidate.input.entryIds.length, entry.isUser = true →
        entry.id ∈ candidate.input.userHorizon := by
  unfold classifyTail at h
  simp only at h
  split_ifs at h with h₁ h₂ h₃ h₄ h₅
  refine ⟨by simpa using h₄, fun entry hentry huser => ?_⟩
  by_contra hno
  exact h₅ (List.any_eq_true.mpr ⟨entry, hentry, by simp [huser, hno]⟩)

/-- Writers whose JSON has the same text are the same. -/
theorem toJson_inj {w w' : PreparationWriterIdentity} (h : SameText w.toJson w'.toJson) : w = w' := by
  obtain ⟨gs, heq, hs⟩ := sameText_obj h
  obtain rfl := Json.obj.inj heq
  have hstr : ∀ {a b : Str}, SameText (.str a) (.str b) → a = b := fun h =>
    (Json.str.inj (sameText_str h)).symm
  have hnull : ∀ {a b : Option Str}, SameText (orNull a) (orNull b) → a = b := by
    intro a b h
    have := h.str?
    cases a <;> cases b <;> simp_all [orNull, Json.str?]
  obtain ⟨role, model, effort, policyHash, promptHash, schemaHash, contextHash⟩ := w
  obtain ⟨role', model', effort', policyHash', promptHash', schemaHash', contextHash'⟩ := w'
  simp only [SameFields, List.forall₂_cons, List.forall₂_nil_left_iff, true_and, and_true] at hs
  obtain ⟨h₁, h₂, h₃, h₄, h₅, h₆, h₇⟩ := hs
  rw [hstr h₁, hstr h₂, hstr h₃, hstr h₄, hstr h₅, hstr h₆, hnull h₇]

/-- What the submission's writer and budget are, where they pass. -/
theorem submissionPolicy_ok (hsha : Function.Injective sha256) {input : PreparationSnapshot}
    {submission : PreparationSubmission} {hardTokens : Nat}
    (h : submissionPolicy sha256 input submission = .ok hardTokens) :
    writerIdentity submission.writer = .ok input.writer ∧
      storedNoteLimit (some submission.noteBudget) = .ok hardTokens := by
  unfold submissionPolicy at h
  cases hw : writerIdentity submission.writer with
  | error e => simp [hw] at h
  | ok writer =>
    simp only [hw] at h
    split_ifs at h with hne
    have hsame := hashValues_inj hsha (not_ne_iff.mp hne)
    obtain rfl := toJson_inj (List.forall₂_cons.mp hsame).1
    cases hl : storedNoteLimit (some submission.noteBudget) with
    | error e => simp [hl] at h
    | ok n =>
      simp only [hl, Except.ok.injEq] at h
      exact ⟨rfl, congrArg Except.ok h⟩

/-- Base checkpoints whose JSON has the same text are the same. -/
theorem checkpointJson_inj {c c' : Option BaseCheckpoint}
    (h : stringify (checkpointJson c) = stringify (checkpointJson c')) : c = c' := by
  cases c with
  | none =>
    cases c' with
    | none => rfl
    | some c' =>
      obtain ⟨_, heq, -⟩ := sameText_obj (Eq.symm h)
      cases heq
  | some c =>
    cases c' with
    | none =>
      obtain ⟨_, heq, -⟩ := sameText_obj h
      cases heq
    | some c' =>
      obtain ⟨gs, heq, hs⟩ := sameText_obj h
      obtain rfl := Json.obj.inj heq
      simp only [SameFields, List.forall₂_cons, List.forall₂_nil_left_iff, true_and, and_true] at hs
      have hid := (Json.str.inj (sameText_str hs.1)).symm
      have hhash := (Json.str.inj (sameText_str hs.2)).symm
      exact congrArg some (show c = c' by cases c; cases c'; simp_all)

/-- The latest checkpoints are the same record, by its text. -/
theorem lastCompaction_sameText (hsha : Function.Injective sha256) {branch branch' : List SessionRecord}
    (h : stringify (checkpointJson (lastCheckpoint sha256 branch)) =
      stringify (checkpointJson (lastCheckpoint sha256 branch'))) :
    Option.Rel (fun r r' => SameText r.json r'.json) (lastCompaction branch) (lastCompaction branch') := by
  have heq := checkpointJson_inj h
  unfold lastCheckpoint at heq
  cases hb : lastCompaction branch with
  | none =>
    rw [hb, Option.map_none, eq_comm, Option.map_eq_none_iff] at heq
    rw [heq]
    exact .none
  | some r =>
    rw [hb, Option.map_some, eq_comm, Option.map_eq_some_iff] at heq
    obtain ⟨r', hr', heq⟩ := heq
    have hhash := (congrArg BaseCheckpoint.hash heq).symm
    simp only [hashEntries_eq] at hhash
    rw [hr']
    exact .some (List.forall₂_cons.mp (hashValues_inj hsha hhash)).1

/-- What a reusable prefix is. -/
theorem reusablePrefix_some {candidate : PreparedCandidate} {c : CandidateClassification}
    {branch : List SessionRecord} {last : Nat} (h : reusablePrefix candidate c branch = some last) :
    (c = .staleReusable .newUserInput ∨ c = .staleReusable .newSources) ∧
      last = candidate.input.entryIds.length - 1 ∧
      ∀ entry ∈ branch.take (last + 1), entry.isUser = true →
        entry.id ∈ candidate.input.userHorizon := by
  unfold reusablePrefix at h
  simp only at h
  split_ifs at h with hstale hunseen
  obtain rfl := Option.some.inj h
  refine ⟨hstale, rfl, fun entry hentry huser => ?_⟩
  by_contra hno
  exact hunseen (List.any_eq_true.mpr ⟨entry, hentry, by simpa [huser] using hno⟩)

/-- The evidence of a submission up to an index is what the snapshot saw, under the same policy. -/
structure SeenPrefix (len : Str → Nat) (input : PreparationInput) (snapshot : PreparationSnapshot)
    (note : Json) (submission : PreparationSubmission) (last : Nat) : Prop where
  texts : (submission.branch.take (last + 1)).map (fun entry => stringify entry.json) =
    snapshot.sources.map fun entry => stringify entry.json
  covered : submission.branch[last]?.map SessionRecord.id = some snapshot.coveredThrough
  users : ∀ entry ∈ submission.branch.take (last + 1), entry.isUser = true →
    entry.id ∈ snapshot.userHorizon
  checkpoint : (lastCompaction submission.branch).map (fun entry => stringify entry.json) =
    (lastCompaction input.branch).map fun entry => stringify entry.json
  writer : writerIdentity submission.writer = .ok snapshot.writer
  instructions : submission.customInstructions.any (trim · ≠ []) = false
  note : ∃ hardTokens memory, storedNoteLimit (some submission.noteBudget) = .ok hardTokens ∧
    validateNote len note (submission.branch.take (last + 1)) hardTokens = .ok memory

/-- Without collisions, a candidate that is complete, or whose prefix may be reused, was prepared
from the prefix that it is committed over; a complete one covers the whole branch. -/
theorem reusable_of_classify (hsha : Function.Injective sha256) {input : PreparationInput}
    {snapshot : PreparationSnapshot} (hfreeze : freezePreparationInput sha256 input = .ok snapshot)
    {note : Json} {provenance : PreparationProvenance} {candidate : PreparedCandidate}
    (hfinal : finalizePreparation sha256 len snapshot note provenance = .ok candidate)
    {submission : PreparationSubmission} {last : Nat}
    (hreuse : classifyPreparation sha256 candidate submission = .currentFull ∧
        last = snapshot.entryIds.length - 1 ∨
      reusablePrefix candidate (classifyPreparation sha256 candidate submission) submission.branch =
        some last) :
    SeenPrefix len input snapshot candidate.note submission last ∧
      (classifyPreparation sha256 candidate submission = .currentFull →
        submission.branch.length = last + 1) := by
  obtain ⟨lastIndex, writer, noteBudget, hfind, rfl⟩ := freezePreparationInput_ok hfreeze
  obtain ⟨hinput, hbytes, memory, hmemory⟩ := finalizePreparation_ok hfinal
  obtain ⟨hlt, hcovered, -⟩ := List.findIdx?_eq_some_iff_getElem.mp hfind
  have hlength : (snapshotOf sha256 input lastIndex writer noteBudget).entryIds.length =
      lastIndex + 1 := by
    simp only [snapshotOf, List.length_map, List.length_take]
    omega
  have hcommit : Committable (classifyPreparation sha256 candidate submission) := by
    rcases hreuse with ⟨h, -⟩ | h
    · exact .inl h
    · exact .inr (reusablePrefix_some h).1
  obtain ⟨hardTokens, hunchanged, htail⟩ := classifyPreparation_unchanged hcommit
  -- Either way the index is that of the covered record, and the prefix has been seen.
  obtain ⟨rfl, husers⟩ : last = lastIndex ∧ ∀ entry ∈ submission.branch.take (lastIndex + 1),
      entry.isUser = true → entry.id ∈ candidate.input.userHorizon := by
    rcases hreuse with ⟨h, rfl⟩ | h
    · rw [htail] at h
      have hseen := (classifyTail_currentFull h).2
      rw [hinput, hlength] at hseen
      exact ⟨by omega, hinput ▸ hseen⟩
    · obtain ⟨-, hlast, hseen⟩ := reusablePrefix_some h
      rw [hinput, hlength] at hlast
      obtain rfl : last = lastIndex := by omega
      exact ⟨rfl, hseen⟩
  have hsources := hunchanged.sources
  rw [hinput, hlength, hashEntries_eq] at hsources
  have hsame : List.Forall₂ SameText
      ((submission.branch.take (last + 1)).map SessionRecord.json)
      ((input.branch.take (last + 1)).map SessionRecord.json) :=
    hashValues_inj hsha (hsources.trans (hashEntries_eq _ _))
  have hsame' := hsame
  rw [List.forall₂_map_left_iff, List.forall₂_map_right_iff] at hsame'
  obtain ⟨hwriter, hlimit⟩ := submissionPolicy_ok hsha hunchanged.policy
  have hcheckpoint := hunchanged.checkpoint
  rw [hinput] at hcheckpoint
  refine ⟨⟨map_eq_of_forall₂ (fun _ _ h => h) hsame', ?_, hinput ▸ husers, ?_, hinput ▸ hwriter,
    hunchanged.instructions, hardTokens, memory, hlimit, ?_⟩, fun hfull => ?_⟩
  · have hids := map_eq_of_forall₂ (f := SessionRecord.id) (fun _ _ h => id_sameText h) hsame'
    have hat := congrArg (fun ids => ids[last]?) hids
    simp only [List.getElem?_map, List.getElem?_take_of_lt (Nat.lt_succ_self last)] at hat
    rw [hat, List.getElem?_eq_getElem hlt]
    simpa [snapshotOf] using hcovered
  · rcases rel_cases (lastCompaction_sameText hsha hcheckpoint) with ⟨h, h'⟩ | ⟨r, r', h, h', hrr⟩
    · rw [h, h', Option.map_none]
    · rw [h, h']
      exact congrArg some hrr
  · refine validateNote_ok.mpr ⟨?_, hbytes ▸ hunchanged.size⟩
    rw [validateNoteContent, textById_sameText hsame]
    exact hmemory
  · rw [htail] at hfull
    have hdrop := (classifyTail_currentFull hfull).1
    rw [hinput, hlength, List.drop_eq_nil_iff] at hdrop
    have htake := hsame.length_eq
    simp only [List.length_map, List.length_take] at htake
    omega

/-- A user's first message. -/
def firstRequest : SessionRecord where
  fields := [(lit "type", .str (lit "message")), (lit "id", .str (lit "u")), (lit "parentId", .null),
    (lit "timestamp", .str []),
    (lit "message", .obj [(lit "role", .str (lit "user")), (lit "content", .str (lit "Fix it."))])]
  typed := by decide +kernel

/-- A fixed writer. -/
def sampleWriter : PreparationWriterIdentity :=
  ⟨lit "fixed", lit "p/m", lit "off", lit "a", lit "b", lit "c", none⟩

/-- The policy of a branch that says next to nothing. -/
def samplePolicy : NoteBudget := ⟨.fixed, 0, 0, 0, 500, 500⟩

/-- The input of a branch with one request. -/
def sampleInput : PreparationInput :=
  ⟨lit "s", .ofNat 0, [firstRequest], lit "u", [lit "u"], sampleWriter, samplePolicy.toJson⟩

/-- A note on that request. -/
def preparedNote : MemoryNote where
  facts
    | .state => [⟨lit "Asked.", [lit "u"], none, none⟩]
    | _ => []
  gaps := []

/-- A hash without collisions. -/
def plainHash : Sha256 := List.map UInt8.toUInt16

theorem plainHash_injective : Function.Injective plainHash :=
  List.map_injective_iff.mpr fun a b h => by
    have := congrArg UInt16.toNat h
    simpa [← UInt8.toNat_inj] using this

/-- A candidate prepared from one request, which stays reusable. -/
theorem reusable_of_classify_sample :
    ∃ snapshot candidate,
      freezePreparationInput plainHash sampleInput = .ok snapshot ∧
      finalizePreparation plainHash List.length snapshot preparedNote.toJson
        ⟨lit "fixed", lit "p/m", lit "off", [lit "call"]⟩ = .ok candidate ∧
      SeenPrefix List.length sampleInput snapshot candidate.note
        ⟨lit "s", .ofNat 0, [firstRequest], sampleWriter, samplePolicy.toJson, none⟩ 0 := by
  have hclass : ((freezePreparationInput plainHash sampleInput).bind fun snapshot =>
      (finalizePreparation plainHash List.length snapshot preparedNote.toJson
        ⟨lit "fixed", lit "p/m", lit "off", [lit "call"]⟩).map fun candidate =>
          (classifyPreparation plainHash candidate
            ⟨lit "s", .ofNat 0, [firstRequest], sampleWriter, samplePolicy.toJson, none⟩,
            snapshot.entryIds.length)) = .ok (.currentFull, 1) := by decide +kernel
  obtain ⟨snapshot, hs, hrest⟩ := bind_ok.mp hclass
  obtain ⟨candidate, hc, heq⟩ := map_ok.mp hrest
  obtain ⟨hfull, hlen⟩ := Prod.mk.inj heq
  exact ⟨snapshot, candidate, hs, hc,
    (reusable_of_classify plainHash_injective hs hc (.inl ⟨hfull, by rw [hlen]⟩)).1⟩

end Compaction
