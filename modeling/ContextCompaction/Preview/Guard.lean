import ContextCompaction.Core.Guards
import ContextCompaction.Core.WorkNotes

/-!
# The request guard

A request needs a branch that the full validation accepts. Between trust boundaries the guard looks
at the entries added since the last validation only.

* `assertPreviewSession`: the full validation.
* `extendsVerified_agrees`: where the short path is taken, the full validation would succeed with
  the same checkpoint.
* `assertReady_sound`: so every checkpoint that the guard returns is the full validation's.
-/

namespace Compaction

open Js

/-! ## Sessions -/

/-- An entry of the host's branch; `ref` is the identity of the object. -/
structure SessionEntry where
  ref : Nat
  record : SessionRecord

/-- The host's session; `ref` is the identity of the object. -/
structure PreviewSession where
  ref : Nat
  sessionId : Str
  sessionFile : Option Str

/-- Host or session content that the preview cannot check. -/
inductive InactiveReason where
  | host
  | inMemory
  | contextEdit
  | foreignCheckpoint
  | image
  | nonText
  deriving DecidableEq

/-- Exact official hosts, newest first. -/
def SUPPORTED_PI_VERSIONS : List Str := [lit "1.4.0", lit "1.3.0", lit "1.2.0", lit "1.1.0"]

def supportsPi (version : Str) : Bool := version ∈ SUPPORTED_PI_VERSIONS

example : supportsPi (lit "1.4.0") = true ∧ supportsPi (lit "2.0.0") = false := by decide +kernel

/-- `UNSUPPORTED_ERRORS[reason]`. -/
def InactiveReason.message : InactiveReason → String
  | .host =>
    "CONTEXT_PREVIEW_UNSUPPORTED: this preview is validated on official Pi 1.4.0, 1.3.0, 1.2.0 or 1.1.0"
  | .inMemory => "CONTEXT_PREVIEW_UNSUPPORTED: a persistent session is required"
  | .contextEdit => "CONTEXT_PREVIEW_UNSUPPORTED: only failed-response recovery omissions are supported"
  | .foreignCheckpoint =>
    "CONTEXT_MIGRATION_REQUIRED: start a new preview session; existing checkpoints are not migrated"
  | .image => "CONTEXT_PREVIEW_UNSUPPORTED: image-bearing sessions are not supported by this preview"
  | .nonText => "CONTEXT_PREVIEW_UNSUPPORTED: non-text custom messages are not supported"

/-! ## The full validation -/

/-- A checkpoint that the preview wrote. -/
def isPreviewCheckpoint (entry : SessionRecord) : Bool :=
  decide (entry.type = .compaction) && (entry.details.bind Json.obj?).any fun details =>
    decide (strField? details "kind" = some CONTEXT_MEMORY_KIND) &&
      (strField? details "build").any fun build => decide (lit "stock-preview" <+: build)

/-- Entry content that the preview cannot check. -/
def unsupportedContent (entry : SessionRecord) : Option InactiveReason :=
  match entry.type with
  | .message => if hasPart entry.message "image" then some .image else none
  | .customMessage =>
    if ((field entry.fields "content").bind Json.arr?).any fun parts =>
        parts.any fun part => (part.get? (lit "type")).bind Json.str? ≠ some (lit "text") then
      some .nonText
    else none
  | _ => none

def unsupportedReason (session : PreviewSession) (version : Str) (branch : List SessionRecord) :
    Option InactiveReason :=
  if !supportsPi version then some .host
  else if session.sessionFile.all (· = []) then some .inMemory
  else if (assertRecoveryEdits branch).isOk = false then some .contextEdit
  else if branch.any fun entry => entry.type = .compaction && !isPreviewCheckpoint entry then
    some .foreignCheckpoint
  else branch.findSome? unsupportedContent

variable (len : Str → Nat) (sha256 : Sha256)

/-- The checkpoint of a branch, with the records that the pass hands out. -/
def assertPreviewSession (session : PreviewSession) (version : Str) (branch : List SessionRecord) :
    Logged (Option ValidatedMemory) :=
  match unsupportedReason session version branch with
  | some reason => ⟨[], .error (.ofText reason.message)⟩
  | none =>
    let run := validateMemoryCheckpoints len sha256 .pi true branch
    ⟨run.serialized, run.result.bind fun latest =>
      (assertUserMessages branch).map fun _ => latest⟩

/-- An accepted branch. -/
structure Accepted (session : PreviewSession) (version : Str) (branch : List SessionRecord)
    (checkpoint : Option ValidatedMemory) : Prop where
  supported : supportsPi version = true
  persistent : session.sessionFile.all (· = []) = false
  edits : assertRecoveryEdits branch = .ok ()
  own : ∀ entry ∈ branch, entry.type = .compaction → isPreviewCheckpoint entry = true
  content : ∀ entry ∈ branch, unsupportedContent entry = none
  checkpoints : legacyPreviewLoop len sha256 .pi branch = .ok checkpoint
  users : assertUserMessages branch = .ok ()

variable {len sha256}

/-- The guard returns a checkpoint exactly when it accepts the session with it. -/
theorem assertPreviewSession_ok {session : PreviewSession} {version : Str}
    {branch : List SessionRecord} {checkpoint : Option ValidatedMemory} :
    (assertPreviewSession len sha256 session version branch).result = .ok checkpoint ↔
      Accepted len sha256 session version branch checkpoint := by
  have hreason : unsupportedReason session version branch = none ↔
      supportsPi version = true ∧ session.sessionFile.all (· = []) = false ∧
        assertRecoveryEdits branch = .ok () ∧
        (∀ entry ∈ branch, entry.type = .compaction → isPreviewCheckpoint entry = true) ∧
        ∀ entry ∈ branch, unsupportedContent entry = none := by
    unfold unsupportedReason
    have hedits : (assertRecoveryEdits branch).isOk = false ↔ assertRecoveryEdits branch ≠ .ok () := by
      cases assertRecoveryEdits branch <;> simp [Except.isOk, Except.toBool]
    split_ifs with h₁ h₂ h₃ h₄
    · simp_all
    · simp_all
    · simp_all
    · obtain ⟨entry, hentry, h⟩ := List.any_eq_true.mp h₄
      simp only [Bool.and_eq_true, decide_eq_true_eq, Bool.not_eq_true'] at h
      refine iff_of_false (by simp) fun hall => ?_
      rw [hall.2.2.2.1 entry hentry h.1] at h
      cases h.2
    · rw [List.findSome?_eq_none_iff]
      simp only [hedits, ne_eq, not_not] at h₃
      simp_all
  have hser : ∀ r ∈ branch, Serializes .pi r := fun r _ => serializes_pi r
  unfold assertPreviewSession
  cases hr : unsupportedReason session version branch with
  | some reason =>
    simp only [reduceCtorEq, false_iff]
    intro h
    rw [hreason.mpr ⟨h.supported, h.persistent, h.edits, h.own, h.content⟩] at hr
    cases hr
  | none =>
    obtain ⟨h₁, h₂, h₃, h₄, h₅⟩ := hreason.mp hr
    simp only [validateMemoryCheckpoints_result len sha256 hser]
    constructor
    · intro h
      obtain ⟨latest, hlatest, h⟩ := bind_ok.mp h
      obtain ⟨_, husers, rfl⟩ := map_ok.mp h
      exact ⟨h₁, h₂, h₃, h₄, h₅, hlatest, husers⟩
    · intro h
      exact bind_ok.mpr ⟨checkpoint, h.checkpoints, map_ok.mpr ⟨(), h.users, rfl⟩⟩

/-! ## The short path -/

/-- What the last full validation proved, used while the same entries are extended. -/
structure VerifiedBranch where
  session : PreviewSession
  sessionId : Str
  length : Nat
  tip : Option SessionEntry
  checkpoint : Option ValidatedMemory

/-- The records of a branch. -/
def asRecords (branch : List SessionEntry) : List SessionRecord := branch.map SessionEntry.record

/-- What the guard records of a branch. -/
def verifiedOf (session : PreviewSession) (branch : List SessionEntry)
    (checkpoint : Option ValidatedMemory) : VerifiedBranch :=
  ⟨session, session.sessionId, branch.length, branch.getLast?, checkpoint⟩

/-- `branch[length - 1]`; `none` is `undefined`. -/
def entryBefore (branch : List SessionEntry) : Nat → Option SessionEntry
  | 0 => none
  | n + 1 => branch[n]?

/-- An entry that needs the full validation. -/
def needsValidation (entry : SessionRecord) : Bool :=
  decide (entry.type = .compaction) || decide (entry.type = .contextEdit) ||
    (unsupportedContent entry).isSome

/-- The same entries as the last full validation, followed by ordinary new ones only. -/
def extendsVerified (verified : VerifiedBranch) (session : PreviewSession)
    (branch : List SessionEntry) : Bool :=
  decide (verified.session.ref = session.ref) && decide (verified.sessionId = session.sessionId) &&
    decide (verified.length ≤ branch.length) &&
    decide ((entryBefore branch verified.length).map SessionEntry.ref =
      verified.tip.map SessionEntry.ref) &&
    (branch.drop verified.length).all fun entry => !needsValidation entry.record

/-- What the guard reads beside the branch. -/
structure ReadyContext where
  configError : Option Str
  configured : Bool
  hostVersion : Str
  stickyFailure : Option Str
  /-- `store.assertReady(session, serializedBranch)`. -/
  storeReady : Option (List Str) → Except Failure Unit

variable (len sha256)

/-- The checkpoint by the short path or the full validation, the records that the latter hands out,
and what stays recorded as verified if a later check fails. -/
def readyCheckpoint (version : Str) (verified : Option VerifiedBranch) (session : PreviewSession)
    (branch : List SessionEntry) :
    Except Failure (Option ValidatedMemory) × Option (List Str) × Option VerifiedBranch :=
  match verified.filter fun v => extendsVerified v session branch with
  | some v => (.ok v.checkpoint, none, some v)
  | none =>
    let run := assertPreviewSession len sha256 session version (asRecords branch)
    (run.result, some (run.serialized.map Prod.snd), none)

/-- A failure that stays until the session is left. -/
def assertNoSticky (ctx : ReadyContext) : Except Failure Unit :=
  match ctx.stickyFailure.filter (· ≠ []) with
  | some sticky => .error (.error sticky)
  | none => .ok ()

/-- The request guard: its result, and what it records as verified. -/
def assertReady (ctx : ReadyContext) (verified : Option VerifiedBranch) (session : PreviewSession)
    (branch : List SessionEntry) :
    Except Failure (Option ValidatedMemory) × Option VerifiedBranch :=
  if ctx.configError.any (· ≠ []) || !ctx.configured then
    (.error (.error (ctx.configError.getD (lit "CONTEXT_CONFIG"))), verified)
  else
    let checked := readyCheckpoint len sha256 ctx.hostVersion verified session branch
    match checked.1 >>= fun checkpoint => assertNoSticky ctx >>= fun _ =>
        (ctx.storeReady checked.2.1).map fun _ => checkpoint with
    | .error e => (.error e, checked.2.2)
    | .ok checkpoint => (.ok checkpoint, some (verifiedOf session branch checkpoint))

variable {len sha256}

/-- Ordinary entries keep an accepted branch accepted. -/
theorem Accepted.append {session : PreviewSession} {version : Str} {branch more : List SessionRecord}
    {checkpoint : Option ValidatedMemory}
    (h : Accepted len sha256 session version branch checkpoint)
    (hmore : ∀ r ∈ more, needsValidation r = false) :
    Accepted len sha256 session version (branch ++ more) checkpoint := by
  have hkinds : ∀ r ∈ more, r.type ≠ .compaction ∧ r.type ≠ .contextEdit ∧
      unsupportedContent r = none := by
    intro r hr
    simpa [needsValidation, and_assoc] using hmore r hr
  refine ⟨h.supported, h.persistent, assertRecoveryEdits_append h.edits fun r hr => (hkinds r hr).2.1,
    fun r hr hc => ?_, fun r hr => ?_, ?_, assertUserMessages_append h.users fun r hr => (hkinds r hr).1⟩
  · rcases List.mem_append.mp hr with hr | hr
    · exact h.own r hr hc
    · exact absurd hc (hkinds r hr).1
  · rcases List.mem_append.mp hr with hr | hr
    · exact h.content r hr
    · exact (hkinds r hr).2.2
  · rw [legacyPreviewLoop_more len sha256 _ fun r hr => (hkinds r hr).1]
    exact h.checkpoints

/-- Where the guard takes the short path over unmodified earlier entries, the full validation
succeeds with the recorded checkpoint. -/
theorem extendsVerified_agrees {session : PreviewSession} {version : Str}
    {branch later : List SessionEntry} {checkpoint : Option ValidatedMemory}
    (hfull : (assertPreviewSession len sha256 session version (asRecords branch)).result =
      .ok checkpoint)
    (hext : extendsVerified (verifiedOf session branch checkpoint) session later = true)
    (hsame : branch <+: later) :
    (assertPreviewSession len sha256 session version (asRecords later)).result =
      .ok (verifiedOf session branch checkpoint).checkpoint := by
  obtain ⟨more, rfl⟩ := hsame
  simp only [extendsVerified, verifiedOf, List.drop_left, Bool.and_eq_true, List.all_eq_true,
    Bool.not_eq_true'] at hext
  rw [assertPreviewSession_ok] at hfull ⊢
  rw [asRecords, List.map_append]
  refine hfull.append fun r hr => ?_
  obtain ⟨entry, hentry, rfl⟩ := List.mem_map.mp hr
  exact hext.2 entry hentry

/-- A user's message as the host holds it. -/
def userEntry (ref : Nat) (id text : String) : SessionEntry :=
  ⟨ref, messageRecord (lit id) (lit "root") (lit "2026-01-01T00:00:00.000Z") (lit "user") (lit text)⟩

/-- A persistent session of supported messages, without a checkpoint. -/
theorem accepted_messages {session : PreviewSession} {version : Str} {branch : List SessionRecord}
    (hversion : supportsPi version = true) (hfile : session.sessionFile.all (· = []) = false)
    (htype : ∀ r ∈ branch, r.type = .message) (hcontent : ∀ r ∈ branch, unsupportedContent r = none) :
    (assertPreviewSession len sha256 session version branch).result = .ok none := by
  refine assertPreviewSession_ok.mpr ⟨hversion, hfile, ?_, fun r hr hc => ?_, hcontent, ?_, ?_⟩
  · exact @assertRecoveryEdits_append [] branch rfl fun r hr => by simp [htype r hr]
  · rw [htype r hr] at hc
    cases hc
  · refine legacyPreviewLoop_none _ _ _ (List.any_eq_false.mpr fun r hr => ?_)
    simp [htype r hr]
  · exact assertUserMessages_ok.mpr fun r hr =>
      assertUserMessagesOf_of_type (by rw [htype r hr]; decide)

/-- A checkpoint, and behind it a message that the guard has not seen. -/
theorem extendsVerified_agrees_sample :
    let session : PreviewSession := ⟨0, lit "s", some (lit "session.jsonl")⟩
    let branch : List SessionEntry := [⟨1, storedRequest "Fix it."⟩, ⟨2, storedCheckpoint⟩]
    ∃ m, (assertPreviewSession List.length (fun _ => []) session (lit "1.4.0")
      (asRecords (branch ++ [userEntry 3 "u2" "Add a test."]))).result = .ok (some m) := by
  intro session branch
  have haccepted : ((assertPreviewSession List.length (fun _ => []) session (lit "1.4.0")
      (asRecords branch)).result.toOption.bind id).isSome = true := by decide +kernel
  cases hfull : (assertPreviewSession List.length (fun _ => []) session (lit "1.4.0")
      (asRecords branch)).result with
  | error e =>
    rw [hfull] at haccepted
    cases haccepted
  | ok checkpoint =>
    rw [hfull] at haccepted
    obtain ⟨m, rfl⟩ := Option.isSome_iff_exists.mp haccepted
    have hext : extendsVerified (verifiedOf session branch none) session
        (branch ++ [userEntry 3 "u2" "Add a test."]) = true := by decide +kernel
    exact ⟨m, extendsVerified_agrees hfull hext (List.prefix_append _ _)⟩

/-! ### Runs of the guard -/

/-- The branches that the full validation accepts. -/
abbrev Validated (len : Str → Nat) (sha256 : Sha256) (session : PreviewSession) (version : Str)
    (branch : List SessionEntry) (checkpoint : Option ValidatedMemory) : Prop :=
  (assertPreviewSession len sha256 session version (asRecords branch)).result = .ok checkpoint

/-- What is recorded is the full validation of an earlier state of the branch. -/
def Sound (len : Str → Nat) (sha256 : Sha256) (session : PreviewSession) (version : Str)
    (branch : List SessionEntry) (verified : Option VerifiedBranch) : Prop :=
  ∀ v ∈ verified, ∃ earlier checkpoint, v = verifiedOf session earlier checkpoint ∧
    earlier <+: branch ∧ Validated len sha256 session version earlier checkpoint

theorem Sound.grow {session : PreviewSession} {version : Str} {branch later : List SessionEntry}
    {verified : Option VerifiedBranch} (h : Sound len sha256 session version branch verified)
    (hgrow : branch <+: later) : Sound len sha256 session version later verified := by
  intro v hv
  obtain ⟨earlier, checkpoint, hof, hle, hfull⟩ := h v hv
  exact ⟨earlier, checkpoint, hof, hle.trans hgrow, hfull⟩

/-- On either path the checkpoint is the full validation's. -/
theorem readyCheckpoint_sound {version : Str} {verified : Option VerifiedBranch}
    {session : PreviewSession} {branch : List SessionEntry}
    (h : Sound len sha256 session version branch verified) :
    (∀ checkpoint, (readyCheckpoint len sha256 version verified session branch).1 = .ok checkpoint →
      Validated len sha256 session version branch checkpoint) ∧
    Sound len sha256 session version branch
      (readyCheckpoint len sha256 version verified session branch).2.2 := by
  unfold readyCheckpoint
  cases hv : verified.filter fun v => extendsVerified v session branch with
  | none => exact ⟨fun checkpoint hc => hc, fun v hv => by cases hv⟩
  | some v =>
    obtain ⟨rfl, hext⟩ := Option.filter_eq_some_iff.mp hv
    obtain ⟨earlier, checkpoint, rfl, hle, hfull⟩ := h v rfl
    have hagree := extendsVerified_agrees hfull hext hle
    refine ⟨fun checkpoint' hc => ?_, h⟩
    obtain rfl := Except.ok.inj hc
    exact hagree

/-- One request. -/
theorem assertReady_sound {ctx : ReadyContext} {verified : Option VerifiedBranch}
    {session : PreviewSession} {branch : List SessionEntry}
    (h : Sound len sha256 session ctx.hostVersion branch verified) :
    (∀ checkpoint, (assertReady len sha256 ctx verified session branch).1 = .ok checkpoint →
      Validated len sha256 session ctx.hostVersion branch checkpoint) ∧
    Sound len sha256 session ctx.hostVersion branch
      (assertReady len sha256 ctx verified session branch).2 := by
  obtain ⟨hresult, hsound⟩ := readyCheckpoint_sound h
  unfold assertReady
  split_ifs
  · exact ⟨by simp, h⟩
  · simp only
    split
    · exact ⟨by simp, hsound⟩
    · rename_i checkpoint hok
      obtain ⟨checkpoint', hc, hok⟩ := bind_ok.mp hok
      obtain ⟨_, -, hok⟩ := bind_ok.mp hok
      obtain ⟨_, -, rfl⟩ := map_ok.mp hok
      have hfull := hresult checkpoint' hc
      refine ⟨fun c hc' => Except.ok.inj hc' ▸ hfull, fun v hv => ?_⟩
      obtain rfl := Option.some.inj hv
      exact ⟨branch, checkpoint', rfl, List.prefix_refl _, hfull⟩

variable (len sha256)

/-- The results of the guard over the requests of one session. -/
def readyRun (session : PreviewSession) : Option VerifiedBranch →
    List (ReadyContext × List SessionEntry) → List (Except Failure (Option ValidatedMemory))
  | _, [] => []
  | verified, (ctx, branch) :: requests =>
    let step := assertReady len sha256 ctx verified session branch
    step.1 :: readyRun session step.2 requests

variable {len sha256}

/-- While entries are only added, every checkpoint that the guard returns is the full validation's. -/
theorem readyRun_validated {session : PreviewSession} {version : Str}
    {requests : List (ReadyContext × List SessionEntry)}
    (hversion : ∀ r ∈ requests, r.1.hostVersion = version)
    (hgrow : requests.IsChain fun r s => r.2 <+: s.2) {verified : Option VerifiedBranch}
    (h : ∀ r ∈ requests.head?, Sound len sha256 session version r.2 verified) {k : Nat}
    {request : ReadyContext × List SessionEntry} {checkpoint : Option ValidatedMemory}
    (hk : requests[k]? = some request)
    (hresult : (readyRun len sha256 session verified requests)[k]? = some (.ok checkpoint)) :
    Validated len sha256 session version request.2 checkpoint := by
  induction requests generalizing verified k with
  | nil => simp at hk
  | cons r requests ih =>
    obtain ⟨ctx, branch⟩ := r
    obtain rfl := hversion _ List.mem_cons_self
    obtain ⟨hstep, hsound⟩ := assertReady_sound (h _ rfl)
    cases k with
    | zero =>
      obtain rfl := Option.some.inj hk
      exact hstep checkpoint (Option.some.inj hresult)
    | succ k =>
      refine ih (fun r hr => hversion r (List.mem_cons_of_mem _ hr)) hgrow.tail (fun r hr => ?_) hk
        hresult
      have hle : branch <+: r.2 := by
        cases requests with
        | nil => cases hr
        | cons s requests =>
          obtain rfl := Option.some.inj hr
          exact (List.isChain_cons_cons.mp hgrow).1
      exact hsound.grow hle

end Compaction
