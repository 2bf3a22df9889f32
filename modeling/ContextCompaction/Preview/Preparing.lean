import ContextCompaction.Core.Preparation
import ContextCompaction.Core.Writer
import ContextCompaction.Transition.Reach

/-!
# Background preparation

`PreviewPreparation` and the promise chains of its runs. Every handler of a chain is an event of its
own, so whatever the host calls may come between two of them.

* `step`: one event.
* `PreparationInvariant`, `Since`: what every event keeps.
* `preparation_current`: an armed candidate is current, and none is taken that is older than the last
  invalidation.
-/

namespace Compaction.Preparing

open Js Transition

/-! ## State -/

/-- How the last run ended, while none is going. -/
inductive RunState where
  | idle
  | failed
  | cancelled

/-- How far a run's chain has come: the writer is queued or at work, its promise has been fulfilled
or rejected, or only the last handler is left. -/
inductive Phase where
  | queued
  | writing
  | written (result : WriteMemoryResult)
  | rejected
  | handled

/-- The end of a task's chain has been handled. -/
def Phase.isHandled : Phase → Bool
  | .handled => true
  | _ => false

section

variable (sha256 : Sha256)

/-- A snapshot as `freezePreparationInput` gives it. -/
def FrozenSnapshot := {input : PreparationSnapshot //
  ∃ source, freezePreparationInput sha256 source = .ok input}

/-- A run whose chain has not ended, with its abort signal. `run` tells runs apart. -/
structure Task where
  run : Nat
  input : FrozenSnapshot sha256
  aborted : Bool
  callIds : List Str
  phase : Phase

/-- A prepared candidate with what its writer answered and the run that made it. -/
structure Armed where
  candidate : PreparedCandidate
  written : WriteMemoryResult
  run : Nat

/-- The fields of the class, the chains that have not ended, and for the statements how many runs were
started and which of them were aborted before their result was handled. -/
structure Preparation where
  enabled : Bool
  sessionId : Option Str
  running : Option Nat
  armed : Option Armed
  epoch : Number
  disposed : Bool
  state : RunState
  reason : Option Str
  tasks : List (Task sha256)
  started : Nat
  cancelled : List Nat

end

variable {sha256 : Sha256}

namespace Preparation

/-! ## Methods -/

/-- `abort.abort()` -/
def abort (p : Preparation sha256) (run : Nat) : Preparation sha256 :=
  { p with
    tasks := p.tasks.map fun t => if t.run = run then { t with aborted := true } else t
    cancelled := if p.tasks.any fun t => t.run = run ∧ t.phase.isHandled = false
      then run :: p.cancelled else p.cancelled }

/-- The run that is going, if any, is aborted and forgotten. -/
def cancel (p : Preparation sha256) (reason : Str) : Preparation sha256 :=
  match p.running with
  | none => p
  | some run => { p with state := .cancelled, reason := some reason }.abort run

/-- The candidate is dropped and a new epoch begins. -/
def nextEpoch (p : Preparation sha256) (reason : Option Str) : Preparation sha256 :=
  { p with armed := none, epoch := p.epoch.add (.ofNat 1), state := .idle, reason }

/-- What was prepared no longer fits: the run is cancelled and a new epoch begins. -/
def invalidate (p : Preparation sha256) (reason : Str) : Preparation sha256 :=
  (p.cancel reason).nextEpoch (some reason)

/-- A checkpoint was committed, which ends the epoch without a reason of failure. -/
def committed (p : Preparation sha256) : Preparation sha256 :=
  (p.cancel (lit "checkpoint-committed")).nextEpoch none

/-- Another session than before invalidates what was prepared for that one. -/
def activate (p : Preparation sha256) (sessionId : Str) : Preparation sha256 :=
  if p.sessionId = some sessionId then p
  else { p.invalidate (lit "session-changed") with sessionId := some sessionId }

/-- The runtime shuts down; nothing starts any more. -/
def dispose (p : Preparation sha256) : Preparation sha256 :=
  { p with disposed := true }.invalidate (lit "session-shutdown")

/-- `writable` and `prepared` are what the call journal answers for the session and the interval. -/
def mayStart (p : Preparation sha256) (writable prepared : Bool) : Bool :=
  p.enabled && !p.disposed && p.running.isNone && writable && !prepared

/-- The task of a run that begins. -/
def begin (p : Preparation sha256) (input : FrozenSnapshot sha256) : Preparation sha256 :=
  { p with
    running := some p.started, state := .idle, reason := none, started := p.started + 1
    tasks := p.tasks ++ [⟨p.started, input, false, [], .queued⟩] }

/-- A run starts unless one may not, or the snapshot is of another epoch. -/
def start (p : Preparation sha256) (input : FrozenSnapshot sha256) (writable prepared : Bool) :
    Preparation sha256 :=
  if p.mayStart writable prepared = false then p
  else
    let p := p.activate input.1.sessionId
    if strictEqual input.1.epoch p.epoch = false then p else p.begin input

/-- The armed candidate is dropped when it is the one that was staged. -/
def staged (p : Preparation sha256) (candidateId : Option Str) : Preparation sha256 :=
  if candidateId.any (· ≠ []) ∧ (p.armed.map fun a => a.candidate.input.candidateId) = candidateId then
    { p with armed := none }
  else p

/-- The classification of the armed candidate, if there is one to take. -/
def classified (p : Preparation sha256) (submission : PreparationSubmission) :
    Option (Armed × CandidateClassification) :=
  if p.disposed || !p.enabled then none
  else p.armed.map fun a => (a, classifyPreparation sha256 a.candidate submission)

/-- What `take` returns. -/
def taken (p : Preparation sha256) (submission : PreparationSubmission) :
    Option (Armed × CandidateClassification) :=
  match p.classified submission with
  | some (_, .invalid _) => none
  | other => other

/-- What `take` leaves: an invalid candidate is dropped. -/
def take (p : Preparation sha256) (submission : PreparationSubmission) : Preparation sha256 :=
  match p.classified submission with
  | some (_, .invalid _) => { p with armed := none }
  | _ => p

/-! ## Handlers -/

/-- The task of a run. -/
def task (p : Preparation sha256) (run : Nat) : Option (Task sha256) :=
  p.tasks.find? fun t => t.run = run

/-- The task takes the place of the one with its run. -/
def setTask (p : Preparation sha256) (task : Task sha256) : Preparation sha256 :=
  { p with tasks := p.tasks.map fun t => if t.run = task.run then task else t }

/-- `current()` of a run. -/
def current (p : Preparation sha256) (t : Task sha256) : Bool :=
  !p.disposed && strictEqual t.input.1.epoch p.epoch &&
    decide (p.sessionId = some t.input.1.sessionId)

/-- The first handler: the writer begins, unless the signal stands. -/
def launch (p : Preparation sha256) (t : Task sha256) : Preparation sha256 :=
  p.setTask { t with phase := if t.aborted then .rejected else .writing }

/-- The second handler: a result arms its candidate. -/
def finish (len : Str → Nat) (p : Preparation sha256) (t : Task sha256) (written : WriteMemoryResult) :
    Preparation sha256 :=
  if t.aborted || !p.current t then p.setTask { t with phase := .handled }
  else
    match finalizePreparation sha256 len t.input.1 written.note.toJson
        ⟨t.input.1.writer.role, written.writerModel, written.writerEffort, t.callIds⟩ with
    | .ok candidate =>
      { p.setTask { t with phase := .handled } with armed := some ⟨candidate, written, t.run⟩ }
    | .error _ => p.setTask { t with phase := .rejected }

/-- The handler of failures. -/
def caught (p : Preparation sha256) (t : Task sha256) : Preparation sha256 :=
  let p' := p.setTask { t with phase := .handled }
  if !p.current t then p'
  else
    { p' with
      state := if t.aborted then .cancelled else .failed
      reason := p.reason.or (some (if t.aborted then lit "cancelled" else lit "generation-failed")) }

/-- The last handler. -/
def finalize (p : Preparation sha256) (t : Task sha256) : Preparation sha256 :=
  { p with
    tasks := p.tasks.filter fun u => u.run ≠ t.run
    running := if p.running = some t.run then none else p.running }

end Preparation

/-! ## Events -/

/-- What may happen: a call of the host, the writer's progress, a handler of a chain, the deadline. -/
inductive Event (sha256 : Sha256) where
  | activate (sessionId : Str)
  | start (input : FrozenSnapshot sha256) (writable prepared : Bool)
  | take (submission : PreparationSubmission)
  | staged (candidateId : Option Str)
  | committed
  | cancel (reason : Str)
  | invalidate (reason : Str)
  | dispose
  | launch (run : Nat)
  | dispatched (run : Nat) (callId : Str)
  | settled (run : Nat) (result : Option WriteMemoryResult)
  | finish (run : Nat)
  | caught (run : Nat)
  | finalize (run : Nat)
  | deadline (run : Nat)

/-- One event, if it can happen. -/
def step (len : Str → Nat) (p : Preparation sha256) : Event sha256 → Option (Preparation sha256)
  | .activate sessionId => some (p.activate sessionId)
  | .start input writable prepared => some (p.start input writable prepared)
  | .take submission => some (p.take submission)
  | .staged candidateId => some (p.staged candidateId)
  | .committed => some p.committed
  | .cancel reason => some (p.cancel reason)
  | .invalidate reason => some (p.invalidate reason)
  | .dispose => some p.dispose
  | .launch run => do
    let t ← p.task run
    match t.phase with
    | .queued => some (p.launch t)
    | _ => none
  | .dispatched run callId => do
    let t ← p.task run
    match t.phase with
    | .writing => some (p.setTask { t with callIds := t.callIds ++ [callId] })
    | _ => none
  | .settled run result => do
    let t ← p.task run
    match t.phase with
    | .writing => some (p.setTask { t with phase := result.elim .rejected .written })
    | _ => none
  | .finish run => do
    let t ← p.task run
    match t.phase with
    | .written result => some (p.finish len t result)
    | _ => none
  | .caught run => do
    let t ← p.task run
    match t.phase with
    | .rejected => some (p.caught t)
    | _ => none
  | .finalize run => do
    let t ← p.task run
    match t.phase with
    | .handled => some (p.finalize t)
    | _ => none
  | .deadline run => do
    let _ ← p.task run
    some ({ p with reason := some (lit "deadline") }.abort run)

/-- A new object, and the events on it. -/
def PreparationSystem (len : Str → Nat) : System (Preparation sha256) where
  init p := ∃ enabled, p = ⟨enabled, none, none, none, .ofNat 0, false, .idle, none, [], 0, []⟩
  step p p' := ∃ e, step len p e = some p'

/-! ## Epochs -/

/-- The value of an epoch. -/
def epochNat : Number → Nat
  | .finite _ abs _ => abs.num.toNat
  | _ => 0

theorem epochNat_strictEqual {m n : Number} (h : strictEqual m n = true) : epochNat m = epochNat n := by
  cases m <;> cases n <;> simp_all [strictEqual, epochNat]

theorem ofNat_eq_of_le {k : Nat} (h : k ≤ 2 ^ 53) :
    ∃ hrep : Representable (k : ℚ), Number.ofNat k = .finite false k hrep := by
  rcases h.lt_or_eq with hlt | rfl
  · exact ⟨_, Number.ofNat_eq hlt⟩
  · have hrep : Representable ((2 ^ 53 : Nat) : ℚ) :=
      ⟨1, 53, by norm_num, by norm_num, by norm_num, by rw [natCast_two_pow]; simp⟩
    exact ⟨hrep, Number.ofRat_of_round hrep (round_eq_self hrep)⟩

theorem epochNat_ofNat {k : Nat} (h : k ≤ 2 ^ 53) : epochNat (.ofNat k) = k := by
  obtain ⟨_, heq⟩ := ofNat_eq_of_le h
  simp [heq, epochNat]

/-- `epoch++`: the counter stands still at `2 ^ 53`. -/
theorem add_one_eq {k : Nat} (h : k ≤ 2 ^ 53) :
    (Number.ofNat k).add (.ofNat 1) = .ofNat (min (k + 1) (2 ^ 53)) := by
  rcases h.lt_or_eq with hlt | rfl
  · rw [Nat.min_eq_left hlt, Number.ofNat_eq hlt, Number.ofNat_eq (by norm_num)]
    have hsum : signed false (k : ℚ) + signed false ((1 : Nat) : ℚ) = ((k + 1 : Nat) : ℚ) := by
      simp [signed]
    have hpos : (0 : ℚ) < ((k + 1 : Nat) : ℚ) := by exact_mod_cast Nat.succ_pos k
    simp only [Number.add, hsum]
    rw [if_neg hpos.ne', abs_of_pos hpos, decide_eq_false (not_lt.mpr hpos.le)]
    rfl
  · decide +kernel

/-- A frozen snapshot's epoch is a safe integer. -/
theorem epochNat_frozen (input : FrozenSnapshot sha256) : epochNat input.1.epoch < 2 ^ 53 := by
  obtain ⟨input, source, h⟩ := input
  unfold freezePreparationInput at h
  split at h
  · cases h
  · simp only at h
    split_ifs at h with hinput
    obtain ⟨writer, -, h⟩ := bind_ok.mp h
    obtain ⟨noteBudget, -, h⟩ := bind_ok.mp h
    obtain rfl := Except.ok.inj h
    have hsafe : safeCount source.epoch = true := by
      simp only [Bool.or_eq_true, Bool.not_eq_true', not_or, Bool.not_eq_false] at hinput
      exact hinput.1.2
    show epochNat source.epoch < 2 ^ 53
    generalize source.epoch = n at hsafe
    unfold safeCount count? at hsafe
    cases n with
    | finite negative abs hrep =>
      simp only at hsafe
      split_ifs at hsafe
      · simpa [isSafe, epochNat] using hsafe
      · cases hsafe
    | _ => cases hsafe

/-! ## What every event keeps -/

/-- The armed candidate belongs to the epoch and to the session. -/
def CurrentCandidate (p : Preparation sha256) (a : Armed) : Prop :=
  strictEqual a.candidate.input.epoch p.epoch = true ∧
    p.sessionId = some a.candidate.input.sessionId

/-- What holds between events: the epoch is a safe integer, at most one chain of tasks is left, and what
is armed belongs to the current epoch and to a run that was not cancelled. -/
structure PreparationInvariant (p : Preparation sha256) : Prop where
  epoch : ∃ k ≤ 2 ^ 53, p.epoch = .ofNat k
  /-- One chain at most, that of `running`. -/
  tasks : p.tasks = [] ∧ p.running = none ∨ ∃ t, p.tasks = [t] ∧ p.running = some t.run
  started : ∀ t ∈ p.tasks, t.run < p.started
  epochs : ∀ t ∈ p.tasks, epochNat t.input.1.epoch ≤ epochNat p.epoch
  aborted : ∀ t ∈ p.tasks, t.phase.isHandled = false → t.run ∈ p.cancelled → t.aborted = true
  cancelled : ∀ r ∈ p.cancelled, r < p.started
  armed : ∀ a ∈ p.armed, CurrentCandidate p a ∧ a.run ∉ p.cancelled ∧ a.run < p.started
  /-- A chain whose candidate is armed has handled its result. -/
  handled : ∀ a ∈ p.armed, ∀ t ∈ p.tasks, t.run = a.run → t.phase.isHandled = true
  disposed : p.disposed = true → p.armed = none

/-- Nothing that was started before the `n`-th run is armed, or can be. -/
structure Since (n : Nat) (p : Preparation sha256) : Prop where
  started : n ≤ p.started
  armed : ∀ a ∈ p.armed, n ≤ a.run
  epochs : ∀ t ∈ p.tasks, t.run < n → epochNat t.input.1.epoch < epochNat p.epoch

section Methods

variable {p : Preparation sha256}

theorem forall_armed (h : p.armed = none) {P : Armed → Prop} : ∀ a ∈ p.armed, P a := by
  rw [h]
  simp

/-- A task after `abort`, and the one it was. -/
theorem mem_abort {run : Nat} {t : Task sha256} (h : t ∈ (p.abort run).tasks) :
    ∃ u ∈ p.tasks, t.run = u.run ∧ t.input = u.input ∧ t.phase = u.phase ∧
      (t.aborted = false → u.aborted = false ∧ u.run ≠ run) := by
  obtain ⟨u, hu, rfl⟩ := List.mem_map.mp h
  refine ⟨u, hu, ?_⟩
  by_cases hrun : u.run = run
  · rw [if_pos hrun]
    exact ⟨rfl, rfl, rfl, nofun⟩
  · rw [if_neg hrun]
    exact ⟨rfl, rfl, rfl, fun h => ⟨h, hrun⟩⟩

theorem mem_cancelled_abort {run r : Nat} (h : r ∈ (p.abort run).cancelled) :
    r ∈ p.cancelled ∨ r = run ∧ ∃ t ∈ p.tasks, t.run = run ∧ t.phase.isHandled = false := by
  unfold Preparation.abort at h
  dsimp only at h
  split at h
  · rename_i hany
    rcases List.mem_cons.mp h with rfl | h
    · obtain ⟨t, ht, htrun⟩ := List.any_eq_true.mp hany
      exact .inr ⟨rfl, t, ht, by simpa using htrun⟩
    · exact .inl h
  · exact .inl h

/-- Aborting a run keeps the invariant. -/
theorem PreparationInvariant.abort (h : PreparationInvariant p) (run : Nat) :
    PreparationInvariant (p.abort run) where
  epoch := h.epoch
  tasks := by
    rcases h.tasks with ⟨htasks, hrunning⟩ | ⟨t, htasks, hrunning⟩
    · exact .inl ⟨by simp [Preparation.abort, htasks], hrunning⟩
    · refine .inr ⟨_, by simp only [Preparation.abort, htasks, List.map_cons, List.map_nil]; rfl, ?_⟩
      by_cases hrun : t.run = run
      · rw [if_pos hrun]
        exact hrunning
      · rw [if_neg hrun]
        exact hrunning
  started t ht := by
    obtain ⟨u, hu, hrun, -⟩ := mem_abort ht
    exact hrun ▸ h.started u hu
  epochs t ht := by
    obtain ⟨u, hu, -, hinput, -⟩ := mem_abort ht
    exact hinput ▸ h.epochs u hu
  aborted t ht hphase hmem := by
    obtain ⟨u, hu, hrun, -, hsame, habort⟩ := mem_abort ht
    by_contra hnot
    obtain ⟨hnotAborted, hne⟩ := habort (Bool.not_eq_true _ ▸ hnot)
    rcases mem_cancelled_abort hmem with hold | ⟨heq, -⟩
    · rw [h.aborted u hu (hsame ▸ hphase) (hrun ▸ hold)] at hnotAborted
      cases hnotAborted
    · exact hne (hrun ▸ heq)
  cancelled r hr := by
    rcases mem_cancelled_abort hr with hold | ⟨rfl, t, ht, rfl, -⟩
    · exact h.cancelled r hold
    · exact h.started t ht
  armed a ha := by
    obtain ⟨hcurrent, hnot, hlt⟩ := h.armed a ha
    refine ⟨hcurrent, fun hmem => ?_, hlt⟩
    rcases mem_cancelled_abort hmem with hold | ⟨heq, t, ht, htrun, hphase⟩
    · exact hnot hold
    · rw [h.handled a ha t ht (htrun.trans heq.symm)] at hphase
      cases hphase
  handled a ha t ht hrun := by
    obtain ⟨u, hu, hsame, -, hphase, -⟩ := mem_abort ht
    exact hphase ▸ h.handled a ha u hu (hsame ▸ hrun)
  disposed := h.disposed

theorem PreparationInvariant.withReason (h : PreparationInvariant p) (state : RunState)
    (reason : Option Str) : PreparationInvariant { p with state, reason } :=
  ⟨h.epoch, h.tasks, h.started, h.epochs, h.aborted, h.cancelled, h.armed, h.handled, h.disposed⟩

theorem PreparationInvariant.cancel (h : PreparationInvariant p) (reason : Str) :
    PreparationInvariant (p.cancel reason) := by
  unfold Preparation.cancel
  split
  · exact h
  · exact (h.withReason _ _).abort _

/-- Without a candidate, an epoch may begin. -/
theorem PreparationInvariant.nextEpoch (h : PreparationInvariant p) (reason : Option Str) :
    PreparationInvariant (p.nextEpoch reason) ∧ Since p.started (p.nextEpoch reason) := by
  obtain ⟨k, hk, hepoch⟩ := h.epoch
  have hnext : (p.nextEpoch reason).epoch = .ofNat (min (k + 1) (2 ^ 53)) := by
    rw [Preparation.nextEpoch, hepoch, add_one_eq hk]
  have hnat : epochNat (p.nextEpoch reason).epoch = min (k + 1) (2 ^ 53) := by
    rw [hnext, epochNat_ofNat (Nat.min_le_right _ _)]
  have hold : epochNat p.epoch = k := by rw [hepoch, epochNat_ofNat hk]
  have hlt : ∀ t ∈ p.tasks, epochNat t.input.1.epoch < epochNat (p.nextEpoch reason).epoch := by
    intro t ht
    have hle := h.epochs t ht
    have hsafe := epochNat_frozen t.input
    omega
  have hnone : (p.nextEpoch reason).armed = none := rfl
  exact ⟨⟨⟨_, Nat.min_le_right _ _, hnext⟩, h.tasks, h.started, fun t ht => (hlt t ht).le, h.aborted,
    h.cancelled, forall_armed hnone, forall_armed hnone, fun _ => hnone⟩,
    ⟨Nat.le_refl _, forall_armed hnone, fun t ht _ => hlt t ht⟩⟩

@[simp] theorem started_cancel (reason : Str) : (p.cancel reason).started = p.started := by
  unfold Preparation.cancel
  split <;> rfl

theorem PreparationInvariant.invalidate (h : PreparationInvariant p) (reason : Str) :
    PreparationInvariant (p.invalidate reason) ∧ Since p.started (p.invalidate reason) := by
  have hnext := (h.cancel reason).nextEpoch (some reason)
  rwa [started_cancel] at hnext

theorem PreparationInvariant.committed (h : PreparationInvariant p) :
    PreparationInvariant p.committed ∧ Since p.started p.committed := by
  have hnext := (h.cancel (lit "checkpoint-committed")).nextEpoch none
  rwa [started_cancel] at hnext

/-- A state without a candidate may change its session. -/
theorem PreparationInvariant.activate (h : PreparationInvariant p) (sessionId : Str) :
    PreparationInvariant (p.activate sessionId) ∧
      (p.sessionId ≠ some sessionId → Since p.started (p.activate sessionId)) := by
  unfold Preparation.activate
  by_cases hsame : p.sessionId = some sessionId
  · rw [if_pos hsame]
    exact ⟨h, fun hne => absurd hsame hne⟩
  · rw [if_neg hsame]
    obtain ⟨hinv, hsince⟩ := h.invalidate (lit "session-changed")
    have hnone : ({ p.invalidate (lit "session-changed") with
        sessionId := some sessionId } : Preparation sha256).armed = none := rfl
    exact ⟨⟨hinv.epoch, hinv.tasks, hinv.started, hinv.epochs, hinv.aborted, hinv.cancelled,
      forall_armed hnone, forall_armed hnone, fun _ => hnone⟩,
      fun _ => ⟨hsince.started, forall_armed hnone, hsince.epochs⟩⟩

/-- A run begins where none is in progress, in the current epoch. -/
theorem PreparationInvariant.begin (h : PreparationInvariant p) (hidle : p.running = none)
    {input : FrozenSnapshot sha256} (hepoch : strictEqual input.1.epoch p.epoch = true) :
    PreparationInvariant (p.begin input) := by
  have htasks : p.tasks = [] := by
    rcases h.tasks with ⟨htasks, -⟩ | ⟨t, -, hrunning⟩
    · exact htasks
    · rw [hidle] at hrunning
      cases hrunning
  have hmem : ∀ t ∈ (p.begin input).tasks, t = ⟨p.started, input, false, [], .queued⟩ := by
    intro t ht
    simpa [Preparation.begin, htasks] using ht
  refine ⟨h.epoch, .inr ⟨⟨p.started, input, false, [], .queued⟩, by simp [Preparation.begin, htasks],
    rfl⟩, fun t ht => ?_, fun t ht => ?_,
    fun t ht _ hcancelled => ?_, fun r hr => Nat.lt_succ_of_lt (h.cancelled r hr), fun a ha => ?_,
    fun a ha t ht hrun => ?_, h.disposed⟩
  · rw [hmem t ht]
    exact Nat.lt_succ_self _
  · rw [hmem t ht]
    exact (epochNat_strictEqual hepoch).le
  · rw [hmem t ht] at hcancelled
    exact absurd (h.cancelled _ hcancelled) (Nat.lt_irrefl _)
  · obtain ⟨hcurrent, hnot, hlt⟩ := h.armed a ha
    exact ⟨hcurrent, hnot, Nat.lt_succ_of_lt hlt⟩
  · rw [hmem t ht] at hrun
    exact absurd (hrun ▸ (h.armed a ha).2.2) (Nat.lt_irrefl _)

/-- Starting a run, or refusing to, keeps the invariant. -/
theorem PreparationInvariant.start (h : PreparationInvariant p) (input : FrozenSnapshot sha256)
    (writable prepared : Bool) : PreparationInvariant (p.start input writable prepared) := by
  unfold Preparation.start
  by_cases hmay : p.mayStart writable prepared = false
  · rw [if_pos hmay]
    exact h
  · rw [if_neg hmay]
    have hidle : (p.activate input.1.sessionId).running = none := by
      have hrunning : p.running = none := by
        simp only [Preparation.mayStart, Bool.not_eq_false, Bool.and_eq_true] at hmay
        simpa using hmay.1.1.2
      unfold Preparation.activate Preparation.invalidate Preparation.cancel
      rw [hrunning]
      split
      · exact hrunning
      · exact hrunning
    have hactive := (h.activate input.1.sessionId).1
    by_cases hepoch : strictEqual input.1.epoch (p.activate input.1.sessionId).epoch = false
    · simp only [if_pos hepoch]
      exact hactive
    · simp only [if_neg hepoch]
      exact hactive.begin hidle (by simpa using hepoch)

theorem PreparationInvariant.disarm (h : PreparationInvariant p) :
    PreparationInvariant { p with armed := none } :=
  ⟨h.epoch, h.tasks, h.started, h.epochs, h.aborted, h.cancelled, forall_armed rfl, forall_armed rfl,
    fun _ => rfl⟩

theorem PreparationInvariant.dispose (h : PreparationInvariant p) :
    PreparationInvariant p.dispose ∧ Since p.started p.dispose := by
  unfold Preparation.dispose Preparation.invalidate
  have hcancel : ∀ q : Preparation sha256, ({ q with disposed := true } : Preparation sha256).cancel
      (lit "session-shutdown") = { q.cancel (lit "session-shutdown") with disposed := true } := by
    intro q
    cases hq : q.running <;> simp [Preparation.cancel, hq, Preparation.abort]
  rw [hcancel]
  obtain ⟨hinv, hsince⟩ := (h.cancel (lit "session-shutdown")).nextEpoch (some (lit "session-shutdown"))
  rw [started_cancel] at hsince
  exact ⟨⟨hinv.epoch, hinv.tasks, hinv.started, hinv.epochs, hinv.aborted, hinv.cancelled,
    forall_armed rfl, forall_armed rfl, fun _ => rfl⟩, ⟨hsince.started, forall_armed rfl, hsince.epochs⟩⟩

/-! ### Handlers -/

theorem task_mem {run : Nat} {t : Task sha256} (h : p.task run = some t) : t ∈ p.tasks ∧ t.run = run :=
  ⟨List.mem_of_find?_eq_some h, by simpa using List.find?_some h⟩

/-- A task that advances keeps its run, its input and its signal. -/
structure Advances (t t' : Task sha256) : Prop where
  run : t'.run = t.run
  input : t'.input = t.input
  aborted : t'.aborted = t.aborted

theorem mem_setTask {t t' u : Task sha256} (hadvance : Advances t t')
    (h : u ∈ (p.setTask t').tasks) : u ∈ p.tasks ∧ u.run ≠ t.run ∨ u = t' := by
  obtain ⟨v, hv, rfl⟩ := List.mem_map.mp h
  by_cases hrun : v.run = t'.run
  · rw [if_pos hrun]
    exact .inr rfl
  · rw [if_neg hrun]
    exact .inl ⟨hv, hadvance.run ▸ hrun⟩

/-- A task that advances keeps the invariant. -/
theorem PreparationInvariant.setTask (h : PreparationInvariant p) {t t' : Task sha256}
    (ht : t ∈ p.tasks) (hphase : t.phase.isHandled = false) (hadvance : Advances t t') :
    PreparationInvariant (p.setTask t') where
  epoch := h.epoch
  tasks := by
    rcases h.tasks with ⟨htasks, -⟩ | ⟨u, htasks, hrunning⟩
    · rw [htasks] at ht
      cases ht
    · rw [htasks, List.mem_singleton] at ht
      subst ht
      refine .inr ⟨t', ?_, hadvance.run ▸ hrunning⟩
      simp [Preparation.setTask, htasks, hadvance.run]
  started u hu := by
    rcases mem_setTask hadvance hu with ⟨hu, -⟩ | rfl
    · exact h.started u hu
    · exact hadvance.run ▸ h.started t ht
  epochs u hu := by
    rcases mem_setTask hadvance hu with ⟨hu, -⟩ | rfl
    · exact h.epochs u hu
    · exact hadvance.input ▸ h.epochs t ht
  aborted u hu huphase hmem := by
    rcases mem_setTask hadvance hu with ⟨hu, -⟩ | rfl
    · exact h.aborted u hu huphase hmem
    · exact hadvance.aborted ▸ h.aborted t ht hphase (hadvance.run ▸ hmem)
  cancelled := h.cancelled
  armed := h.armed
  handled a ha u hu hrun := by
    rcases mem_setTask hadvance hu with ⟨hu, -⟩ | rfl
    · exact h.handled a ha u hu hrun
    · -- The candidate of a chain that has not handled its result is not armed.
      rw [h.handled a ha t ht (hadvance.run ▸ hrun)] at hphase
      cases hphase
  disposed := h.disposed

theorem current_eq_true {t : Task sha256} (h : p.current t = true) :
    p.disposed = false ∧ strictEqual t.input.1.epoch p.epoch = true ∧
      p.sessionId = some t.input.1.sessionId := by
  simpa [Preparation.current, and_assoc] using h

/-- A run that ends keeps the invariant, whether its candidate is armed or not. -/
theorem PreparationInvariant.finish {len : Str → Nat} (h : PreparationInvariant p) {t : Task sha256}
    (ht : t ∈ p.tasks) (hphase : t.phase.isHandled = false) (written : WriteMemoryResult) :
    PreparationInvariant (p.finish len t written) := by
  unfold Preparation.finish
  by_cases hlate : (t.aborted || !p.current t) = true
  · rw [if_pos hlate]
    exact h.setTask ht hphase ⟨rfl, rfl, rfl⟩
  rw [if_neg hlate]
  split
  · rename_i candidate hfinal
    have hset : PreparationInvariant (p.setTask { t with phase := .handled }) :=
      h.setTask ht hphase ⟨rfl, rfl, rfl⟩
    obtain ⟨hnotAborted, hcurrent⟩ : t.aborted = false ∧ p.current t = true := by simpa using hlate
    obtain ⟨hdisposed, hepoch, hsession⟩ := current_eq_true hcurrent
    have hinput := (finalizePreparation_ok hfinal).1
    refine ⟨hset.epoch, hset.tasks, hset.started, hset.epochs, hset.aborted, hset.cancelled,
      fun a ha => ?_, fun a ha u hu hrun => ?_, fun hgone => ?_⟩
    · obtain rfl := Option.some.inj ha
      refine ⟨⟨hinput.symm ▸ hepoch, hinput.symm ▸ hsession⟩, fun hmem => ?_, h.started t ht⟩
      rw [h.aborted t ht hphase hmem] at hnotAborted
      cases hnotAborted
    · obtain rfl := Option.some.inj ha
      have hadvance : Advances t { t with phase := .handled } := ⟨rfl, rfl, rfl⟩
      rcases mem_setTask hadvance hu with ⟨-, hne⟩ | rfl
      · exact absurd hrun hne
      · rfl
    · exact absurd (hdisposed.symm.trans hgone) nofun
  · exact h.setTask ht hphase ⟨rfl, rfl, rfl⟩

theorem PreparationInvariant.caught (h : PreparationInvariant p) {t : Task sha256} (ht : t ∈ p.tasks)
    (hphase : t.phase.isHandled = false) : PreparationInvariant (p.caught t) := by
  have hset : PreparationInvariant (p.setTask { t with phase := .handled }) :=
    h.setTask ht hphase ⟨rfl, rfl, rfl⟩
  unfold Preparation.caught
  split
  · exact hset
  · exact hset.withReason _ _

theorem PreparationInvariant.finalize (h : PreparationInvariant p) {t : Task sha256}
    (ht : t ∈ p.tasks) : PreparationInvariant (p.finalize t) := by
  have hnil : (p.finalize t).tasks = [] ∧ (p.finalize t).running = none := by
    rcases h.tasks with ⟨htasks, -⟩ | ⟨u, htasks, hrunning⟩
    · rw [htasks] at ht
      cases ht
    · rw [htasks, List.mem_singleton] at ht
      subst ht
      exact ⟨by simp [Preparation.finalize, htasks], by simp [Preparation.finalize, hrunning]⟩
  have hnone : ∀ {P : Task sha256 → Prop}, ∀ u ∈ (p.finalize t).tasks, P u := by
    intro P u hu
    rw [hnil.1] at hu
    cases hu
  exact ⟨h.epoch, .inl hnil, hnone, hnone, hnone, h.cancelled, h.armed, fun a _ => hnone, h.disposed⟩

/-! ### What stays past -/

variable {n : Nat}

theorem Since.mono {m : Nat} (h : Since m p) (hle : n ≤ m) : Since n p :=
  ⟨hle.trans h.started, fun a ha => hle.trans (h.armed a ha),
    fun t ht hlt => h.epochs t ht (lt_of_lt_of_le hlt hle)⟩

theorem Since.abort (h : Since n p) (run : Nat) : Since n (p.abort run) := by
  refine ⟨h.started, h.armed, fun t ht hlt => ?_⟩
  obtain ⟨u, hu, hrun, hinput, -⟩ := mem_abort ht
  rw [hinput]
  exact h.epochs u hu (hrun ▸ hlt)

theorem Since.withReason (h : Since n p) (state : RunState) (reason : Option Str) :
    Since n { p with state, reason } :=
  ⟨h.started, h.armed, h.epochs⟩

theorem Since.cancel (h : Since n p) (reason : Str) : Since n (p.cancel reason) := by
  unfold Preparation.cancel
  split
  · exact h
  · exact (h.withReason _ _).abort _

theorem Since.activate (hinv : PreparationInvariant p) (h : Since n p) (sessionId : Str) :
    Since n (p.activate sessionId) := by
  by_cases hsame : p.sessionId = some sessionId
  · rw [Preparation.activate, if_pos hsame]
    exact h
  · exact ((hinv.activate sessionId).2 hsame).mono h.started

theorem Since.begin (h : Since n p) (input : FrozenSnapshot sha256) : Since n (p.begin input) := by
  refine ⟨h.started.trans (Nat.le_succ _), h.armed, fun t ht hlt => ?_⟩
  rcases List.mem_append.mp ht with ht | ht
  · exact h.epochs t ht hlt
  · obtain rfl := List.mem_singleton.mp ht
    exact absurd h.started (Nat.not_le.mpr hlt)

theorem Since.start (hinv : PreparationInvariant p) (h : Since n p) (input : FrozenSnapshot sha256)
    (writable prepared : Bool) : Since n (p.start input writable prepared) := by
  have hactive := h.activate hinv input.1.sessionId
  unfold Preparation.start
  dsimp only
  split
  · exact h
  · split
    · exact hactive
    · exact hactive.begin input

theorem Since.disarm (h : Since n p) : Since n { p with armed := none } :=
  ⟨h.started, forall_armed rfl, h.epochs⟩

theorem Since.setTask (h : Since n p) {t t' : Task sha256} (ht : t ∈ p.tasks)
    (hadvance : Advances t t') : Since n (p.setTask t') := by
  refine ⟨h.started, h.armed, fun u hu hlt => ?_⟩
  rcases mem_setTask hadvance hu with ⟨hu, -⟩ | rfl
  · exact h.epochs u hu hlt
  · rw [hadvance.input]
    exact h.epochs t ht (hadvance.run ▸ hlt)

/-- A run that ends arms nothing older. -/
theorem Since.finish {len : Str → Nat} (h : Since n p) {t : Task sha256} (ht : t ∈ p.tasks)
    (written : WriteMemoryResult) : Since n (p.finish len t written) := by
  unfold Preparation.finish
  by_cases hlate : (t.aborted || !p.current t) = true
  · rw [if_pos hlate]
    exact h.setTask ht ⟨rfl, rfl, rfl⟩
  rw [if_neg hlate]
  have hcurrent : p.current t = true := by
    have hboth : t.aborted = false ∧ p.current t = true := by simpa using hlate
    exact hboth.2
  split
  · have hset : Since n (p.setTask { t with phase := .handled }) := h.setTask ht ⟨rfl, rfl, rfl⟩
    refine ⟨hset.started, fun a ha => ?_, hset.epochs⟩
    obtain rfl := Option.some.inj ha
    -- An older run's epoch has passed, so it is not current.
    by_contra hlt
    have hpast := h.epochs t ht (Nat.not_le.mp hlt)
    rw [epochNat_strictEqual (current_eq_true hcurrent).2.1] at hpast
    exact absurd hpast (Nat.lt_irrefl _)
  · exact h.setTask ht ⟨rfl, rfl, rfl⟩

theorem Since.caught (h : Since n p) {t : Task sha256} (ht : t ∈ p.tasks) : Since n (p.caught t) := by
  have hset : Since n (p.setTask { t with phase := .handled }) := h.setTask ht ⟨rfl, rfl, rfl⟩
  unfold Preparation.caught
  split
  · exact hset
  · exact hset.withReason _ _

theorem Since.finalize (h : Since n p) (t : Task sha256) : Since n (p.finalize t) :=
  ⟨h.started, h.armed, fun u hu hlt => h.epochs u (List.mem_of_mem_filter hu) hlt⟩

end Methods

/-! ## Steps -/

/-- The event of a handler: the chain's task, in the phase it needs. -/
theorem step_task {p p' : Preparation sha256} {run : Nat}
    {f : Task sha256 → Option (Preparation sha256)} (h : (p.task run).bind f = some p') :
    ∃ t ∈ p.tasks, f t = some p' := by
  obtain ⟨t, ht, hf⟩ := Option.bind_eq_some_iff.mp h
  exact ⟨t, (task_mem ht).1, hf⟩

/-- What a property needs in order to be kept by every event. -/
structure Kept (len : Str → Nat) (I : Preparation sha256 → Prop) (p : Preparation sha256) : Prop where
  activate : ∀ sessionId, I (p.activate sessionId)
  start : ∀ input writable prepared, I (p.start input writable prepared)
  disarm : I { p with armed := none }
  committed : I p.committed
  cancel : ∀ reason, I (p.cancel reason)
  invalidate : ∀ reason, I (p.invalidate reason)
  dispose : I p.dispose
  setTask : ∀ t ∈ p.tasks, ∀ t', Advances t t' → t.phase.isHandled = false → I (p.setTask t')
  finish : ∀ t ∈ p.tasks, ∀ written, t.phase.isHandled = false → I (p.finish len t written)
  caught : ∀ t ∈ p.tasks, t.phase.isHandled = false → I (p.caught t)
  finalize : ∀ t ∈ p.tasks, I (p.finalize t)
  deadline : ∀ run, I ({ p with reason := some (lit "deadline") }.abort run)

/-- What the operations keep, every event keeps. -/
theorem Kept.step {len : Str → Nat} {I : Preparation sha256 → Prop} {p p' : Preparation sha256}
    (h : Kept len I p) (hI : I p) {e : Event sha256} (hstep : step len p e = some p') : I p' := by
  cases e with
  | activate sessionId => exact Option.some.inj hstep ▸ h.activate sessionId
  | start input writable prepared => exact Option.some.inj hstep ▸ h.start input writable prepared
  | take submission =>
    obtain rfl := Option.some.inj hstep
    unfold Preparation.take
    split
    · exact h.disarm
    · exact hI
  | staged candidateId =>
    obtain rfl := Option.some.inj hstep
    unfold Preparation.staged
    split
    · exact h.disarm
    · exact hI
  | committed => exact Option.some.inj hstep ▸ h.committed
  | cancel reason => exact Option.some.inj hstep ▸ h.cancel reason
  | invalidate reason => exact Option.some.inj hstep ▸ h.invalidate reason
  | dispose => exact Option.some.inj hstep ▸ h.dispose
  | launch run =>
    obtain ⟨t, ht, hstep⟩ := step_task hstep
    split at hstep
    · rename_i hphase
      obtain rfl := Option.some.inj hstep
      exact h.setTask t ht _ ⟨rfl, rfl, rfl⟩ (by rw [hphase]; rfl)
    · cases hstep
  | dispatched run callId =>
    obtain ⟨t, ht, hstep⟩ := step_task hstep
    split at hstep
    · rename_i hphase
      obtain rfl := Option.some.inj hstep
      exact h.setTask t ht _ ⟨rfl, rfl, rfl⟩ (by rw [hphase]; rfl)
    · cases hstep
  | settled run result =>
    obtain ⟨t, ht, hstep⟩ := step_task hstep
    split at hstep
    · rename_i hphase
      obtain rfl := Option.some.inj hstep
      exact h.setTask t ht _ ⟨rfl, rfl, rfl⟩ (by rw [hphase]; rfl)
    · cases hstep
  | finish run =>
    obtain ⟨t, ht, hstep⟩ := step_task hstep
    split at hstep
    · rename_i hphase
      exact Option.some.inj hstep ▸ h.finish t ht _ (by rw [hphase]; rfl)
    · cases hstep
  | caught run =>
    obtain ⟨t, ht, hstep⟩ := step_task hstep
    split at hstep
    · rename_i hphase
      exact Option.some.inj hstep ▸ h.caught t ht (by rw [hphase]; rfl)
    · cases hstep
  | finalize run =>
    obtain ⟨t, ht, hstep⟩ := step_task hstep
    split at hstep
    · exact Option.some.inj hstep ▸ h.finalize t ht
    · cases hstep
  | deadline run =>
    obtain ⟨t, -, hstep⟩ := step_task hstep
    exact Option.some.inj hstep ▸ h.deadline run

section Run

variable {len : Str → Nat} {p p' : Preparation sha256}

theorem PreparationInvariant.kept (h : PreparationInvariant p) : Kept len PreparationInvariant p where
  activate sessionId := (h.activate sessionId).1
  start := h.start
  disarm := h.disarm
  committed := h.committed.1
  cancel := h.cancel
  invalidate reason := (h.invalidate reason).1
  dispose := h.dispose.1
  setTask _ ht _ hadvance hphase := h.setTask ht hphase hadvance
  finish _ ht written hphase := h.finish ht hphase written
  caught _ ht hphase := h.caught ht hphase
  finalize _ ht := h.finalize ht
  deadline run := (h.withReason p.state _).abort run

theorem Since.kept {n : Nat} (hinv : PreparationInvariant p) (h : Since n p) :
    Kept len (Since n) p where
  activate := h.activate hinv
  start := h.start hinv
  disarm := h.disarm
  committed := hinv.committed.2.mono h.started
  cancel := h.cancel
  invalidate reason := (hinv.invalidate reason).2.mono h.started
  dispose := hinv.dispose.2.mono h.started
  setTask _ ht _ hadvance _ := h.setTask ht hadvance
  finish _ ht written _ := h.finish ht written
  caught _ ht _ := h.caught ht
  finalize t _ := h.finalize t
  deadline run := (h.withReason p.state _).abort run

theorem sessionId_cancel (reason : Str) : (p.cancel reason).sessionId = p.sessionId := by
  unfold Preparation.cancel
  split <;> rfl

/-- The session stays, or everything older is past. -/
theorem PreparationInvariant.session_kept (h : PreparationInvariant p) :
    Kept len (fun q => q.sessionId = p.sessionId ∨ Since p.started q) p where
  activate sessionId := by
    by_cases hsame : p.sessionId = some sessionId
    · rw [Preparation.activate, if_pos hsame]
      exact .inl rfl
    · exact .inr ((h.activate sessionId).2 hsame)
  start input writable prepared := by
    have hactive : (p.activate input.1.sessionId).sessionId = p.sessionId ∨
        Since p.started (p.activate input.1.sessionId) := by
      by_cases hsame : p.sessionId = some input.1.sessionId
      · rw [Preparation.activate, if_pos hsame]
        exact .inl rfl
      · exact .inr ((h.activate _).2 hsame)
    unfold Preparation.start
    dsimp only
    split
    · exact .inl rfl
    · split
      · exact hactive
      · exact hactive.imp id fun hsince => hsince.begin input
  disarm := .inl rfl
  committed := .inr h.committed.2
  cancel reason := .inl (sessionId_cancel reason)
  invalidate reason := .inr (h.invalidate reason).2
  dispose := .inr h.dispose.2
  setTask _ _ _ _ _ := .inl rfl
  finish t _ written _ := by
    unfold Preparation.finish
    split
    · exact .inl rfl
    · split <;> exact .inl rfl
  caught t _ _ := by
    unfold Preparation.caught
    dsimp only
    split <;> exact .inl rfl
  finalize _ _ := .inl rfl
  deadline _ := .inl rfl

theorem disposed_cancel (reason : Str) : (p.cancel reason).disposed = p.disposed := by
  unfold Preparation.cancel
  split <;> rfl

/-- What is disposed stays so. -/
theorem disposed_kept (h : p.disposed = true) : Kept len (fun q => q.disposed = true) p where
  activate sessionId := by
    unfold Preparation.activate
    split
    · exact h
    · exact (disposed_cancel _).trans h
  start input writable prepared := by
    rw [Preparation.start, if_pos (by simp [Preparation.mayStart, h])]
    exact h
  disarm := h
  committed := (disposed_cancel _).trans h
  cancel reason := (disposed_cancel reason).trans h
  invalidate reason := (disposed_cancel reason).trans h
  dispose := disposed_cancel _
  setTask _ _ _ _ _ := h
  finish t _ written _ := by
    unfold Preparation.finish
    split
    · exact h
    · split <;> exact h
  caught t _ _ := by
    unfold Preparation.caught
    dsimp only
    split <;> exact h
  finalize _ _ := h
  deadline _ := h

/-- Every event keeps the invariant. -/
theorem preparation_inductive : (PreparationSystem len : System (Preparation sha256)).Inductive
    PreparationInvariant where
  init p hp := by
    obtain ⟨enabled, hp⟩ := hp
    have hepoch : p.epoch = .ofNat 0 := by rw [hp]
    subst hp
    exact
      { epoch := ⟨0, Nat.zero_le _, hepoch⟩
        tasks := .inl ⟨rfl, rfl⟩
        started := by simp
        epochs := by simp
        aborted := by simp
        cancelled := by simp
        armed := by simp
        handled := by simp
        disposed := fun _ => rfl }
  step p p' h hstep := by
    obtain ⟨e, he⟩ := hstep
    exact h.kept.step h he

/-! ## Runs -/

/-- The states that may follow a state. -/
abbrev Later (len : Str → Nat) (p p' : Preparation sha256) : Prop :=
  Relation.ReflTransGen (PreparationSystem len).step p p'

theorem PreparationInvariant.later (h : PreparationInvariant p) (hlater : Later len p p') :
    PreparationInvariant p' := by
  induction hlater with
  | refl => exact h
  | tail _ hstep ih =>
    obtain ⟨e, he⟩ := hstep
    exact ih.kept.step ih he

theorem Since.later {n : Nat} (hinv : PreparationInvariant p) (h : Since n p)
    (hlater : Later len p p') : Since n p' := by
  induction hlater with
  | refl => exact h
  | tail hprevious hstep ih =>
    obtain ⟨e, he⟩ := hstep
    exact (ih.kept (hinv.later hprevious)).step ih he

theorem disposed_later (h : p.disposed = true) (hlater : Later len p p') : p'.disposed = true := by
  induction hlater with
  | refl => exact h
  | tail _ hstep ih =>
    obtain ⟨e, he⟩ := hstep
    exact (disposed_kept ih).step ih he

/-- What is taken is armed. -/
theorem armed_of_taken {submission : PreparationSubmission} {a : Armed} {c : CandidateClassification}
    (h : p.taken submission = some (a, c)) : p.disposed = false ∧ a ∈ p.armed := by
  have hclassified : p.classified submission = some (a, c) := by
    unfold Preparation.taken at h
    split at h
    · cases h
    · exact h
  unfold Preparation.classified at hclassified
  split at hclassified
  · cases hclassified
  · rename_i hon
    obtain ⟨b, hb, heq⟩ := Option.map_eq_some_iff.mp hclassified
    obtain ⟨rfl, -⟩ := Prod.mk.inj heq
    have hboth : p.disposed = false ∧ p.enabled = true := by simpa using hon
    exact ⟨hboth.1, hb⟩

/-- The event begins a new epoch: the history was invalidated or a checkpoint confirmed, or the session
changed. -/
def Invalidates (p : Preparation sha256) (e : Event sha256) (p' : Preparation sha256) : Prop :=
  (∃ reason, e = .invalidate reason) ∨ e = .committed ∨ p'.sessionId ≠ p.sessionId

theorem PreparationInvariant.since_of_invalidates (h : PreparationInvariant p) {e : Event sha256}
    (hstep : step len p e = some p') (hinvalidates : Invalidates p e p') : Since p.started p' := by
  rcases hinvalidates with ⟨reason, rfl⟩ | rfl | hsession
  · obtain rfl := Option.some.inj hstep
    exact (h.invalidate reason).2
  · obtain rfl := Option.some.inj hstep
    exact h.committed.2
  · have hkept := h.session_kept.step (.inl rfl) hstep
    exact hkept.resolve_left hsession

/-- One run at most is in progress. An armed candidate is of the current epoch and session, and its run
was not aborted before its result was handled. Behind an invalidation nothing is taken that an earlier
run prepared, and nothing at all behind `dispose`. -/
theorem preparation_current (hp : (PreparationSystem len).Reach p) :
    p.tasks.length ≤ 1 ∧
    (∀ a ∈ p.armed, CurrentCandidate p a ∧ a.run ∉ p.cancelled) ∧
    (∀ e p', step len p e = some p' → Invalidates p e p' → ∀ q, Later len p' q →
      ∀ submission a c, q.taken submission = some (a, c) → p.started ≤ a.run) ∧
    (p.disposed = true → ∀ q, Later len p q → ∀ submission, q.taken submission = none) := by
  have hinv := preparation_inductive.reach hp
  refine ⟨?_, fun a ha => ⟨(hinv.armed a ha).1, (hinv.armed a ha).2.1⟩, ?_, ?_⟩
  · rcases hinv.tasks with ⟨htasks, -⟩ | ⟨t, htasks, -⟩ <;> simp [htasks]
  · intro e p' hstep hinvalidates q hlater submission a c htaken
    have hinv' := hinv.kept.step hinv hstep
    have hsince := (hinv.since_of_invalidates hstep hinvalidates).later hinv' hlater
    exact hsince.armed a (armed_of_taken htaken).2
  · intro hdisposed q hlater submission
    cases htaken : q.taken submission with
    | none => rfl
    | some taken =>
      have hgone := disposed_later hdisposed hlater
      rw [(armed_of_taken htaken).1] at hgone
      cases hgone

end Run

theorem reach_events {es : List (Event sha256)} (hp : (PreparationSystem len).Reach p)
    (hes : es.foldlM (step len) p = some p') : (PreparationSystem len).Reach p' := by
  induction es generalizing p with
  | nil => exact Option.some.inj hes ▸ hp
  | cons e es ih =>
    obtain ⟨q, hq, hrest⟩ := Option.bind_eq_some_iff.mp hes
    exact ih (.step hp ⟨e, hq⟩) hrest

/-- The snapshot frozen, if it can be. -/
def frozen? (source : PreparationInput) : Option (FrozenSnapshot sha256) :=
  match h : freezePreparationInput sha256 source with
  | .ok input => some ⟨input, source, h⟩
  | .error _ => none

/-- A run that comes to a candidate. -/
def sampleRun (input : FrozenSnapshot plainHash) : List (Event plainHash) :=
  [.activate (lit "s"), .start input true false, .launch 0, .dispatched 0 (lit "call"),
    .settled 0 (some ⟨preparedNote, sumMemoryUsage [], 1, lit "p/m", lit "off"⟩), .finish 0]

theorem preparation_current_sample : ∃ (p : Preparation plainHash) (a : Armed),
    p.armed = some a ∧ CurrentCandidate p a ∧ a.run ∉ p.cancelled := by
  have hrun : ((frozen? { sampleInput with epoch := .ofNat 1 }).bind fun input =>
      ((sampleRun input).foldlM (step List.length)
        ⟨true, none, none, none, .ofNat 0, false, .idle, none, [], 0, []⟩).map fun p =>
          p.armed.isSome) = some true := by decide +kernel
  obtain ⟨input, -, hrest⟩ := Option.bind_eq_some_iff.mp hrun
  obtain ⟨p, hp, hsome⟩ := Option.map_eq_some_iff.mp hrest
  obtain ⟨a, ha⟩ := Option.isSome_iff_exists.mp hsome
  have hcurrent := preparation_current (reach_events (.init ⟨true, rfl⟩) hp)
  exact ⟨p, a, ha, hcurrent.2.1 a ha⟩

end Compaction.Preparing
