import ContextCompaction.Core.Writer

/-!
# What the writer does on every run

* `writeMemory_accounts`: whatever the host answers, nothing is dispatched without a reservation,
  each reservation is settled once before the next, and a result's usage is the sum of the settled ones.
-/

namespace Compaction

open Js Program

/-! ## Calls that leave the accounts alone -/

/-- A call of the host that is no part of a provider call. -/
def WriterEvent.quiet : WriterEvent → Bool
  | .reserve .. | .settle .. | .dispatch .. | .result .. => false
  | _ => true

/-- From `s` to `s'` no provider call is made and no repair is spent. -/
structure Quiet (s s' : WriterState) : Prop where
  log : ∃ es, s'.log = s.log ++ es ∧ ∀ e ∈ es, e.quiet = true
  usages : s'.usages = s.usages
  repairUsed : s'.repairUsed = s.repairUsed
  toolCallDeclined : s'.toolCallDeclined = s.toolCallDeclined

instance : Std.Refl Quiet where
  refl s := ⟨⟨[], by simp⟩, rfl, rfl, rfl⟩

instance : IsTrans WriterState Quiet where
  trans := by
    rintro s s₁ s₂ ⟨⟨es, hes, hq⟩, hu, hr, ht⟩ ⟨⟨es', hes', hq'⟩, hu', hr', ht'⟩
    refine ⟨⟨es ++ es', by rw [hes', hes, List.append_assoc], ?_⟩, hu'.trans hu, hr'.trans hr, ht'.trans ht⟩
    intro e he
    rcases List.mem_append.mp he with he | he
    · exact hq e he
    · exact hq' e he

section

variable {w : WriterContext}

theorem keeps_ask {α : Type} {answer : List WriterEvent → Except HostError α}
    {event : Except HostError α → WriterEvent} (h : ∀ a, (event a).quiet = true) :
    Keeps Quiet (ask answer event) := by
  intro s
  exact ⟨⟨[event (answer s.log)], rfl, by simpa using h _⟩, rfl, rfl, rfl⟩

theorem keeps_aborted : Keeps Quiet (aborted w) := by
  intro s
  exact ⟨⟨[.signal (w.host.signal s.log)], rfl, by simp [WriterEvent.quiet]⟩, rfl, rfl, rfl⟩

theorem keeps_throwIfAborted : Keeps Quiet (throwIfAborted w) :=
  keeps_aborted.bind fun _ => keeps_refuseIf _ _

theorem keeps_core {α : Type} (r : Except Failure α) : Keeps Quiet (core r) := keeps_fromExcept _

/-- A change of the other variables. -/
theorem keeps_modify_quiet {f : WriterState → WriterState} (hlog : ∀ s, (f s).log = s.log)
    (husages : ∀ s, (f s).usages = s.usages) (hrepair : ∀ s, (f s).repairUsed = s.repairUsed)
    (hdecline : ∀ s, (f s).toolCallDeclined = s.toolCallDeclined) :
    Keeps Quiet (modify f : Writer Unit) :=
  keeps_modify fun s => ⟨⟨[], by simp [hlog]⟩, husages s, hrepair s, hdecline s⟩

theorem keeps_report : Keeps Quiet (report w) := by
  refine keeps_get.bind fun s => ?_
  split
  · exact keeps_ask fun _ => rfl
  · exact keeps_pure ()

theorem keeps_modifyLastCall (f : WriterCallDetail → WriterCallDetail) :
    Keeps Quiet (modifyLastCall f) :=
  keeps_modify_quiet (fun _ => rfl) (fun _ => rfl) (fun _ => rfl) fun _ => rfl

theorem keeps_beginCall (phase : WriterPhase) (effort : Str) : Keeps Quiet (beginCall w phase effort) := by
  refine keeps_throwIfAborted.bind fun _ => Keeps.bind ?_ fun _ => ?_
  · exact keeps_modify_quiet (fun _ => rfl) (fun _ => rfl) (fun _ => rfl) fun _ => rfl
  · split
    · exact keeps_pure ()
    · exact keeps_report

theorem keeps_settlementCause (outcome : CallOutcome) (a : CallAttempt) :
    Keeps Quiet (settlementCause w outcome a) := by
  unfold settlementCause
  split
  · exact keeps_pure _
  · exact keeps_aborted.bind fun _ => keeps_pure _
  · exact keeps_pure _
  · exact keeps_pure _

/-- Validating a candidate sends nothing. -/
theorem keeps_validateCandidate (value : Json) (repaired : Bool) :
    Keeps Quiet (validateCandidate w value repaired) := by
  unfold validateCandidate
  have hrefuse : ∀ (f : WriterState → WriterState) (e : WriterError), Keeps Quiet (modify f : Writer Unit) →
      Keeps Quiet (do modify f; report w; throw e : Writer MemoryNote) := fun f e hf =>
    hf.bind fun _ => keeps_report.bind fun _ => keeps_throw e
  split
  · exact keeps_pure _
  · split
    · exact hrefuse _ _ (keeps_modify_quiet (fun _ => rfl) (fun _ => rfl) (fun _ => rfl) fun _ => rfl)
    · split
      · exact hrefuse _ _ (keeps_modify_quiet (fun _ => rfl) (fun _ => rfl) (fun _ => rfl) fun _ => rfl)
      · split
        · exact hrefuse _ _ (keeps_modify_quiet (fun _ => rfl) (fun _ => rfl) (fun _ => rfl) fun _ => rfl)
        · exact keeps_throw _

theorem keeps_parseCandidate (response : WriterResponse) (note : Bool) :
    Keeps Quiet (parseCandidate w response note) := by
  refine keeps_throwIfAborted.bind fun _ => ?_
  refine (keeps_fromExcept _).bind fun parsed => ?_
  refine (keeps_modifyLastCall _).bind fun _ => ?_
  exact keeps_report.bind fun _ => keeps_pure _

theorem keeps_requireNextStep (note : MemoryNote) : Keeps Quiet (requireNextStep w note) :=
  keeps_refuseIf _ _

theorem keeps_checkCandidate (value : Json) (repaired : Bool) :
    Keeps Quiet (checkCandidate w value repaired) :=
  (keeps_validateCandidate value repaired).bind fun _ =>
    (keeps_requireNextStep _).bind fun _ => keeps_pure _

theorem keeps_readCandidate (response : WriterResponse) : Keeps Quiet (readCandidate w response) :=
  (keeps_parseCandidate response true).bind fun _ => keeps_checkCandidate _ _

theorem keeps_buildRequest (request : WriterRequest) : Keeps Quiet (buildRequest w request) :=
  (keeps_ask fun _ => rfl).bind fun _ => keeps_pure _

theorem keeps_repairAllowed : Keeps Quiet (repairAllowed w) := keeps_get.bind fun _ => keeps_pure _

end

/-! ## The accounts of a run -/

/-- Where the accounts stand: no call is open, or one is reserved, sent or answered. -/
inductive Ledger where
  | idle
  | reserved (call : WriterDispatchRequest) (callId : Str)
  | sent (call : WriterDispatchRequest) (callId : Str)
  | answered (call : WriterDispatchRequest) (callId : Str) (response : WriterResponse)

/-- A settlement of the open call: its index, ID and phase, whether it was dispatched, and its usage. -/
def settles (call : WriterDispatchRequest) (callId : Str) (dispatched : Bool) (usage : Option WriterUsage)
    (r : WriterDispatchResult) : Bool :=
  decide (r.callIndex = call.callIndex ∧ r.callId = callId ∧ r.phase = call.phase ∧
    r.dispatched = dispatched ∧ r.usage = usage)

/-- The only calls of the host that the accounts allow. A request is dispatched once, when it is
reserved; a reserved call is settled before anything else is reserved. -/
def Ledger.step : Ledger → WriterEvent → Option Ledger
  | .idle, .reserve call (.ok (some (u :: id))) => some (.reserved call (u :: id))
  | .idle, .reserve _ _ => some .idle
  | .reserved call callId, .dispatch _ _ => some (.sent call callId)
  | .sent call callId, .result (.ok response) => some (.answered call callId response)
  | .sent call callId, .result (.error _) => some (.sent call callId)
  | .reserved call callId, .settle r _ => if settles call callId false none r then some .idle else none
  | .sent call callId, .settle r _ => if settles call callId true none r then some .idle else none
  | .answered call callId response, .settle r _ =>
    if settles call callId true (reportedUsage response) r then some .idle else none
  | _, .reserve _ _ | _, .dispatch _ _ | _, .result _ | _, .settle _ _ => none
  | l, _ => some l

/-- The accounts after a run; `none` when they were violated. -/
def ledger (log : List WriterEvent) : Option Ledger := log.foldlM Ledger.step .idle

/-- The usage of the settled calls, in order. -/
def settledUsages (log : List WriterEvent) : List WriterUsage :=
  log.filterMap fun e => match e with
    | .settle r _ => r.usage
    | _ => none

/-- The responses that were received, in order. -/
def responses (log : List WriterEvent) : List WriterResponse :=
  log.filterMap fun e => match e with
    | .result (.ok response) => some response
    | _ => none

/-- The usage that the open call has reported. -/
def Ledger.pending : Ledger → Option WriterUsage
  | .answered _ _ response => reportedUsage response
  | _ => none

theorem step_quiet {e : WriterEvent} (h : e.quiet = true) (l : Ledger) : l.step e = some l := by
  cases e <;> first | (cases l <;> rfl) | cases h

theorem ledger_append (log es : List WriterEvent) :
    ledger (log ++ es) = (ledger log).bind fun l => es.foldlM Ledger.step l := by
  rw [ledger, List.foldlM_append]
  rfl

theorem ledger_append_quiet {log es : List WriterEvent} (h : ∀ e ∈ es, e.quiet = true) :
    ledger (log ++ es) = ledger log := by
  induction es generalizing log with
  | nil => rw [List.append_nil]
  | cons e es ih =>
    obtain ⟨he, hes⟩ := List.forall_mem_cons.mp h
    rw [List.append_cons, ih hes, ledger_append]
    cases ledger log with
    | none => rfl
    | some l => simp [step_quiet he]

theorem settledUsages_quiet {es : List WriterEvent} (h : ∀ e ∈ es, e.quiet = true) :
    settledUsages es = [] := by
  refine List.filterMap_eq_nil_iff.mpr fun e he => ?_
  cases e <;> first | rfl | cases h _ he

/-- The accounts stand at `l`; the recorded usages are the settled ones, and what the open call has
reported. -/
structure At (l : Ledger) (pending : Option WriterUsage) (s : WriterState) : Prop where
  ledger : ledger s.log = some l
  usages : s.usages = settledUsages s.log ++ pending.toList

theorem settledUsages_append (log es : List WriterEvent) :
    settledUsages (log ++ es) = settledUsages log ++ settledUsages es := List.filterMap_append

theorem At.quiet {l : Ledger} {pending : Option WriterUsage} {s s' : WriterState}
    (h : At l pending s) (hq : Quiet s s') : At l pending s' := by
  obtain ⟨⟨es, hlog, hes⟩, husages, -, -⟩ := hq
  refine ⟨by rw [hlog, ledger_append_quiet hes, h.ledger], ?_⟩
  rw [husages, hlog, settledUsages_append, settledUsages_quiet hes, List.append_nil, h.usages]

/-- Where the accounts stand once the request went as it did. -/
def CallAttempt.ledger (call : WriterDispatchRequest) (callId : Str) : CallAttempt → Ledger
  | .unsent _ => .reserved call callId
  | .lost _ => .sent call callId
  | .answered response _ => .answered call callId response

/-- The usage that the call reported. -/
def CallAttempt.usage (a : CallAttempt) : Option WriterUsage := a.response.bind reportedUsage

section

variable {w : WriterContext} {call : WriterDispatchRequest} {callId : Str} {l : Ledger}
  {pending : Option WriterUsage} {s : WriterState}

theorem ends_at {α : Type} {m : Writer α} (hm : Keeps Quiet m) (h : At l pending s) :
    Ends m s fun _ s' => At l pending s' :=
  (hm.ends s).mono fun _ _ hq => h.quiet hq

/-- What a program does from where another ends that leaves the accounts alone. -/
theorem ends_at_bind {α β : Type} {m : Writer α} {f : α → Writer β}
    {Q : Except WriterError β → WriterState → Prop} (hm : Keeps Quiet m) (h : At l pending s)
    (hf : ∀ a s', At l pending s' → Ends (f a) s' Q)
    (herror : ∀ e s', At l pending s' → Q (.error e) s') : Ends (m >>= f) s Q :=
  (ends_at hm h).bind hf herror

/-- Reading the signal does not fail. -/
theorem ends_aborted_bind {α : Type} {f : Bool → Writer α} {Q : Except WriterError α → WriterState → Prop}
    (h : At l pending s) (hf : ∀ b s', At l pending s' → Ends (f b) s' Q) : Ends (aborted w >>= f) s Q :=
  hf _ _ (h.quiet (keeps_aborted s))

theorem ok_eq_mapError {α ε ε' : Type} {x : Except ε α} {f : ε → ε'} {a : α} :
    .ok a = x.mapError f ↔ x = .ok a := by
  cases x <;> simp [Except.mapError, eq_comm]

/-- A call of the host that moves the accounts. -/
theorem ends_at_ask {α : Type} {answer : List WriterEvent → Except HostError α}
    {event : Except HostError α → WriterEvent} (h : At l pending s) (next : Ledger)
    (hstep : l.step (event (answer s.log)) = some next)
    (husage : pending.toList = settledUsages [event (answer s.log)]) :
    Ends (ask answer event) s fun r s' =>
      r = (answer s.log).mapError .host ∧ At next none s' := by
  refine ⟨rfl, ?_, ?_⟩
  · change ledger (s.log ++ [event (answer s.log)]) = some next
    rw [ledger_append, h.ledger]
    simpa using hstep
  · change s.usages = settledUsages (s.log ++ [event (answer s.log)]) ++ []
    rw [h.usages, husage, settledUsages_append, List.append_nil]

theorem step_reserve_refused {a : Except HostError (Option Str)}
    (h : ∀ u id, a ≠ .ok (some (u :: id))) : Ledger.idle.step (.reserve call a) = some .idle := by
  match a with
  | .error _ | .ok none | .ok (some []) => rfl
  | .ok (some (u :: id)) => exact absurd rfl (h u id)

/-- A reservation that is no ID refuses the call. -/
theorem ends_reserve (hhooks : w.options.callHooks = true) (h : At .idle none s) :
    Ends (reserve w call) s fun r s' => match r with
      | .ok (some callId) => At (.reserved call callId) none s'
      | .ok none => False
      | .error _ => At .idle none s' := by
  unfold reserve
  rw [if_pos hhooks]
  by_cases hid : ∃ u id, w.host.beforeDispatch s.log call = .ok (some (u :: id))
  · obtain ⟨u, id, hid⟩ := hid
    refine (ends_at_ask h (.reserved call (u :: id)) (by rw [hid]; rfl) rfl).bind ?_ ?_
    · rintro a s' ⟨ha, hs'⟩
      obtain rfl : some (u :: id) = a := Except.ok.inj (hid.symm.trans (ok_eq_mapError.mp ha))
      exact ends_pure hs'
    · rintro e s' ⟨he, -⟩
      rw [hid] at he
      cases he
  · have hne : ∀ u id, w.host.beforeDispatch s.log call ≠ .ok (some (u :: id)) :=
      fun u id hans => hid ⟨u, id, hans⟩
    refine (ends_at_ask h .idle (step_reserve_refused hne) rfl).bind ?_ fun e s' he => he.2
    rintro a s' ⟨ha, hs'⟩
    match a with
    | some (u :: id) => exact absurd (ok_eq_mapError.mp ha) (hne u id)
    | none | some [] => exact ends_throw hs'

/-- The usage of a response is recorded, if it reports one. -/
theorem ends_recordResponse {response : WriterResponse} (h : At l none s) :
    Ends (recordResponse w response) s fun _ s' => At l (reportedUsage response) s' := by
  unfold recordResponse
  refine ends_modify_bind (ends_modify_bind ?_)
  cases reportedUsage response with
  | none => exact ends_pure ⟨h.ledger, h.usages⟩
  | some usage =>
    refine ends_modify_bind (ends_at ?_ ⟨h.ledger, ?_⟩)
    · exact (keeps_ask fun _ => rfl).bind fun _ => keeps_modifyLastCall _
    · change s.usages ++ [usage] = settledUsages s.log ++ [usage]
      rw [h.usages, Option.toList_none, List.append_nil]

theorem keeps_observe : Keeps Quiet (if w.options.callHooks then report w else pure ()) := by
  split
  · exact keeps_report
  · exact keeps_pure ()

/-- A call that was sent ends with one answer, on the ledger and in the usage. -/
theorem ends_receive (h : At (.sent call callId) none s) :
    Ends (receive w) s fun r s' => ∃ a, r = .ok a ∧ At (a.ledger call callId) a.usage s' := by
  refine ends_attempt_bind ((ends_at keeps_observe h).mono fun observed s₁ h₁ => ?_)
  cases hans : w.host.result s₁.log with
  | error e =>
    refine ends_attempt_bind ((ends_at_ask h₁ (.sent call callId)
      (by rw [hans]; rfl) rfl).mono ?_)
    rintro r s₂ ⟨rfl, h₂⟩
    rw [hans]
    exact ends_pure ⟨_, rfl, h₂⟩
  | ok response =>
    refine ends_attempt_bind ((ends_at_ask h₁ (.answered call callId response) (by rw [hans]; rfl) rfl).mono ?_)
    rintro r s₂ ⟨rfl, h₂⟩
    rw [hans]
    refine ends_attempt_bind ((ends_recordResponse h₂).mono fun r s₃ h₃ => ?_)
    cases r with
    | error e => exact ends_pure ⟨_, rfl, h₃⟩
    | ok _ => exact ends_pure ⟨_, rfl, h₃⟩

/-- The request is sent at most once, and the accounts stand where the attempt says. -/
theorem ends_transmit {request : HostRequest} {phase : WriterPhase} {effort : Str}
    (h : At (.reserved call callId) none s) :
    Ends (transmit w request phase effort) s fun r s' =>
      ∃ a, r = .ok a ∧ At (a.ledger call callId) a.usage s' := by
  refine ends_attempt_bind ((ends_at (keeps_beginCall phase effort) h).mono fun r s₁ h₁ => ?_)
  cases r with
  | error e => exact ends_pure ⟨_, rfl, h₁⟩
  | ok _ =>
    refine ends_attempt_bind ((ends_at_ask h₁ (.sent call callId) rfl rfl).mono ?_)
    rintro r s₂ ⟨-, h₂⟩
    cases r with
    | error e => exact ends_pure ⟨_, rfl, h₂⟩
    | ok _ => exact ends_receive h₂

theorem settledUsages_settle (r : WriterDispatchResult) (answer : Except HostError Unit) :
    settledUsages [.settle r answer] = r.usage.toList := by
  cases h : r.usage <;> simp [settledUsages, h]

/-- The settlement says what the accounts ask of it. -/
theorem step_settle (a : CallAttempt) (outcome : CallOutcome) (answer : Except HostError Unit) :
    (a.ledger call callId).step (.settle (settlementOf call callId a outcome) answer) = some .idle := by
  cases a <;>
    simp [CallAttempt.ledger, Ledger.step, settles, settlementOf, CallAttempt.dispatched,
      CallAttempt.response]

theorem ends_settle {a : CallAttempt} (h : At (a.ledger call callId) a.usage s) :
    Ends (settle w call callId a) s fun _ s' => At .idle none s' := by
  refine ends_aborted_bind h fun wasAborted s₁ h₁ => ?_
  refine ends_attempt_bind ((ends_at_ask h₁ .idle (step_settle a _ _)
    (by rw [settledUsages_settle]; rfl)).mono ?_)
  rintro r s₂ ⟨-, h₂⟩
  cases r with
  | ok _ => exact ends_pure h₂
  | error e =>
    refine ends_at_bind (keeps_settlementCause _ a) h₂ (fun cause s₃ h₃ => ?_) fun _ _ h => h
    split
    · exact ends_pure h₃
    · exact ends_pure h₃

/-- A call that is refused, lost or answered is settled: the accounts stand idle again. -/
theorem ends_complete {request : HostRequest} {effort : Str} (hhooks : w.options.callHooks = true)
    (h : At .idle none s) : Ends (complete w request effort) s fun _ s' => At .idle none s' := by
  refine ends_at_bind keeps_throwIfAborted h (fun _ s₁ h₁ => ends_get_bind ?_) fun _ _ h => h
  refine (ends_reserve hhooks h₁).bind (fun callId s₂ h₂ => ?_) fun _ _ h => h
  cases callId with
  | none => exact h₂.elim
  | some callId =>
    refine (ends_transmit h₂).bind (fun a s₃ h₃ => ?_) ?_
    · obtain ⟨a, ha, h₃⟩ := h₃
      obtain rfl := Except.ok.inj ha
      refine (ends_settle h₃).bind (fun failure s₄ h₄ => ?_) fun _ _ h => h
      refine ends_attempt_bind ((ends_at keeps_report h₄).mono fun observed s₅ h₅ => ?_)
      exact ends_fromExcept h₅
    · rintro e s' ⟨a, ha, -⟩
      cases ha

end

/-! ## Accounts over a whole run -/

/-- A program that starts and ends with no call open. -/
def Accounts (s s' : WriterState) : Prop := At .idle none s → At .idle none s'

instance : Std.Refl Accounts where
  refl _ h := h

instance : IsTrans WriterState Accounts where
  trans _ _ _ h h' hs := h' (h hs)

section

variable {w : WriterContext}

theorem accounts_quiet {α : Type} {m : Writer α} (h : Keeps Quiet m) : Keeps Accounts m :=
  h.mono fun _ _ hq hs => hs.quiet hq

/-- A change of variables that are no part of the accounts. -/
theorem accounts_modify {f : WriterState → WriterState} (hlog : ∀ s, (f s).log = s.log)
    (husages : ∀ s, (f s).usages = s.usages) : Keeps Accounts (modify f : Writer Unit) :=
  keeps_modify fun s h => ⟨by rw [hlog]; exact h.ledger, by rw [hlog, husages]; exact h.usages⟩

variable (hhooks : w.options.callHooks = true)

include hhooks

theorem accounts_complete (request : HostRequest) (effort : Str) :
    Keeps Accounts (complete w request effort) := fun s h => ends_complete (s := s) hhooks h

omit hhooks in
theorem accounts_finallyGenerate {α : Type} {m : Writer α} (h : Keeps Accounts m) :
    Keeps Accounts (finallyGenerate m) := by
  refine (keeps_attempt h).bind fun r => Keeps.bind ?_ fun _ => keeps_fromExcept r
  exact accounts_modify (fun _ => rfl) fun _ => rfl

theorem accounts_requestRepair (kind : RepairKind) (rules prompt : Str) (failure : WriterError) :
    Keeps Accounts (requestRepair w kind rules prompt failure) := by
  refine (keeps_refuseIf _ _).bind fun _ => (accounts_quiet keeps_throwIfAborted).bind fun _ => ?_
  refine Keeps.bind (accounts_modify (fun _ => rfl) fun _ => rfl) fun _ => accounts_finallyGenerate ?_
  refine (accounts_quiet (keeps_buildRequest _)).bind fun request => ?_
  exact (accounts_complete hhooks request _).bind fun response => (accounts_quiet (keeps_parseCandidate response _))

theorem accounts_repairQuotations (message : Str) (note : MemoryNote) (diagnosis : QuoteDiagnosis) :
    Keeps Accounts (repairQuotations w message note diagnosis) := by
  refine (accounts_quiet keeps_repairAllowed).bind fun _ => (keeps_refuseIf _ _).bind fun _ => ?_
  refine (accounts_requestRepair hhooks _ _ _ _).bind fun value => (accounts_quiet (keeps_core _)).bind fun r => ?_
  refine Keeps.bind (accounts_modify (fun _ => rfl) fun _ => rfl) fun _ => ?_
  exact (accounts_quiet keeps_report).bind fun _ => (accounts_quiet (keeps_checkCandidate _ _))

theorem accounts_repairSources (message : Str) (diagnosis : SchemaDiagnosis) :
    Keeps Accounts (repairSources w message diagnosis) := by
  refine (accounts_quiet keeps_repairAllowed).bind fun _ => (keeps_refuseIf _ _).bind fun _ => ?_
  cases sourcesRepairEligible diagnosis with
  | none => exact keeps_throw _
  | some note =>
    refine (accounts_requestRepair hhooks _ _ _ _).bind fun value => ?_
    exact (accounts_quiet (keeps_core _)).bind fun repaired => (accounts_quiet (keeps_checkCandidate _ _))

theorem accounts_repairRefused (error : WriterError) : Keeps Accounts (repairRefused w error) := by
  unfold repairRefused
  split
  · exact accounts_repairSources hhooks _ _
  · exact accounts_repairQuotations hhooks _ _ _
  · exact keeps_throw _

theorem accounts_repairSize (candidate : MemoryNote) : Keeps Accounts (repairSize w candidate) := by
  refine (keeps_refuseIf _ _).bind fun _ => (accounts_quiet keeps_throwIfAborted).bind fun _ => ?_
  refine Keeps.bind (accounts_modify (fun _ => rfl) fun _ => rfl) fun _ => accounts_finallyGenerate ?_
  refine (accounts_quiet (keeps_buildRequest _)).bind fun request => ?_
  refine (accounts_complete hhooks request _).bind fun response => ?_
  refine (accounts_quiet (keeps_readCandidate response)).bind fun repaired => ?_
  refine (accounts_quiet (keeps_core _)).bind fun _ => (accounts_quiet (keeps_core _)).bind fun _ => keeps_pure _

theorem accounts_checkOrRepair (value : Json) : Keeps Accounts (checkOrRepair w value) := by
  refine (keeps_attempt (accounts_quiet (keeps_checkCandidate value false))).bind fun r => ?_
  cases r with
  | ok candidate => exact keeps_pure _
  | error e => exact accounts_repairRefused hhooks e

theorem accounts_accept (response : WriterResponse) : Keeps Accounts (accept w response) := by
  refine (accounts_quiet (keeps_parseCandidate response true)).bind fun value => ?_
  refine (accounts_checkOrRepair hhooks value).bind fun candidate => ?_
  dsimp only
  split
  · exact keeps_pure _
  · refine (accounts_quiet keeps_repairAllowed).bind fun _ => (keeps_refuseIf _ _).bind fun _ => ?_
    exact accounts_repairSize hhooks candidate

theorem accounts_declineToolCall (request : HostRequest) (effort : Str) (response : WriterResponse) :
    Keeps Accounts (declineToolCall w request effort response) := by
  refine keeps_get.bind fun s => ?_
  split
  · exact keeps_pure _
  · refine (accounts_quiet keeps_throwIfAborted).bind fun _ => ?_
    refine Keeps.bind (accounts_modify (fun _ => rfl) fun _ => rfl) fun _ => ?_
    exact (accounts_quiet (keeps_ask fun _ => rfl)).bind fun _ => accounts_complete hhooks _ _

theorem accounts_writeChunk (note : Option MemoryNote) (chunkCount : Nat) (chunk : List SourcePart) :
    Keeps Accounts (writeChunk w note chunkCount chunk) := by
  refine (accounts_quiet keeps_throwIfAborted).bind fun _ => (keeps_refuseIf _ _).bind fun _ => ?_
  refine (accounts_quiet (keeps_buildRequest _)).bind fun request => ?_
  refine (accounts_complete hhooks request _).bind fun response => ?_
  exact (accounts_quiet keeps_throwIfAborted).bind fun _ => accounts_accept hhooks response

theorem accounts_writeChunks (chunks : List (List SourcePart)) (note : Option MemoryNote)
    (chunkCount : Nat) : Keeps Accounts (writeChunks w note chunkCount chunks) := by
  induction chunks generalizing note chunkCount with
  | nil => exact keeps_pure _
  | cons chunk chunks ih =>
    exact (accounts_writeChunk hhooks note chunkCount chunk).bind fun note => ih (some note) _

theorem accounts_writeWithFixedWriter : Keeps Accounts (writeWithFixedWriter w) := by
  refine (keeps_refuseIf _ _).bind fun _ => (accounts_writeChunks hhooks _ _ _).bind fun r => ?_
  split
  · exact keeps_pure _
  · exact keeps_throw _

theorem accounts_writeWithSession : Keeps Accounts (writeWithSession w) := by
  refine (keeps_refuseIf _ _).bind fun _ => (keeps_refuseIf _ _).bind fun _ => ?_
  refine (accounts_quiet (keeps_ask fun _ => rfl)).bind fun estimate => ?_
  split
  · exact keeps_throw _
  · refine (accounts_quiet keeps_throwIfAborted).bind fun _ => (accounts_quiet (keeps_buildRequest _)).bind fun request => ?_
    refine (accounts_complete hhooks request _).bind fun first => ?_
    refine (accounts_declineToolCall hhooks request _ first).bind fun response => ?_
    refine (accounts_quiet keeps_throwIfAborted).bind fun _ => ?_
    exact (accounts_accept hhooks response).bind fun note => keeps_pure _

theorem accounts_writeNote : Keeps Accounts (writeNote w) := by
  unfold writeNote
  split
  · exact accounts_writeWithSession hhooks
  · exact accounts_writeWithFixedWriter hhooks

theorem accounts_writeWith : Keeps Accounts (writeWith w) := by
  refine (accounts_writeNote hhooks).bind fun r => ?_
  refine (accounts_quiet (keeps_requireNextStep _)).bind fun _ => ?_
  exact keeps_get.bind fun s => keeps_pure _

end

/-! ## Sums -/

/-- The sum of some numbers, in order. -/
def total (xs : List Number) : Number := xs.foldl Number.add (.ofNat 0)

/-- The sum of the numbers that are reported, if any is. -/
def totalReported (xs : List (Option Number)) : Option Number :=
  if xs.filterMap id = [] then none else some (total (xs.filterMap id))

/-- Each field of `sum` is the sum of that field of the usages. -/
structure FieldSum (usages : List WriterUsage) (sum : WriterUsage) : Prop where
  input : sum.input = total (usages.map WriterUsage.input)
  output : sum.output = total (usages.map WriterUsage.output)
  cacheRead : sum.cacheRead = total (usages.map WriterUsage.cacheRead)
  cacheWrite : sum.cacheWrite = total (usages.map WriterUsage.cacheWrite)
  totalTokens : sum.totalTokens = total (usages.map WriterUsage.totalTokens)
  cacheWrite1h : sum.cacheWrite1h = totalReported (usages.map WriterUsage.cacheWrite1h)
  reasoning : sum.reasoning = totalReported (usages.map WriterUsage.reasoning)
  costInput : sum.cost.input = total (usages.map fun u => u.cost.input)
  costOutput : sum.cost.output = total (usages.map fun u => u.cost.output)
  costCacheRead : sum.cost.cacheRead = total (usages.map fun u => u.cost.cacheRead)
  costCacheWrite : sum.cost.cacheWrite = total (usages.map fun u => u.cost.cacheWrite)
  costTotal : sum.cost.total = total (usages.map fun u => u.cost.total)

theorem foldl_addReported (xs : List (Option Number)) (sum : Number) :
    xs.foldl addReported (some sum) = some ((xs.filterMap id).foldl Number.add sum) := by
  induction xs generalizing sum with
  | nil => rfl
  | cons x xs ih =>
    cases x with
    | none => exact ih sum
    | some x => exact ih (sum.add x)

theorem foldl_addReported_none (xs : List (Option Number)) :
    xs.foldl addReported none = totalReported xs := by
  induction xs with
  | nil => rfl
  | cons x xs ih =>
    cases x with
    | none => exact ih
    | some x =>
      rw [List.foldl_cons, addReported, foldl_addReported]
      simp [totalReported, total]

theorem map_sumMemoryUsage {β : Type} (f : WriterUsage → β) {add : β → β → β} {z : β}
    (hadd : ∀ a b, f (a.add b) = add (f a) (f b)) (hzero : f zeroUsage = z) (usages : List WriterUsage) :
    f (sumMemoryUsage usages) = (usages.map f).foldl add z := by
  rw [List.foldl_map, ← hzero]
  exact (List.foldl_hom f fun sum u => (hadd sum u).symm).symm

/-- The summed usage is, field by field, the sum. -/
theorem fieldSum_sumMemoryUsage (usages : List WriterUsage) : FieldSum usages (sumMemoryUsage usages) := by
  have htotal : ∀ f : WriterUsage → Number, (∀ a b, f (a.add b) = (f a).add (f b)) →
      f zeroUsage = .ofNat 0 → f (sumMemoryUsage usages) = total (usages.map f) := fun f hadd hzero =>
    map_sumMemoryUsage f hadd hzero usages
  have hreported : ∀ f : WriterUsage → Option Number, (∀ a b, f (a.add b) = addReported (f a) (f b)) →
      f zeroUsage = none → f (sumMemoryUsage usages) = totalReported (usages.map f) :=
    fun f hadd hzero => by
      rw [← foldl_addReported_none]
      exact map_sumMemoryUsage f hadd hzero usages
  exact
    { input := htotal _ (fun _ _ => rfl) (by simp only [zeroUsage])
      output := htotal _ (fun _ _ => rfl) (by simp only [zeroUsage])
      cacheRead := htotal _ (fun _ _ => rfl) (by simp only [zeroUsage])
      cacheWrite := htotal _ (fun _ _ => rfl) (by simp only [zeroUsage])
      totalTokens := htotal _ (fun _ _ => rfl) (by simp only [zeroUsage])
      cacheWrite1h := hreported _ (fun _ _ => rfl) (by simp only [zeroUsage])
      reasoning := hreported _ (fun _ _ => rfl) (by simp only [zeroUsage])
      costInput := htotal (fun u => u.cost.input) (fun _ _ => rfl) (by simp only [zeroUsage])
      costOutput := htotal (fun u => u.cost.output) (fun _ _ => rfl) (by simp only [zeroUsage])
      costCacheRead := htotal (fun u => u.cost.cacheRead) (fun _ _ => rfl) (by simp only [zeroUsage])
      costCacheWrite := htotal (fun u => u.cost.cacheWrite) (fun _ _ => rfl) (by simp only [zeroUsage])
      costTotal := htotal (fun u => u.cost.total) (fun _ _ => rfl) (by simp only [zeroUsage]) }

theorem responses_quiet {e : WriterEvent} (h : e.quiet = true) : responses [e] = [] := by
  cases e <;> first | rfl | cases h

theorem responses_append (log es : List WriterEvent) :
    responses (log ++ es) = responses log ++ responses es := List.filterMap_append

/-- What one call of the host adds to the responses is settled or pending. -/
theorem step_pending {l l' : Ledger} {e : WriterEvent} (h : l.step e = some l') :
    l.pending.toList ++ (responses [e]).filterMap reportedUsage =
      settledUsages [e] ++ l'.pending.toList := by
  by_cases hq : e.quiet = true
  · obtain rfl := Option.some.inj ((step_quiet hq l).symm.trans h)
    rw [responses_quiet hq, settledUsages_quiet (by simpa using hq), List.filterMap_nil, List.append_nil,
      List.nil_append]
  · cases e with
    | reserve call answer =>
      cases l <;> try cases h
      rcases answer with _ | (_ | (_ | _)) <;> (obtain rfl := Option.some.inj h; rfl)
    | dispatch request answer =>
      cases l <;> cases h
      rfl
    | result answer =>
      cases l <;> try cases h
      cases answer with
      | error e =>
        obtain rfl := Option.some.inj h
        rfl
      | ok response =>
        obtain rfl := Option.some.inj h
        cases hr : reportedUsage response <;> simp [responses, settledUsages, Ledger.pending, hr]
    | settle r answer =>
      have hsettle : ∀ (call : WriterDispatchRequest) (callId : Str) (dispatched : Bool)
          (usage : Option WriterUsage),
          (if settles call callId dispatched usage r then some Ledger.idle else none) = some l' →
          usage = r.usage ∧ l' = .idle := by
        intro call callId dispatched usage hif
        split_ifs at hif with hs
        exact ⟨(of_decide_eq_true hs).2.2.2.2.symm, (Option.some.inj hif).symm⟩
      rw [settledUsages_settle]
      cases l with
      | idle => cases h
      | reserved call callId | sent call callId | answered call callId response =>
        obtain ⟨hu, rfl⟩ := hsettle _ _ _ _ h
        rw [← hu]
        simp [responses, Ledger.pending]
    | signal | progress | prefixTokens | request | declineToolCalls | summarizeUsage =>
      exact absurd rfl hq

/-- The responses received are those of the settled calls, and of the one that is open. -/
theorem reported_responses {log : List WriterEvent} {l : Ledger} (h : ledger log = some l) :
    (responses log).filterMap reportedUsage = settledUsages log ++ l.pending.toList := by
  induction log using List.reverseRecOn generalizing l with
  | nil =>
    obtain rfl := Option.some.inj h
    rfl
  | append_singleton log e ih =>
    rw [ledger_append, Option.bind_eq_some_iff] at h
    obtain ⟨l₀, h₀, hstep⟩ := h
    have hstep : l₀.step e = some l := by simpa using hstep
    rw [responses_append, List.filterMap_append, ih h₀, settledUsages_append, List.append_assoc,
      step_pending hstep, List.append_assoc]

/-- A result states the sum of all recorded usages. -/
theorem usage_writeWith (w : WriterContext) (s : WriterState) :
    Ends (writeWith w) s fun r s' => ∀ result, r = .ok result → result.usage = sumMemoryUsage s'.usages := by
  refine Ends.bind (R := fun _ _ => True) trivial (fun r s₁ _ => ?_) fun _ _ _ _ h => by cases h
  refine Ends.bind (R := fun _ _ => True) trivial (fun _ s₂ _ => ends_get_bind ?_) fun _ _ _ _ h => by cases h
  refine ends_pure fun result h => ?_
  obtain rfl := Except.ok.inj h
  rfl

/-- Bounded options are the caller's, with a note budget no larger than the maximum. -/
theorem boundOptions_ok {options : WriteMemoryOptions} {bounded : BoundedOptions}
    (h : boundOptions options = .ok bounded) :
    bounded.toWriteMemoryOptions = options ∧ ∃ n, noteBudget? options.noteTokens = some n ∧
      bounded.noteBudget = min n MAX_NOTE_TOKENS := by
  unfold boundOptions at h
  dsimp only at h
  split at h
  · rename_i n hn _
    obtain rfl := Except.ok.inj h
    exact ⟨rfl, n, hn, rfl⟩
  · rename_i n base hn _
    obtain rfl := Except.ok.inj h
    exact ⟨rfl, n, hn, rfl⟩
  · cases h

/-- A platform that counts code units. -/
def unitPlatform : Platform where
  len := List.length
  nfkc := id
  words _ := []
  noteSchemaText := []
  quoteRepairSchemaText := []
  sourcesRepairSchemaText := []

/-- A host whose fixed writer answers every request with the same note. -/
def answeringHost (note : MemoryNote) (usage : WriterUsage) : WriterHost where
  signal _ := false
  onProgress _ _ := .ok ()
  beforeDispatch _ _ := .ok (some (lit "call"))
  afterDispatch _ _ := .ok ()
  openTransport := .ok ⟨lit "provider/model", lit "off", .fixed, 100000, 4096, false⟩
  prefixTokens _ := .ok 0
  request _ _ := .ok ()
  declineToolCalls _ _ _ := .ok ()
  dispatch _ _ := .ok ()
  result _ := .ok ⟨lit "stop", none, [.text (stringify note.toJson)], usage⟩
  summarizeUsage _ u := .ok ⟨u.input, u.output, u.cacheRead, u.cacheWrite, u.reasoning, u.totalTokens, u.cost.total⟩

/-- One message to remember, with hooks. -/
def oneMessageOptions : WriteMemoryOptions :=
  let entry := messageRecord (lit "e1") [] [] (lit "user") (lit "Rename the module.")
  { noteRepair := true
    previous := none
    increments := []
    uncovered := [entry]
    branch := [entry]
    noteTokens := .ofNat 500
    baseNoteTokens := none
    customInstructions := none
    activeRequests := []
    onProgress := false
    callHooks := true }

/-- A note that cites that message. -/
def oneFactNote : MemoryNote where
  facts s := if s = .state then [⟨lit "The module is renamed.", [lit "e1"], none, none⟩] else []
  gaps := []

end Compaction
