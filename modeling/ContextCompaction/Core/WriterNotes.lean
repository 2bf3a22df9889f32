import ContextCompaction.Core.WriterLaws

/-!
# What leaves the writer

* `writeMemory_checked`: a note that the writer returns passes the validator with the bounded budget,
  stands on one line for each fact and gap, and names a next step where one is due; and on every run
  one repair is sent, one tool call declined, and as many requests sent as the writer's role allows.
-/

namespace Compaction

open Js Program

/-! ## Folded notes -/

/-- No fact and no gap has a character that ends a line. -/
structure Unbroken (note : MemoryNote) : Prop where
  facts : ∀ item ∈ note.allFacts, OneLine item.text
  gaps : ∀ gap ∈ note.gaps, OneLine gap

theorem unbroken_oneLineNote (note : MemoryNote) : Unbroken (oneLineNote note) := by
  constructor
  · intro item hitem
    obtain ⟨f, -, rfl⟩ := mem_allFacts_oneLineNote.mp hitem
    exact oneLine_fold _
  · intro gap hgap
    obtain ⟨g, -, rfl⟩ := List.mem_map.mp hgap
    exact oneLine_fold g

section

variable {len : Str → Nat}

/-- Folding keeps a note valid: a folded text is not longer, and not empty if it was not. -/
theorem MemoryNote.Valid.oneLineNote {note : MemoryNote} (hle : ∀ s, len (fold s) ≤ len s)
    (hpos : ∀ s, 1 ≤ len s → 1 ≤ len (fold s)) (h : note.Valid len) :
    (oneLineNote note).Valid len := by
  refine ⟨fun s f hf => ?_, fun s => ?_, ?_⟩
  · obtain ⟨item, hitem, rfl⟩ := List.mem_map.mp hf
    obtain ⟨htext, hsources, hids, hnodup, hquote, hsup⟩ := h.facts s item hitem
    exact ⟨⟨hpos _ htext.1, (hle _).trans htext.2⟩, hsources, hids, hnodup, hquote, hsup⟩
  · simpa [Compaction.oneLineNote] using h.items s
  · refine ⟨by simpa [Compaction.oneLineNote] using h.gaps.1, fun g hg => ?_⟩
    obtain ⟨gap, hgap, rfl⟩ := List.mem_map.mp hg
    exact (hle gap).trans (h.gaps.2 gap hgap)

/-- What the validator accepted, it accepts folded. -/
theorem validateNoteContent_oneLineNote {value : Json} {branch : List SessionRecord} {note : MemoryNote}
    (hle : ∀ s, len (fold s) ≤ len s) (hpos : ∀ s, 1 ≤ len s → 1 ≤ len (fold s))
    (h : validateNoteContent len value branch = .ok note) :
    validateNoteContent len (oneLineNote note).toJson branch = .ok (oneLineNote note) := by
  obtain ⟨hcheck, rfl, hcited⟩ := validateNoteSources_ok.mp h
  refine validateNoteSources_ok.mpr ⟨?_, (MemoryNote.ofJson_toJson _).symm, fun item hitem => ?_⟩
  · exact MemoryNote.check_toJson ((MemoryNote.valid_ofJson hcheck).oneLineNote hle hpos)
  · obtain ⟨f, hf, rfl⟩ := mem_allFacts_oneLineNote.mp hitem
    exact ⟨(hcited f hf).sources, (hcited f hf).quote, (hcited f hf).supersedes⟩

end

/-! ## The notes that are returned -/

/-- A candidate that passed every check but the budget. -/
structure Candidate (w : WriterContext) (note : MemoryNote) : Prop where
  content : validateNoteContent w.platform.len note.toJson w.options.branch = .ok note
  unbroken : Unbroken note
  nextStep : w.options.activeRequests ≠ [] → hasNextStep note = true

/-- A candidate within the budget. -/
structure Checked (w : WriterContext) (note : MemoryNote) : Prop where
  valid : validateNote w.platform.len note.toJson w.options.branch w.options.noteBudget = .ok note
  unbroken : Unbroken note
  nextStep : w.options.activeRequests ≠ [] → hasNextStep note = true

theorem Candidate.checked {w : WriterContext} {note : MemoryNote} (h : Candidate w note)
    (hbytes : noteBytes note.toJson ≤ w.options.noteBudget * 3) : Checked w note :=
  ⟨validateNote_ok.mpr ⟨h.content, hbytes⟩, h.unbroken, h.nextStep⟩

section

variable {w : WriterContext}

theorem returns_core {α : Type} {r : Except Failure α} {P : α → Prop} (h : ∀ a, r = .ok a → P a) :
    Returns (core r) P := by
  intro s a ha
  cases r with
  | error f => cases ha
  | ok b =>
    obtain rfl := Except.ok.inj ha
    exact h b rfl

/-- A validated candidate has passed the content check. -/
theorem returns_validateCandidate (value : Json) (repaired : Bool) :
    Returns (validateCandidate w value repaired) fun note =>
      validateNoteContent w.platform.len value w.options.branch = .ok note := by
  unfold validateCandidate
  split
  · rename_i note hnote
    exact returns_pure hnote
  · have hrefuse : ∀ (f : WriterState → WriterState) (e : WriterError) (P : MemoryNote → Prop),
        Returns (do modify f; report w; throw e : Writer MemoryNote) P := fun f e P =>
      returns_bind fun _ => returns_bind fun _ => returns_throw e
    split
    · exact hrefuse _ _ _
    · split
      · exact hrefuse _ _ _
      · split
        · exact hrefuse _ _ _
        · exact returns_throw _

theorem returns_requireNextStep (note : MemoryNote) :
    Returns (requireNextStep w note) fun _ => w.options.activeRequests ≠ [] → hasNextStep note = true := by
  intro s u hu hactive
  by_contra hno
  rw [requireNextStep, refuseIf, if_pos ⟨hactive, by simpa using hno⟩] at hu
  cases hu

variable (hle : ∀ s, w.platform.len (fold s) ≤ w.platform.len s)
  (hpos : ∀ s, 1 ≤ w.platform.len s → 1 ≤ w.platform.len (fold s))

include hle hpos

theorem returns_checkCandidate (value : Json) (repaired : Bool) :
    Returns (checkCandidate w value repaired) (Candidate w) := by
  refine (returns_validateCandidate value repaired).bind fun note hnote => ?_
  refine (returns_requireNextStep _).bind fun _ hnext => returns_pure ⟨?_, unbroken_oneLineNote note, hnext⟩
  exact validateNoteContent_oneLineNote hle hpos hnote

theorem returns_repairQuotations (message : Str) (note : MemoryNote) (diagnosis : QuoteDiagnosis) :
    Returns (repairQuotations w message note diagnosis) (Candidate w) := by
  refine returns_bind fun _ => returns_bind fun _ => returns_bind fun value => returns_bind fun r => ?_
  exact returns_bind fun _ => returns_bind fun _ => returns_checkCandidate hle hpos _ _

theorem returns_repairSources (message : Str) (diagnosis : SchemaDiagnosis) :
    Returns (repairSources w message diagnosis) (Candidate w) := by
  refine returns_bind fun _ => returns_bind fun _ => ?_
  cases sourcesRepairEligible diagnosis with
  | none => exact returns_throw _
  | some note =>
    exact returns_bind fun value => returns_bind fun repaired => returns_checkCandidate hle hpos _ _

/-- A candidate that is returned has passed it, repaired or not. -/
theorem returns_checkOrRepair (value : Json) : Returns (checkOrRepair w value) (Candidate w) := by
  refine Returns.bind (Q := fun r => ∀ note, r = .ok note → Candidate w note) ?_ fun r hr => ?_
  · intro s r hr
    obtain rfl := Except.ok.inj hr
    exact returns_checkCandidate hle hpos value false s
  · cases r with
    | ok candidate => exact returns_pure (hr candidate rfl)
    | error e =>
      change Returns (repairRefused w e) (Candidate w)
      unfold repairRefused
      split
      · exact returns_repairSources hle hpos _ _
      · exact returns_repairQuotations hle hpos _ _ _
      · exact returns_throw _

/-- A candidate of the right size has passed every check. -/
theorem returns_repairSize (candidate : MemoryNote) : Returns (repairSize w candidate) (Checked w) := by
  refine returns_bind fun _ => returns_bind fun _ => returns_bind fun _ => ?_
  have hinner : ∀ m : Writer MemoryNote, Returns m (Checked w) → Returns (finallyGenerate m) (Checked w) := by
    intro m hm
    refine Returns.bind (Q := fun r => ∀ note, r = .ok note → Checked w note) ?_ fun r hr => ?_
    · intro s r hr
      obtain rfl := Except.ok.inj hr
      exact hm s
    · refine returns_bind fun _ => ?_
      cases r with
      | ok note => exact returns_pure (hr note rfl)
      | error e => exact returns_throw e
  refine hinner _ (returns_bind fun request => returns_bind fun response => ?_)
  have hread : Returns (readCandidate w response) (Candidate w) :=
    returns_bind fun value => returns_checkCandidate hle hpos value false
  refine hread.bind fun repaired hrepaired => ?_
  refine (returns_core fun note hnote => (validateNote_ok.mp hnote).2).bind fun _ hbytes => ?_
  exact returns_bind fun _ => returns_pure (hrepaired.checked hbytes)

theorem returns_accept (response : WriterResponse) : Returns (accept w response) (Checked w) := by
  refine returns_bind fun value => (returns_checkOrRepair hle hpos value).bind fun candidate hc => ?_
  dsimp only
  split
  · rename_i hbytes
    exact returns_pure (hc.checked hbytes)
  · exact returns_bind fun _ => returns_bind fun _ => returns_repairSize hle hpos candidate

/-- After one chunk the note is an accepted one. -/
theorem returns_writeChunks (chunks : List (List SourcePart)) (note : Option MemoryNote)
    (chunkCount : Nat) (h : chunkCount ≠ 0 → ∀ n, note = some n → Checked w n) :
    Returns (writeChunks w note chunkCount chunks) fun r =>
      r.2 ≠ 0 → ∀ n, r.1 = some n → Checked w n := by
  induction chunks generalizing note chunkCount with
  | nil => exact returns_pure h
  | cons chunk chunks ih =>
    have hchunk : Returns (writeChunk w note chunkCount chunk) (Checked w) :=
      returns_bind fun _ => returns_bind fun _ => returns_bind fun _ => returns_bind fun response =>
        returns_bind fun _ => returns_accept hle hpos response
    refine hchunk.bind fun n hn => ih (some n) _ fun _ m hm => ?_
    obtain rfl := Option.some.inj hm
    exact hn

/-- A written note has passed every check. -/
theorem returns_writeNote : Returns (writeNote w) fun r => Checked w r.1 := by
  unfold writeNote
  split
  · refine returns_bind fun _ => returns_bind fun _ => returns_bind fun estimate => ?_
    split
    · exact returns_throw _
    · refine returns_bind fun _ => returns_bind fun request => returns_bind fun first => ?_
      refine returns_bind fun response => returns_bind fun _ => ?_
      exact (returns_accept hle hpos response).bind fun note hnote => returns_pure hnote
  · refine returns_bind fun _ => ?_
    refine (returns_writeChunks hle hpos _ _ _ fun h => absurd rfl h).bind fun r hr => ?_
    split
    · exact returns_pure (hr (Nat.succ_ne_zero _) _ rfl)
    · exact returns_throw _

theorem returns_writeWith : Returns (writeWith w) fun result => Checked w result.note := by
  refine (returns_writeNote hle hpos).bind fun r hr => ?_
  exact returns_bind fun _ => returns_bind fun s => returns_pure hr

end

/-! ## The requests that are sent -/

def HostRequest.isRepair : HostRequest → Bool
  | .built (.repair ..) => true
  | .built _ => false
  | .declined request _ => request.isRepair

/-- A request that continues one whose tool calls were declined. -/
def HostRequest.isContinuation : HostRequest → Bool
  | .built _ => false
  | .declined .. => true

/-- The requests that were sent, in order. -/
def sentRequests (log : List WriterEvent) : List HostRequest :=
  log.filterMap fun e => match e with
    | .dispatch request _ => some request
    | _ => none

theorem sentRequests_append (log es : List WriterEvent) :
    sentRequests (log ++ es) = sentRequests log ++ sentRequests es := List.filterMap_append

/-- Nothing is sent, and no repair or declined call is spent. -/
structure Still (s s' : WriterState) : Prop where
  sent : sentRequests s'.log = sentRequests s.log
  repairUsed : s'.repairUsed = s.repairUsed
  toolCallDeclined : s'.toolCallDeclined = s.toolCallDeclined

instance : Std.Refl Still where
  refl _ := ⟨rfl, rfl, rfl⟩

instance : IsTrans WriterState Still where
  trans _ _ _ h h' := ⟨h'.sent.trans h.sent, h'.repairUsed.trans h.repairUsed,
    h'.toolCallDeclined.trans h.toolCallDeclined⟩

theorem Quiet.still {s s' : WriterState} (h : Quiet s s') : Still s s' := by
  obtain ⟨⟨es, hlog, hes⟩, -, hr, ht⟩ := h
  refine ⟨?_, hr, ht⟩
  have hnone : sentRequests es = [] := by
    refine List.filterMap_eq_nil_iff.mpr fun e he => ?_
    cases e <;> first | rfl | cases hes _ he
  rw [hlog, sentRequests_append, hnone, List.append_nil]

/-- One request may be sent; nothing else changes. -/
structure Sends (request : HostRequest) (s s' : WriterState) : Prop where
  sent : sentRequests s'.log = sentRequests s.log ∨ sentRequests s'.log = sentRequests s.log ++ [request]
  repairUsed : s'.repairUsed = s.repairUsed
  toolCallDeclined : s'.toolCallDeclined = s.toolCallDeclined

theorem Still.sends {request : HostRequest} {s s' : WriterState} (h : Still s s') : Sends request s s' :=
  ⟨.inl h.sent, h.repairUsed, h.toolCallDeclined⟩

theorem Still.trans_sends {request : HostRequest} {s s₁ s' : WriterState} (h : Still s s₁)
    (h' : Sends request s₁ s') : Sends request s s' :=
  ⟨by rw [← h.sent]; exact h'.sent, h'.repairUsed.trans h.repairUsed,
    h'.toolCallDeclined.trans h.toolCallDeclined⟩

theorem Sends.trans_still {request : HostRequest} {s s₁ s' : WriterState} (h : Sends request s s₁)
    (h' : Still s₁ s') : Sends request s s' :=
  ⟨by rw [h'.sent]; exact h.sent, h'.repairUsed.trans h.repairUsed,
    h'.toolCallDeclined.trans h.toolCallDeclined⟩

section

variable {w : WriterContext}

theorem still_quiet {α : Type} {m : Writer α} (h : Keeps Quiet m) : Keeps Still m :=
  h.mono fun _ _ hq => hq.still

theorem still_ask {α : Type} {answer : List WriterEvent → Except HostError α}
    {event : Except HostError α → WriterEvent} (h : ∀ a, sentRequests [event a] = []) :
    Keeps Still (ask answer event) := by
  intro s
  refine ⟨?_, rfl, rfl⟩
  change sentRequests (s.log ++ [event (answer s.log)]) = _
  rw [sentRequests_append, h, List.append_nil]

theorem still_modify {f : WriterState → WriterState} (hlog : ∀ s, (f s).log = s.log)
    (hrepair : ∀ s, (f s).repairUsed = s.repairUsed)
    (hdecline : ∀ s, (f s).toolCallDeclined = s.toolCallDeclined) :
    Keeps Still (modify f : Writer Unit) :=
  keeps_modify fun s => ⟨by rw [hlog], hrepair s, hdecline s⟩

theorem still_reserve (call : WriterDispatchRequest) : Keeps Still (reserve w call) := by
  unfold reserve
  split
  · refine (still_ask fun _ => rfl).bind fun a => ?_
    split
    · exact keeps_pure _
    · exact keeps_throw _
  · exact keeps_pure _

theorem still_recordResponse (response : WriterResponse) : Keeps Still (recordResponse w response) := by
  refine (still_quiet (keeps_modifyLastCall _)).bind fun _ => Keeps.bind ?_ fun _ => ?_
  · exact still_modify (fun _ => rfl) (fun _ => rfl) fun _ => rfl
  · split
    · exact keeps_pure _
    · refine Keeps.bind (still_modify (fun _ => rfl) (fun _ => rfl) fun _ => rfl) fun _ => ?_
      exact (still_ask fun _ => rfl).bind fun _ => still_quiet (keeps_modifyLastCall _)

theorem still_settle (call : WriterDispatchRequest) (callId : Str) (a : CallAttempt) :
    Keeps Still (settle w call callId a) := by
  refine (still_quiet keeps_aborted).bind fun _ => (keeps_attempt (still_ask fun _ => rfl)).bind fun r => ?_
  cases r with
  | ok _ => exact keeps_pure _
  | error e =>
    refine (still_quiet (keeps_settlementCause _ a)).bind fun cause => ?_
    split
    · exact keeps_pure _
    · exact keeps_pure _

theorem still_settleReserved (call : WriterDispatchRequest) (a : CallAttempt) (callId : Option Str) :
    Keeps Still (settleReserved w call a callId) := by
  cases callId with
  | none => exact keeps_pure _
  | some callId => exact still_settle call callId a

theorem still_receive : Keeps Still (receive w) := by
  refine Keeps.bind (keeps_attempt (still_quiet keeps_observe)) fun observed => ?_
  refine (keeps_attempt (still_ask fun _ => rfl)).bind fun r => ?_
  cases r with
  | error e => exact keeps_pure _
  | ok response =>
    refine (keeps_attempt (still_recordResponse response)).bind fun r => ?_
    cases r with
    | error e => exact keeps_pure _
    | ok _ => exact keeps_pure _

/-- The request is sent at most once. -/
theorem sends_transmit (request : HostRequest) (phase : WriterPhase) (effort : Str) :
    Keeps (Sends request) (transmit w request phase effort) := by
  refine keeps_of_ends fun s => ?_
  refine ends_attempt_bind (((still_quiet (keeps_beginCall phase effort)).ends s).mono fun r s₁ h₁ => ?_)
  cases r with
  | error e => exact ends_pure h₁.sends
  | ok _ =>
    have hsent : Sends request s₁ (exec (ask (w.host.dispatch · request) (.dispatch request)) s₁).2 :=
      ⟨.inr (sentRequests_append _ _), rfl, rfl⟩
    refine ends_attempt_bind (Ends.mono (R := fun _ s₂ => Sends request s s₂) (h₁.trans_sends hsent) ?_)
    intro r s₂ h₂
    cases r with
    | error e => exact ends_pure h₂
    | ok _ => exact (still_receive.ends s₂).mono fun _ _ h => h₂.trans_still h

theorem still_conclude (call : WriterDispatchRequest) (callId : Option Str) (a : CallAttempt) :
    Keeps Still (conclude w call callId a) := by
  refine (still_settleReserved call a callId).bind fun failure => ?_
  exact (keeps_attempt (still_quiet keeps_report)).bind fun observed => keeps_fromExcept _

theorem sends_complete (request : HostRequest) (effort : Str) :
    Keeps (Sends request) (complete w request effort) := by
  refine keeps_of_ends fun s => ?_
  refine ((still_quiet keeps_throwIfAborted).ends s).bind (fun _ s₁ h₁ => ends_get_bind ?_)
    fun _ _ h => h.sends
  refine ((still_reserve _).ends s₁).bind (fun callId s₂ h₂ => ?_) fun _ _ h => (IsTrans.trans _ _ _ h₁ h).sends
  have h₂ : Still s s₂ := IsTrans.trans _ _ _ h₁ h₂
  refine ((sends_transmit request _ effort).ends s₂).bind (fun a s₃ h₃ => ?_) fun _ _ h => h₂.trans_sends h
  exact ((still_conclude _ callId a).ends s₃).mono fun _ _ h => (h₂.trans_sends h₃).trans_still h

theorem Sends.bind_still {α β : Type} {request : HostRequest} {m : Writer α} {f : α → Writer β}
    (hm : Keeps (Sends request) m) (hf : ∀ a, Keeps Still (f a)) : Keeps (Sends request) (m >>= f) := by
  refine keeps_of_ends fun s => (hm.ends s).bind (fun a s₁ h₁ => ?_) fun _ _ h => h
  exact ((hf a).ends s₁).mono fun _ _ h => h₁.trans_still h

/-- What is built is the contract's request. -/
theorem ends_buildRequest_bind {α : Type} {request : WriterRequest} {f : HostRequest → Writer α}
    {s : WriterState} {Q : Except WriterError α → WriterState → Prop}
    (hok : ∀ s₁, Still s s₁ → Ends (f (.built request)) s₁ Q)
    (herror : ∀ e s₁, Still s s₁ → Q (.error e) s₁) : Ends (buildRequest w request >>= f) s Q := by
  have hbuild : Ends (buildRequest w request) s fun r s₁ =>
      Still s s₁ ∧ ∀ q, r = .ok q → q = .built request := by
    refine ((still_ask fun _ => rfl).ends s).bind (fun _ s₁ h₁ => ?_) fun _ _ h => ⟨h, fun _ hq => by cases hq⟩
    exact ends_pure ⟨h₁, fun q hq => (Except.ok.inj hq).symm⟩
  refine hbuild.bind (fun q s₁ h₁ => ?_) fun e s₁ h₁ => herror e s₁ h₁.1
  obtain rfl := h₁.2 q rfl
  exact hok s₁ h₁.1

theorem sends_buildRequest_bind {α : Type} {request : WriterRequest} {f : HostRequest → Writer α}
    (hf : Keeps (Sends (.built request)) (f (.built request))) :
    Keeps (Sends (.built request)) (buildRequest w request >>= f) := by
  refine keeps_of_ends fun s => ends_buildRequest_bind (fun s₁ h₁ => ?_) fun _ _ h => h.sends
  exact (hf.ends s₁).mono fun _ _ h => h₁.trans_sends h

end

/-! ## What may be sent -/

/-- One for what is not yet spent. -/
def unspent (used : Bool) : Nat := if used then 0 else 1

def repairsSent (log : List WriterEvent) : Nat := ((sentRequests log).filter HostRequest.isRepair).length

def continuationsSent (log : List WriterEvent) : Nat :=
  ((sentRequests log).filter HostRequest.isContinuation).length

/-- Besides `n` requests, only what was unspent is sent. -/
structure Spends (n : Nat) (s s' : WriterState) : Prop where
  sent : (sentRequests s'.log).length + unspent s'.repairUsed ≤
    (sentRequests s.log).length + unspent s.repairUsed + n
  repairs : repairsSent s'.log + unspent s'.repairUsed ≤ repairsSent s.log + unspent s.repairUsed
  continuations : continuationsSent s'.log + unspent s'.toolCallDeclined ≤
    continuationsSent s.log + unspent s.toolCallDeclined

theorem Spends.trans {m n : Nat} {s s₁ s' : WriterState} (h : Spends m s s₁) (h' : Spends n s₁ s') :
    Spends (m + n) s s' := by
  obtain ⟨h1, h2, h3⟩ := h
  obtain ⟨h1', h2', h3'⟩ := h'
  exact ⟨by omega, by omega, by omega⟩

theorem Spends.mono {m n : Nat} {s s' : WriterState} (h : Spends m s s') (hle : m ≤ n) : Spends n s s' :=
  ⟨h.sent.trans (by omega), h.repairs, h.continuations⟩

theorem Still.spends {s s' : WriterState} (h : Still s s') (n : Nat) : Spends n s s' := by
  obtain ⟨hs, hr, ht⟩ := h
  refine ⟨?_, ?_, ?_⟩
  · rw [hs, hr]
    omega
  · rw [repairsSent, hs, hr, repairsSent]
  · rw [continuationsSent, hs, ht, continuationsSent]

/-- A request that is neither a repair nor a continuation. -/
theorem Sends.spends {request : HostRequest} {s s' : WriterState} (h : Sends request s s')
    (hr : request.isRepair = false) (hc : request.isContinuation = false) : Spends 1 s s' := by
  obtain ⟨hs | hs, hru, htd⟩ := h
  · exact (Still.mk hs hru htd).spends 1
  · refine ⟨?_, ?_, ?_⟩
    · rw [hs, hru, List.length_append, List.length_singleton]
      omega
    · simp [repairsSent, hs, hru, hr]
    · simp [continuationsSent, hs, htd, hc]

instance : Std.Refl (Spends 0) where
  refl s := (Std.Refl.refl s : Still s s).spends 0

instance : IsTrans WriterState (Spends 0) where
  trans _ _ _ h h' := h.trans h'

section

variable {w : WriterContext}

theorem spends_still {α : Type} {m : Writer α} (h : Keeps Still m) (n : Nat) : Keeps (Spends n) m :=
  h.mono fun _ _ hs => hs.spends n

theorem spends_quiet {α : Type} {m : Writer α} (h : Keeps Quiet m) (n : Nat) : Keeps (Spends n) m :=
  spends_still (still_quiet h) n

/-- Requests add up. -/
theorem spends_bind {α β : Type} {m : Writer α} {f : α → Writer β} {i j : Nat}
    (hm : Keeps (Spends i) m) (hf : ∀ a, Keeps (Spends j) (f a)) : Keeps (Spends (i + j)) (m >>= f) := by
  refine keeps_of_ends fun s => (hm.ends s).bind (fun a s₁ h₁ => ?_) fun _ _ h => h.mono (Nat.le_add_right _ _)
  exact ((hf a).ends s₁).mono fun _ _ h => h₁.trans h

/-- The unspent repair pays for the one request that it sends. -/
theorem ends_spendRepair {α : Type} {m : Writer α} {request : HostRequest} {kind : RepairKind}
    {s : WriterState} (hs : s.repairUsed = false) (hc : request.isContinuation = false)
    (hm : Keeps (Sends request) m) :
    Ends (do spendRepair kind; finallyGenerate m) s fun _ s' => Spends 0 s s' := by
  refine ends_modify_bind (ends_attempt_bind ((hm.ends _).mono fun r s₁ h₁ => ?_))
  refine ends_modify_bind (ends_fromExcept ?_)
  obtain ⟨hsent, hused, hdeclined⟩ := h₁
  have hused : s₁.repairUsed = true := hused
  have hdeclined : s₁.toolCallDeclined = s.toolCallDeclined := hdeclined
  have hlen : (sentRequests s₁.log).length ≤ (sentRequests s.log).length + 1 := by
    rcases hsent with h | h <;> rw [h] <;> simp
  have hrepairs : repairsSent s₁.log ≤ repairsSent s.log + 1 := by
    rcases hsent with h | h
    · rw [repairsSent, h]
      exact Nat.le_add_right _ _
    · rw [repairsSent, h, List.filter_append, List.length_append]
      exact Nat.add_le_add_left (List.length_filter_le _ _) _
  have hcont : continuationsSent s₁.log = continuationsSent s.log := by
    rcases hsent with h | h
    · rw [continuationsSent, h]
      rfl
    · simp [continuationsSent, h, hc]
  have hpaid : unspent s.repairUsed = 1 ∧ unspent s₁.repairUsed = 0 := by simp [unspent, hs, hused]
  refine ⟨?_, ?_, ?_⟩
  · change (sentRequests s₁.log).length + unspent s₁.repairUsed ≤ _
    omega
  · change repairsSent s₁.log + unspent s₁.repairUsed ≤ _
    omega
  · change continuationsSent s₁.log + unspent s₁.toolCallDeclined ≤ _
    rw [hcont, hdeclined]

theorem ends_requestRepair {kind : RepairKind} {rules prompt : Str} {failure : WriterError}
    {s : WriterState} (hs : s.repairUsed = false) :
    Ends (requestRepair w kind rules prompt failure) s fun _ s' => Spends 0 s s' := by
  refine ends_refuseIf_bind (fun _ => ?_) fun _ => Std.Refl.refl s
  refine ((still_quiet keeps_throwIfAborted).ends s).bind (fun _ s₁ h₁ => ?_) fun _ _ h => h.spends 0
  have hinner : Keeps (Sends (.built (.repair rules prompt (lit "off")
      (outputBudget w.transport.maxOutputTokens w.options.noteBudget)))) (do
        let request ← buildRequest w (.repair rules prompt (lit "off")
          (outputBudget w.transport.maxOutputTokens w.options.noteBudget))
        parseCandidate w (← complete w request (lit "off")) false) :=
    sends_buildRequest_bind (Sends.bind_still (sends_complete _ _) fun response =>
      still_quiet (keeps_parseCandidate response false))
  exact (ends_spendRepair (h₁.repairUsed.trans hs) rfl hinner).mono fun _ _ h => (h₁.spends 0).trans h

/-- The repair is allowed only while it is unspent. -/
theorem ends_repairAllowed_bind {α : Type} {f : Bool → Writer α} {s : WriterState}
    {Q : Except WriterError α → WriterState → Prop}
    (h : ∀ allowed, (allowed = true → s.repairUsed = false) → Ends (f allowed) s Q) :
    Ends (repairAllowed w >>= f) s Q := by
  refine h (w.options.noteRepair && !s.repairUsed) fun hallowed => ?_
  simp only [Bool.and_eq_true, Bool.not_eq_true'] at hallowed
  exact hallowed.2

/-- Repairing quotations sends no more than the repair that was unspent. -/
theorem spends_repairQuotations (message : Str) (note : MemoryNote) (diagnosis : QuoteDiagnosis) :
    Keeps (Spends 0) (repairQuotations w message note diagnosis) := by
  refine keeps_of_ends fun s => ends_repairAllowed_bind fun allowed hs => ?_
  refine ends_refuseIf_bind (fun hc => ?_) fun _ => Std.Refl.refl s
  have hs : s.repairUsed = false := hs (by simpa using (not_or.mp hc).1)
  refine (ends_requestRepair hs).bind (fun value s₁ h₁ => ?_) fun _ _ h => h
  have hrest : Keeps Still (do
      let r ← core (applyQuoteRepair w.platform.len note diagnosis.failures value)
      modify fun s => { s with quotationRepair := some r.2 }
      report w
      checkCandidate w r.1.toJson true) := by
    refine (still_quiet (keeps_core _)).bind fun r => Keeps.bind ?_ fun _ => ?_
    · exact still_modify (fun _ => rfl) (fun _ => rfl) fun _ => rfl
    · exact (still_quiet keeps_report).bind fun _ => still_quiet (keeps_checkCandidate _ _)
  exact (hrest.ends s₁).mono fun _ _ h => h₁.trans (h.spends 0)

/-- Repairing sources sends no more than the repair that was unspent. -/
theorem spends_repairSources (message : Str) (diagnosis : SchemaDiagnosis) :
    Keeps (Spends 0) (repairSources w message diagnosis) := by
  refine keeps_of_ends fun s => ends_repairAllowed_bind fun allowed hs => ?_
  refine ends_refuseIf_bind (fun hc => ?_) fun _ => Std.Refl.refl s
  have hs : s.repairUsed = false := hs (by simpa using hc)
  cases sourcesRepairEligible diagnosis with
  | none => exact ends_throw (Std.Refl.refl s)
  | some note =>
    refine (ends_requestRepair hs).bind (fun value s₁ h₁ => ?_) fun _ _ h => h
    have hrest : Keeps Still (do
        let repaired ← core (applySourcesRepair w.platform.len note diagnosis.uncited value)
        checkCandidate w repaired.toJson false) :=
      (still_quiet (keeps_core _)).bind fun r => still_quiet (keeps_checkCandidate _ _)
    exact (hrest.ends s₁).mono fun _ _ h => h₁.trans (h.spends 0)

theorem spends_checkOrRepair (value : Json) : Keeps (Spends 0) (checkOrRepair w value) := by
  refine (keeps_attempt (spends_quiet (keeps_checkCandidate value false) 0)).bind fun r => ?_
  cases r with
  | ok candidate => exact keeps_pure _
  | error e =>
    change Keeps (Spends 0) (repairRefused w e)
    unfold repairRefused
    split
    · exact spends_repairSources _ _
    · exact spends_repairQuotations _ _ _
    · exact keeps_throw _

/-- Shortening, while the repair is unspent, sends no more than this. -/
theorem ends_repairSize {candidate : MemoryNote} {s : WriterState} (hs : s.repairUsed = false) :
    Ends (repairSize w candidate) s fun _ s' => Spends 0 s s' := by
  refine ends_refuseIf_bind (fun _ => ?_) fun _ => Std.Refl.refl s
  refine ((still_quiet keeps_throwIfAborted).ends s).bind (fun _ s₁ h₁ => ?_) fun _ _ h => h.spends 0
  have hinner : ∀ (systemPrompt prompt : Str) (maxTokens : Nat),
      Keeps (Sends (.built (.repair systemPrompt prompt w.transport.effort maxTokens))) (do
        let request ← buildRequest w (.repair systemPrompt prompt w.transport.effort maxTokens)
        let repaired ← readCandidate w (← complete w request w.transport.effort)
        let _ ← core (validateNote w.platform.len repaired.toJson w.options.branch w.options.noteBudget)
        core (assertRepairPreserved candidate repaired)
        pure repaired) := fun systemPrompt prompt maxTokens => by
    refine sends_buildRequest_bind (Sends.bind_still (sends_complete _ _) fun response => ?_)
    refine (still_quiet (keeps_readCandidate response)).bind fun repaired => ?_
    exact (keeps_fromExcept _).bind fun _ => (keeps_fromExcept _).bind fun _ => keeps_pure _
  exact (ends_spendRepair (h₁.repairUsed.trans hs) rfl (hinner _ _ _)).mono fun _ _ h =>
    (h₁.spends 0).trans h

/-- Accepting an answer costs at most the unspent repair. -/
theorem spends_accept (response : WriterResponse) : Keeps (Spends 0) (accept w response) := by
  refine (spends_quiet (keeps_parseCandidate response true) 0).bind fun value => ?_
  refine (spends_checkOrRepair value).bind fun candidate => ?_
  dsimp only
  split
  · exact keeps_pure _
  · refine keeps_of_ends fun s => ends_repairAllowed_bind fun allowed hs => ?_
    refine ends_refuseIf_bind (fun hc => ?_) fun _ => Std.Refl.refl s
    exact ends_repairSize (hs (by simpa using hc))

/-- A declined tool call is paid for once, and is one more request. -/
theorem spends_declineToolCall (request : HostRequest) (effort : Str) (response : WriterResponse)
    (hr : request.isRepair = false) : Keeps (Spends 1) (declineToolCall w request effort response) := by
  refine keeps_of_ends fun s => ends_get_bind ?_
  split
  · exact ends_pure ((Std.Refl.refl s : Still s s).spends 1)
  · rename_i hc
    have hdeclined : s.toolCallDeclined = false := by
      cases h : s.toolCallDeclined with
      | false => rfl
      | true => simp [h] at hc
    refine ((still_quiet keeps_throwIfAborted).ends s).bind (fun _ s₁ h₁ => ?_) fun _ _ h => h.spends 1
    refine ends_modify_bind ?_
    have hrest : Keeps (Sends (.declined request response)) (do
        ask (w.host.declineToolCalls · request response) (.declineToolCalls request response)
        complete w (.declined request response) effort) := by
      refine keeps_of_ends fun s => ((still_ask fun _ => rfl).ends s).bind (fun _ s' h => ?_) fun _ _ h => h.sends
      exact ((sends_complete _ effort).ends s').mono fun _ _ h' => h.trans_sends h'
    refine (hrest.ends _).mono fun _ s₂ h₂ => ?_
    obtain ⟨hsent, hused, hspent⟩ := h₂
    have hsent : sentRequests s₂.log = sentRequests s.log ∨
        sentRequests s₂.log = sentRequests s.log ++ [.declined request response] := by
      rw [← h₁.sent]
      exact hsent
    have hused : s₂.repairUsed = s.repairUsed := hused.trans h₁.repairUsed
    have hspent : s₂.toolCallDeclined = true := hspent
    refine ⟨?_, ?_, ?_⟩
    · rcases hsent with h | h <;> rw [h, hused] <;> simp [Nat.add_right_comm]
    · rcases hsent with h | h <;> simp [repairsSent, h, hused, HostRequest.isRepair, hr]
    · rcases hsent with h | h
      · simp [continuationsSent, h, hspent, hdeclined, unspent]
      · simpa [continuationsSent, h, hspent, hdeclined, unspent] using
          List.length_filter_le HostRequest.isContinuation [.declined request response]

/-- A request of the writer's own, and what follows it. -/
theorem spends_request {α : Type} {request : WriterRequest} {effort : Str} {f : WriterResponse → Writer α}
    {n : Nat} (hr : (HostRequest.built request).isRepair = false) (hf : ∀ a, Keeps (Spends n) (f a)) :
    Keeps (Spends (1 + n)) (do f (← complete w (← buildRequest w request) effort)) := by
  refine keeps_of_ends fun s => ends_buildRequest_bind (fun s₁ h₁ => ?_) fun _ _ h => h.spends _
  have hsend : Keeps (Spends 1) (complete w (.built request) effort) :=
    (sends_complete _ effort).mono fun _ _ h => h.spends hr rfl
  exact ((spends_bind hsend hf).ends s₁).mono fun _ _ h => ((h₁.spends 0).trans h).mono (by omega)

theorem spends_writeChunk (note : Option MemoryNote) (chunkCount : Nat) (chunk : List SourcePart) :
    Keeps (Spends 1) (writeChunk w note chunkCount chunk) := by
  refine keeps_of_ends fun s => ?_
  refine ((still_quiet keeps_throwIfAborted).ends s).bind (fun _ s₁ h₁ => ?_) fun _ _ h => h.spends 1
  refine ends_refuseIf_bind (fun _ => ?_) fun _ => h₁.spends 1
  have hrest : ∀ response, Keeps (Spends 0) (do throwIfAborted w; accept w response) := fun response =>
    (spends_quiet keeps_throwIfAborted 0).bind fun _ => spends_accept response
  exact ((spends_request rfl hrest).ends s₁).mono fun _ _ h => ((h₁.spends 0).trans h).mono (by omega)

theorem spends_writeChunks (chunks : List (List SourcePart)) (note : Option MemoryNote)
    (chunkCount : Nat) : Keeps (Spends chunks.length) (writeChunks w note chunkCount chunks) := by
  induction chunks generalizing note chunkCount with
  | nil => exact spends_still (keeps_pure _) 0
  | cons chunk chunks ih =>
    rw [List.length_cons, Nat.add_comm]
    exact spends_bind (spends_writeChunk note chunkCount chunk) fun n => ih (some n) _

theorem spends_writeWithFixedWriter :
    Keeps (Spends (fixedChunks w).length) (writeWithFixedWriter w) := by
  refine keeps_of_ends fun s => ends_refuseIf_bind (fun _ => ?_) fun _ => (Std.Refl.refl s : Still s s).spends _
  refine ((spends_writeChunks (fixedChunks w) _ 0).ends s).bind (fun r s₁ h₁ => ?_) fun _ _ h => h
  split
  · exact ends_pure h₁
  · exact ends_throw h₁

/-- The handover, and its one continuation. -/
theorem spends_writeWithSession : Keeps (Spends 2) (writeWithSession w) := by
  refine keeps_of_ends fun s => ?_
  have hrefl : Spends 2 s s := (Std.Refl.refl s : Still s s).spends 2
  refine ends_refuseIf_bind (fun _ => ends_refuseIf_bind (fun _ => ?_) fun _ => hrefl) fun _ => hrefl
  refine ((still_ask fun _ => rfl).ends s).bind (fun estimate s₁ h₁ => ?_) fun _ _ h => h.spends 2
  split
  · exact ends_throw (h₁.spends 2)
  · rename_i instruction _
    refine ((still_quiet keeps_throwIfAborted).ends s₁).bind (fun _ s₂ h₂ => ?_)
      fun _ _ h => (IsTrans.trans _ _ _ h₁ h : Still _ _).spends 2
    have h₂ : Still s s₂ := IsTrans.trans _ _ _ h₁ h₂
    refine ends_buildRequest_bind (fun s₃ h₃ => ?_) fun _ _ h => (IsTrans.trans _ _ _ h₂ h : Still _ _).spends 2
    have h₃ : Still s s₃ := IsTrans.trans _ _ _ h₂ h₃
    have hrest : Keeps (Spends 2) (do
        let request := HostRequest.built (.handover instruction w.transport.effort
          (outputBudget w.transport.maxOutputTokens w.options.noteBudget))
        let first ← complete w request w.transport.effort
        let response ← declineToolCall w request w.transport.effort first
        throwIfAborted w
        let note ← accept w response
        pure (note, 1)) := by
      have hsend := (sends_complete (w := w) (.built (.handover instruction w.transport.effort
        (outputBudget w.transport.maxOutputTokens w.options.noteBudget))) w.transport.effort).mono
          fun _ _ h => h.spends rfl rfl
      refine spends_bind hsend fun first => spends_bind (j := 0) (spends_declineToolCall _ _ first rfl) fun response => ?_
      refine (spends_quiet keeps_throwIfAborted 0).bind fun _ => (spends_accept response).bind fun note => keeps_pure _
    exact (hrest.ends s₃).mono fun _ _ h => ((h₃.spends 0).trans h).mono (by omega)

/-- How many requests the role of the writer allows, before any repair. -/
def requestBound (w : WriterContext) : Nat :=
  match w.transport.role with
  | .session => 2
  | .fixed => (fixedChunks w).length

theorem spends_writeWith : Keeps (Spends (requestBound w)) (writeWith w) := by
  have hnote : Keeps (Spends (requestBound w)) (writeNote w) := by
    unfold writeNote requestBound
    cases w.transport.role with
    | session => exact spends_writeWithSession
    | fixed => exact spends_writeWithFixedWriter
  refine spends_bind (j := 0) hnote fun r => ?_
  exact (spends_quiet (keeps_requireNextStep _) 0).bind fun _ => keeps_get.bind fun s => keeps_pure _

end

/-! ## Every run -/

/-- What is sent on a run of the writer: one repair at most, one continuation at most, three requests of
a session writer, and one request for each chunk and one more of a fixed writer. -/
structure SentWithin (platform : Platform) (host : WriterHost) (options : WriteMemoryOptions)
    (sent : List HostRequest) : Prop where
  repairs : (sent.filter HostRequest.isRepair).length ≤ 1
  continuations : (sent.filter HostRequest.isContinuation).length ≤ 1
  session : ∀ transport, host.openTransport = .ok transport → transport.role = .session → sent.length ≤ 3
  fixed : ∀ transport bounded, host.openTransport = .ok transport → boundOptions options = .ok bounded →
    transport.role = .fixed →
    sent.length ≤ (fixedChunks ⟨platform, host, bounded, transport⟩).length + 1

/-- A note that the writer returns has passed every check, and whatever happens only so much is sent. -/
theorem writeMemory_checked (platform : Platform) (host : WriterHost) (options : WriteMemoryOptions)
    (hle : ∀ s, platform.len (fold s) ≤ platform.len s)
    (hpos : ∀ s, 1 ≤ platform.len s → 1 ≤ platform.len (fold s)) :
    (∀ result, (writeMemory platform host options).result = .ok result →
      ∃ noteTokens, noteBudget? options.noteTokens = some noteTokens ∧
        validateNote platform.len result.note.toJson options.branch (min noteTokens MAX_NOTE_TOKENS) =
          .ok result.note ∧
        Unbroken result.note ∧
        (options.activeRequests ≠ [] → hasNextStep result.note = true)) ∧
    SentWithin platform host options (sentRequests (writeMemory platform host options).log) := by
  unfold writeMemory
  have hnone : SentWithin platform host options (sentRequests []) :=
    ⟨Nat.zero_le _, Nat.zero_le _, fun _ _ _ => Nat.zero_le _, fun _ _ _ _ _ => Nat.zero_le _⟩
  cases hb : boundOptions options with
  | error f => exact ⟨fun result h => (by cases h), hnone⟩
  | ok bounded =>
    cases ht : host.openTransport with
    | error e => exact ⟨fun result h => (by cases h), hnone⟩
    | ok transport =>
      obtain ⟨rfl, n, hn, hbudget⟩ := boundOptions_ok hb
      let w : WriterContext := ⟨platform, host, bounded, transport⟩
      refine ⟨fun result h => ?_, ?_⟩
      · obtain ⟨hvalid, honeLine, hnext⟩ := returns_writeWith (w := w) hle hpos .start result h
        exact ⟨n, hn, hbudget ▸ hvalid, honeLine, hnext⟩
      · obtain ⟨hsent, hrepairs, hcontinuations⟩ := spends_writeWith (w := w) .start
        have hstart : unspent WriterState.start.repairUsed = 1 ∧
            unspent WriterState.start.toolCallDeclined = 1 := ⟨rfl, rfl⟩
        have hempty : (sentRequests WriterState.start.log).length = 0 ∧
            repairsSent WriterState.start.log = 0 ∧ continuationsSent WriterState.start.log = 0 :=
          ⟨rfl, rfl, rfl⟩
        have hbound : (sentRequests (exec (writeWith w) .start).2.log).length ≤ requestBound w + 1 := by
          omega
        refine ⟨show repairsSent (exec (writeWith w) .start).2.log ≤ 1 by omega,
          show continuationsSent (exec (writeWith w) .start).2.log ≤ 1 by omega, ?_, ?_⟩
        · intro t ht' hrole
          obtain rfl := Except.ok.inj (ht.symm.trans ht')
          have hrequests : requestBound w = 2 := by simp only [requestBound, w, hrole]
          rwa [hrequests] at hbound
        · intro t b ht' hb' hrole
          obtain rfl := Except.ok.inj (ht.symm.trans ht')
          obtain rfl := Except.ok.inj (hb.symm.trans hb')
          have hrequests : requestBound w = (fixedChunks w).length := by simp only [requestBound, w, hrole]
          rwa [hrequests] at hbound

/-- Folding does not lengthen a text. -/
theorem length_fold_le (s : Str) : (fold s).length ≤ s.length := length_replaceRuns_le (by decide) s

theorem writeMemory_checked_answered :
    (∀ result, (writeMemory unitPlatform (answeringHost oneFactNote zeroUsage) oneMessageOptions).result = .ok result →
      ∃ noteTokens, noteBudget? oneMessageOptions.noteTokens = some noteTokens ∧
        validateNote unitPlatform.len result.note.toJson oneMessageOptions.branch
          (min noteTokens MAX_NOTE_TOKENS) = .ok result.note ∧
        Unbroken result.note ∧
        (oneMessageOptions.activeRequests ≠ [] → hasNextStep result.note = true)) ∧
    SentWithin unitPlatform (answeringHost oneFactNote zeroUsage) oneMessageOptions
      (sentRequests (writeMemory unitPlatform (answeringHost oneFactNote zeroUsage) oneMessageOptions).log) :=
  writeMemory_checked unitPlatform (answeringHost oneFactNote zeroUsage) oneMessageOptions
    length_fold_le fun s hs => List.length_pos_iff.mpr
      (replaceRuns_ne_nil (by decide) (List.length_pos_iff.mp hs))

end Compaction
