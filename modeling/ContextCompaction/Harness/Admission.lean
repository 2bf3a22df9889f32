import ContextCompaction.Harness.Soundness

/-!
# Runs and their tasks

`Owners seen tasks live`: less the tasks that are not `seen`, the generations that own a run are the
ones that the runs name. Inside a commit the ending generation is not seen.

* `grown_admitSubmission`: an admission keeps a transaction sound, and its runs owned.
-/

namespace Harness

open Js Program SubmissionStatus Sequences

variable {tx : Tx} {pending : ConversationId → List SubmissionId} {c : ConversationId}

/-! ## Ownership -/

/-- A task of this state may still end its run. -/
def TaskState.owns : TaskState → Bool
  | .completing outcome => (schedulerSettlement outcome).isSome
  | .terminal _ => false
  | _ => true

/-- The generations of a conversation that may still end a run. -/
def owning (tasks : List TaskRecord) (c : ConversationId) : List TaskId :=
  (tasks.filter fun t => t.conversationId = c ∧ t.kind = .generation ∧ t.state.owns).map (·.id)

def runTask (live : LiveState) : List TaskId := (live.run.map (·.taskId)).toList

def Owners (seen : TaskId → Bool) (tasks : List TaskRecord) (live : ConversationId → LiveState) :
    Prop :=
  ∀ c, (owning tasks c).filter seen = (runTask (live c)).filter seen

/-- Every task is seen. -/
def everyTask : TaskId → Bool := fun _ => true

variable {seen : TaskId → Bool} {tasks : List TaskRecord} {live : ConversationId → LiveState}

theorem owning_append (tasks tasks' : List TaskRecord) :
    owning (tasks ++ tasks') c = owning tasks c ++ owning tasks' c := by
  simp [owning]

theorem mem_owning {id : TaskId} : id ∈ owning tasks c ↔ ∃ t ∈ tasks, t.id = id ∧
    t.conversationId = c ∧ t.kind = .generation ∧ t.state.owns := by
  simp only [owning, List.mem_map, List.mem_filter, decide_eq_true_eq]
  constructor
  · rintro ⟨t, ⟨ht, hc, hkind, howns⟩, rfl⟩
    exact ⟨t, ht, rfl, hc, hkind, howns⟩
  · rintro ⟨t, ht, rfl, hc, hkind, howns⟩
    exact ⟨t, ⟨ht, hc, hkind, howns⟩, rfl⟩

namespace Owners

theorem mono (h : Owners seen tasks live) (seen' : TaskId → Bool) :
    Owners (fun id => seen id && seen' id) tasks live := by
  intro c
  rw [← List.filter_filter, ← List.filter_filter]
  simpa [List.filter_filter, Bool.and_comm] using congrArg (List.filter seen') (h c)

theorem but (h : Owners everyTask tasks live) (taskId : TaskId) : Owners (· ≠ taskId) tasks live := by
  have := h.mono (· ≠ taskId)
  exact this

/-- All tasks are seen again where the unseen one has ended and no run names it. -/
theorem restore {taskId : TaskId} (h : Owners (· ≠ taskId) tasks live)
    (hended : ∀ c, taskId ∉ owning tasks c) (hrun : ∀ c, taskId ∉ runTask (live c)) :
    Owners everyTask tasks live := by
  intro c
  have heq : ∀ {ids : List TaskId}, taskId ∉ ids → ids.filter (· ≠ taskId) = ids.filter everyTask := by
    intro ids hnot
    refine List.filter_congr fun id hid => ?_
    have : id ≠ taskId := fun he => hnot (he ▸ hid)
    simpa [everyTask] using this
  rw [← heq (hended c), ← heq (hrun c), h c]

theorem eq (h : Owners everyTask tasks live) (c : ConversationId) :
    owning tasks c = runTask (live c) := by
  have hself : ∀ ids : List TaskId, ids.filter everyTask = ids :=
    fun ids => List.filter_eq_self.mpr fun _ _ => rfl
  rw [← hself (owning tasks c), h c, hself]

/-- A task of another kind. -/
theorem create (h : Owners seen tasks live) {t : TaskRecord} (hkind : t.kind ≠ .generation) :
    Owners seen (tasks ++ [t]) live := by
  intro c
  have : owning [t] c = [] := by simp [owning, hkind]
  rw [owning_append, this, List.append_nil, h c]

/-- A new generation takes the run of a conversation that no task seen runs. -/
theorem start (h : Owners seen tasks live) (hidle : (runTask (live c)).filter seen = [])
    {taskId : TaskId} (hseen : seen taskId) {inputs : List SubmissionId} {generation : Option GenerationState} :
    Owners seen (tasks ++ [⟨taskId, c, .generation, false, .pending⟩])
      (Function.update live c ⟨some ⟨taskId, inputs⟩, generation⟩) := by
  intro c'
  rw [owning_append, List.filter_append, h c']
  by_cases hc : c' = c
  · subst hc
    rw [Function.update_self, hidle]
    simp [runTask, owning, TaskState.owns, hseen]
  · rw [Function.update_of_ne hc]
    simp [owning, Ne.symm hc]

theorem congr (h : Owners seen tasks live) {live' : ConversationId → LiveState}
    (hrun : ∀ c, (live' c).run = (live c).run) : Owners seen tasks live' := by
  intro c
  rw [runTask, hrun, ← runTask, h c]

end Owners

/-! ## New submissions -/

/-- No record of the conversation has the request. -/
def NewRequest (tx : Tx) (c : ConversationId) (requestId : Option Str) : Prop :=
  requestId.isSome → ∀ r ∈ tx.rows, r.conversationId = c → r.requestId ≠ requestId

theorem yields_createSubmission {requestId : Option Str} {type : SubmissionType}
    {status : SubmissionStatus} :
    Yields (createSubmission c requestId type status) tx fun id t => id = tx.nextId ∧ t = { tx with
      nextId := tx.nextId + 1
      created := tx.created ++ [⟨tx.nextId, c, requestId, type, status⟩] } := by
  refine yields_requireConversation.bind ?_
  rintro _ t rfl
  refine yields_mintId.bind ?_
  rintro _ _ ⟨rfl, rfl⟩
  rintro _ _ ⟨⟩
  exact ⟨rfl, rfl⟩

section

variable {r : SubmissionRecord}

/-- A transaction with one more record. -/
theorem sound_create (h : Sound pending tx) (hid : r.id = tx.nextId)
    (hrequest : NewRequest tx r.conversationId r.requestId)
    {inbox : ConversationId → List InboxItem} {pending' : ConversationId → List SubmissionId}
    (hfiled : Filed inbox (tx.rows ++ [r]) tx.changes)
    (hlisted : Listed (fun c => (tx.live c).inputs ++ pending' c) (tx.rows ++ [r]) tx.changes) :
    Sound pending' { tx with
      nextId := tx.nextId + 1, created := tx.created ++ [r], inbox } := by
  have hrows : tx.store.submissions ++ (tx.created ++ [r]) = tx.rows ++ [r] :=
    (List.append_assoc ..).symm
  have hmade : Rows (tx.rows ++ [r]) tx.changes (tx.nextId + 1) := by
    rw [← hid]
    exact h.rows.create (Nat.le_of_eq hid.symm) fun hsome r' hr' hc => hrequest hsome r' hr' hc
  refine ⟨?_, h.tasks.mono (Nat.le_succ _), ?_, ?_⟩
  all_goals
    dsimp only [Tx.rows]
    rw [hrows]
    assumption

theorem fresh_changed (h : Sound pending tx) (hid : r.id = tx.nextId) :
    r.id ∉ tx.changes.map Prod.fst :=
  h.rows.fresh (Nat.le_of_eq hid.symm)

/-- A settled submission. -/
theorem sound_create_settled (h : Sound pending tx) (hid : r.id = tx.nextId)
    (hrequest : NewRequest tx r.conversationId r.requestId) (hsettled : r.status.isSettled) :
    Sound pending { tx with nextId := tx.nextId + 1, created := tx.created ++ [r] } := by
  have hq : ¬ r.status.isQueued := by
    cases hs : r.status <;> simp_all [isQueued, isSettled]
  refine sound_create h hid hrequest (h.filed.create hq) ?_
  refine h.listed.create (fresh_changed h hid) (fun c id => ?_) h.listed.once
  rw [iff_self_or]
  rintro ⟨-, -, -, hplaced⟩
  exact absurd hplaced (not_isPlaced_of_isSettled hsettled)

/-- A queued submission, and its item. -/
theorem sound_create_queued (h : Sound pending tx) (hid : r.id = tx.nextId)
    (hrequest : NewRequest tx r.conversationId r.requestId) (hqueued : r.status.isQueued)
    {item : InboxItem} (hkey : item.key = (r.id, r.type)) :
    Sound pending { tx with
      nextId := tx.nextId + 1
      created := tx.created ++ [r]
      inbox := Function.update tx.inbox r.conversationId (tx.inbox r.conversationId ++ [item]) } := by
  refine sound_create h hid hrequest (h.filed.push hqueued (fresh_changed h hid) hkey) ?_
  refine h.listed.create (fresh_changed h hid) (fun c id => ?_) h.listed.once
  rw [iff_self_or]
  rintro ⟨-, -, -, hplaced⟩
  rw [eq_queued hqueued] at hplaced
  cases hplaced

/-- A placed input that waits for its run. -/
theorem sound_create_placed (h : Sound noInputs tx) (hid : r.id = tx.nextId)
    (hrequest : NewRequest tx r.conversationId r.requestId) (htype : r.type = .input)
    {entry : EntryId} (hstatus : r.status = .placed entry) :
    Sound (only r.conversationId [r.id]) { tx with
      nextId := tx.nextId + 1, created := tx.created ++ [r] } := by
  have hq : ¬ r.status.isQueued := by simp [hstatus, isQueued]
  have hplaced : r.status.isPlaced := by simp [hstatus, isPlaced]
  refine sound_create h hid hrequest (h.filed.create hq) ?_
  have hold : ∀ c, r.id ∉ (tx.live c).inputs := by
    intro c hmem
    obtain ⟨r', hr', hid', -⟩ := (h.listed.held c r.id).mp (List.mem_append_left _ hmem)
    exact Nat.lt_irrefl _ ((hid'.trans hid) ▸ h.rows.minted r' hr')
  refine h.listed.create (fresh_changed h hid) (fun c id => ?_) fun c => ?_
  · by_cases hc : c = r.conversationId
    · subst hc
      simp [only, noInputs, htype, hplaced, eq_comm]
    · simp [only, noInputs, Function.update_of_ne hc, Ne.symm hc]
  · have honce := h.listed.once c
    by_cases hc : c = r.conversationId
    · subst hc
      simp only [noInputs, List.append_nil] at honce
      simp [only, List.nodup_append, honce]
      exact fun id hmem heq => hold _ (heq ▸ hmem)
    · simpa [only, Function.update_of_ne hc] using honce

end

/-! ## Admission -/

/-- A transaction at the end of an operation. -/
structure Good (seen : TaskId → Bool) (tx : Tx) : Prop where
  sound : Sound noInputs tx
  owners : Owners seen tx.tasks tx.live

theorem only_nil : only c [] = noInputs := Function.update_eq_self c noInputs

theorem Good.logged {t : Tx} {es : List EntryRecord} (h : Good seen tx) (hlog : Logged tx t es []) :
    Good seen t ∧ t.store = tx.store := by
  refine ⟨⟨h.sound.logged hlog, ?_⟩, ?_⟩ <;> obtain ⟨n, hn, rfl⟩ := hlog
  · exact h.owners
  · rfl

/-- The transaction is good, with the tasks and runs that it had. -/
structure Grown (seen : TaskId → Bool) (tx t : Tx) : Prop where
  good : Good seen t
  store : t.store = tx.store
  tasks : tx.tasks ⊆ t.tasks
  run : ∀ c run, (tx.live c).run = some run → (t.live c).run = some run

theorem Grown.of_before {t t' : Tx} (h : Grown seen t t') (hstore : t.store = tx.store)
    (htasks : t.tasks = tx.tasks) (hlive : t.live = tx.live) : Grown seen tx t' where
  good := h.good
  store := h.store.trans hstore
  tasks _ ht := h.tasks (htasks ▸ ht)
  run c run hrun := h.run c run (hlive ▸ hrun)

/-- A run that starts when none is going leaves the other tasks and runs as they were. -/
theorem grown_startRun {users : List SubmissionId} (h : Sound (only c users) tx)
    (howners : Owners seen tx.tasks tx.live) (hidle : (tx.live c).run = none)
    (hseen : seen tx.nextId) :
    Yields (startRun c users) tx fun _ t => Grown seen tx t := by
  refine ((sound_startRun h hidle).and yields_startRun).mono ?_
  rintro _ t ⟨hsound, rfl⟩
  refine ⟨⟨hsound, howners.start ?_ hseen⟩, rfl, List.subset_append_left _ _, ?_⟩
  · rw [runTask, hidle]
    rfl
  · intro c' run hrun
    have hc : c' ≠ c := by
      rintro rfl
      rw [hidle] at hrun
      cases hrun
    dsimp only
    rwa [Function.update_of_ne hc]

theorem item_key (body : SubmissionBody) (id : SubmissionId) :
    (body.item id).key = (id, body.type) := by
  cases body with
  | input content whenBusy =>
    simp only [SubmissionBody.item]
    split <;> rfl
  | write entry => rfl

theorem yields_queueSubmission {draft : SubmissionDraft} :
    Yields (queueSubmission c draft) tx fun id t => id = tx.nextId ∧ t = { tx with
      nextId := tx.nextId + 1
      created := tx.created ++ [⟨tx.nextId, c, draft.requestId, draft.body.type, .queued⟩]
      inbox := Function.update tx.inbox c (tx.inbox c ++ [draft.body.item tx.nextId]) } := by
  refine yields_createSubmission.bind ?_
  rintro _ _ ⟨rfl, rfl⟩
  refine yields_get_bind (yields_modify_bind (yields_pure ⟨rfl, rfl⟩))

theorem good_queueSubmission {draft : SubmissionDraft} (h : Good seen tx)
    (hnew : NewRequest tx c draft.requestId) :
    Yields (queueSubmission c draft) tx fun _ t => Good seen t ∧ t.store = tx.store ∧
      t.tasks = tx.tasks ∧ t.live = tx.live ∧ tx.nextId ≤ t.nextId := by
  refine yields_queueSubmission.mono ?_
  rintro _ t ⟨rfl, rfl⟩
  exact ⟨⟨sound_create_queued h.sound rfl hnew rfl (item_key _ _), h.owners⟩, rfl, rfl, rfl,
    Nat.le_succ _⟩

/-- Stored records are all there is before the first creation. -/
theorem newRequest_of_find {requestId : Option Str} (hfresh : tx.rows = tx.store.submissions)
    (hfind : requestId.bind (tx.store.submissionByRequest c) = none) :
    NewRequest tx c requestId := by
  intro hsome r hr hc heq
  obtain ⟨request, rfl⟩ := Option.isSome_iff_exists.mp hsome
  have := List.find?_eq_none.mp hfind r (hfresh ▸ hr)
  simp [hc, heq] at this

/-- A submission that is queued first and placed by the boundary keeps the tasks and runs. -/
theorem grown_placeSubmissionQueued {boundary : Boundary} {draft : SubmissionDraft} {now : Nat}
    (h : Good seen tx) (hnew : NewRequest tx boundary.conversationId draft.requestId)
    (hidle : (tx.live boundary.conversationId).run = none) (hseen : ∀ id ≥ tx.nextId, seen id) :
    Yields (placeSubmissionQueued boundary draft now) tx fun _ t =>
      Grown seen tx t := by
  refine (good_queueSubmission h hnew).bind ?_
  rintro _ t ⟨hgood, hstore, htasks₀, hlive, hqueued⟩
  refine (sound_applyBoundary hgood.sound).bind ?_
  rintro result t' ⟨hsound, htasks, hlive', hstore', hnext⟩
  have howners : Owners seen t'.tasks t'.live := by
    rw [htasks, hlive']
    exact hgood.owners
  have hstored : t'.store = tx.store := hstore'.trans hstore
  have htasked : t'.tasks = tx.tasks := htasks.trans htasks₀
  have hlived : t'.live = tx.live := hlive'.trans hlive
  split
  · refine (grown_startRun hsound howners ?_ (hseen _ (Nat.le_trans hqueued hnext))).bind ?_
    · rw [hlived]
      exact hidle
    · exact fun _ t'' ht'' => yields_pure (ht''.of_before hstored htasked hlived)
  next husers =>
    rw [not_not] at husers
    rw [husers, only_nil] at hsound
    refine yields_pure ⟨⟨hsound, howners⟩, hstored, fun _ ht => htasked ▸ ht, fun c run hrun => ?_⟩
    rwa [hlived]

/-- A submission that is placed at once keeps the tasks and runs. -/
theorem grown_placeSubmissionNow {boundary : Boundary} {draft : SubmissionDraft} {now : Nat}
    (h : Good seen tx) (hnew : NewRequest tx boundary.conversationId draft.requestId)
    (hidle : (tx.live boundary.conversationId).run = none) (hseen : ∀ id ≥ tx.nextId, seen id) :
    Yields (placeSubmissionNow boundary draft now) tx fun _ t =>
      Grown seen tx t := by
  unfold placeSubmissionNow
  obtain ⟨requestId, body⟩ := draft
  cases body with
  | write value =>
    dsimp only
    split
    · refine yields_createSubmission.mono ?_
      rintro _ t ⟨-, rfl⟩
      exact ⟨⟨sound_create_settled h.sound rfl hnew rfl, h.owners⟩, rfl, List.Subset.refl _,
        fun _ _ hrun => hrun⟩
    · refine yields_appendEntry.bind ?_
      rintro entry t ⟨hlog, -⟩
      have hgood := (h.logged hlog).1
      obtain ⟨n, hn, rfl⟩ := hlog
      refine yields_createSubmission.mono ?_
      rintro _ t ⟨-, rfl⟩
      exact ⟨⟨sound_create_settled hgood.sound rfl hnew rfl, h.owners⟩, rfl, List.Subset.refl _,
        fun _ _ hrun => hrun⟩
  | input content whenBusy =>
    refine yields_appendEntry.bind ?_
    rintro entry t ⟨hlog, -⟩
    have hgood := (h.logged hlog).1
    obtain ⟨n, hn, rfl⟩ := hlog
    refine yields_createSubmission.bind ?_
    rintro id _ ⟨rfl, rfl⟩
    have hplaced := sound_create_placed (r := ⟨id, boundary.conversationId, requestId, .input,
      .placed entry.id⟩) hgood.sound rfl hnew rfl rfl
    refine (grown_startRun hplaced h.owners hidle (hseen _ ?_)).bind fun _ t ht =>
      yields_pure (ht.of_before rfl rfl rfl)
    exact Nat.le_succ_of_le hn

/-- Every admission keeps the tasks and runs that there are. -/
theorem grown_admitSubmission {draft : SubmissionDraft} {now : Nat} {modes : QueueModes}
    {marker : Option EntryId} (h : Good seen tx) (hfresh : tx.rows = tx.store.submissions)
    (hseen : ∀ id ≥ tx.nextId, seen id) :
    Yields (admitSubmission c draft now modes marker) tx fun _ t =>
      Grown seen tx t := by
  refine yields_get_bind ?_
  cases hfind : draft.requestId.bind (tx.store.submissionByRequest c) with
  | some existing =>
    dsimp only
    split
    · exact yields_throw
    · exact yields_pure ⟨h, rfl, List.Subset.refl _, fun _ _ hrun => hrun⟩
  | none =>
    have hnew := newRequest_of_find hfresh hfind
    refine yields_get_bind ?_
    split
    · refine yields_refuseIf_bind fun _ => (good_queueSubmission h hnew).mono ?_
      rintro _ t ⟨hgood, hstore, htasks, hlive, -⟩
      refine ⟨hgood, hstore, fun _ ht => htasks ▸ ht, fun c run hrun => ?_⟩
      rwa [hlive]
    next hbusy =>
      have hidle : (tx.live c).run = none := Option.not_isSome_iff_eq_none.mp hbusy
      refine yields_get_bind ?_
      split
      · exact grown_placeSubmissionQueued h hnew hidle hseen
      · exact grown_placeSubmissionNow h hnew hidle hseen

end Harness
