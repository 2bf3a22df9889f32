import ContextCompaction.Harness.Sessions

/-!
# Boundaries of a session

Which commits end at a boundary, and what it leaves of the inbox.

* `BoundaryCall.Selects`: the items that it takes out, by their kind, their place and the modes.
* `BoundaryEffect`: queued writes are placed or stale, the user items among them are placed, each at
  the entry made from it, and the rest waits.
-/

namespace Harness

open Js Program SubmissionStatus Sequences Transition

variable {s s' : Store} {tx t : Tx} {c : ConversationId}

/-! ## What comes around a boundary -/

/-- The transaction has appended entries and staged changes; its inboxes are the same. -/
structure Onward (tx t : Tx) : Prop where
  entries : tx.entries ⊆ t.entries
  changes : tx.changes ⊆ t.changes
  rows : tx.rows ⊆ t.rows
  inbox : t.inbox = tx.inbox

theorem Onward.refl (tx : Tx) : Onward tx tx :=
  ⟨List.Subset.refl _, List.Subset.refl _, List.Subset.refl _, rfl⟩

theorem Onward.trans {t' : Tx} (h : Onward tx t) (h' : Onward t t') : Onward tx t' :=
  ⟨List.Subset.trans h.entries h'.entries, List.Subset.trans h.changes h'.changes,
    List.Subset.trans h.rows h'.rows, h'.inbox.trans h.inbox⟩

/-- Tasks, runs and identities are no part of it. -/
theorem Onward.of_eq (hentries : t.entries = tx.entries) (hchanges : t.changes = tx.changes)
    (hrows : t.rows = tx.rows) (hinbox : t.inbox = tx.inbox) : Onward tx t :=
  ⟨fun _ h => hentries ▸ h, fun _ h => hchanges ▸ h, fun _ h => hrows ▸ h, hinbox⟩

theorem Logged.onward {es : List EntryRecord} {cs : List (SubmissionId × SubmissionChange)}
    (h : Logged tx t es cs) : Onward tx t := by
  obtain ⟨n, -, rfl⟩ := h
  exact ⟨List.subset_append_left _ _, List.subset_append_left _ _, List.Subset.refl _, rfl⟩

theorem onward_appendEntry {draft : EntryDraft} :
    Yields (appendEntry c draft) tx fun _ t => Onward tx t :=
  yields_appendEntry.mono fun _ _ ht => ht.1.onward

theorem onward_appendEntries {drafts : List EntryDraft} :
    Yields (appendEntries c drafts) tx fun _ t => Onward tx t :=
  yields_appendEntries.mono fun _ _ ⟨_, ht⟩ => ht.onward

theorem onward_appendHandoff {boundary : Boundary} {handoff : Option Str} {now : Nat} :
    Yields (appendHandoff boundary handoff now) tx fun boundary' t => Onward tx t ∧
      boundary'.conversationId = boundary.conversationId ∧ boundary'.modes = boundary.modes := by
  cases handoff with
  | none => exact yields_pure ⟨Onward.refl tx, rfl, rfl⟩
  | some message => exact onward_appendEntry.bind fun _ _ ht => yields_pure ⟨ht, rfl, rfl⟩

theorem onward_startRun {users : List SubmissionId} :
    Yields (startRun c users) tx fun _ t => Onward tx t := by
  refine yields_startRun.mono ?_
  rintro _ t rfl
  exact Onward.of_eq rfl rfl rfl rfl

theorem onward_setLive {f : LiveState → LiveState} :
    Yields (do let live ← liveDoc c; setLive c (f live)) tx fun _ t => Onward tx t :=
  yields_get_bind (yields_modify (Onward.of_eq rfl rfl rfl rfl))

theorem onward_pushInputs {taskId : TaskId} {users : List SubmissionId} :
    Yields (pushInputs c taskId users) tx fun _ t => Onward tx t := onward_setLive

theorem onward_setGeneration {generation : Option GenerationState} :
    Yields (setGeneration c generation) tx fun _ t => Onward tx t := onward_setLive

theorem onward_handOver {source target : TaskId} :
    Yields (handOver c source target) tx fun _ t => Onward tx t := onward_setLive

theorem onward_endRun {taskId : TaskId} {settlement : SubmissionSettlement} :
    Yields (endRun c taskId settlement) tx fun _ t => Onward tx t := by
  refine yields_get_bind ?_
  split
  · refine yields_settleAll.bind ?_
    rintro _ t rfl
    exact yields_modify ⟨List.Subset.refl _, List.subset_append_left _ _, List.Subset.refl _, rfl⟩
  · exact yields_modify (Onward.of_eq rfl rfl rfl rfl)

theorem onward_endAndStart {task : TaskRecord} {settlement : SubmissionSettlement}
    {users : List SubmissionId} :
    Yields (endAndStart task settlement users) tx fun _ t => Onward tx t := by
  refine onward_endRun.bind fun _ t ht => ?_
  split
  · exact onward_startRun.mono fun _ t' ht' => ht.trans ht'
  · exact yields_pure ht

theorem onward_handOverToSuccessor {task : TaskRecord} :
    Yields (handOverToSuccessor task) tx fun _ t => Onward tx t := by
  refine yields_createTask.bind ?_
  rintro _ t ⟨-, rfl⟩
  refine onward_handOver.mono fun _ t' ht' => Onward.trans ?_ ht'
  exact Onward.of_eq rfl rfl rfl rfl

theorem onward_continueRun {task : TaskRecord} {content : Json} {now : Nat} :
    Yields (continueRun task content now) tx fun _ t => Onward tx t :=
  onward_appendEntry.bind fun _ _ ht => onward_handOverToSuccessor.bind fun _ _ ht' =>
    onward_setGeneration.mono fun _ _ ht'' => (ht.trans ht').trans ht''

theorem onward_setTask {value : TaskRecord} : Yields (setTask value) tx fun _ t => Onward tx t := by
  refine yields_setTask.mono ?_
  rintro _ t rfl
  exact Onward.of_eq rfl rfl rfl rfl

/-! ## The boundary of a commit -/

/-- A boundary, and the items that it finds. -/
structure BoundaryCall where
  conversationId : ConversationId
  modes : QueueModes
  place : BoundaryAt
  now : Nat
  items : List InboxItem

def BoundaryCall.final (b : BoundaryCall) : Bool := isFinal b.place b.items

/-- A boundary is final where it is asked to be, and where a reset waits. -/
def BoundaryCall.Final (b : BoundaryCall) : Prop :=
  b.place = .final ∨ ∃ id draft, .write id draft ∈ b.items ∧ draft.head = some .self

/-- The items that a boundary takes out of the inbox: every write, all steers or the first one, and
at a final boundary all follow-ups or the first one. -/
inductive BoundaryCall.Selects (b : BoundaryCall) (i : Nat) : Prop
  | write (id : SubmissionId) (draft : EntryDraft) (hitem : b.items[i]? = some (.write id draft))
  | steer (id : SubmissionId) (content : Json) (hitem : b.items[i]? = some (.steer id content))
      (hfirst : b.modes.steeringMode = .oneAtATime →
        ∀ j < i, ∀ id content, b.items[j]? ≠ some (.steer id content))
  | followUp (id : SubmissionId) (content : Json) (hfinal : b.Final)
      (hitem : b.items[i]? = some (.followUp id content))
      (hfirst : b.modes.followUpMode = .oneAtATime →
        ∀ j < i, ∀ id content, b.items[j]? ≠ some (.followUp id content))

theorem BoundaryCall.final_iff {b : BoundaryCall} : b.final ↔ b.Final := by
  rw [BoundaryCall.final, isFinal, Bool.or_eq_true, decide_eq_true_iff, List.any_eq_true]
  refine or_congr Iff.rfl ⟨?_, ?_⟩
  · rintro ⟨item, hitem, hreset⟩
    cases item with
    | write id draft => exact ⟨id, draft, hitem, of_decide_eq_true hreset⟩
    | steer | followUp => cases hreset
  · rintro ⟨id, draft, hitem, hreset⟩
    exact ⟨_, hitem, decide_eq_true hreset⟩

theorem isSteer_iff {item : InboxItem} : item.isSteer ↔ ∃ id content, item = .steer id content := by
  cases item <;> simp [InboxItem.isSteer]

theorem isFollowUp_iff {item : InboxItem} :
    item.isFollowUp ↔ ∃ id content, item = .followUp id content := by
  cases item <;> simp [InboxItem.isFollowUp]

/-- The code removes exactly the items that a boundary selects. -/
theorem BoundaryCall.mem_selected {b : BoundaryCall} {i : Nat} :
    i ∈ selected b.modes b.final b.items ↔ b.Selects i := by
  rw [selected, List.mem_append, mem_selectedUsers, mem_pick, mem_pick, b.final_iff]
  simp only [isSteer_iff, isFollowUp_iff]
  constructor
  · rintro (h | ⟨⟨_, hitem, id, content, rfl⟩, hfirst⟩ |
      ⟨hfinal, ⟨_, hitem, id, content, rfl⟩, hfirst⟩)
    · obtain ⟨id, draft, hitem⟩ := write_of_index h
      exact .write id draft hitem
    · exact .steer id content hitem fun hmode j hj id content hitem' =>
        hfirst hmode j hj _ hitem' ⟨id, content, rfl⟩
    · exact .followUp id content hfinal hitem fun hmode j hj id content hitem' =>
        hfirst hmode j hj _ hitem' ⟨id, content, rfl⟩
  · intro h
    cases h with
    | write id draft hitem => exact .inl (mem_indexes.mpr ⟨_, hitem, rfl⟩)
    | steer id content hitem hfirst =>
      refine .inr (.inl ⟨⟨_, hitem, id, content, rfl⟩, fun hmode j hj item hitem' => ?_⟩)
      rintro ⟨id, content, rfl⟩
      exact hfirst hmode j hj id content hitem'
    | followUp id content hfinal hitem hfirst =>
      refine .inr (.inr ⟨hfinal, ⟨_, hitem, id, content, rfl⟩, fun hmode j hj item hitem' => ?_⟩)
      rintro ⟨id, content, rfl⟩
      exact hfirst hmode j hj id content hitem'

/-- The user items among them. -/
theorem BoundaryCall.mem_selectedUsers {b : BoundaryCall} {i : Nat} {id : SubmissionId}
    {content : Json} (h : b.Selects i)
    (huser : b.items[i]? = some (.steer id content) ∨ b.items[i]? = some (.followUp id content)) :
    i ∈ selectedUsers b.modes b.final b.items ∧
      b.items[i]?.bind InboxItem.user? = some (id, content) := by
  refine ⟨?_, by rcases huser with h | h <;> rw [h] <;> rfl⟩
  rcases List.mem_append.mp (mem_selected.mpr h) with hwrite | hmem
  · obtain ⟨_, _, hitem⟩ := write_of_index hwrite
    rw [hitem] at huser
    rcases huser with huser | huser <;> cases huser
  · exact hmem

/-- An admission to an idle conversation ends at a boundary where others wait. -/
def admissionBoundary (s : Store) (c : ConversationId) (draft : SubmissionDraft) (now : Nat)
    (modes : QueueModes) : Option BoundaryCall :=
  if (draft.requestId.bind (s.submissionByRequest c)).isSome ∨ (s.live c).run.isSome ∨
      (s.inbox c).isEmpty then none
  else some ⟨c, modes, .final, now, s.inbox c ++ [draft.body.item s.nextId]⟩

def Commit.boundary (s : Store) : Commit → Option BoundaryCall
  | .admitSubmission c draft now modes _ => admissionBoundary s c draft now modes
  | .placeSummary taskId blocking requestId entry now modes _ _ =>
    (s.tasks.find? (·.id = taskId)).bind fun task =>
      if blocking then none
      else admissionBoundary s task.conversationId ⟨some requestId, .write entry⟩ now modes
  | .generation taskId (.answer _ _ now modes _) _ =>
    (s.tasks.find? (·.id = taskId)).map fun task =>
      ⟨task.conversationId, modes, .final, now, s.inbox task.conversationId⟩
  | .generation taskId (.finishToolRound _ _ terminate handoff now modes _) _ =>
    (s.tasks.find? (·.id = taskId)).map fun task =>
      ⟨task.conversationId, modes, if terminate ∨ handoff.isSome then .final else .postTools, now,
        s.inbox task.conversationId⟩
  | _ => none

/-- The transaction has a boundary behind it. -/
structure Marked (b : BoundaryCall) (t : Tx) : Prop where
  log : ∃ es cs, BoundaryLog b.conversationId b.modes b.final b.now b.items es cs ∧
    es ⊆ t.entries ∧ cs ⊆ t.changes
  inbox : t.inbox b.conversationId = without b.items (selected b.modes b.final b.items)
  rows : ∀ item ∈ b.items, ∃ r ∈ t.rows, r.id = item.id ∧ r.type = item.type ∧ r.status.isQueued

theorem Marked.onward {b : BoundaryCall} {t' : Tx} (h : Marked b t) (ht : Onward t t') :
    Marked b t' where
  log := by
    obtain ⟨es, cs, hlog, hes, hcs⟩ := h.log
    exact ⟨es, cs, hlog, List.Subset.trans hes ht.entries, List.Subset.trans hcs ht.changes⟩
  inbox := by rw [ht.inbox, h.inbox]
  rows item hitem := by
    obtain ⟨r, hr, hrow⟩ := h.rows item hitem
    exact ⟨r, ht.rows hr, hrow⟩

theorem marked_applyBoundary {boundary : Boundary} {place : BoundaryAt} {now : Nat}
    {pending : ConversationId → List SubmissionId} (h : Sound pending tx) :
    Yields (applyBoundary boundary place now) tx fun _ t => Marked
      ⟨boundary.conversationId, boundary.modes, place, now, tx.inbox boundary.conversationId⟩ t := by
  refine (yields_applyBoundary rfl).mono ?_
  rintro _ t ⟨n, es, cs, -, rfl, hlog, -⟩
  refine ⟨⟨es, cs, hlog, List.subset_append_right _ _, List.subset_append_right _ _⟩,
    Function.update_self .., fun item hitem => ?_⟩
  obtain ⟨-, r, hr, hid, -, htype, hq⟩ := h.filed.of_mem hitem
  exact ⟨r, hr, hid, htype, hq⟩

/-- An admission leaves the marks of the boundary that it takes. -/
theorem marked_admitSubmission {draft : SubmissionDraft} {now : Nat} {modes : QueueModes}
    {marker : Option EntryId} {b : BoundaryCall} (h : Fresh tx) (hinbox : tx.inbox = tx.store.inbox)
    (hlive : tx.live = tx.store.live) (hnext : tx.nextId = tx.store.nextId)
    (hb : admissionBoundary tx.store c draft now modes = some b) :
    Yields (admitSubmission c draft now modes marker) tx fun _ t => Marked b t := by
  unfold admissionBoundary at hb
  split at hb
  · cases hb
  next hcond =>
    cases hb
    simp only [not_or, Bool.not_eq_true, Option.isSome_eq_false_iff, Option.isNone_iff_eq_none] at hcond
    obtain ⟨hfind, hidle, hitems⟩ := hcond
    refine yields_get_bind ?_
    rw [hfind]
    refine yields_get_bind ?_
    rw [hlive, hidle]
    refine yields_get_bind ?_
    have hne : tx.inbox c ≠ [] := by
      rw [hinbox]
      intro heq
      rw [heq] at hitems
      cases hitems
    rw [if_pos hne]
    refine (yields_queueSubmission.and (good_queueSubmission h.good
      (newRequest_of_find h.rows hfind))).bind ?_
    rintro _ t ⟨⟨rfl, ht⟩, hgood, -⟩
    have hitem : t.inbox c = tx.store.inbox c ++ [draft.body.item tx.store.nextId] := by
      rw [ht, hinbox, hnext]
      exact Function.update_self ..
    refine (marked_applyBoundary hgood.sound).bind fun result t' hmarked => ?_
    rw [show t.inbox (prepareBoundary c modes marker).conversationId = _ from hitem] at hmarked
    split
    · exact onward_startRun.bind fun _ t'' ht'' => yields_pure (hmarked.onward ht'')
    · exact yields_pure hmarked

/-- The boundary of a transaction whose inboxes are still those of another one. -/
theorem marked_boundary {boundary : Boundary} {place : BoundaryAt} {now : Nat} {modes : QueueModes}
    {pending : ConversationId → List SubmissionId} (h : Sound pending t) (hinbox : t.inbox = tx.inbox)
    (hc : boundary.conversationId = c) (hmodes : boundary.modes = modes) :
    Yields (applyBoundary boundary place now) t fun _ t' =>
      Marked ⟨c, modes, place, now, tx.inbox c⟩ t' := by
  subst hc hmodes
  rw [← hinbox]
  exact marked_applyBoundary h

theorem marked_answer {task : TaskRecord} {message : Json} {continuation : Option Json} {now : Nat}
    {modes : QueueModes} {marker : Option EntryId} (h : Good everyTask tx) :
    Yields (answer task message continuation now modes marker) tx fun _ t =>
      Marked ⟨task.conversationId, modes, .final, now, tx.inbox task.conversationId⟩ t := by
  refine ((kept_appendEntry h).and onward_appendEntry).bind ?_
  rintro entry t ⟨ht, honward⟩
  refine (marked_boundary ht.good.sound honward.inbox rfl rfl).bind fun result t' hmarked => ?_
  split
  · exact onward_continueRun.mono fun _ t'' ht'' => hmarked.onward ht''
  · exact onward_endAndStart.mono fun _ t'' ht'' => hmarked.onward ht''

/-- The end of a tool round leaves the marks of its boundary. -/
theorem marked_finishToolRound {task : TaskRecord} {assistant : EntryId} {added : List EntryDraft}
    {terminate : Bool} {handoff : Option Str} {now : Nat} {modes : QueueModes}
    {marker : Option EntryId} (h : Good everyTask tx) :
    Yields (finishToolRound task assistant added terminate handoff now modes marker) tx
      fun _ t => Marked ⟨task.conversationId, modes,
        if terminate ∨ handoff.isSome then .final else .postTools, now,
        tx.inbox task.conversationId⟩ t := by
  refine ((kept_appendEntries h).and onward_appendEntries).bind ?_
  rintro _ t ⟨ht, honward⟩
  split
  · refine ((kept_appendHandoff ht.good).and onward_appendHandoff).bind ?_
    rintro boundary t' ⟨⟨ht', -⟩, honward', hc, hmodes⟩
    refine (marked_boundary ht'.good.sound (honward.trans honward').inbox hc hmodes).bind ?_
    intro result t'' hmarked
    exact onward_endAndStart.mono fun _ t''' ht''' => hmarked.onward ht'''
  · refine (marked_boundary ht.good.sound honward.inbox rfl rfl).bind fun result t' hmarked => ?_
    split
    · exact onward_endAndStart.mono fun _ t'' ht'' => hmarked.onward ht''
    · refine onward_pushInputs.bind fun _ t'' ht'' => ?_
      exact onward_handOverToSuccessor.mono fun _ t''' ht''' =>
        (hmarked.onward ht'').onward ht'''

theorem gated_find {taskId : TaskId} {abort : Bool} :
    Yields (gated taskId abort) tx fun record t =>
      t = tx ∧ tx.store.tasks.find? (·.id = taskId) = some record := by
  refine yields_get_bind ?_
  cases hfind : tx.store.tasks.find? (·.id = taskId) with
  | none => exact yields_throw
  | some record =>
    exact yields_refuseIf_bind fun _ => yields_refuseIf_bind fun _ => yields_pure ⟨rfl, rfl⟩

/-- A generation's commit leaves the marks of the boundary that it takes. -/
theorem marked_generation {taskId : TaskId} {commit : GenerationCommit} {held : Bool}
    {b : BoundaryCall} (h : Good everyTask (begin s (some taskId)))
    (hb : (Commit.generation taskId commit held).boundary s = some b) :
    Yields (generationCommit taskId commit held) (begin s (some taskId)) fun _ t => Marked b t := by
  refine gated_find.bind ?_
  rintro record _ ⟨rfl, hfind⟩
  change s.tasks.find? _ = _ at hfind
  refine yields_refuseIf_bind fun _ => ?_
  cases commit with
  | answer message continuation now modes marker =>
    simp only [Commit.boundary, hfind, Option.map_some, Option.some.injEq] at hb
    subst hb
    refine Yields.bind (Q := fun next t => next.isSome ∧ Marked _ t)
      ((marked_answer h).bind fun _ t ht => yields_pure ⟨rfl, ht⟩) ?_
    rintro (_ | next) t ⟨hnext, ht⟩
    · cases hnext
    · exact onward_setTask.mono fun _ t' ht' => ht.onward ht'
  | finishToolRound assistant added terminate handoff now modes marker =>
    simp only [Commit.boundary, hfind, Option.map_some, Option.some.injEq] at hb
    subst hb
    refine Yields.bind (Q := fun next t => next.isSome ∧ Marked _ t)
      ((marked_finishToolRound h).bind fun _ t ht => yields_pure ⟨rfl, ht⟩) ?_
    rintro (_ | next) t ⟨hnext, ht⟩
    · cases hnext
    · exact onward_setTask.mono fun _ t' ht' => ht.onward ht'
  | _ => cases hb

/-- Every commit with a boundary leaves its marks. -/
theorem marked_callback (h : SessionInvariant s) {commit : Commit} {b : BoundaryCall}
    (hb : commit.boundary s = some b) :
    Yields commit.callback (begin s commit.scope) fun _ t => Marked b t := by
  have hfresh := h.fresh commit.scope
  cases commit with
  | admitSubmission c draft now modes marker =>
    exact (marked_admitSubmission hfresh rfl rfl rfl hb).bind fun _ t ht => yields_pure ht
  | placeSummary taskId blocking requestId entry now modes marker held =>
    obtain ⟨task, hfind, hb⟩ := Option.bind_eq_some_iff.mp hb
    refine gated_find.bind ?_
    rintro record _ ⟨rfl, hfind'⟩
    cases hfind.symm.trans hfind'
    refine yields_refuseIf_bind fun _ => ?_
    refine Yields.bind (Q := fun _ t => Marked b t) ?_ fun _ t ht =>
      onward_setTask.mono fun _ t' ht' => ht.onward ht'
    unfold placeSummary
    split
    next hblocking =>
      rw [if_pos hblocking] at hb
      cases hb
    next hblocking =>
      rw [if_neg hblocking] at hb
      exact (marked_admitSubmission hfresh rfl rfl rfl hb).bind fun _ t ht => yields_pure ht
  | generation taskId commit held => exact marked_generation hfresh.good hb
  | _ => cases hb

/-! ## What a boundary leaves -/

/-- A submission of this status. -/
def HasStatus (s : Store) (id : SubmissionId) (status : SubmissionStatus) : Prop :=
  ∃ r ∈ s.submissions, r.id = id ∧ r.status = status

/-- Queued writes are stale, or at their entries; the selected user items are placed at entries made
from them; the items that are not selected wait, in their order. -/
structure BoundaryEffect (b : BoundaryCall) (s' : Store) : Prop where
  inbox : ∃ removed, (∀ i, i ∈ removed ↔ b.Selects i) ∧
    s'.inbox b.conversationId = without b.items removed
  writes : ∀ id draft, .write id draft ∈ b.items →
    (HasStatus s' id (.unanswered none (lit "stale") none) ∧
      ∃ target, draft.head = some (.entry target)) ∨
    ∃ e ∈ s'.entries, HasStatus s' id (.done e.id none) ∧ MadeFrom b.conversationId draft e
  users : ∀ i id content, b.Selects i →
    b.items[i]? = some (.steer id content) ∨ b.items[i]? = some (.followUp id content) →
    ∃ e ∈ s'.entries, HasStatus s' id (.placed e.id) ∧
      MadeFrom b.conversationId (userEntry content b.now) e

theorem mem_entries (hgood : Good everyTask tx) (hassemble : tx.assemble = .ok s') {e : EntryRecord}
    (he : e ∈ tx.entries) : e ∈ s'.entries := by
  rw [assemble_good hgood] at hassemble
  cases hassemble
  exact List.mem_append_right _ he

/-- A changed record ends as its change leaves it. -/
theorem hasStatus (hgood : Good everyTask tx) (hassemble : tx.assemble = .ok s')
    {r : SubmissionRecord} (hr : r ∈ tx.rows) {change : SubmissionChange}
    (hp : (r.id, change) ∈ tx.changes) : HasStatus s' r.id (nextStatus r change) := by
  have hout := outcome_of_mem hgood.sound.rows.once hp
  rw [assemble_good hgood] at hassemble
  cases hassemble
  exact ⟨_, List.mem_map_of_mem hr, outcome_id, by rw [hout]; rfl⟩

/-- The marks a boundary leaves in a transaction have their effect in the store it assembles. -/
theorem boundary_effect {b : BoundaryCall} (hmarked : Marked b tx) (hgood : Good everyTask tx)
    (hassemble : tx.assemble = .ok s') : BoundaryEffect b s' where
  inbox := by
    rw [assemble_good hgood] at hassemble
    cases hassemble
    exact ⟨_, fun _ => BoundaryCall.mem_selected, hmarked.inbox⟩
  writes id draft hitem := by
    obtain ⟨es, cs, hlog, hes, hcs⟩ := hmarked.log
    obtain ⟨r, hr, hid, htype, hq⟩ := hmarked.rows _ hitem
    change r.id = id at hid
    subst hid
    rcases hlog.writes r.id draft hitem with ⟨hp, htarget⟩ | ⟨e, he, hp, hmade⟩
    · refine .inl ⟨?_, htarget⟩
      have hstatus := hasStatus hgood hassemble hr (hcs hp)
      rwa [nextStatus.eq_def, stale, eq_queued hq] at hstatus
    · refine .inr ⟨e, mem_entries hgood hassemble (hes he), ?_, hmade⟩
      have hstatus := hasStatus hgood hassemble hr (hcs hp)
      rwa [nextStatus, htype] at hstatus
  users i id content hselects huser := by
    obtain ⟨hi, huser⟩ := BoundaryCall.mem_selectedUsers hselects huser
    obtain ⟨es, cs, hlog, hes, hcs⟩ := hmarked.log
    obtain ⟨item, hitem, hu⟩ := Option.bind_eq_some_iff.mp huser
    obtain ⟨rfl, hinput⟩ := user?_eq_some hu
    obtain ⟨r, hr, hid, htype, -⟩ := hmarked.rows item (List.mem_of_getElem? hitem)
    obtain ⟨e, he, hp, hmade⟩ := hlog.users i hi _ _ huser
    refine ⟨e, mem_entries hgood hassemble (hes he), ?_, hmade⟩
    rw [← hid] at hp ⊢
    have hstatus := hasStatus hgood hassemble hr (hcs hp)
    rwa [nextStatus, htype, hinput] at hstatus

/-! ## The inbox and the table -/

theorem SessionInvariant.agree (h : SessionInvariant s) (c : ConversationId) :
    (s.submissions.filter fun r => r.conversationId = c ∧ r.status.isQueued).map (·.id) =
      (s.inbox c).map InboxItem.id ∧ ((s.inbox c).map InboxItem.id).Pairwise (· < ·) := by
  have hfiled := h.sound.filed c
  refine ⟨?_, h.sound.filed.ascending h.sound.rows⟩
  have hkeys := congrArg (List.map Prod.fst) hfiled
  rw [rows_begin] at hkeys
  simpa [queue, begin, InboxItem.key, Function.comp_def] using hkeys.symm

theorem moves_commit (h : SessionInvariant s) {commit : Commit} (hrun : commit.run s = .ok s')
    {r : SubmissionRecord} (hr : r ∈ s.submissions) : ∃ r' ∈ s'.submissions, r'.id = r.id ∧
      r'.conversationId = r.conversationId ∧ r'.requestId = r.requestId ∧ r'.type = r.type ∧
      r.status.Moves r'.status := by
  obtain ⟨tx, hexec, hassemble⟩ := run_ok hrun
  have hmade := commit_made h hexec
  obtain ⟨hmem, hout⟩ := outcome_mem hmade.good hmade.store hassemble hr
  refine ⟨_, hout, outcome_id, outcome_conversationId, outcome_requestId, outcome_type, ?_⟩
  by_cases hchanged : r.id ∈ tx.changes.map Prod.fst
  · obtain ⟨change, hp⟩ := mem_changed hchanged
    rw [outcome_of_mem hmade.good.sound.rows.once hp]
    exact nextStatus_moves (hmade.good.sound.rows.legal_of_mem hmem hp)
  · rw [outcome_of_not_mem hchanged]
    exact .stay _

theorem eq_of_request (h : SessionInvariant s) {r r' : SubmissionRecord} (hr : r ∈ s.submissions)
    (hr' : r' ∈ s.submissions) (hc : r.conversationId = r'.conversationId)
    (hrequest : r.requestId = r'.requestId) (hsome : r.requestId.isSome) : r = r' := by
  have hrequests := h.sound.rows.requests
  rw [rows_begin] at hrequests
  by_contra hne
  have hsym : Std.Symm fun r r' : SubmissionRecord =>
      r.conversationId = r'.conversationId → r.requestId.isSome → r.requestId ≠ r'.requestId :=
    ⟨fun a b hab hc hsome heq => hab hc.symm (heq ▸ hsome) heq.symm⟩
  exact hrequests.forall hr hr' hne hc hsome hrequest

/-- In every state of a session the queued submissions of a conversation are the items of its inbox,
each once and by ascending identity. A boundary places its writes and the user items it selects. A
submission's status only moves forward, and a request has one submission. -/
theorem inbox_agrees_with_submissions (h : SessionSystem.Reach s) :
    (∀ c, (s.submissions.filter fun r => r.conversationId = c ∧ r.status.isQueued).map (·.id) =
      (s.inbox c).map InboxItem.id ∧ ((s.inbox c).map InboxItem.id).Pairwise (· < ·)) ∧
    (∀ commit s', Commit.run commit s = .ok s' →
      (∀ b, commit.boundary s = some b → BoundaryEffect b s') ∧
      ∀ r ∈ s.submissions, ∃ r' ∈ s'.submissions, r'.id = r.id ∧
        r'.conversationId = r.conversationId ∧ r'.requestId = r.requestId ∧ r'.type = r.type ∧
        r.status.Moves r'.status) ∧
    ∀ r ∈ s.submissions, ∀ r' ∈ s.submissions, r.conversationId = r'.conversationId →
      r.requestId = r'.requestId → r.requestId.isSome → r = r' := by
  have hinv := session_inductive.reach h
  refine ⟨hinv.agree, fun commit s' hrun => ⟨fun b hb => ?_, fun r => moves_commit hinv hrun⟩,
    fun r hr r' hr' => eq_of_request hinv hr hr'⟩
  obtain ⟨tx, hexec, hassemble⟩ := run_ok hrun
  have hmarked := marked_callback hinv hb () tx hexec
  exact boundary_effect hmarked (commit_made hinv hexec).good hassemble

/-- Two steers and a follow-up wait with a write; another steer is withdrawn. -/
def waitingCommits : List Commit :=
  sampleCommits ++
    [.admitSubmission 1 ⟨none, .input (.str (lit "wait")) (some .steer)⟩ 30 ⟨.all, .all⟩ none,
      .admitSubmission 1 ⟨none, .input (.str (lit "then")) none⟩ 40 ⟨.all, .all⟩ none,
      .admitSubmission 1 ⟨none, .write ⟨lit "note", none, []⟩⟩ 50 ⟨.all, .all⟩ none,
      .admitSubmission 1 ⟨none, .input (.str (lit "also")) (some .steer)⟩ 60 ⟨.all, .all⟩ none,
      .abortSubmission 6 none]

/-- The end of a tool round, where one steer is placed at a time. -/
def toolRound : Commit :=
  .generation 4 (.finishToolRound 3 [] false none 70 ⟨.oneAtATime, .all⟩ none) false

/-- A run with two steers, a follow-up and a write that wait. -/
theorem waiting_items : ∃ more later note also, note.head ≠ some .self ∧
    (after waitingCommits (empty 1)).inbox 1 =
      [.steer 5 more, .followUp 7 later, .write 8 note, .steer 9 also] := by
  have hitems : ((after waitingCommits (empty 1)).inbox 1).map (fun item =>
      (item.id, item.isSteer, item.isFollowUp, item.isReset)) =
        [(5, true, false, false), (7, false, true, false), (8, false, false, false),
          (9, true, false, false)] := by
    decide +kernel
  generalize (after waitingCommits (empty 1)).inbox 1 = items at hitems
  obtain ⟨first, _, rfl, hfirst, hitems⟩ := List.map_eq_cons_iff.mp hitems
  obtain ⟨second, _, rfl, hsecond, hitems⟩ := List.map_eq_cons_iff.mp hitems
  obtain ⟨third, _, rfl, hthird, hitems⟩ := List.map_eq_cons_iff.mp hitems
  obtain ⟨fourth, _, rfl, hfourth, hitems⟩ := List.map_eq_cons_iff.mp hitems
  obtain rfl := List.map_eq_nil_iff.mp hitems
  simp only [Prod.mk.injEq] at hfirst hsecond hthird hfourth
  obtain ⟨id, more, rfl⟩ := isSteer_iff.mp hfirst.2.1
  obtain ⟨id', later, rfl⟩ := isFollowUp_iff.mp hsecond.2.2.1
  obtain ⟨id'', also, rfl⟩ := isSteer_iff.mp hfourth.2.1
  obtain ⟨rfl, rfl, rfl⟩ := And.intro hfirst.1 (And.intro hsecond.1 hfourth.1)
  cases third with
  | write id note =>
    obtain rfl : id = 8 := hthird.1
    exact ⟨more, later, note, also, of_decide_eq_false hthird.2.2.2, rfl⟩
  | steer => cases hthird.2.1
  | followUp => cases hthird.2.2.1

/-- After tools one steer goes, every write, and no follow-up. -/
theorem selects_waiting {more later also : Json} {note : EntryDraft} (hnote : note.head ≠ some .self)
    {i : Nat} : BoundaryCall.Selects ⟨1, ⟨.oneAtATime, .all⟩, .postTools, 70,
      [.steer 5 more, .followUp 7 later, .write 8 note, .steer 9 also]⟩ i ↔ i ∈ [0, 2] := by
  constructor
  · rintro (⟨id, draft, hitem⟩ | ⟨id, content, hitem, hfirst⟩ | ⟨id, content, hfinal, -⟩)
    · rcases i with _ | _ | _ | _ | i <;> simp_all
    · rcases i with _ | _ | _ | _ | i <;> simp_all
      exact hfirst 0 (by simp) 5 more rfl
    · rcases hfinal with hplace | ⟨id, draft, hitem, hreset⟩
      · cases hplace
      · simp_all
  · intro hi
    rcases List.mem_cons.mp hi with rfl | hi
    · exact .steer 5 more rfl fun _ j hj => absurd hj (Nat.not_lt_zero j)
    · obtain rfl := List.mem_singleton.mp hi
      exact .write 8 note rfl

/-- A boundary after tools: the first steer is placed as an entry made from it, the follow-up and the
second steer stay queued. -/
theorem inbox_agrees_with_submissions_sample :
    (((after waitingCommits (empty 1)).submissions.filter fun r =>
        r.conversationId = 1 ∧ r.status.isQueued).map (·.id) = [5, 7, 8, 9]) ∧
      ∃ s', toolRound.run (after waitingCommits (empty 1)) = .ok s' ∧
        (s'.inbox 1).map InboxItem.id = [7, 9] ∧
        ∃ content e, ((after waitingCommits (empty 1)).inbox 1)[0]? = some (.steer 5 content) ∧
          e ∈ s'.entries ∧ HasStatus s' 5 (.placed e.id) ∧ MadeFrom 1 (userEntry content 70) e := by
  have hok : (toolRound.run (after waitingCommits (empty 1))).toOption.isSome := by
    decide +kernel
  have htask : ((after waitingCommits (empty 1)).tasks.find? (·.id = 4)).map (·.conversationId) =
      some 1 := by
    decide +kernel
  obtain ⟨more, later, note, also, hnote, hitems⟩ := waiting_items
  obtain ⟨hagree, hcommits, -⟩ :=
    inbox_agrees_with_submissions (reach_after waitingCommits (reach_empty 1))
  generalize after waitingCommits (empty 1) = s at *
  have hids := hagree 1
  rw [hitems] at hids ⊢
  obtain ⟨s', hrun⟩ : ∃ s', toolRound.run s = .ok s' := by
    cases hrun : toolRound.run s with
    | ok s' => exact ⟨s', rfl⟩
    | error e =>
      rw [hrun] at hok
      cases hok
  refine ⟨hids.1, s', hrun, ?_⟩
  obtain ⟨task, hfind, hc⟩ := Option.map_eq_some_iff.mp htask
  have hboundary : toolRound.boundary s =
      some ⟨1, ⟨.oneAtATime, .all⟩, .postTools, 70, s.inbox 1⟩ := by
    simp [toolRound, Commit.boundary, hfind, hc]
  rw [hitems] at hboundary
  have heffect := (hcommits toolRound s' hrun).1 _ hboundary
  obtain ⟨removed, hremoved, hleft⟩ := heffect.inbox
  refine ⟨?_, ?_⟩
  · rw [hleft, without_congr fun i => (hremoved i).trans (selects_waiting hnote)]
    rfl
  · obtain ⟨e, he, hstatus, hmade⟩ := heffect.users 0 5 more
      ((selects_waiting hnote).mpr (by simp)) (.inl rfl)
    exact ⟨more, e, rfl, he, hstatus, hmade⟩

end Harness
