import ContextCompaction.Harness.Admission

/-!
# The commits of a session keep it sound

A commit of a generation leaves its run alone, or ends it and starts the next one. What the scheduler
writes ends the run of a generation that cannot end it.
-/

namespace Harness

open Js Program SubmissionStatus Sequences

variable {tx : Tx} {pending : ConversationId → List SubmissionId} {c : ConversationId}
  {seen : TaskId → Bool}

/-! ## Operations that leave runs alone -/

/-- The transaction is good, its runs and changes are the same, and its tasks are still there. -/
structure Kept (seen : TaskId → Bool) (tx t : Tx) : Prop where
  good : Good seen t
  store : t.store = tx.store
  tasks : tx.tasks ⊆ t.tasks
  run : ∀ c, (t.live c).run = (tx.live c).run
  nextId : tx.nextId ≤ t.nextId
  changes : t.changes = tx.changes

theorem Kept.refl (h : Good seen tx) : Kept seen tx tx :=
  ⟨h, rfl, List.Subset.refl _, fun _ => rfl, Nat.le_refl _, rfl⟩

theorem Kept.trans {t t' : Tx} (h : Kept seen tx t) (h' : Kept seen t t') : Kept seen tx t' :=
  ⟨h'.good, h'.store.trans h.store, List.Subset.trans h.tasks h'.tasks, fun c => (h'.run c).trans (h.run c),
    Nat.le_trans h.nextId h'.nextId, h'.changes.trans h.changes⟩

theorem inputs_congr {live live' : LiveState} (h : live'.run = live.run) :
    live'.inputs = live.inputs := by
  rw [LiveState.inputs, h]
  rfl

theorem Kept.untouched {t : Tx} (h : Kept seen tx t) (hnew : Untouched tx) : Untouched t := by
  intro c id hid
  rw [inputs_congr (h.run c)] at hid
  rw [h.changes]
  exact hnew c id hid

theorem kept_logged {t : Tx} {es : List EntryRecord} (h : Good seen tx) (hlog : Logged tx t es []) :
    Kept seen tx t := by
  have hgood := h.logged hlog
  obtain ⟨n, hn, rfl⟩ := hlog
  exact ⟨hgood.1, rfl, List.Subset.refl _, fun _ => rfl, hn, List.append_nil _⟩

theorem kept_appendEntry {draft : EntryDraft} (h : Good seen tx) :
    Yields (appendEntry c draft) tx fun _ t => Kept seen tx t :=
  yields_appendEntry.mono fun _ _ ht => kept_logged h ht.1

theorem kept_appendEntries {drafts : List EntryDraft} (h : Good seen tx) :
    Yields (appendEntries c drafts) tx fun _ t => Kept seen tx t :=
  yields_appendEntries.mono fun _ _ ⟨_, ht⟩ => kept_logged h ht

theorem kept_createTask {kind : TaskKind} (hkind : kind ≠ .generation) (h : Good seen tx) :
    Yields (createTask kind c) tx fun _ t => Kept seen tx t := by
  refine yields_createTask.mono ?_
  rintro _ t ⟨-, rfl⟩
  exact ⟨⟨sound_createTask h.sound kind, h.owners.create hkind⟩, rfl, List.subset_append_left _ _,
    fun _ => rfl, Nat.le_succ _, rfl⟩

theorem kept_startCalls {calls : List (Option EntryDraft)} (h : Good seen tx) :
    Yields (startCalls c calls) tx fun _ t => Kept seen tx t := by
  induction calls generalizing tx with
  | nil => exact yields_pure (Kept.refl h)
  | cons call rest ih =>
    cases call with
    | some result =>
      refine (kept_appendEntry h).bind fun _ t ht => ?_
      exact (ih ht.good).mono fun _ t' ht' => ht.trans ht'
    | none =>
      refine (kept_createTask (by simp) h).bind fun _ t ht => ?_
      exact (ih ht.good).mono fun _ t' ht' => ht.trans ht'

/-- Live state with another generation. -/
theorem kept_setLive {live : LiveState} (h : Good seen tx) (hrun : live.run = (tx.live c).run) :
    Kept seen tx { tx with live := Function.update tx.live c live } := by
  have hruns : ∀ c', (Function.update tx.live c live c').run = (tx.live c').run := by
    intro c'
    by_cases hc : c' = c
    · subst hc
      rw [Function.update_self, hrun]
    · rw [Function.update_of_ne hc]
  exact ⟨⟨h.sound.setLive fun c' => inputs_congr (hruns c'), h.owners.congr hruns⟩, rfl,
    List.Subset.refl _, hruns, Nat.le_refl _, rfl⟩

theorem kept_setGeneration {generation : Option GenerationState} (h : Good seen tx) :
    Yields (setGeneration c generation) tx fun _ t => Kept seen tx t :=
  yields_get_bind (yields_modify (kept_setLive h rfl))

theorem yields_convertPartial :
    Yields (convertPartial c) tx fun _ t => ∃ es, Logged tx t es [] := by
  refine yields_get_bind ?_
  split
  · exact yields_pure ⟨[], Logged.refl tx⟩
  · exact yields_appendEntry.bind fun entry t ht => yields_pure ⟨[entry], ht.1⟩

theorem kept_convertPartial (h : Good seen tx) :
    Yields (convertPartial c) tx fun _ t => Kept seen tx t :=
  yields_convertPartial.mono fun _ _ ⟨_, ht⟩ => kept_logged h ht

/-! ## Tasks -/

def replaceTask (tasks : List TaskRecord) (value : TaskRecord) : List TaskRecord :=
  tasks.map fun t => if t.id = value.id then value else t

theorem yields_setTask {value : TaskRecord} :
    Yields (setTask value) tx fun _ t => t = { tx with tasks := replaceTask tx.tasks value } := by
  refine yields_get_bind (yields_refuseIf_bind fun _ => yields_modify rfl)

theorem replaceTask_ids (tasks : List TaskRecord) (value : TaskRecord) :
    (replaceTask tasks value).map (·.id) = tasks.map (·.id) := by
  rw [replaceTask, List.map_map]
  apply List.map_congr_left
  intro t _
  simp only [Function.comp]
  split
  next heq => exact heq.symm
  next => rfl

theorem TaskIds.replace {tasks : List TaskRecord} {n : Nat} (h : TaskIds tasks n)
    (value : TaskRecord) : TaskIds (replaceTask tasks value) n where
  ascending := by
    rw [replaceTask_ids]
    exact h.ascending
  minted t ht := by
    have hid : t.id ∈ (replaceTask tasks value).map (·.id) := List.mem_map_of_mem ht
    rw [replaceTask_ids] at hid
    obtain ⟨t', ht', heq⟩ := List.mem_map.mp hid
    rw [← heq]
    exact h.minted t' ht'

theorem task_eq {tasks : List TaskRecord} {n : Nat} (h : TaskIds tasks n) {t t' : TaskRecord}
    (ht : t ∈ tasks) (ht' : t' ∈ tasks) (hid : t.id = t'.id) : t = t' :=
  List.inj_on_of_nodup_map (h.ascending.imp ne_of_lt) ht ht' hid

/-- A task that keeps its place keeps its ownership. -/
theorem owning_replace {tasks : List TaskRecord} {value : TaskRecord}
    (hsame : ∀ t ∈ tasks, t.id = value.id →
      ((t.conversationId = c ∧ t.kind = .generation ∧ t.state.owns) ↔
        (value.conversationId = c ∧ value.kind = .generation ∧ value.state.owns))) :
    owning (replaceTask tasks value) c = owning tasks c := by
  unfold owning replaceTask
  induction tasks with
  | nil => rfl
  | cons t rest ih =>
    have hrest := ih fun t' ht' => hsame t' (List.mem_cons_of_mem _ ht')
    have ht := hsame t (by simp)
    rw [List.map_cons, List.filter_cons, List.filter_cons]
    by_cases hid : t.id = value.id
    · rw [if_pos hid]
      by_cases hp : t.conversationId = c ∧ t.kind = .generation ∧ t.state.owns
      · rw [if_pos (decide_eq_true ((ht hid).mp hp)), if_pos (decide_eq_true hp), List.map_cons,
          List.map_cons, hrest, hid]
      · rw [if_neg (by simpa using fun h => hp ((ht hid).mpr h)), if_neg (by simpa using hp), hrest]
    · rw [if_neg hid]
      split
      · rw [List.map_cons, List.map_cons, hrest]
      · exact hrest

/-- A changed task leaves the other tasks of a conversation as they are. -/
theorem owning_but {tasks : List TaskRecord} (value : TaskRecord) :
    (owning (replaceTask tasks value) c).filter (· ≠ value.id) =
      (owning tasks c).filter (· ≠ value.id) := by
  unfold owning replaceTask
  induction tasks with
  | nil => rfl
  | cons t rest ih =>
    rw [List.map_cons, List.filter_cons, List.filter_cons]
    by_cases hid : t.id = value.id
    · rw [if_pos hid]
      split <;> split <;> simp [hid] at ih ⊢ <;> exact ih
    · rw [if_neg hid]
      split
      · simp [hid] at ih ⊢
        exact ih
      · exact ih

theorem not_owning {tasks : List TaskRecord} {value : TaskRecord}
    (hends : value.state.owns = false) : value.id ∉ owning (replaceTask tasks value) c := by
  intro hmem
  obtain ⟨t, ht, hid, -, -, howns⟩ := mem_owning.mp hmem
  obtain ⟨t', ht', rfl⟩ := List.mem_map.mp ht
  by_cases heq : t'.id = value.id
  · simp only [heq, if_true, hends] at howns
    cases howns
  · simp only [heq, if_false] at hid

/-- A run names a generation of its conversation that may end it. -/
theorem run_owner (h : Good everyTask tx) {record : TaskRecord} (hr : record ∈ tx.tasks)
    (hid : record.id ∈ runTask (tx.live c)) :
    record.conversationId = c ∧ record.kind = .generation ∧ record.state.owns := by
  rw [← h.owners.eq c] at hid
  obtain ⟨t, ht, heq, hrest⟩ := mem_owning.mp hid
  rwa [task_eq h.sound.tasks ht hr heq] at hrest

/-- A generation that may end a run has one. -/
theorem run_of_owner (h : Good everyTask tx) {record : TaskRecord} (hr : record ∈ tx.tasks)
    (hkind : record.kind = .generation) (howns : record.state.owns) :
    ∃ inputs, (tx.live record.conversationId).run = some ⟨record.id, inputs⟩ := by
  have hmem : record.id ∈ owning tx.tasks record.conversationId :=
    mem_owning.mpr ⟨record, hr, rfl, rfl, hkind, howns⟩
  rw [h.owners.eq, runTask, Option.mem_toList] at hmem
  obtain ⟨run, hrun, hid⟩ := Option.map_eq_some_iff.mp hmem
  exact ⟨run.inputs, by rw [hrun, ← hid]⟩

/-- A task changes its state, and may still end its run or never could. -/
theorem good_setTask {record : TaskRecord} (h : Good seen tx) (hr : record ∈ tx.tasks)
    (abortRequested : Bool) (state : TaskState)
    (howns : record.kind = .generation → state.owns = record.state.owns) :
    Yields (setTask { record with abortRequested, state }) tx fun _ t =>
      Good seen t ∧ t.store = tx.store ∧ t.live = tx.live ∧ t.changes = tx.changes := by
  refine yields_setTask.mono ?_
  rintro _ t rfl
  refine ⟨⟨⟨h.sound.rows, h.sound.tasks.replace _, h.sound.filed, h.sound.listed⟩, ?_⟩,
    rfl, rfl, rfl⟩
  intro c
  dsimp only
  rw [owning_replace, h.owners c]
  intro t ht heq
  obtain rfl := task_eq h.sound.tasks ht hr heq
  constructor
  · rintro ⟨hconv, hgen, hown⟩
    exact ⟨hconv, hgen, (howns hgen).trans hown⟩
  · rintro ⟨hconv, hgen, hown⟩
    exact ⟨hconv, hgen, (howns hgen).symm.trans hown⟩

/-- A task ends: it is not seen until its run is gone. -/
theorem good_endTask {record : TaskRecord} (h : Good (· ≠ record.id) tx) (abortRequested : Bool)
    (state : TaskState) (hends : state.owns = false) :
    Yields (setTask { record with abortRequested, state }) tx fun _ t =>
      Good (· ≠ record.id) t ∧ (∀ c, record.id ∉ owning t.tasks c) ∧ t.store = tx.store ∧
        t.live = tx.live ∧ t.changes = tx.changes ∧ t.nextId = tx.nextId := by
  refine yields_setTask.mono ?_
  rintro _ t rfl
  refine ⟨⟨⟨h.sound.rows, h.sound.tasks.replace _, h.sound.filed, h.sound.listed⟩, ?_⟩,
    fun _ => not_owning hends, rfl, rfl, rfl, rfl⟩
  exact fun c => (owning_but { record with abortRequested, state }).trans (h.owners c)

/-! ## Runs that end -/

/-- The task has the run of its conversation, and no other. -/
structure HasRun (record : TaskRecord) (tx : Tx) : Prop where
  run : ∃ inputs, (tx.live record.conversationId).run = some ⟨record.id, inputs⟩
  only : ∀ c, c ≠ record.conversationId → record.id ∉ runTask (tx.live c)

/-- A task that works on its run. -/
structure Running (record : TaskRecord) (tx : Tx) : Prop extends HasRun record tx where
  minted : record.id < tx.nextId
  mem : record ∈ tx.tasks

/-- The task has no run any more; it is still to end. -/
structure Ended (record : TaskRecord) (tx t : Tx) : Prop where
  good : Good (· ≠ record.id) t
  run : ∀ c, record.id ∉ runTask (t.live c)
  store : t.store = tx.store
  mem : record ∈ t.tasks
  frame : ∀ c, c ≠ record.conversationId → (t.live c).run = (tx.live c).run

theorem HasRun.of_run {t : Tx} {record : TaskRecord} (h : HasRun record tx)
    (hrun : ∀ c, (t.live c).run = (tx.live c).run) : HasRun record t where
  run := by
    rw [hrun]
    exact h.run
  only c hc := by
    rw [runTask, hrun]
    exact h.only c hc

theorem Running.of_run {t : Tx} {record : TaskRecord} (h : Running record tx)
    (hrun : ∀ c, (t.live c).run = (tx.live c).run) (hnext : tx.nextId ≤ t.nextId)
    (htasks : tx.tasks ⊆ t.tasks) : Running record t where
  toHasRun := h.toHasRun.of_run hrun
  minted := Nat.lt_of_lt_of_le h.minted hnext
  mem := htasks h.mem

theorem Kept.running {t : Tx} {record : TaskRecord} (h : Kept seen tx t) (hr : Running record tx) :
    Running record t :=
  hr.of_run h.run h.nextId h.tasks

section

variable {record : TaskRecord} {settlement : SubmissionSettlement} {users : List SubmissionId}

theorem running_of_good (h : Good everyTask tx) (hr : record ∈ tx.tasks)
    (hkind : record.kind = .generation) (howns : record.state.owns) : Running record tx where
  run := run_of_owner h hr hkind howns
  only _ hc hid := hc (run_owner h hr hid).1.symm
  minted := h.sound.tasks.minted record hr
  mem := hr

/-- The end of a run settles its inputs and changes no other conversation's run. -/
theorem sound_endRun (h : Sound pending tx) (howners : Owners (· ≠ record.id) tx.tasks tx.live)
    (hnew : Untouched tx) (hrun : HasRun record tx) :
    Yields (endRun record.conversationId record.id settlement) tx fun _ t => Sound pending t ∧
      Owners (· ≠ record.id) t.tasks t.live ∧ (∀ c, record.id ∉ runTask (t.live c)) ∧
      (t.live record.conversationId).run = none ∧ t.store = tx.store ∧ t.tasks = tx.tasks ∧
      t.nextId = tx.nextId ∧ Untouched t ∧
      ∀ c, c ≠ record.conversationId → (t.live c).run = (tx.live c).run := by
  obtain ⟨inputs, hinputs⟩ := hrun.run
  refine (yields_endRun ?_).mono ?_
  · rw [hinputs]
    simp
  rintro _ t rfl
  have hupdate : ∀ c, Function.update tx.live record.conversationId ⟨none, none⟩ c =
      if c = record.conversationId then ⟨none, none⟩ else tx.live c := fun c => by
    rw [Function.update_apply]
  refine ⟨sound_settle h hnew _ _ _, ?_, ?_, ?_, rfl, rfl, rfl, ?_, fun _ hc => ?_⟩
  · intro c
    dsimp only
    rw [hupdate, howners c]
    split
    next hc => rw [hc, runTask, hinputs]; simp [runTask]
    next => rfl
  · intro c
    dsimp only
    rw [hupdate]
    split
    · simp [runTask]
    next hc => exact hrun.only c hc
  · dsimp only
    rw [hupdate, if_pos rfl]
  · intro c id hid
    dsimp only at hid ⊢
    rw [hupdate] at hid
    split at hid
    · cases hid
    next hc =>
      rw [List.map_append, List.mem_append]
      rintro (hmem | hmem)
      · exact hnew c id hid hmem
      · obtain ⟨_, hp, rfl⟩ := List.mem_map.mp hmem
        obtain ⟨id, hid', rfl⟩ := List.mem_map.mp hp
        -- an input is of one conversation
        obtain ⟨r, hr, hrid, hrc, -⟩ := record_of_input h hnew hid
        obtain ⟨r', hr', hrid', hrc', -⟩ := record_of_input h hnew hid'
        obtain rfl := eq_of_id h.rows.ascending hr hr' (hrid.trans hrid'.symm)
        exact hc (hrc.symm.trans hrc')
  · dsimp only
    rw [hupdate, if_neg hc]

/-- A run that ends and starts the next one is an ended run. -/
theorem ended_endAndStart (h : Sound (only record.conversationId users) tx)
    (howners : Owners (· ≠ record.id) tx.tasks tx.live) (hnew : Untouched tx)
    (hrun : Running record tx) :
    Yields (endAndStart record settlement users) tx fun _ t => Ended record tx t := by
  refine (sound_endRun h howners hnew hrun.toHasRun).bind ?_
  rintro _ t ⟨hsound, howners', hgone, hidle, hstore, htasks, hnext, -, hframe⟩
  split
  · refine ((grown_startRun hsound howners' hidle ?_).and yields_startRun).mono ?_
    · rw [hnext]
      exact decide_eq_true (ne_of_gt hrun.minted)
    · rintro _ t' ⟨hgrown, rfl⟩
      refine ⟨hgrown.good, fun c => ?_, hgrown.store.trans hstore, ?_, fun c hc => ?_⟩
      · by_cases hc : c = record.conversationId
        · subst hc
          dsimp only
          rw [Function.update_self]
          have hne : record.id ≠ tx.nextId := ne_of_lt hrun.minted
          simpa [runTask, hnext] using hne
        · dsimp only
          rw [Function.update_of_ne hc]
          exact hgone c
      · exact List.mem_append_left _ (htasks ▸ hrun.mem)
      · dsimp only
        rw [Function.update_of_ne hc, hframe c hc]
  next husers =>
    rw [not_not] at husers
    rw [husers, only_nil] at hsound
    exact yields_pure ⟨⟨hsound, howners'⟩, hgone, hstore, htasks ▸ hrun.mem, hframe⟩

/-- A new generation, and the run handed to it. -/
theorem ended_handOver (h : Good (· ≠ record.id) tx) (hrun : Running record tx) :
    Yields (handOverToSuccessor record) tx fun _ t => Ended record tx t := by
  obtain ⟨inputs, hinputs⟩ := hrun.run
  refine yields_createTask.bind ?_
  rintro _ _ ⟨rfl, rfl⟩
  refine yields_get_bind (yields_modify ?_)
  have hlive : ({ tx.live record.conversationId with
      run := (tx.live record.conversationId).run.map fun run =>
        if run.taskId = record.id then ⟨tx.nextId, run.inputs⟩ else run } : LiveState) =
      ⟨some ⟨tx.nextId, inputs⟩, (tx.live record.conversationId).generation⟩ := by
    rw [hinputs]
    simp
  dsimp only
  rw [hlive]
  have hne : record.id ≠ tx.nextId := ne_of_lt hrun.minted
  have hinputs' : ∀ c, (Function.update tx.live record.conversationId
      ⟨some ⟨tx.nextId, inputs⟩, (tx.live record.conversationId).generation⟩ c).inputs =
      (tx.live c).inputs := by
    intro c
    by_cases hc : c = record.conversationId
    · subst hc
      rw [Function.update_self, inputs_of_run hinputs, inputs_of_run rfl]
    · rw [Function.update_of_ne hc]
  refine ⟨⟨?_, ?_⟩, fun c => ?_, rfl, List.mem_append_left _ hrun.mem, fun c hc => ?_⟩
  · have hcreated : Sound noInputs { tx with
        nextId := tx.nextId + 1
        tasks := tx.tasks ++ [⟨tx.nextId, record.conversationId, .generation, false, .pending⟩] } :=
      sound_createTask h.sound .generation
    exact hcreated.setLive hinputs'
  · refine h.owners.start ?_ (decide_eq_true hne.symm)
    rw [runTask, hinputs]
    simp
  · by_cases hc : c = record.conversationId
    · subst hc
      dsimp only
      rw [Function.update_self]
      simpa [runTask] using hne
    · dsimp only
      rw [Function.update_of_ne hc]
      exact hrun.only c hc
  · dsimp only
    rw [Function.update_of_ne hc]

/-- The runs of tasks that are not acted on stay. -/
def Frame (acted : TaskId → Prop) (tx t : Tx) : Prop :=
  ∀ c run, (tx.live c).run = some run → ¬ acted run.taskId → (t.live c).run = some run

theorem Frame.of_live {acted : TaskId → Prop} {t t' : Tx} (h : Frame acted tx t)
    (hlive : t'.live = t.live) : Frame acted tx t' := by
  intro c run hrun hacted
  rw [hlive]
  exact h c run hrun hacted

theorem Kept.frame {acted : TaskId → Prop} {t : Tx} (h : Kept seen tx t) : Frame acted tx t :=
  fun c _ hrun _ => (h.run c).trans hrun

theorem Ended.framed {t : Tx} (h : Ended record tx t) (hrun : Running record tx) :
    Frame (· = record.id) tx t := by
  intro c run hc hacted
  by_cases hconv : c = record.conversationId
  · obtain ⟨inputs, hinputs⟩ := hrun.run
    rw [hconv, hinputs] at hc
    cases hc
    exact absurd rfl hacted
  · rw [h.frame c hconv, hc]

theorem Ended.kept {t t' : Tx} (h : Ended record tx t) (hkept : Kept (· ≠ record.id) t t') :
    Ended record tx t' where
  good := hkept.good
  run c := by
    rw [runTask, hkept.run]
    exact h.run c
  store := hkept.store.trans h.store
  mem := hkept.tasks h.mem
  frame c hc := (hkept.run c).trans (h.frame c hc)

/-! ## Generation -/

/-- What came before left the other runs alone. -/
theorem Ended.of_before {t t' : Tx} (h : Ended record t t') (hstore : t.store = tx.store)
    (hrun : ∀ c, c ≠ record.conversationId → (t.live c).run = (tx.live c).run) :
    Ended record tx t' :=
  { h with
    store := h.store.trans hstore
    frame := fun c hc => (h.frame c hc).trans (hrun c hc) }

theorem Ended.of_kept {t t' : Tx} (h : Ended record t t') (hkept : Kept seen tx t) :
    Ended record tx t' :=
  h.of_before hkept.store fun c _ => hkept.run c

theorem ended_continueRun {content : Json} {now : Nat} (h : Good (· ≠ record.id) tx)
    (hrun : Running record tx) :
    Yields (continueRun record content now) tx fun _ t => Ended record tx t := by
  refine (kept_appendEntry h).bind fun _ t ht => ?_
  refine (ended_handOver ht.good (ht.running hrun)).bind fun _ t' ht' => ?_
  exact (kept_setGeneration ht'.good).mono fun _ t'' ht'' => (ht'.kept ht'').of_kept ht

/-- A boundary leaves the run to the callback. -/
theorem boundary_run {boundary : Boundary} {place : BoundaryAt} {now : Nat}
    (h : Good (· ≠ record.id) tx) (hnew : Untouched tx) (hrun : Running record tx) :
    Yields (applyBoundary boundary place now) tx fun result t =>
      Sound (only boundary.conversationId result.users) t ∧
        Owners (· ≠ record.id) t.tasks t.live ∧ Untouched t ∧ Running record t ∧
        t.store = tx.store ∧ t.live = tx.live := by
  refine ((sound_applyBoundary h.sound).and (untouched_applyBoundary h.sound hnew)).mono ?_
  rintro result t ⟨⟨hsound, htasks, hlive, hstore, hnext⟩, huntouched⟩
  refine ⟨hsound, ?_, huntouched, ?_, hstore, hlive⟩
  · rw [htasks, hlive]
    exact h.owners
  · exact hrun.of_run (fun c => by rw [hlive]) hnext fun _ ht => htasks ▸ ht

/-- A run that answers is an ended run. -/
theorem ended_answer {message : Json} {continuation : Option Json} {now : Nat} {modes : QueueModes}
    {marker : Option EntryId} (h : Good (· ≠ record.id) tx) (hnew : Untouched tx)
    (hrun : Running record tx) :
    Yields (answer record message continuation now modes marker) tx fun _ t =>
      Ended record tx t := by
  refine (kept_appendEntry h).bind fun entry t ht => ?_
  refine (boundary_run ht.good (ht.untouched hnew) (ht.running hrun)).bind ?_
  rintro result t' ⟨hsound, howners, huntouched, hrunning, hstore, hlive⟩
  have hend : ∀ t'', Ended record t' t'' → Ended record tx t'' := fun _ h =>
    (h.of_before hstore fun c _ => by rw [hlive]).of_kept ht
  split
  next content hcond =>
    obtain ⟨husers, -⟩ := of_decide_eq_true hcond
    rw [husers, prepareBoundary, only_nil] at hsound
    exact (ended_continueRun ⟨hsound, howners⟩ hrunning).mono fun _ => hend
  next =>
    exact (ended_endAndStart hsound howners huntouched hrunning).mono fun _ => hend

theorem kept_appendHandoff {boundary : Boundary} {handoff : Option Str} {now : Nat}
    (h : Good seen tx) :
    Yields (appendHandoff boundary handoff now) tx fun boundary' t =>
      Kept seen tx t ∧ boundary'.conversationId = boundary.conversationId := by
  cases handoff with
  | none => exact yields_pure ⟨Kept.refl h, rfl⟩
  | some message => exact (kept_appendEntry h).bind fun _ _ ht => yields_pure ⟨ht, rfl⟩

/-- The inputs that a boundary placed join the run. -/
theorem good_pushInputs (h : Sound (only record.conversationId users) tx)
    (howners : Owners (· ≠ record.id) tx.tasks tx.live) (hrun : Running record tx) :
    Yields (pushInputs record.conversationId record.id users) tx fun _ t =>
      Good (· ≠ record.id) t ∧ Running record t ∧ t.store = tx.store ∧
        ∀ c, c ≠ record.conversationId → (t.live c).run = (tx.live c).run := by
  obtain ⟨inputs, hinputs⟩ := hrun.run
  refine yields_get_bind (yields_modify ?_)
  have hlive : ({ tx.live record.conversationId with
      run := (tx.live record.conversationId).run.map fun run =>
        if run.taskId = record.id then ⟨run.taskId, run.inputs ++ users⟩ else run } : LiveState) =
      ⟨some ⟨record.id, inputs ++ users⟩, (tx.live record.conversationId).generation⟩ := by
    rw [hinputs]
    simp
  dsimp only
  rw [hlive]
  have htask : ∀ c, runTask (Function.update tx.live record.conversationId
      ⟨some ⟨record.id, inputs ++ users⟩, (tx.live record.conversationId).generation⟩ c) =
      runTask (tx.live c) := by
    intro c
    by_cases hc : c = record.conversationId
    · subst hc
      rw [Function.update_self, runTask, runTask, hinputs]
      rfl
    · rw [Function.update_of_ne hc]
  refine ⟨⟨sound_run h ?_ _, fun c => ?_⟩, ⟨⟨⟨inputs ++ users, ?_⟩, fun c hc => ?_⟩, hrun.minted,
    hrun.mem⟩, rfl, fun c hc => ?_⟩
  · rw [inputs_of_run hinputs]
  · rw [htask, howners c]
  · dsimp only
    rw [Function.update_self]
  · rw [htask]
    exact hrun.only c hc
  · rw [Function.update_of_ne hc]

/-- A run whose tool round ends it is an ended run. -/
theorem ended_finishToolRound {assistant : EntryId} {added : List EntryDraft} {terminate : Bool}
    {handoff : Option Str} {now : Nat} {modes : QueueModes} {marker : Option EntryId}
    (h : Good (· ≠ record.id) tx) (hnew : Untouched tx) (hrun : Running record tx) :
    Yields (finishToolRound record assistant added terminate handoff now modes marker) tx
      fun _ t => Ended record tx t := by
  refine (kept_appendEntries h).bind fun _ t ht => ?_
  split
  · refine (kept_appendHandoff ht.good).bind ?_
    rintro boundary t' ⟨ht', hboundary⟩
    refine (boundary_run ht'.good (ht'.untouched (ht.untouched hnew))
      (ht'.running (ht.running hrun))).bind ?_
    rintro result t'' ⟨hsound, howners, huntouched, hrunning, hstore, hlive⟩
    rw [hboundary] at hsound
    refine (ended_endAndStart hsound howners huntouched hrunning).mono fun _ _ h => ?_
    exact ((h.of_before hstore fun c _ => by rw [hlive]).of_kept ht').of_kept ht
  · refine (boundary_run ht.good (ht.untouched hnew) (ht.running hrun)).bind ?_
    rintro result t' ⟨hsound, howners, huntouched, hrunning, hstore, hlive⟩
    have hend : ∀ t'', Ended record t' t'' → Ended record tx t'' := fun _ h =>
      (h.of_before hstore fun c _ => by rw [hlive]).of_kept ht
    split
    · exact (ended_endAndStart hsound howners huntouched hrunning).mono fun _ => hend
    · refine (good_pushInputs hsound howners hrunning).bind ?_
      rintro _ t'' ⟨hgood, hrunning', hstore', hframe⟩
      refine (ended_handOver hgood hrunning').mono fun _ _ h => ?_
      exact hend _ (h.of_before hstore' hframe)

theorem ended_failRun {reason : Str} {detail : Option Json} (h : Good (· ≠ record.id) tx)
    (hnew : Untouched tx) (hrun : Running record tx) :
    Yields (failRun record reason detail) tx fun _ t => Ended record tx t := by
  refine (sound_endRun h.sound h.owners hnew hrun.toHasRun).mono ?_
  rintro _ t ⟨hsound, howners, hgone, -, hstore, htasks, -, -, hframe⟩
  exact ⟨⟨hsound, howners⟩, hgone, hstore, htasks ▸ hrun.mem, hframe⟩

/-- What a generation's commit leaves: its run and a live state, or no run and an outcome. -/
def Committed (record : TaskRecord) (tx : Tx) (next : Option NextTaskState) (t : Tx) : Prop :=
  (Kept everyTask tx t ∧ ∀ n, next = some n → n = .running ∨ n = .waiting) ∨
    (Ended record tx t ∧ ∃ outcome, next = some (.terminal outcome) ∧
      schedulerSettlement outcome = none)

theorem Good.but (h : Good everyTask tx) (record : TaskRecord) : Good (· ≠ record.id) tx :=
  ⟨h.sound, h.owners.but record.id⟩

/-- A callback that only appends and shows progress. -/
theorem committed_kept {m : TxM Unit} {next : Option NextTaskState}
    (hm : Yields m tx fun _ t => Kept everyTask tx t)
    (hnext : ∀ n, next = some n → n = .running ∨ n = .waiting) :
    Yields (do m; return next) tx fun next t => Committed record tx next t :=
  hm.bind fun _ _ ht => yields_pure (.inl ⟨ht, hnext⟩)

/-- A callback that ends the run. -/
theorem committed_ended {m : TxM Unit} {outcome : TaskOutcome}
    (hm : Yields m tx fun _ t => Ended record tx t) (houtcome : schedulerSettlement outcome = none) :
    Yields (do m; return some (.terminal outcome)) tx fun next t => Committed record tx next t :=
  hm.bind fun _ _ ht => yields_pure (.inr ⟨ht, outcome, rfl, houtcome⟩)

/-- Every commit of a generation ends its run or leaves the state it names. -/
theorem committed_callback (h : Good everyTask tx) (hnew : Untouched tx) (hrun : Running record tx)
    (commit : GenerationCommit) :
    Yields (commit.callback record) tx fun next t => Committed record tx next t := by
  have hbut := h.but record
  have hnil : ∀ n, (none : Option NextTaskState) = some n → n = .running ∨ n = .waiting := by simp
  cases commit with
  | prepared entries compaction =>
    refine (kept_appendEntries h).bind fun _ t ht => ?_
    split
    · refine (kept_createTask (by simp) ht.good).bind fun _ t' ht' => ?_
      exact yields_pure (.inl ⟨ht.trans ht', by simp⟩)
    · exact yields_pure (.inl ⟨ht, by simp⟩)
  | compacting =>
    refine (kept_createTask (by simp) h).bind fun _ t ht => ?_
    exact yields_pure (.inl ⟨ht, by simp⟩)
  | requested attempt =>
    refine (kept_convertPartial h).bind fun _ t ht => ?_
    refine (kept_setGeneration ht.good).bind fun _ t' ht' => ?_
    exact yields_pure (.inl ⟨ht.trans ht', hnil⟩)
  | flushed attempt message =>
    exact committed_kept (yields_get_bind (kept_setGeneration h)) hnil
  | retried attempt => exact committed_kept (kept_setGeneration h) (by simp)
  | deferred attempt => exact committed_kept (kept_setGeneration h) (by simp)
  | overflowed message =>
    refine (kept_appendEntry h).bind fun _ t ht => ?_
    refine (kept_setGeneration ht.good).bind fun _ t' ht' => ?_
    refine (kept_createTask (by simp) ht'.good).bind fun _ t'' ht'' => ?_
    exact yields_pure (.inl ⟨(ht.trans ht').trans ht'', by simp⟩)
  | failing message attempt =>
    refine (kept_appendEntry h).bind fun _ t ht => ?_
    refine (kept_setGeneration ht.good).bind fun _ t' ht' => ?_
    exact yields_pure (.inl ⟨ht.trans ht', by simp⟩)
  | failed message text =>
    refine (kept_appendEntry hbut).bind fun _ t ht => ?_
    refine (ended_failRun ht.good (ht.untouched hnew) (ht.running hrun)).bind fun _ t' ht' => ?_
    exact yields_pure (.inr ⟨ht'.of_kept ht, _, rfl, rfl⟩)
  | failModelError text => exact committed_ended (ended_failRun hbut hnew hrun) rfl
  | failNoModel => exact committed_ended (ended_failRun hbut hnew hrun) rfl
  | startToolRound message calls =>
    refine (kept_appendEntry h).bind fun _ t ht => ?_
    refine (kept_startCalls ht.good).bind fun _ t' ht' => ?_
    refine (kept_setGeneration ht'.good).bind fun _ t'' ht'' => ?_
    exact yields_pure (.inl ⟨(ht.trans ht').trans ht'', by simp⟩)
  | startCall =>
    refine (kept_createTask (by simp) h).bind fun _ t ht => ?_
    exact yields_pure (.inl ⟨ht, by simp⟩)
  | answer message continuation now modes marker =>
    exact committed_ended (ended_answer hbut hnew hrun) rfl
  | finishToolRound assistant added terminate handoff now modes marker =>
    exact committed_ended (ended_finishToolRound hbut hnew hrun) rfl
  | aborted results =>
    refine (kept_convertPartial hbut).bind fun _ t ht => ?_
    refine (kept_appendEntries ht.good).bind fun _ t' ht' => ?_
    have hboth := ht.trans ht'
    refine (ended_failRun hboth.good (hboth.untouched hnew) (hboth.running hrun)).bind ?_
    exact fun _ t'' ht'' => yields_pure (.inr ⟨ht''.of_kept hboth, _, rfl, rfl⟩)

/-- The task ends after its run. -/
theorem good_restore (h : Good (· ≠ record.id) tx) (hended : ∀ c, record.id ∉ owning tx.tasks c)
    (hrun : ∀ c, record.id ∉ runTask (tx.live c)) : Good everyTask tx :=
  ⟨h.sound, h.owners.restore hended hrun⟩

/-- The state that a generation's commit names is set without harm. -/
theorem good_commitState {next : NextTaskState} {held : Bool} {t : Tx}
    (hrun : Running record tx) (howns : record.state = .running) (h : Committed record tx (some next) t) :
    Yields (commitState record next held) t fun _ t' => Good everyTask t' ∧ t'.store = tx.store ∧
      Frame (· = record.id) tx t' := by
  unfold commitState
  rcases h with ⟨hkept, hnext⟩ | ⟨hended, outcome, heq, houtcome⟩
  · have hlive : next = .running ∨ next = .waiting := hnext next rfl
    refine (good_setTask hkept.good (hkept.tasks hrun.mem) _ _ fun _ => ?_).mono ?_
    · rw [howns]
      rcases hlive with rfl | rfl <;> rfl
    · rintro _ t' ⟨hgood, hstore, hlive, -⟩
      exact ⟨hgood, hstore.trans hkept.store, hkept.frame.of_live hlive⟩
  · cases heq
    refine (good_endTask hended.good _ _ ?_).mono ?_
    · cases held
      · rfl
      · simp [TaskState.owns, houtcome]
    · rintro _ t' ⟨hgood, howning, hstore, hlive, -⟩
      refine ⟨good_restore hgood howning fun c => ?_, hstore.trans hended.store,
        (hended.framed hrun).of_live hlive⟩
      rw [hlive]
      exact hended.run c

theorem yields_gated {taskId : TaskId} {abort : Bool} :
    Yields (gated taskId abort) tx fun record t =>
      t = tx ∧ record ∈ tx.store.tasks ∧ record.id = taskId ∧ record.state = .running := by
  refine yields_get_bind ?_
  cases hfind : tx.store.tasks.find? (·.id = taskId) with
  | none => exact yields_throw
  | some record =>
    refine yields_refuseIf_bind fun hrunning => yields_refuseIf_bind fun _ => yields_pure ?_
    exact ⟨rfl, List.mem_of_find?_eq_some hfind, by simpa using List.find?_some hfind,
      not_not.mp hrunning⟩

/-- A generation's commit changes only its own task and keeps the store sound. -/
theorem good_generationCommit {taskId : TaskId} {commit : GenerationCommit} {held : Bool}
    (h : Good everyTask tx) (hnew : Untouched tx) (htasks : tx.tasks = tx.store.tasks) :
    Yields (generationCommit taskId commit held) tx fun _ t =>
      Good everyTask t ∧ t.store = tx.store ∧ Frame (· = taskId) tx t := by
  refine yields_gated.bind ?_
  rintro record t ⟨rfl, hr, rfl, hstate⟩
  rw [← htasks] at hr
  refine yields_refuseIf_bind fun hkind => ?_
  have howns : record.state.owns := by rw [hstate]; rfl
  have hrun := running_of_good h hr (not_not.mp hkind) howns
  refine (committed_callback h hnew hrun commit).bind fun next t' ht' => ?_
  cases next with
  | some next => exact good_commitState hrun hstate ht'
  | none =>
    rcases ht' with ⟨hkept, -⟩ | ⟨-, outcome, heq, -⟩
    · exact yields_pure ⟨hkept.good, hkept.store, hkept.frame⟩
    · cases heq

/-! ## Scheduler -/

/-- Between the steps of a commit of the scheduler, which ends the runs of some tasks. -/
structure Calm (acted : TaskId → Prop) (tx t : Tx) : Prop where
  good : Good everyTask t
  untouched : Untouched t
  store : t.store = tx.store
  frame : Frame acted tx t

variable {acted : TaskId → Prop}

theorem Calm.of {t t' : Tx} (h : Calm acted tx t) (hgood : Good everyTask t')
    (hstore : t'.store = t.store) (hlive : t'.live = t.live) (hchanges : t'.changes = t.changes) :
    Calm acted tx t' where
  good := hgood
  untouched c id hid := by
    rw [hlive] at hid
    rw [hchanges]
    exact h.untouched c id hid
  store := hstore.trans h.store
  frame := h.frame.of_live hlive

theorem yields_currentTask {taskId : TaskId} :
    Yields (currentTask taskId) tx fun record t => t = tx ∧ record ∈ tx.tasks ∧ record.id = taskId := by
  refine yields_get_bind ?_
  cases hfind : tx.tasks.find? (·.id = taskId) with
  | none => exact yields_throw
  | some record =>
    exact yields_pure ⟨rfl, List.mem_of_find?_eq_some hfind, by simpa using List.find?_some hfind⟩

variable {t : Tx}

theorem calm_markAll {taskIds : List TaskId} (h : Calm acted tx t) :
    Yields (markAll taskIds) t fun _ t' => Calm acted tx t' := by
  induction taskIds generalizing t with
  | nil => exact yields_pure h
  | cons taskId rest ih =>
    refine Yields.bind (Q := fun _ t' => Calm acted tx t') ?_ fun _ t' ht' => ih ht'
    refine yields_currentTask.bind ?_
    rintro record _ ⟨rfl, hr, -⟩
    refine (good_setTask h.good hr _ _ fun _ => rfl).mono ?_
    exact fun _ t' ht' => h.of ht'.1 ht'.2.1 ht'.2.2.1 ht'.2.2.2

theorem calm_withdraw (h : Calm acted tx t) :
    Yields (withdrawQueuedInputs c) t fun _ t' => Calm acted tx t' := by
  refine ((sound_withdrawQueuedInputs h.good.sound).and
    (yields_get_bind (yields_withdrawBelow [] rfl (List.append_nil _).symm))).mono ?_
  rintro _ _ ⟨⟨hsound, -⟩, rfl⟩
  refine ⟨⟨hsound, h.good.owners⟩, fun c' id hid => ?_, h.store, h.frame⟩
  rw [List.map_append, List.mem_append]
  rintro (hmem | hmem)
  · exact h.untouched c' id hid hmem
  · obtain ⟨_, hp, rfl⟩ := List.mem_map.mp hmem
    obtain ⟨id, hid', rfl⟩ := List.mem_map.mp hp
    obtain ⟨item, hitem, rfl, -⟩ := mem_userIds.mp hid'
    exact h.good.sound.listed.not_queued h.good.sound.rows h.good.sound.filed
      (List.mem_append_left _ hid) (List.mem_reverse.mp hitem) rfl

theorem calm_withdrawAll {ids : List ConversationId} (h : Calm acted tx t) :
    Yields (withdrawAll ids) t fun _ t' => Calm acted tx t' := by
  induction ids generalizing t with
  | nil => exact yields_pure h
  | cons id rest ih => exact (calm_withdraw h).bind fun _ t' ht' => ih ht'

/-- The scheduler makes a task terminal, and ends the run that it still has. -/
theorem calm_settle {outcome : TaskOutcome} (h : Calm acted tx t) (hr : record ∈ t.tasks)
    (howns : record.state.owns) (hacted : acted record.id) :
    Yields (do
      setTask { record with state := .terminal outcome }
      settleSchedulerOutcome record settlement) t fun _ t' => Calm acted tx t' := by
  refine (good_endTask (h.good.but record) _ _ rfl).bind ?_
  rintro _ t' ⟨hgood, howning, hstore, hlive, hchanges, hnext⟩
  have huntouched : Untouched t' := by
    intro c id hid
    rw [hlive] at hid
    rw [hchanges]
    exact h.untouched c id hid
  refine yields_get_bind ?_
  split
  next hcond =>
    obtain ⟨hkind, hrun⟩ := hcond
    have hrunning := running_of_good h.good hr hkind howns
    refine yields_convertPartial.bind ?_
    rintro _ t₁ ⟨es, hlog⟩
    have hkept := kept_logged hgood hlog
    have htasks : t₁.tasks = t'.tasks := by
      obtain ⟨n, -, rfl⟩ := hlog
      rfl
    have hruns : ∀ c, (t₁.live c).run = (t.live c).run := fun c => by rw [hkept.run, hlive]
    refine (sound_endRun hkept.good.sound hkept.good.owners (hkept.untouched huntouched)
      (hrunning.toHasRun.of_run hruns)).mono ?_
    rintro _ t₂ ⟨hsound, howners, hgone, -, hstore', htasks', -, huntouched', hframe⟩
    refine ⟨good_restore ⟨hsound, howners⟩ (fun c => ?_) hgone, huntouched', ?_, ?_⟩
    · rw [htasks', htasks]
      exact howning c
    · rw [hstore', hkept.store, hstore, h.store]
    · intro c run hc hnot
      have hbefore := h.frame c run hc hnot
      by_cases hconv : c = record.conversationId
      · obtain ⟨inputs, hinputs⟩ := hrunning.run
        rw [hconv, hinputs] at hbefore
        cases hbefore
        exact absurd hacted hnot
      · rw [hframe c hconv, hruns, hbefore]
  next hcond =>
    refine yields_pure ⟨good_restore hgood howning fun c hid => ?_, huntouched, hstore.trans h.store,
      h.frame.of_live hlive⟩
    rw [hlive] at hid
    obtain ⟨rfl, hkind, -⟩ := run_owner h.good hr hid
    refine hcond ⟨hkind, ?_⟩
    rw [hlive]
    obtain ⟨inputs, hinputs⟩ := run_of_owner h.good hr hkind howns
    rw [hinputs]
    simp

theorem calm_terminate {outcome : TaskOutcome} {held : Bool} (h : Calm acted tx t) (hr : record ∈ t.tasks)
    (howns : record.state.owns) (houtcome : (schedulerSettlement outcome).isSome)
    (hacted : acted record.id) :
    Yields (terminate record outcome settlement held) t fun _ t' => Calm acted tx t' := by
  unfold terminate
  split
  · refine (good_setTask h.good hr _ _ fun _ => ?_).mono ?_
    · rw [howns]
      exact houtcome
    · exact fun _ t' ht' => h.of ht'.1 ht'.2.1 ht'.2.2.1 ht'.2.2.2
  · exact calm_settle h hr howns hacted

/-- A task that is finalized stays within the tasks that were acted on. -/
theorem calm_finalizeTask {taskId : TaskId} (h : Calm acted tx t) (hacted : acted taskId) :
    Yields (finalizeTask taskId) t fun _ t' => Calm acted tx t' := by
  refine yields_currentTask.bind ?_
  rintro record _ ⟨rfl, hr, rfl⟩
  obtain ⟨id, c, kind, abortRequested, state⟩ := record
  cases state with
  | pending | running | waiting | terminal => exact yields_pure h
  | completing outcome =>
    dsimp only
    cases hsettle : schedulerSettlement outcome with
    | some settlement =>
      have howns : TaskState.owns (.completing outcome) := by
        rw [TaskState.owns, hsettle]
        rfl
      exact (calm_settle h hr howns hacted :)
    | none =>
      -- its run ended with the outcome that it committed
      have howns : TaskState.owns (.completing outcome) = false := by
        rw [TaskState.owns, hsettle]
        rfl
      refine (good_endTask (h.good.but ⟨id, c, kind, abortRequested, .completing outcome⟩)
        abortRequested (.terminal outcome) rfl).bind ?_
      rintro _ t' ⟨hgood, howning, hstore, hlive, hchanges, -⟩
      refine yields_pure (h.of (good_restore hgood howning fun c hid => ?_) hstore hlive hchanges)
      rw [hlive] at hid
      have := (run_owner h.good hr hid).2.2
      rw [howns] at this
      cases this

theorem calm_finalize {taskIds : List TaskId} (h : Calm acted tx t)
    (hacted : ∀ taskId ∈ taskIds, acted taskId) :
    Yields (finalize taskIds) t fun _ t' => Calm acted tx t' := by
  induction taskIds generalizing t with
  | nil => exact yields_pure h
  | cons taskId rest ih =>
    refine (calm_finalizeTask h (hacted taskId (by simp))).bind fun _ t' ht' => ?_
    exact ih ht' fun taskId' hmem => hacted taskId' (List.mem_cons_of_mem _ hmem)

theorem calm_reopen {taskIds : List TaskId} (h : Calm acted tx t) :
    Yields (reopen taskIds) t fun _ t' => Calm acted tx t' := by
  induction taskIds generalizing t with
  | nil => exact yields_pure h
  | cons taskId rest ih =>
    refine Yields.bind (Q := fun _ t' => Calm acted tx t') ?_ fun _ t' ht' => ih ht'
    refine yields_currentTask.bind ?_
    rintro record _ ⟨rfl, hr, -⟩
    split
    next hrunning =>
      refine (good_setTask h.good hr _ _ fun _ => ?_).mono ?_
      · rw [hrunning]
        rfl
      · exact fun _ t' ht' => h.of ht'.1 ht'.2.1 ht'.2.2.1 ht'.2.2.2
    next => exact yields_pure h

theorem owns_of_eligible {state : TaskState}
    (h : ¬ (state ≠ .pending ∧ state ≠ .running ∧ state ≠ .waiting)) : state.owns := by
  cases state <;> simp_all [TaskState.owns]

/-- Tasks that are reserved stay within the tasks that were acted on. -/
theorem calm_reserve {tasks : List (TaskId × Reservation)} (h : Calm acted tx t)
    (hacted : ∀ taskId ∈ tasks.map Prod.fst, acted taskId) :
    Yields (reserve tasks) t fun _ t' => Calm acted tx t' := by
  induction tasks generalizing t with
  | nil => exact yields_pure h
  | cons task rest ih =>
    obtain ⟨hfirst, hrest⟩ := List.forall_mem_cons.mp hacted
    obtain ⟨taskId, _ | ⟨reason, held⟩⟩ := task
    all_goals
      refine yields_currentTask.bind ?_
      rintro record _ ⟨rfl, hr, rfl⟩
      refine yields_refuseIf_bind fun heligible => ?_
      have howns := owns_of_eligible heligible
    · refine Yields.bind (Q := fun _ t' => Calm acted tx t') ?_ fun _ t' ht' => ih ht' hrest
      refine (good_setTask h.good hr _ _ fun _ => ?_).mono ?_
      · rw [howns]
        rfl
      · exact fun _ t' ht' => h.of ht'.1 ht'.2.1 ht'.2.2.1 ht'.2.2.2
    · exact (calm_terminate h hr howns rfl hfirst).bind fun _ t' ht' => ih ht' hrest

end

/-! ## Commits -/

/-- A transaction at its start. -/
structure Fresh (tx : Tx) : Prop where
  good : Good everyTask tx
  changes : tx.changes = []
  rows : tx.rows = tx.store.submissions
  tasks : tx.tasks = tx.store.tasks

theorem Fresh.calm (h : Fresh tx) (acted : TaskId → Prop) : Calm acted tx tx where
  good := h.good
  untouched c id hid := by
    rw [h.changes]
    exact List.not_mem_nil
  store := rfl
  frame _ _ hrun _ := hrun

/-- Everything that a commit leaves. -/
structure Made (acted : TaskId → Prop) (tx t : Tx) : Prop where
  good : Good everyTask t
  store : t.store = tx.store
  frame : Frame acted tx t

theorem Calm.made {t : Tx} (h : Calm acted tx t) : Made acted tx t := ⟨h.good, h.store, h.frame⟩

theorem Grown.made {t : Tx} (h : Grown everyTask tx t) : Made acted tx t :=
  ⟨h.good, h.store, fun c run hrun _ => h.run c run hrun⟩

theorem Kept.grown {t : Tx} (h : Kept seen tx t) : Grown seen tx t :=
  ⟨h.good, h.store, h.tasks, fun c _ hrun => (h.run c).trans hrun⟩

theorem made_taskCommit {taskId : TaskId} {body : TaskRecord → TxM Unit} {next : NextTaskState}
    {held : Bool} (h : Fresh tx)
    (hbody : ∀ record, Yields (body record) tx fun _ t => Grown everyTask tx t) :
    Yields (taskCommit taskId body next held) tx fun _ t => Made acted tx t := by
  refine yields_gated.bind ?_
  rintro record _ ⟨rfl, hr, -, -⟩
  refine yields_refuseIf_bind fun hkind => ?_
  refine (hbody record).bind fun _ t ht => ?_
  refine (good_setTask ht.good (ht.tasks (h.tasks ▸ hr)) _ _ fun hgen => absurd hgen hkind).mono ?_
  rintro _ t' ⟨hgood, hstore, hlive, -⟩
  exact ⟨hgood, hstore.trans ht.store, ht.made.frame.of_live hlive⟩

/-- The tasks whose run a commit may end. -/
def Commit.acts : Commit → TaskId → Prop
  | .generation taskId .. => (· = taskId)
  | .reserve tasks => (· ∈ tasks.map Prod.fst)
  | .fault taskId .. => (· = taskId)
  | .reconcile _ _ ended => (· ∈ ended)
  | _ => fun _ => False

theorem yields_createConversation :
    Yields createConversation tx fun _ t => t = { tx with
      nextId := tx.nextId + 1, conversations := tx.conversations ++ [tx.nextId] } := by
  refine yields_mintId.bind ?_
  rintro _ _ ⟨rfl, rfl⟩
  rintro _ _ ⟨⟩
  rfl

/-- Every commit acts only on the tasks it names. -/
theorem made_callback (h : Fresh tx) (commit : Commit) :
    Yields commit.callback tx fun _ t => Made commit.acts tx t := by
  have hseen : ∀ id ≥ tx.nextId, everyTask id := fun _ _ => rfl
  have hcalm := h.calm commit.acts
  cases commit with
  | createConversation =>
    refine yields_createConversation.bind ?_
    rintro _ t rfl
    exact yields_pure ⟨⟨⟨h.good.sound.rows.mono (Nat.le_succ _),
      h.good.sound.tasks.mono (Nat.le_succ _), h.good.sound.filed, h.good.sound.listed⟩,
      h.good.owners⟩, rfl, fun _ _ hrun _ => hrun⟩
  | admitSubmission conversationId draft now modes marker =>
    exact (grown_admitSubmission h.good h.rows hseen).bind fun _ t ht => yields_pure ht.made
  | abortSubmission id conversationId =>
    refine (sound_abortSubmission h.good.sound h.rows h.changes).bind ?_
    rintro _ t ⟨hsound, htasks, hlive, hstore⟩
    refine yields_pure ⟨⟨hsound, ?_⟩, hstore, Frame.of_live (fun _ _ hrun _ => hrun) hlive⟩
    rw [htasks, hlive]
    exact h.good.owners
  | abortConversation reached queued =>
    refine (calm_markAll hcalm).bind fun _ t ht => ?_
    exact (calm_withdrawAll ht).mono fun _ _ ht' => ht'.made
  | generation taskId commit held =>
    refine (good_generationCommit h.good hcalm.untouched h.tasks).mono ?_
    exact fun _ t ht => ⟨ht.1, ht.2.1, ht.2.2⟩
  | placeSummary taskId blocking requestId entry now modes marker held =>
    refine made_taskCommit h fun record => ?_
    unfold placeSummary
    split
    · exact (kept_appendEntry h.good).bind fun _ t ht => yields_pure ht.grown
    · exact (grown_admitSubmission h.good h.rows hseen).bind fun _ t ht => yields_pure ht
  | task taskId entries calls next held =>
    refine made_taskCommit h fun record => ?_
    refine (kept_appendEntries h.good).bind fun _ t ht => ?_
    exact (kept_startCalls ht.good).mono fun _ t' ht' => (ht.trans ht').grown
  | createTask name conversationId =>
    exact (kept_createTask (by simp) h.good).bind fun _ t ht => yields_pure ht.grown.made
  | appendEntries conversationId entries =>
    exact (kept_appendEntries h.good).mono fun _ t ht => ht.grown.made
  | reopen =>
    exact yields_get_bind ((calm_reopen hcalm).mono fun _ _ ht => ht.made)
  | reserve tasks =>
    refine (calm_reserve hcalm fun _ hmem => hmem).mono ?_
    exact fun _ _ ht => ht.made
  | yieldTask taskId =>
    refine yields_gated.bind ?_
    rintro record _ ⟨rfl, hr, rfl, hstate⟩
    refine (good_setTask h.good (h.tasks ▸ hr) _ _ fun _ => ?_).mono ?_
    · rw [hstate]
      rfl
    · rintro _ t ⟨hgood, hstore, hlive, -⟩
      exact ⟨hgood, hstore, hcalm.frame.of_live hlive⟩
  | fault taskId message held =>
    refine yields_gated.bind ?_
    rintro record _ ⟨rfl, hr, rfl, hstate⟩
    refine (calm_terminate hcalm (h.tasks ▸ hr) ?_
      rfl rfl).mono fun _ _ ht => ht.made
    rw [hstate]
    rfl
  | reconcile marked queued ended =>
    refine (calm_markAll hcalm).bind fun _ t ht => ?_
    refine (calm_withdrawAll ht).bind fun _ t' ht' => ?_
    exact (calm_finalize ht' fun _ hmem => hmem).mono fun _ _ ht'' => ht''.made

end Harness
