import ContextCompaction.Harness.CommitLaws

/-!
# Every state of a session

`SessionInvariant`: what a commit finds. Each commit that succeeds leaves it (`commit_invariant`), so
it holds of every state that a session reaches.
-/

namespace Harness

open Js Program SubmissionStatus Sequences Transition

variable {s s' : Store} {tx t : Tx} {c : ConversationId}

/-- What holds between two commits. -/
def SessionInvariant (s : Store) : Prop := Good everyTask (begin s none)

theorem SessionInvariant.fresh (h : SessionInvariant s) (scope : Option TaskId) :
    Fresh (begin s scope) where
  good := ⟨⟨h.sound.rows, h.sound.tasks, h.sound.filed, h.sound.listed⟩, h.owners⟩
  changes := rfl
  rows := List.append_nil _
  tasks := rfl

theorem rows_begin (s : Store) (scope : Option TaskId) : (begin s scope).rows = s.submissions :=
  List.append_nil _

/-- A good transaction is assembled, each submission as its change leaves it. -/
theorem assemble_good (h : Good everyTask tx) : tx.assemble = .ok {
    nextId := tx.nextId
    conversations := tx.store.conversations ++ tx.conversations
    entries := tx.store.entries ++ tx.entries
    submissions := tx.rows.map (outcome tx.changes)
    tasks := tx.tasks
    inbox := tx.inbox
    live := tx.live } := by
  have := foldlM_resolve h.sound.rows
  unfold Tx.rows at this
  simp only [Tx.assemble, this, bind, Except.bind, pure, Except.pure]
  rfl

/-- A good transaction assembles a store that satisfies the invariant. -/
theorem invariant_assemble (h : Good everyTask tx) (hassemble : tx.assemble = .ok s') :
    SessionInvariant s' := by
  rw [assemble_good h] at hassemble
  cases hassemble
  have hrows := h.sound.rows
  have hids : (tx.rows.map (outcome tx.changes)).map (·.id) = tx.rows.map (·.id) := by
    rw [List.map_map]
    exact List.map_congr_left fun r _ => outcome_id
  have hmade : Rows (tx.rows.map (outcome tx.changes)) [] tx.nextId := by
    refine ⟨hids ▸ hrows.ascending, fun _ hmem => ?_, List.nodup_nil, by simp, ?_⟩
    · obtain ⟨r, hr, rfl⟩ := List.mem_map.mp hmem
      rw [outcome_id]
      exact hrows.minted r hr
    · rw [List.pairwise_map]
      refine hrows.requests.imp fun {a b} hab => ?_
      simpa using hab
  refine ⟨⟨?_, h.sound.tasks, ?_, ?_⟩, h.owners⟩
  all_goals rw [rows_begin]
  · exact hmade
  · intro c
    dsimp only [begin]
    rw [queue_outcome hrows, h.sound.filed c]
    exact (List.filter_eq_self.mpr (by simp)).symm
  · refine ⟨fun c id => ?_, h.sound.listed.once⟩
    dsimp only [begin]
    rw [h.sound.listed.held]
    constructor
    · rintro ⟨r, hr, rfl, hc, htype, hplaced⟩
      exact ⟨_, List.mem_map_of_mem hr, outcome_id, by simpa using hc, by simpa using htype, hplaced⟩
    · rintro ⟨_, hmem, rfl, hc, htype, hplaced⟩
      obtain ⟨r, hr, rfl⟩ := List.mem_map.mp hmem
      exact ⟨r, hr, outcome_id.symm, by simpa using hc, by simpa using htype, hplaced⟩

/-- A commit that succeeds, with the transaction that it assembled. -/
theorem run_ok {commit : Commit} (h : commit.run s = .ok s') :
    ∃ tx, exec commit.callback (begin s commit.scope) = (.ok (), tx) ∧ tx.assemble = .ok s' := by
  unfold Commit.run Store.commit at h
  cases hexec : exec commit.callback (begin s commit.scope) with
  | mk r tx =>
    rw [hexec] at h
    cases r with
    | error e => cases h
    | ok a =>
      obtain ⟨_, hmap, rfl⟩ := Js.map_ok.mp h
      obtain ⟨_, hassemble, rfl⟩ := Js.map_ok.mp hmap
      exact ⟨tx, rfl, hassemble⟩

theorem commit_made (h : SessionInvariant s) {commit : Commit}
    (hexec : exec commit.callback (begin s commit.scope) = (.ok (), tx)) :
    Made commit.acts (begin s commit.scope) tx :=
  made_callback (h.fresh commit.scope) commit () tx hexec

theorem commit_invariant (h : SessionInvariant s) {commit : Commit} (hrun : commit.run s = .ok s') :
    SessionInvariant s' := by
  obtain ⟨tx, hexec, hassemble⟩ := run_ok hrun
  exact invariant_assemble (commit_made h hexec).good hassemble

theorem session_inductive : SessionSystem.Inductive SessionInvariant where
  init s hs := by
    obtain ⟨nextId, rfl⟩ := hs
    have hinputs : (LiveState.mk none none).inputs = [] := rfl
    refine ⟨⟨⟨by simp [begin, Tx.rows], by simp [begin, Tx.rows], by simp [begin],
      by simp [begin], by simp [begin, Tx.rows]⟩, ⟨by simp [begin], by simp [begin]⟩,
      fun c => rfl, ⟨fun c id => ?_, fun c => ?_⟩⟩, fun c => rfl⟩
    · simp [begin, Tx.rows, Held, hinputs, noInputs]
    · simp [begin, hinputs, noInputs]
  step s s' h hstep := by
    rcases hstep with ⟨commit, hrun⟩ | ⟨nextId, hle, rfl⟩
    · exact commit_invariant h hrun
    · exact ⟨⟨h.sound.rows.mono hle, h.sound.tasks.mono hle, h.sound.filed, h.sound.listed⟩,
        h.owners⟩

/-! ## Submissions and runs -/

/-- A placed input in a committed table. -/
theorem held_begin {id : SubmissionId} : Held (begin s none).rows [] c id ↔
    ∃ r ∈ s.submissions, r.id = id ∧ r.conversationId = c ∧ r.type = .input ∧ r.status.isPlaced := by
  rw [rows_begin]
  rfl

theorem SessionInvariant.inputs (h : SessionInvariant s) (c : ConversationId) :
    (s.live c).inputs.Nodup ∧ ∀ id, id ∈ (s.live c).inputs ↔
      ∃ r ∈ s.submissions, r.id = id ∧ r.conversationId = c ∧ r.type = .input ∧
        r.status.isPlaced := by
  have honce := h.sound.listed.once c
  have hheld := h.sound.listed.held c
  simp only [noInputs, List.append_nil] at honce hheld
  exact ⟨honce, fun id => (hheld id).trans held_begin⟩

/-- Records of the store are still there after a commit, each as its change leaves it. -/
theorem outcome_mem (hgood : Good everyTask tx) (hstore : tx.store = s)
    (hassemble : tx.assemble = .ok s') {r : SubmissionRecord} (hr : r ∈ s.submissions) :
    r ∈ tx.rows ∧ outcome tx.changes r ∈ s'.submissions := by
  rw [assemble_good hgood] at hassemble
  cases hassemble
  have hmem : r ∈ tx.rows := List.mem_append_left _ (hstore ▸ hr)
  exact ⟨hmem, List.mem_map_of_mem hmem⟩

theorem live_assemble (hgood : Good everyTask tx) (hassemble : tx.assemble = .ok s') :
    s'.live = tx.live := by
  rw [assemble_good hgood] at hassemble
  cases hassemble
  rfl

theorem SessionInvariant.run (h : SessionInvariant s) {run : Run}
    (hrun : (s.live c).run = some run) : ∃ t ∈ s.tasks, t.id = run.taskId ∧
      t.kind = .generation ∧ t.conversationId = c ∧ ¬ t.state.isTerminal := by
  have hmem : run.taskId ∈ runTask (s.live c) := by
    rw [runTask, hrun]
    exact List.mem_singleton_self _
  have heq : owning s.tasks c = runTask (s.live c) := h.owners.eq c
  have howning : run.taskId ∈ owning s.tasks c := by rwa [heq]
  obtain ⟨t, ht, hid, hc, hkind, howns⟩ := mem_owning.mp howning
  refine ⟨t, ht, hid, hkind, hc, ?_⟩
  cases hs : t.state <;> simp_all [TaskState.owns, TaskState.isTerminal]

theorem filter_once {changes : List (SubmissionId × SubmissionChange)}
    (honce : (changes.map Prod.fst).Nodup) {id : SubmissionId} {change : SubmissionChange}
    (h : (id, change) ∈ changes) : changes.filter (·.1 = id) = [(id, change)] := by
  induction changes with
  | nil => cases h
  | cons p rest ih =>
    rw [List.map_cons, List.nodup_cons] at honce
    rcases List.mem_cons.mp h with rfl | h
    · rw [List.filter_cons_of_pos (by simp), List.filter_eq_nil_iff.mpr]
      intro p hp heq
      exact honce.1 (List.mem_map.mpr ⟨p, hp, of_decide_eq_true heq⟩)
    · have hne : p.1 ≠ id := fun heq => honce.1 (List.mem_map.mpr ⟨_, h, heq.symm⟩)
      rw [List.filter_cons_of_neg (by simpa using hne), ih honce.2 h]

/-- An input that a run no longer lists is settled, once. -/
theorem settled_of_leaves (h : SessionInvariant s) (hgood : Good everyTask tx) (hstore : tx.store = s)
    (hassemble : tx.assemble = .ok s') {id : SubmissionId} (hid : id ∈ (s.live c).inputs)
    (hleaves : id ∉ (s'.live c).inputs) :
    (∃ settlement, tx.changes.filter (·.1 = id) = [(id, .settled settlement)]) ∧
      ∃ r ∈ s'.submissions, r.id = id ∧ r.status.isSettled := by
  obtain ⟨r, hr, rfl, rfl, htype, hplaced⟩ := ((h.inputs c).2 id).mp hid
  obtain ⟨hmem, hout⟩ := outcome_mem hgood hstore hassemble hr
  have hnot : ¬ (outcome tx.changes r).status.isPlaced := by
    intro hplaced'
    have hheld := (hgood.sound.listed.held r.conversationId r.id).mpr
      ⟨r, hmem, rfl, rfl, htype, hplaced'⟩
    simp only [noInputs, List.append_nil] at hheld
    rw [live_assemble hgood hassemble] at hleaves
    exact hleaves hheld
  have hchanged : r.id ∈ tx.changes.map Prod.fst := by
    by_contra hnew
    rw [outcome_of_not_mem hnew] at hnot
    exact hnot hplaced
  obtain ⟨change, hp⟩ := mem_changed hchanged
  have hlegal := hgood.sound.rows.legal_of_mem hmem hp
  cases change with
  | placed entry =>
    have hq : r.status.isQueued := hlegal
    rw [eq_queued hq] at hplaced
    cases hplaced
  | settled settlement =>
    refine ⟨⟨settlement, ?_⟩, _, hout, outcome_id, ?_⟩
    · exact filter_once hgood.sound.rows.once hp
    · rw [outcome_of_mem hgood.sound.rows.once hp]
      exact nextStatus_settled hlegal

/-- In every state of a session, a run is that of a live generation and lists the placed inputs of
its conversation. An input that leaves a run is settled in the commit that ends the run, once. -/
theorem runs_settle_their_inputs (h : SessionSystem.Reach s) :
    (∀ c run, (s.live c).run = some run → ∃ t ∈ s.tasks, t.id = run.taskId ∧
      t.kind = .generation ∧ t.conversationId = c ∧ ¬ t.state.isTerminal) ∧
    (∀ c, (s.live c).inputs.Nodup ∧ ∀ id, id ∈ (s.live c).inputs ↔
      ∃ r ∈ s.submissions, r.id = id ∧ r.conversationId = c ∧ r.type = .input ∧
        r.status.isPlaced) ∧
    ∀ commit s', Commit.run commit s = .ok s' → ∃ tx,
      exec commit.callback (begin s commit.scope) = (.ok (), tx) ∧ tx.assemble = .ok s' ∧
      (∀ c id, id ∈ (s.live c).inputs → id ∉ (s'.live c).inputs →
        (∃ settlement, tx.changes.filter (·.1 = id) = [(id, .settled settlement)]) ∧
          ∃ r ∈ s'.submissions, r.id = id ∧ r.status.isSettled) ∧
      ∀ r ∈ s.submissions, r.type = .input → r.status.isPlaced → ∀ r' ∈ s'.submissions,
        r'.id = r.id → ¬ r'.status.isPlaced →
          ∃ run, (s.live r.conversationId).run = some run ∧ r.id ∈ run.inputs ∧
            commit.acts run.taskId := by
  have hinv := session_inductive.reach h
  refine ⟨fun c run => hinv.run, hinv.inputs, fun commit s' hrun => ?_⟩
  obtain ⟨tx, hexec, hassemble⟩ := run_ok hrun
  have hmade := commit_made hinv hexec
  refine ⟨tx, hexec, hassemble, fun c id => settled_of_leaves hinv hmade.good hmade.store hassemble,
    fun r hr htype hplaced r' hr' hid hnot => ?_⟩
  have hlisted : r.id ∈ (s.live r.conversationId).inputs :=
    ((hinv.inputs _).2 _).mpr ⟨r, hr, rfl, rfl, htype, hplaced⟩
  cases hlive : (s.live r.conversationId).run with
  | none =>
    rw [inputs_of_idle hlive] at hlisted
    cases hlisted
  | some run =>
    refine ⟨run, rfl, inputs_of_run hlive ▸ hlisted, ?_⟩
    -- a run that the commit does not act on still lists the input
    by_contra hacts
    have hsame := hmade.frame r.conversationId run hlive hacts
    have hafter : r.id ∈ (s'.live r.conversationId).inputs := by
      rw [live_assemble hmade.good hassemble, inputs_of_run hsame, ← inputs_of_run hlive]
      exact hlisted
    obtain ⟨r'', hr'', hid'', -, -, hplaced''⟩ :=
      (((invariant_assemble hmade.good hassemble).inputs _).2 _).mp hafter
    have hrows := (invariant_assemble hmade.good hassemble).sound.rows
    rw [rows_begin] at hrows
    obtain rfl := eq_of_id hrows.ascending hr' hr'' (hid.trans hid''.symm)
    exact hnot hplaced''

/-- The state after some commits; one that fails changes nothing. -/
def after (commits : List Commit) (s : Store) : Store :=
  commits.foldl (fun s commit => (commit.run s).toOption.getD s) s

theorem reach_after (commits : List Commit) (h : SessionSystem.Reach s) :
    SessionSystem.Reach (after commits s) := by
  induction commits generalizing s with
  | nil => exact h
  | cons commit rest ih =>
    refine ih ?_
    change SessionSystem.Reach ((commit.run s).toOption.getD s)
    cases hrun : commit.run s with
    | error e => exact h
    | ok s' => exact h.step (.inl ⟨commit, hrun⟩)

/-- A new session. -/
def empty (nextId : Nat) : Store := ⟨nextId, [], [], [], [], fun _ => [], fun _ => ⟨none, none⟩⟩

theorem reach_empty (nextId : Nat) : SessionSystem.Reach (empty nextId) := .init ⟨nextId, rfl⟩

/-- An input starts a run, and another one waits. -/
def sampleCommits : List Commit :=
  [.createConversation,
    .admitSubmission 1 ⟨some (lit "first"), .input (.str (lit "hello")) none⟩ 10 ⟨.all, .all⟩ none,
    .admitSubmission 1 ⟨none, .input (.str (lit "more")) (some .steer)⟩ 20 ⟨.all, .all⟩ none,
    .reserve [(4, .start)]]

theorem runs_settle_their_inputs_sample :
    ((after sampleCommits (empty 1)).live 1).run = some ⟨4, [3]⟩ ∧
      ((after sampleCommits (empty 1)).inbox 1).map InboxItem.id = [5] ∧
      (∃ t ∈ (after sampleCommits (empty 1)).tasks, t.id = 4 ∧ t.kind = .generation ∧
        t.conversationId = 1 ∧ ¬ t.state.isTerminal) ∧
      (((Commit.generation 4 (.answer (.obj []) none 30 ⟨.all, .all⟩ none) false).run
        (after sampleCommits (empty 1))).toOption.map fun s => (s.live 1).run) =
          some (some ⟨8, [5]⟩) := by
  have hrun : ((after sampleCommits (empty 1)).live 1).run = some ⟨4, [3]⟩ := by decide +kernel
  exact ⟨hrun, by decide +kernel,
    (runs_settle_their_inputs (reach_after sampleCommits (reach_empty 1))).1 1 ⟨4, [3]⟩ hrun,
    by decide +kernel⟩

end Harness
