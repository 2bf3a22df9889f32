import ContextCompaction.Harness.Operations

/-!
# The operations keep a transaction sound
-/

namespace Harness

open Js Program SubmissionStatus Sequences

variable {tx : Tx} {pending : ConversationId → List SubmissionId} {c : ConversationId}
  {cs : List (SubmissionId × SubmissionChange)} {es : List EntryRecord}

/-! ## Boundaries -/

section

variable {modes : QueueModes} {final : Bool} {now : Nat} {items : List InboxItem}

/-- The submission of a selected item. -/
theorem record_of_selected (h : Sound pending tx) (hitems : tx.inbox c = items)
    (hlog : BoundaryLog c modes final now items es cs) {id : SubmissionId}
    (hid : id ∈ cs.map Prod.fst) : ∃ item ∈ items, item.id = id ∧ id ∉ tx.changes.map Prod.fst ∧
      ∃ r ∈ tx.rows, r.id = id ∧ r.conversationId = c ∧ r.type = item.type ∧ r.status.isQueued := by
  rw [hlog.ids, mem_idsAt] at hid
  obtain ⟨i, -, hid⟩ := hid
  obtain ⟨item, hitem, rfl⟩ := Option.map_eq_some_iff.mp hid
  have hmem : item ∈ tx.inbox c := hitems ▸ List.mem_of_getElem? hitem
  obtain ⟨hnew, r, hr, hrow⟩ := h.filed.of_mem hmem
  exact ⟨item, hitems ▸ hmem, rfl, hnew, r, hr, hrow⟩

/-- The changes of a boundary are statuses of submissions that exist. -/
theorem rows_boundary (h : Sound pending tx) (hitems : tx.inbox c = items)
    (hlog : BoundaryLog c modes final now items es cs) :
    Rows tx.rows (tx.changes ++ cs) tx.nextId := by
  apply h.rows.change
  · rw [hlog.ids]
    exact nodup_idsAt (hitems ▸ (h.filed.ascending h.rows).imp ne_of_lt) (nodup_selected _ _ _)
  · intro id hid
    obtain ⟨-, -, -, hnew, -⟩ := record_of_selected h hitems hlog hid
    exact hnew
  · intro p hp
    obtain ⟨-, -, -, -, r, hr, hid, -, -, hq⟩ :=
      record_of_selected h hitems hlog (List.mem_map_of_mem hp)
    refine ⟨r, hr, hid, ?_⟩
    rcases hlog.kinds p hp with hkind | ⟨e, hkind⟩ <;> rw [hkind]
    · change ¬ r.status.isSettled
      rw [eq_queued hq]
      exact Bool.false_ne_true
    · exact hq

/-- After a boundary the inbox still holds exactly the queued submissions. -/
theorem filed_boundary (h : Sound pending tx) (hitems : tx.inbox c = items)
    (hlog : BoundaryLog c modes final now items es cs) :
    Filed (Function.update tx.inbox c (without items (selected modes final items))) tx.rows
      (tx.changes ++ cs) := by
  refine h.filed.change fun c' => ?_
  by_cases hc : c' = c
  · subst hc
    rw [Function.update_self, hitems]
    refine map_without (hitems ▸ (h.filed.ascending h.rows).imp ne_of_lt) fun id => ?_
    rw [hlog.ids, mem_idsAt]
  · rw [Function.update_of_ne hc, List.filter_eq_self.mpr]
    intro item hitem
    suffices item.id ∉ cs.map Prod.fst by simpa using this
    intro hid
    obtain ⟨-, r, hr, hrid, hrc, -⟩ := h.filed.of_mem hitem
    obtain ⟨-, -, -, -, r', hr', hrid', hrc', -⟩ := record_of_selected h hitems hlog hid
    obtain rfl := eq_of_id h.rows.ascending hr hr' (hrid.trans hrid'.symm)
    exact hc (hrc.symm.trans hrc')

/-- After a boundary a run's inputs are those it had and those placed. -/
theorem listed_boundary (h : Sound noInputs tx) (hitems : tx.inbox c = items)
    (hlog : BoundaryLog c modes final now items es cs) :
    Listed (fun c' => (tx.live c').inputs ++
      only c (idsAt items (selectedUsers modes final items)) c') tx.rows (tx.changes ++ cs) := by
  have hrows := rows_boundary h hitems hlog
  have hlisted : ∀ c', noInputs c' = [] := fun _ => rfl
  -- a listed input is placed, and a selected one queued
  have hdisjoint : ∀ c' id, id ∈ (tx.live c').inputs → id ∉ cs.map Prod.fst := by
    intro c' id hid hmem
    obtain ⟨item, hitem, rfl, -⟩ := record_of_selected h hitems hlog hmem
    exact h.listed.not_queued h.rows h.filed (List.mem_append_left _ hid) (hitems ▸ hitem) rfl
  have husers : ∀ id, id ∈ idsAt items (selectedUsers modes final items) ↔
      ∃ r ∈ tx.rows, r.id = id ∧ r.conversationId = c ∧ r.type = .input ∧
        ∃ entry, (id, .placed entry) ∈ cs := by
    intro id
    constructor
    · intro hid
      obtain ⟨i, hi, hitem⟩ := mem_idsAt.mp hid
      obtain ⟨id', content, huser⟩ := user_of_selected hi
      obtain ⟨item, hitem', hu⟩ := Option.bind_eq_some_iff.mp huser
      obtain ⟨rfl, htype⟩ := user?_eq_some hu
      rw [hitem'] at hitem
      cases hitem
      obtain ⟨e, he, hp, -⟩ := hlog.users i hi _ _ huser
      have hmem : item ∈ tx.inbox c := hitems ▸ List.mem_of_getElem? hitem'
      obtain ⟨-, r, hr, hrid, hrc, hrtype, -⟩ := h.filed.of_mem hmem
      exact ⟨r, hr, hrid, hrc, hrtype.trans htype, e.id, hp⟩
    · rintro ⟨r, hr, rfl, hrc, hrtype, entry, hp⟩
      have hid : r.id ∈ idsAt items (selected modes final items) := by
        rw [← hlog.ids]
        exact List.mem_map_of_mem hp
      rw [selected, idsAt_append, List.mem_append] at hid
      refine hid.resolve_left fun hw => ?_
      obtain ⟨i, hi, hitem⟩ := mem_idsAt.mp hw
      obtain ⟨id', draft, hwrite⟩ := write_of_index hi
      rw [hwrite] at hitem
      cases hitem
      have hmem : InboxItem.write r.id draft ∈ tx.inbox c := hitems ▸ List.mem_of_getElem? hwrite
      obtain ⟨-, r', hr', hrid', -, hrtype', -⟩ := h.filed.of_mem hmem
      obtain rfl := eq_of_id h.rows.ascending hr hr' hrid'.symm
      rw [hrtype] at hrtype'
      cases hrtype'
  refine h.listed.change hrows (fun c' id => ?_) fun c' => ?_
  · rw [List.mem_append, hlisted, List.append_nil]
    by_cases hc : c' = c
    · subst hc
      rw [only, Function.update_self, husers]
      constructor
      · rintro (hid | hid)
        · exact .inl ⟨hid, hdisjoint _ _ hid⟩
        · exact .inr hid
      · rintro (⟨hid, -⟩ | hid)
        · exact .inl hid
        · exact .inr hid
    · rw [only, Function.update_of_ne hc, hlisted]
      constructor
      · rintro (hid | hid)
        · exact .inl ⟨hid, hdisjoint _ _ hid⟩
        · cases hid
      · rintro (⟨hid, -⟩ | ⟨r, hr, rfl, hrc, -, entry, hp⟩)
        · exact .inl hid
        · obtain ⟨-, -, -, -, r', hr', hrid', hrc', -⟩ :=
            record_of_selected h hitems hlog (List.mem_map_of_mem hp)
          obtain rfl := eq_of_id h.rows.ascending hr hr' hrid'.symm
          exact absurd (hrc.symm.trans hrc') hc
  · have honce := h.listed.once c'
    rw [hlisted, List.append_nil] at honce
    by_cases hc : c' = c
    · subst hc
      rw [only, Function.update_self]
      refine honce.append (nodup_idsAt (hitems ▸ (h.filed.ascending h.rows).imp ne_of_lt)
        (nodup_selectedUsers _ _ _)) fun id hid hid' => ?_
      apply hdisjoint _ _ hid
      obtain ⟨r, -, -, -, -, entry, hp⟩ := (husers id).mp hid'
      exact List.mem_map_of_mem hp
    · rw [only, Function.update_of_ne hc, hlisted, List.append_nil]
      exact honce

end

/-- A boundary places what it selects; its inputs wait for a run. -/
theorem sound_applyBoundary {boundary : Boundary} {place : BoundaryAt} {now : Nat}
    (h : Sound noInputs tx) :
    Yields (applyBoundary boundary place now) tx fun result t =>
      Sound (only boundary.conversationId result.users) t ∧ t.tasks = tx.tasks ∧ t.live = tx.live ∧
        t.store = tx.store ∧ tx.nextId ≤ t.nextId := by
  refine (yields_applyBoundary rfl).mono ?_
  rintro ⟨users, reset⟩ t ⟨n, es, cs, hn, rfl, hlog, husers, -⟩
  simp only at husers
  subst husers
  exact ⟨⟨(rows_boundary h rfl hlog).mono hn, h.tasks.mono hn, filed_boundary h rfl hlog,
    listed_boundary h rfl hlog⟩, rfl, rfl, rfl, hn⟩

/-! ## Runs -/

/-- No input of a run is changed yet. -/
def Untouched (tx : Tx) : Prop := ∀ c, ∀ id ∈ (tx.live c).inputs, id ∉ tx.changes.map Prod.fst

theorem untouched_applyBoundary {boundary : Boundary} {place : BoundaryAt} {now : Nat}
    (h : Sound noInputs tx) (hnew : Untouched tx) :
    Yields (applyBoundary boundary place now) tx fun _ t => Untouched t := by
  refine (yields_applyBoundary rfl).mono ?_
  rintro _ t ⟨n, es, cs, -, rfl, hlog, -⟩ c id hid
  rw [List.map_append, List.mem_append]
  rintro (hmem | hmem)
  · exact hnew c id hid hmem
  · obtain ⟨item, hitem, rfl, -⟩ := record_of_selected h rfl hlog hmem
    exact h.listed.not_queued h.rows h.filed (List.mem_append_left _ hid) hitem rfl

/-- An input of a run, before the commit changes it. -/
theorem record_of_input (h : Sound pending tx) (hnew : Untouched tx) {id : SubmissionId}
    (hid : id ∈ (tx.live c).inputs) :
    ∃ r ∈ tx.rows, r.id = id ∧ r.conversationId = c ∧ r.status.isPlaced := by
  obtain ⟨r, hr, rfl, hc, -, hplaced⟩ := (h.listed.held c id).mp (List.mem_append_left _ hid)
  rw [outcome_of_not_mem (hnew c _ hid)] at hplaced
  exact ⟨r, hr, rfl, hc, hplaced⟩

theorem legal_settled {r : SubmissionRecord} (h : r.status.isPlaced)
    (settlement : SubmissionSettlement) : Legal r (.settled settlement) := by
  cases settlement
  · exact h
  · exact fun hs => not_isPlaced_of_isSettled hs h

/-- The inputs of a run are settled, and it is gone. -/
theorem sound_settle (h : Sound pending tx) (hnew : Untouched tx) (c : ConversationId)
    (settlement : SubmissionSettlement) (generation : Option GenerationState) :
    Sound pending { tx with
      changes := tx.changes ++ (tx.live c).inputs.map fun id => (id, .settled settlement)
      live := Function.update tx.live c ⟨none, generation⟩ } := by
  have hids : ((tx.live c).inputs.map fun id =>
      (id, SubmissionChange.settled settlement)).map Prod.fst = (tx.live c).inputs := by
    rw [List.map_map]
    exact List.map_id _
  have honce := h.listed.once c
  have hrows : Rows tx.rows (tx.changes ++ (tx.live c).inputs.map fun id =>
      (id, .settled settlement)) tx.nextId := by
    apply h.rows.change
    · rw [hids]
      exact (List.nodup_append.mp honce).1
    · rw [hids]
      exact hnew c
    · intro p hp
      obtain ⟨id, hid, rfl⟩ := List.mem_map.mp hp
      obtain ⟨r, hr, hrid, -, hplaced⟩ := record_of_input h hnew hid
      exact ⟨r, hr, hrid, legal_settled hplaced settlement⟩
  refine ⟨hrows, h.tasks, ?_, ?_⟩
  · refine h.filed.settle fun id hid c' item hitem => ?_
    rw [hids] at hid
    exact h.listed.not_queued h.rows h.filed (List.mem_append_left _ hid) hitem
  · refine h.listed.change hrows (fun c' id => ?_) fun c' => ?_
    · rw [hids]
      have hsettled : ¬ ∃ r ∈ tx.rows, r.id = id ∧ r.conversationId = c' ∧ r.type = .input ∧
          ∃ entry, (id, SubmissionChange.placed entry) ∈
            (tx.live c).inputs.map fun id => (id, .settled settlement) := by
        rintro ⟨-, -, -, -, -, entry, hp⟩
        obtain ⟨_, -, heq⟩ := List.mem_map.mp hp
        cases heq
      rw [or_iff_left hsettled]
      by_cases hc : c' = c
      · subst hc
        dsimp only
        rw [Function.update_self]
        constructor
        · intro hid
          refine ⟨List.mem_append_right _ hid, fun hmem => ?_⟩
          exact (List.nodup_append.mp honce).2.2 id hmem id hid rfl
        · rintro ⟨hid, hmem⟩
          exact (List.mem_append.mp hid).resolve_left hmem
      · dsimp only
        rw [Function.update_of_ne hc]
        refine ⟨fun hid => ⟨hid, fun hmem => ?_⟩, And.left⟩
        -- an input is of one conversation
        obtain ⟨r, hr, hrid, hrc, -⟩ := (h.listed.held c' id).mp hid
        obtain ⟨r', hr', hrid', hrc', -⟩ := record_of_input h hnew hmem
        obtain rfl := eq_of_id h.rows.ascending hr hr' (hrid.trans hrid'.symm)
        exact hc (hrc.symm.trans hrc')
    · dsimp only
      by_cases hc : c' = c
      · subst hc
        rw [Function.update_self]
        exact (List.nodup_append.mp honce).2.1
      · rw [Function.update_of_ne hc]
        exact h.listed.once c'

theorem inputs_of_run {live : LiveState} {run : Run} (h : live.run = some run) :
    live.inputs = run.inputs := by
  rw [LiveState.inputs, h]
  rfl

theorem inputs_of_idle {live : LiveState} (h : live.run = none) : live.inputs = [] := by
  rw [LiveState.inputs, h]
  rfl

/-- The run of the task ends. -/
theorem yields_endRun {taskId : TaskId} {settlement : SubmissionSettlement}
    (hrun : (tx.live c).run.any (·.taskId = taskId)) :
    Yields (endRun c taskId settlement) tx fun _ t => t = { tx with
      changes := tx.changes ++ (tx.live c).inputs.map fun id => (id, .settled settlement)
      live := Function.update tx.live c ⟨none, none⟩ } := by
  refine yields_get_bind ?_
  rw [if_pos hrun]
  refine yields_settleAll.bind ?_
  rintro _ t rfl
  exact yields_modify rfl

theorem yields_createTask {kind : TaskKind} :
    Yields (createTask kind c) tx fun id t => id = tx.nextId ∧ t = { tx with
      nextId := tx.nextId + 1
      tasks := tx.tasks ++ [⟨tx.nextId, c, kind, false, .pending⟩] } := by
  refine yields_requireConversation.bind ?_
  rintro _ t rfl
  refine yields_mintId.bind ?_
  rintro _ _ ⟨rfl, rfl⟩
  rintro _ _ ⟨⟩
  exact ⟨rfl, rfl⟩

theorem TaskIds.append {tasks : List TaskRecord} {n : Nat} (h : TaskIds tasks n)
    {t : TaskRecord} (ht : t.id = n) : TaskIds (tasks ++ [t]) (n + 1) where
  ascending := by
    rw [List.map_append, List.pairwise_append]
    refine ⟨h.ascending, by simp, ?_⟩
    simp only [List.mem_map, List.map_cons, List.map_nil, List.mem_singleton]
    rintro _ ⟨t', ht', rfl⟩ _ rfl
    rw [ht]
    exact h.minted t' ht'
  minted t' ht' := by
    rcases List.mem_append.mp ht' with ht' | ht'
    · exact Nat.lt_succ_of_lt (h.minted t' ht')
    · rw [List.mem_singleton.mp ht', ht]
      exact Nat.lt_succ_self n

theorem sound_createTask (h : Sound pending tx) (kind : TaskKind) :
    Sound pending { tx with
      nextId := tx.nextId + 1
      tasks := tx.tasks ++ [⟨tx.nextId, c, kind, false, .pending⟩] } :=
  ⟨h.rows.mono (Nat.le_succ _), h.tasks.append rfl, h.filed, h.listed⟩

/-- A run takes the inputs that are pending. -/
theorem yields_startRun {users : List SubmissionId} :
    Yields (startRun c users) tx fun _ t => t = { tx with
      nextId := tx.nextId + 1
      tasks := tx.tasks ++ [⟨tx.nextId, c, .generation, false, .pending⟩]
      live := Function.update tx.live c { tx.live c with run := some ⟨tx.nextId, users⟩ } } := by
  refine yields_createTask.bind ?_
  rintro _ _ ⟨rfl, rfl⟩
  exact yields_get_bind (yields_modify rfl)

theorem sound_run {users : List SubmissionId} {run : Run} (h : Sound (only c users) tx)
    (hrun : run.inputs = (tx.live c).inputs ++ users) (generation : Option GenerationState) :
    Sound noInputs { tx with live := Function.update tx.live c ⟨some run, generation⟩ } := by
  refine ⟨h.rows, h.tasks, h.filed, h.listed.congr fun c' => ?_⟩
  dsimp only
  by_cases hc : c' = c
  · subst hc
    rw [Function.update_self, only, Function.update_self, inputs_of_run rfl, hrun]
    exact List.append_nil _
  · rw [Function.update_of_ne hc, only, Function.update_of_ne hc]

theorem sound_startRun {users : List SubmissionId} (h : Sound (only c users) tx)
    (hidle : (tx.live c).run = none) :
    Yields (startRun c users) tx fun _ t => Sound noInputs t := by
  refine yields_startRun.mono ?_
  rintro _ t rfl
  refine sound_run (c := c) (sound_createTask h .generation) ?_ _
  rw [inputs_of_idle hidle]
  rfl

/-! ## Withdrawal -/

/-- Items of an inbox are withdrawn. -/
theorem sound_withdraw (h : Sound pending tx) (c : ConversationId) {ids : List SubmissionId}
    (hnodup : ids.Nodup) (hids : ∀ id ∈ ids, ∃ item ∈ tx.inbox c, item.id = id) :
    Sound pending { tx with
      changes := tx.changes ++ ids.map fun id => (id, .settled aborted)
      inbox := Function.update tx.inbox c ((tx.inbox c).filter (·.id ∉ ids)) } := by
  have hmap : (ids.map fun id => (id, SubmissionChange.settled aborted)).map Prod.fst = ids := by
    rw [List.map_map]
    exact List.map_id _
  have hrows : Rows tx.rows (tx.changes ++ ids.map fun id => (id, .settled aborted)) tx.nextId := by
    apply h.rows.change
    · rwa [hmap]
    · rw [hmap]
      intro id hid
      obtain ⟨item, hitem, rfl⟩ := hids id hid
      exact (h.filed.of_mem hitem).1
    · intro p hp
      obtain ⟨id, hid, rfl⟩ := List.mem_map.mp hp
      obtain ⟨item, hitem, rfl⟩ := hids id hid
      obtain ⟨-, r, hr, hrid, -, -, hq⟩ := h.filed.of_mem hitem
      refine ⟨r, hr, hrid, ?_⟩
      change ¬ r.status.isSettled
      rw [eq_queued hq]
      exact Bool.false_ne_true
  refine ⟨hrows, h.tasks, ?_, ?_⟩
  · refine h.filed.change fun c' => ?_
    rw [hmap]
    by_cases hc : c' = c
    · subst hc
      exact Function.update_self ..
    · refine (Function.update_of_ne hc _ _).trans (List.filter_eq_self.mpr ?_).symm
      intro item hitem
      suffices item.id ∉ ids by simpa using this
      intro hid
      obtain ⟨item', hitem', hid'⟩ := hids _ hid
      obtain ⟨-, r, hr, hrid, hrc, -⟩ := h.filed.of_mem hitem
      obtain ⟨-, r', hr', hrid', hrc', -⟩ := h.filed.of_mem hitem'
      obtain rfl := eq_of_id h.rows.ascending hr hr' (hrid.trans (hid'.symm.trans hrid'.symm))
      exact hc (hrc.symm.trans hrc')
  · refine h.listed.change hrows (fun c' id => ?_) h.listed.once
    have hsettled : ¬ ∃ r ∈ tx.rows, r.id = id ∧ r.conversationId = c' ∧ r.type = .input ∧
        ∃ entry, (id, SubmissionChange.placed entry) ∈ ids.map fun id => (id, .settled aborted) := by
      rintro ⟨-, -, -, -, -, entry, hp⟩
      obtain ⟨_, -, heq⟩ := List.mem_map.mp hp
      cases heq
    rw [hmap, or_iff_left hsettled]
    refine ⟨fun hid => ⟨hid, fun hmem => ?_⟩, And.left⟩
    obtain ⟨item, hitem, rfl⟩ := hids id hmem
    exact h.listed.not_queued h.rows h.filed hid hitem rfl

/-- The user items of an inbox. -/
def userIds (items : List InboxItem) : List SubmissionId := (items.filterMap InboxItem.user?).map Prod.fst

theorem mem_userIds {items : List InboxItem} {id : SubmissionId} :
    id ∈ userIds items ↔ ∃ item ∈ items, item.id = id ∧ ¬ item.isWrite := by
  simp only [userIds, List.mem_map, List.mem_filterMap]
  constructor
  · rintro ⟨⟨_, content⟩, ⟨item, hitem, huser⟩, rfl⟩
    refine ⟨item, hitem, (user?_eq_some huser).1, ?_⟩
    cases item <;> simp_all [InboxItem.user?, InboxItem.isWrite]
  · rintro ⟨item, hitem, rfl, hwrite⟩
    cases item with
    | steer id content | followUp id content => exact ⟨(id, content), ⟨_, hitem, rfl⟩, rfl⟩
    | write id entry => exact absurd rfl hwrite

/-- Below an index the user inputs are settled as aborted and removed, and the writes stay. -/
theorem yields_withdrawBelow {front : List InboxItem} (back : List InboxItem) {k : Nat}
    (hk : front.length = k)
    (hitems : tx.inbox c = front ++ back) :
    Yields (withdrawBelow c k) tx fun _ t => t = { tx with
      changes := tx.changes ++ (userIds front.reverse).map fun id => (id, .settled aborted)
      inbox := Function.update tx.inbox c (front.filter (·.isWrite) ++ back) } := by
  induction k generalizing tx front back with
  | zero =>
    obtain rfl := List.eq_nil_of_length_eq_zero hk
    refine yields_pure ?_
    have : Function.update tx.inbox c back = tx.inbox := by
      rw [← (show tx.inbox c = back from hitems)]
      exact Function.update_eq_self c _
    simp [userIds, this]
  | succ k ih =>
    have hne : front ≠ [] := by
      rintro rfl
      cases hk
    obtain ⟨rest, item, rfl⟩ := (List.eq_nil_or_concat' front).resolve_left hne
    have hlen : rest.length = k := by simpa using hk
    have hitems' : tx.inbox c = rest ++ item :: back := by simpa using hitems
    have hitem : (tx.inbox c)[k]? = some item := by
      rw [hitems', ← hlen]
      simp
    unfold withdrawBelow
    refine yields_get_bind ?_
    rw [hitem]
    cases huser : item.user? with
    | none =>
      have hwrite : item.isWrite := by
        cases item <;> simp_all [InboxItem.user?, InboxItem.isWrite]
      simp only [Option.bind_some, huser]
      refine (ih (item :: back) hlen hitems').mono ?_
      rintro _ t rfl
      simp [userIds, huser, hwrite]
    | some p =>
      have hwrite : ¬ item.isWrite := by
        cases item <;> simp_all [InboxItem.user?, InboxItem.isWrite]
      simp only [Option.bind_some, huser]
      have herase : (tx.inbox c).eraseIdx k = rest ++ back := by
        rw [hitems', ← hlen, List.eraseIdx_append_of_length_le (Nat.le_refl _)]
        simp
      refine yields_modify_bind (yields_modify_bind (Yields.mono (ih back hlen ?_) ?_))
      · exact (Function.update_self ..).trans herase
      · rintro _ t rfl
        simp [userIds, huser, hwrite, Function.update_idem]

/-- Withdrawing keeps the transaction sound and touches neither tasks nor runs. -/
theorem sound_withdrawQueuedInputs (h : Sound pending tx) :
    Yields (withdrawQueuedInputs c) tx fun _ t => Sound pending t ∧ t.tasks = tx.tasks ∧
      t.live = tx.live ∧ t.store = tx.store := by
  refine yields_get_bind ((yields_withdrawBelow [] rfl (List.append_nil _).symm).mono ?_)
  rintro _ t rfl
  have hfilter : (tx.inbox c).filter (·.isWrite) ++ [] =
      (tx.inbox c).filter (·.id ∉ userIds (tx.inbox c).reverse) := by
    rw [List.append_nil]
    apply List.filter_congr
    intro item hitem
    rw [Bool.eq_iff_iff, decide_eq_true_iff, mem_userIds]
    constructor
    · rintro hwrite ⟨item', hitem', hid, hwrite'⟩
      have hnodup := (h.filed.ascending (c := c) h.rows).imp ne_of_lt
      rw [List.inj_on_of_nodup_map hnodup (List.mem_reverse.mp hitem') hitem hid] at hwrite'
      exact hwrite' hwrite
    · intro hid
      by_contra hwrite
      exact hid ⟨item, List.mem_reverse.mpr hitem, rfl, hwrite⟩
  rw [hfilter]
  refine ⟨sound_withdraw h c ?_ fun id hid => ?_, rfl, rfl, rfl⟩
  · have hnodup : ((tx.inbox c).reverse.map InboxItem.id).Nodup := by
      rw [List.map_reverse, List.nodup_reverse]
      exact (h.filed.ascending h.rows).imp ne_of_lt
    have hsub : (userIds (tx.inbox c).reverse).Sublist ((tx.inbox c).reverse.map InboxItem.id) := by
      generalize (tx.inbox c).reverse = items
      induction items with
      | nil => exact List.Sublist.refl _
      | cons item rest ih =>
        cases huser : item.user? with
        | none => exact (by simpa [userIds, huser] using ih.cons item.id)
        | some p =>
          have := (user?_eq_some huser).1
          simpa [userIds, huser, this] using ih
    exact hnodup.sublist hsub
  · obtain ⟨item, hitem, hid, -⟩ := mem_userIds.mp hid
    exact ⟨item, List.mem_reverse.mp hitem, hid⟩

/-- A queued submission is withdrawn, and its item removed. -/
theorem eraseIdx_findIdx {items : List InboxItem} (h : (items.map InboxItem.id).Nodup)
    (id : SubmissionId) :
    items.eraseIdx (items.findIdx (·.id = id)) = items.filter (·.id ∉ [id]) := by
  induction items with
  | nil => rfl
  | cons item rest ih =>
    rw [List.map_cons, List.nodup_cons] at h
    rw [List.findIdx_cons]
    by_cases hid : item.id = id
    · subst hid
      simp only [decide_true, cond_true, List.eraseIdx_zero, List.tail_cons]
      rw [List.filter_cons_of_neg (by simp), List.filter_eq_self.mpr]
      intro item' hitem'
      have : item'.id ≠ item.id := fun heq => h.1 (heq ▸ List.mem_map_of_mem hitem')
      simpa using this
    · rw [List.filter_cons_of_pos (by simpa using hid), ← ih h.2]
      simp [hid]

theorem yields_removeInboxItem {id : SubmissionId} :
    Yields (removeInboxItem c id) tx fun _ t => t = { tx with
      inbox := Function.update tx.inbox c
        ((tx.inbox c).eraseIdx ((tx.inbox c).findIdx (·.id = id))) } :=
  yields_get_bind (yields_modify rfl)

/-- Aborting one submission keeps the transaction sound and touches neither tasks nor runs. -/
theorem sound_abortSubmission (h : Sound pending tx) (hfresh : tx.rows = tx.store.submissions)
    (hchanges : tx.changes = []) {id : SubmissionId} {conversationId : Option ConversationId} :
    Yields (abortSubmission id conversationId) tx fun _ t => Sound pending t ∧ t.tasks = tx.tasks ∧
      t.live = tx.live ∧ t.store = tx.store := by
  have hstay : ∀ result : AbortResult, Yields (pure result : TxM AbortResult) tx fun _ t =>
      Sound pending t ∧ t.tasks = tx.tasks ∧ t.live = tx.live ∧ t.store = tx.store :=
    fun result => yields_pure ⟨h, rfl, rfl, rfl⟩
  refine yields_get_bind ?_
  cases hfind : tx.store.submission id with
  | none => exact hstay _
  | some record =>
    dsimp only
    split
    · exact hstay _
    split
    next hq =>
      have hid : record.id = id := by simpa using List.find?_some hfind
      have hmem : record ∈ tx.rows := hfresh ▸ List.mem_of_find?_eq_some hfind
      have hkey : (record.id, record.type) ∈ (tx.inbox record.conversationId).map InboxItem.key := by
        rw [h.filed, hchanges]
        simp only [List.map_nil, List.not_mem_nil, not_false_eq_true, decide_true, List.filter_true]
        exact mem_queue.mpr ⟨record, hmem, rfl, hq, rfl⟩
      obtain ⟨item, hitem, heq⟩ := List.mem_map.mp hkey
      have hitemId : item.id = id := (congrArg Prod.fst heq).trans hid
      refine yields_modify_bind (yields_removeInboxItem.bind ?_)
      rintro _ t rfl
      refine yields_pure ⟨?_, rfl, rfl, rfl⟩
      dsimp only
      rw [eraseIdx_findIdx ((h.filed.ascending h.rows).imp ne_of_lt)]
      refine sound_withdraw h record.conversationId (List.nodup_singleton id) fun id' hid' => ?_
      exact ⟨item, hitem, hitemId.trans (List.mem_singleton.mp hid').symm⟩
    next =>
      split
      · exact hstay _
      · exact hstay _

end Harness
