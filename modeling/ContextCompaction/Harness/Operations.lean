import ContextCompaction.Harness.TxLaws
import ContextCompaction.Harness.Generation

/-!
# What the operations of a commit do

`Sound pending tx`: the drafts of a transaction agree with its records and changes, where `pending`
are the inputs that are placed and in no run yet. Each operation keeps it; a boundary leaves the
inputs it placed pending, and a run takes them.
-/

namespace Harness

open Js Program SubmissionStatus Sequences

def Tx.rows (tx : Tx) : List SubmissionRecord := tx.store.submissions ++ tx.created

def Tx.changed (tx : Tx) : List SubmissionId := tx.changes.map Prod.fst

structure TaskIds (tasks : List TaskRecord) (nextId : Nat) : Prop where
  ascending : (tasks.map (·.id)).Pairwise (· < ·)
  minted : ∀ t ∈ tasks, t.id < nextId

structure Sound (pending : ConversationId → List SubmissionId) (tx : Tx) : Prop where
  rows : Rows tx.rows tx.changes tx.nextId
  tasks : TaskIds tx.tasks tx.nextId
  filed : Filed tx.inbox tx.rows tx.changes
  listed : Listed (fun c => (tx.live c).inputs ++ pending c) tx.rows tx.changes

/-- No input is pending. -/
def noInputs : ConversationId → List SubmissionId := fun _ => []

/-- The inputs that are pending in one conversation. -/
def only (c : ConversationId) (users : List SubmissionId) : ConversationId → List SubmissionId :=
  Function.update noInputs c users

variable {tx tx' : Tx} {pending : ConversationId → List SubmissionId} {c : ConversationId}

theorem TaskIds.mono {tasks : List TaskRecord} {n n' : Nat} (h : TaskIds tasks n) (hle : n ≤ n') :
    TaskIds tasks n' :=
  { h with minted := fun t ht => Nat.lt_of_lt_of_le (h.minted t ht) hle }

/-! ## The log -/

/-- The transaction has appended entries and staged changes, and nothing else. -/
def Logged (tx tx' : Tx) (es : List EntryRecord)
    (cs : List (SubmissionId × SubmissionChange)) : Prop :=
  ∃ n, tx.nextId ≤ n ∧
    tx' = { tx with nextId := n, entries := tx.entries ++ es, changes := tx.changes ++ cs }

theorem Logged.refl (tx : Tx) : Logged tx tx [] [] := ⟨tx.nextId, Nat.le_refl _, by simp⟩

theorem Logged.trans {tx'' : Tx} {es es' : List EntryRecord}
    {cs cs' : List (SubmissionId × SubmissionChange)} (h : Logged tx tx' es cs)
    (h' : Logged tx' tx'' es' cs') : Logged tx tx'' (es ++ es') (cs ++ cs') := by
  obtain ⟨n, hn, rfl⟩ := h
  obtain ⟨n', hn', rfl⟩ := h'
  exact ⟨n', Nat.le_trans hn hn', by simp⟩

/-- An entry made from a draft. -/
structure MadeFrom (c : ConversationId) (draft : EntryDraft) (entry : EntryRecord) : Prop where
  conversationId : entry.conversationId = c
  kind : entry.kind = draft.kind
  fields : entry.fields = draft.fields
  head : entry.head = draft.head.map (Head.resolve entry.id)

theorem yields_requireConversation :
    Yields (requireConversation c) tx fun _ t => t = tx := by
  apply yields_get_bind
  intro _ s' h
  unfold refuseIf at h
  split at h
  · cases h
  · cases h
    rfl

theorem yields_mintId :
    Yields mintId tx fun id t => id = tx.nextId ∧ t = { tx with nextId := tx.nextId + 1 } := by
  rintro _ _ ⟨⟩
  exact ⟨rfl, rfl⟩

theorem yields_appendEntry {draft : EntryDraft} :
    Yields (appendEntry c draft) tx fun entry t => Logged tx t [entry] [] ∧ MadeFrom c draft entry := by
  refine yields_requireConversation.bind fun _ t ht => ?_
  subst ht
  refine yields_mintId.bind ?_
  rintro _ _ ⟨rfl, rfl⟩
  rintro _ _ ⟨⟩
  exact ⟨⟨t.nextId + 1, Nat.le_succ _, by simp⟩, rfl, rfl, rfl, rfl⟩

theorem yields_appendEntries {drafts : List EntryDraft} :
    Yields (appendEntries c drafts) tx fun _ t => ∃ es, Logged tx t es [] := by
  induction drafts generalizing tx with
  | nil => exact yields_pure ⟨[], Logged.refl tx⟩
  | cons draft rest ih =>
    refine yields_appendEntry.bind fun entry t ht => ih.mono ?_
    rintro _ t' ⟨es, ht'⟩
    exact ⟨entry :: es, by simpa using ht.1.trans ht'⟩

theorem yields_settleAll {ids : List SubmissionId} {settlement : SubmissionSettlement} :
    Yields (settleAll ids settlement) tx fun _ t =>
      t = { tx with changes := tx.changes ++ ids.map fun id => (id, .settled settlement) } := by
  induction ids generalizing tx with
  | nil => exact yields_pure (by simp)
  | cons id rest ih =>
    refine yields_modify_bind (ih.mono ?_)
    rintro _ t rfl
    simp

/-- Entries change nothing that the drafts agree with. -/
theorem Sound.logged {es : List EntryRecord} (h : Sound pending tx) (hlog : Logged tx tx' es []) :
    Sound pending tx' := by
  obtain ⟨n, hn, rfl⟩ := hlog
  simp only [List.append_nil]
  exact ⟨h.rows.mono hn, h.tasks.mono hn, h.filed, h.listed⟩

/-- Live state whose runs list the same inputs. -/
theorem Sound.setLive (h : Sound pending tx) {live : ConversationId → LiveState}
    (hinputs : ∀ c, (live c).inputs = (tx.live c).inputs) : Sound pending { tx with live } :=
  ⟨h.rows, h.tasks, h.filed, h.listed.congr fun c => by rw [hinputs]⟩

/-! ## Boundaries -/

theorem mem_indexes {p : InboxItem → Bool} {items : List InboxItem} {i : Nat} :
    i ∈ indexes p items ↔ ∃ item, items[i]? = some item ∧ p item := by
  simp only [indexes, List.mem_map, List.mem_filter]
  constructor
  · rintro ⟨⟨item, _⟩, ⟨hmem, hp⟩, rfl⟩
    exact ⟨item, List.mem_zipIdx_iff_getElem?.mp hmem, hp⟩
  · rintro ⟨item, hitem, hp⟩
    exact ⟨(item, i), ⟨List.mem_zipIdx_iff_getElem?.mpr hitem, hp⟩, rfl⟩

theorem ascending_indexes (p : InboxItem → Bool) (items : List InboxItem) :
    (indexes p items).Pairwise (· < ·) := by
  have h : (items.zipIdx.map Prod.snd).Pairwise (· < ·) := by
    rw [List.zipIdx_map_snd]
    exact List.pairwise_lt_range'
  exact h.sublist (List.filter_sublist.map _)

theorem nodup_indexes (p : InboxItem → Bool) (items : List InboxItem) : (indexes p items).Nodup :=
  (ascending_indexes p items).imp Nat.ne_of_lt

/-- The first of an ascending list is the member that no other one is below. -/
theorem mem_take_one {is : List Nat} (h : is.Pairwise (· < ·)) {i : Nat} :
    i ∈ is.take 1 ↔ i ∈ is ∧ ∀ j ∈ is, ¬ j < i := by
  cases is with
  | nil => simp
  | cons first rest =>
    rw [List.pairwise_cons] at h
    rw [List.take_succ_cons, List.take_zero, List.mem_singleton]
    constructor
    · rintro rfl
      refine ⟨List.mem_cons_self, List.forall_mem_cons.mpr ⟨Nat.lt_irrefl _, fun j hj => ?_⟩⟩
      exact Nat.not_lt.mpr (Nat.le_of_lt (h.1 j hj))
    · rintro ⟨hi, hfirst⟩
      rcases List.mem_cons.mp hi with rfl | hi
      · rfl
      · exact absurd (h.1 i hi) (hfirst first List.mem_cons_self)

/-- All items of a kind, or the first one. -/
theorem mem_pick {p : InboxItem → Bool} {mode : QueueMode} {items : List InboxItem} {i : Nat} :
    i ∈ pick p mode items ↔ (∃ item, items[i]? = some item ∧ p item) ∧
      (mode = .oneAtATime → ∀ j < i, ∀ item, items[j]? = some item → ¬ p item) := by
  cases mode with
  | all => simp [pick, mem_indexes]
  | oneAtATime =>
    rw [pick, mem_take_one (ascending_indexes p items), mem_indexes]
    refine and_congr_right fun _ => ⟨fun h _ j hj item hitem hp => ?_, fun h j hj hlt => ?_⟩
    · exact h j (mem_indexes.mpr ⟨item, hitem, hp⟩) hj
    · obtain ⟨item, hitem, hp⟩ := mem_indexes.mp hj
      exact h rfl j hlt item hitem hp

theorem pick_sublist (p : InboxItem → Bool) (mode : QueueMode) (items : List InboxItem) :
    (pick p mode items).Sublist (indexes p items) := by
  cases mode
  · exact List.Sublist.refl _
  · exact List.take_sublist _ _

/-- The identities of the items at some positions. -/
def idsAt (items : List InboxItem) (positions : List Nat) : List SubmissionId :=
  positions.filterMap fun i => items[i]?.map InboxItem.id

theorem mem_idsAt {items : List InboxItem} {positions : List Nat} {id : SubmissionId} :
    id ∈ idsAt items positions ↔ ∃ i ∈ positions, items[i]?.map InboxItem.id = some id := by
  simp [idsAt]

theorem idsAt_append (items : List InboxItem) (is js : List Nat) :
    idsAt items (is ++ js) = idsAt items is ++ idsAt items js := by
  simp [idsAt]

theorem nodup_idsAt {items : List InboxItem} {positions : List Nat}
    (hitems : (items.map InboxItem.id).Nodup) (hpositions : positions.Nodup) :
    (idsAt items positions).Nodup := by
  unfold idsAt
  refine hpositions.filterMap ?_
  intro i j id hi hj
  simp only [← List.getElem?_map] at hi hj
  have hlt := (List.getElem?_eq_some_iff.mp hi).1
  exact (List.getElem?_inj hlt hitems).mp (hi.trans hj.symm)

theorem user?_eq_some {item : InboxItem} {id : SubmissionId} {content : Json}
    (h : item.user? = some (id, content)) : item.id = id ∧ item.type = .input := by
  cases item <;> simp_all [InboxItem.user?, InboxItem.id, InboxItem.type]

/-- What a boundary does with a queued write: it is stale, or has its entry. -/
def WriteDone (c : ConversationId) (es : List EntryRecord)
    (cs : List (SubmissionId × SubmissionChange)) (id : SubmissionId) (draft : EntryDraft) : Prop :=
  ((id, .settled stale) ∈ cs ∧ ∃ target, draft.head = some (.entry target)) ∨
    ∃ e ∈ es, (id, .placed e.id) ∈ cs ∧ MadeFrom c draft e

/-- What a boundary does with a user item that it selects. -/
def UserPlaced (c : ConversationId) (now : Nat) (es : List EntryRecord)
    (cs : List (SubmissionId × SubmissionChange)) (id : SubmissionId) (content : Json) : Prop :=
  ∃ e ∈ es, (id, .placed e.id) ∈ cs ∧ MadeFrom c (userEntry content now) e

section

variable {es es' : List EntryRecord} {cs cs' : List (SubmissionId × SubmissionChange)}
  {id : SubmissionId} {draft : EntryDraft} {content : Json} {now : Nat}

theorem WriteDone.mono (h : WriteDone c es cs id draft) (hes : es ⊆ es') (hcs : cs ⊆ cs') :
    WriteDone c es' cs' id draft := by
  rcases h with ⟨hstale, htarget⟩ | ⟨e, he, hplaced, hmade⟩
  · exact .inl ⟨hcs hstale, htarget⟩
  · exact .inr ⟨e, hes he, hcs hplaced, hmade⟩

theorem UserPlaced.mono (h : UserPlaced c now es cs id content) (hes : es ⊆ es') (hcs : cs ⊆ cs') :
    UserPlaced c now es' cs' id content := by
  obtain ⟨e, he, hplaced, hmade⟩ := h
  exact ⟨e, hes he, hcs hplaced, hmade⟩

end

theorem isStale_entry {head : Option EntryId} {draft : EntryDraft} (h : isStale head draft) :
    ∃ target, draft.head = some (.entry target) := by
  unfold isStale at h
  cases hd : draft.head with
  | none => simp [hd] at h
  | some target =>
    cases target with
    | self => simp [hd] at h
    | entry target => exact ⟨target, rfl⟩

/-- Placing writes logs an entry and a status for each, or its settlement as stale. -/
theorem yields_placeWrites {items : List InboxItem} {positions : List Nat} {boundary : Boundary}
    (hwrites : ∀ i ∈ positions, ∃ id draft, items[i]? = some (.write id draft)) :
    Yields (placeWrites items positions boundary) tx fun _ t => ∃ es cs, Logged tx t es cs ∧
      cs.map Prod.fst = idsAt items positions ∧
      (∀ p ∈ cs, p.2 = .settled stale ∨ ∃ e, p.2 = .placed e) ∧
      ∀ i ∈ positions, ∀ id draft, items[i]? = some (.write id draft) →
        WriteDone boundary.conversationId es cs id draft := by
  induction positions generalizing tx boundary with
  | nil => exact yields_pure ⟨[], [], Logged.refl tx, rfl, by simp, by simp⟩
  | cons i rest ih =>
    obtain ⟨id, draft, hitem⟩ := hwrites i (by simp)
    have hrest : ∀ j ∈ rest, ∃ id draft, items[j]? = some (.write id draft) :=
      fun j hj => hwrites j (List.mem_cons_of_mem _ hj)
    have hids : idsAt items (i :: rest) = id :: idsAt items rest := by
      simp [idsAt, hitem, InboxItem.id]
    unfold placeWrites
    rw [hitem]
    dsimp only
    split
    next hstale =>
      refine yields_modify_bind ((ih hrest).mono ?_)
      rintro _ t ⟨es, cs, hlog, hcs, hkinds, hdone⟩
      have hone : Logged tx { tx with changes := tx.changes ++ [(id, .settled stale)] } []
          [(id, .settled stale)] := ⟨tx.nextId, Nat.le_refl _, by simp⟩
      refine ⟨es, (id, .settled stale) :: cs, by simpa using hone.trans hlog, ?_, ?_, ?_⟩
      · rw [hids, List.map_cons, hcs]
      · rintro p (_ | ⟨_, hp⟩)
        · exact .inl rfl
        · exact hkinds p hp
      · rintro j hj id' draft' hitem'
        rcases List.mem_cons.mp hj with rfl | hj
        · rw [hitem] at hitem'
          cases hitem'
          exact .inl ⟨by simp, isStale_entry hstale⟩
        · exact (hdone j hj id' draft' hitem').mono (List.Subset.refl _) (by simp)
    next =>
      refine yields_appendEntry.bind fun entry t ht => yields_modify_bind ((ih hrest).mono ?_)
      rintro _ t' ⟨es, cs, hlog, hcs, hkinds, hdone⟩
      have hone : Logged t { t with changes := t.changes ++ [(id, .placed entry.id)] } []
          [(id, .placed entry.id)] := ⟨t.nextId, Nat.le_refl _, by simp⟩
      refine ⟨entry :: es, (id, .placed entry.id) :: cs,
        by simpa using (ht.1.trans hone).trans hlog, ?_, ?_, ?_⟩
      · rw [hids, List.map_cons, hcs]
      · rintro p (_ | ⟨_, hp⟩)
        · exact .inr ⟨_, rfl⟩
        · exact hkinds p hp
      · rintro j hj id' draft' hitem'
        rcases List.mem_cons.mp hj with rfl | hj
        · rw [hitem] at hitem'
          cases hitem'
          exact .inr ⟨entry, by simp, by simp, ht.2⟩
        · exact (hdone j hj id' draft' hitem').mono (by simp) (by simp)

/-- Placing user inputs logs an entry and a status for each, in their order. -/
theorem yields_placeUsers {items : List InboxItem} {positions : List Nat} {now : Nat}
    (husers : ∀ i ∈ positions, ∃ id content, items[i]?.bind InboxItem.user? = some (id, content)) :
    Yields (placeUsers c items now positions) tx fun placed t => ∃ es cs, Logged tx t es cs ∧
      placed = idsAt items positions ∧ cs.map Prod.fst = idsAt items positions ∧
      (∀ p ∈ cs, ∃ e, p.2 = .placed e) ∧
      ∀ i ∈ positions, ∀ id content, items[i]?.bind InboxItem.user? = some (id, content) →
        UserPlaced c now es cs id content := by
  induction positions generalizing tx with
  | nil => exact yields_pure ⟨[], [], Logged.refl tx, rfl, rfl, by simp, by simp⟩
  | cons i rest ih =>
    obtain ⟨id, content, hitem⟩ := husers i (by simp)
    have hrest : ∀ j ∈ rest, ∃ id content, items[j]?.bind InboxItem.user? = some (id, content) :=
      fun j hj => husers j (List.mem_cons_of_mem _ hj)
    have hids : idsAt items (i :: rest) = id :: idsAt items rest := by
      obtain ⟨item, hi, huser⟩ := Option.bind_eq_some_iff.mp hitem
      simp [idsAt, hi, (user?_eq_some huser).1]
    unfold placeUsers
    rw [hitem]
    refine yields_appendEntry.bind fun entry t ht => yields_modify_bind ((ih hrest).bind ?_)
    rintro _ t' ⟨es, cs, hlog, rfl, hcs, hkinds, hdone⟩
    have hone : Logged t { t with changes := t.changes ++ [(id, .placed entry.id)] } []
        [(id, .placed entry.id)] := ⟨t.nextId, Nat.le_refl _, by simp⟩
    refine yields_pure ⟨entry :: es, (id, .placed entry.id) :: cs,
      by simpa using (ht.1.trans hone).trans hlog, hids.symm, ?_, ?_, ?_⟩
    · rw [hids, List.map_cons, hcs]
    · rintro p (_ | ⟨_, hp⟩)
      · exact ⟨_, rfl⟩
      · exact hkinds p hp
    · rintro j hj id' content' hitem'
      rcases List.mem_cons.mp hj with rfl | hj
      · rw [hitem] at hitem'
        cases hitem'
        exact ⟨entry, by simp, by simp, ht.2⟩
      · exact (hdone j hj id' content' hitem').mono (by simp) (by simp)

/-- The positions that a boundary selects. -/
def selected (modes : QueueModes) (final : Bool) (items : List InboxItem) : List Nat :=
  indexes InboxItem.isWrite items ++ selectedUsers modes final items

theorem mem_selectedUsers {modes : QueueModes} {final : Bool} {items : List InboxItem} {i : Nat} :
    i ∈ selectedUsers modes final items ↔ i ∈ pick InboxItem.isSteer modes.steeringMode items ∨
      (final ∧ i ∈ pick InboxItem.isFollowUp modes.followUpMode items) := by
  unfold selectedUsers
  rw [List.mem_mergeSort, List.mem_append]
  cases final <;> simp

/-- A selected user item is a steer or a follow-up. -/
theorem index_of_selected {modes : QueueModes} {final : Bool} {items : List InboxItem} {i : Nat}
    (h : i ∈ selectedUsers modes final items) :
    i ∈ indexes InboxItem.isSteer items ∨ i ∈ indexes InboxItem.isFollowUp items := by
  rcases mem_selectedUsers.mp h with h | ⟨-, h⟩
  · exact .inl ((pick_sublist _ _ _).subset h)
  · exact .inr ((pick_sublist _ _ _).subset h)

theorem user_of_selected {modes : QueueModes} {final : Bool} {items : List InboxItem} {i : Nat}
    (h : i ∈ selectedUsers modes final items) :
    ∃ id content, items[i]?.bind InboxItem.user? = some (id, content) := by
  rcases index_of_selected h with h | h <;> obtain ⟨item, hitem, hp⟩ := mem_indexes.mp h <;>
    rw [hitem] <;> cases item <;> simp_all [InboxItem.isSteer, InboxItem.isFollowUp, InboxItem.user?]

theorem write_of_index {items : List InboxItem} {i : Nat} (h : i ∈ indexes InboxItem.isWrite items) :
    ∃ id draft, items[i]? = some (.write id draft) := by
  obtain ⟨item, hitem, hp⟩ := mem_indexes.mp h
  cases item <;> simp_all [InboxItem.isWrite]

theorem not_both {p q : InboxItem → Bool} {items : List InboxItem}
    (hpq : ∀ item, p item → ¬ q item) {i : Nat} (hi : i ∈ indexes p items) : i ∉ indexes q items := by
  intro hj
  obtain ⟨item, hitem, hp⟩ := mem_indexes.mp hi
  obtain ⟨item', hitem', hq⟩ := mem_indexes.mp hj
  rw [hitem] at hitem'
  cases hitem'
  exact hpq item hp hq

theorem nodup_selectedUsers (modes : QueueModes) (final : Bool) (items : List InboxItem) :
    (selectedUsers modes final items).Nodup := by
  unfold selectedUsers
  rw [(List.mergeSort_perm _ _).nodup_iff]
  have hsteer := (nodup_indexes InboxItem.isSteer items).sublist (pick_sublist _ modes.steeringMode _)
  split
  · refine hsteer.append ((nodup_indexes _ _).sublist (pick_sublist _ modes.followUpMode _)) ?_
    intro i hi hj
    exact not_both (by intro item; cases item <;> simp [InboxItem.isSteer, InboxItem.isFollowUp])
      ((pick_sublist _ _ _).subset hi) ((pick_sublist _ _ _).subset hj)
  · simpa using hsteer

theorem nodup_selected (modes : QueueModes) (final : Bool) (items : List InboxItem) :
    (selected modes final items).Nodup := by
  refine (nodup_indexes _ _).append (nodup_selectedUsers _ _ _) fun i hi hj => ?_
  rcases index_of_selected hj with hj | hj
  · exact not_both (by intro item; cases item <;> simp [InboxItem.isWrite, InboxItem.isSteer]) hi hj
  · exact not_both (by intro item; cases item <;> simp [InboxItem.isWrite, InboxItem.isFollowUp]) hi hj

theorem lt_of_selected {modes : QueueModes} {final : Bool} {items : List InboxItem} {i : Nat}
    (h : i ∈ selected modes final items) : i < items.length := by
  rcases List.mem_append.mp h with h | h
  · obtain ⟨_, _, hitem⟩ := write_of_index h
    exact (List.getElem?_eq_some_iff.mp hitem).1
  · obtain ⟨_, _, hitem⟩ := user_of_selected h
    obtain ⟨item, hitem, -⟩ := Option.bind_eq_some_iff.mp hitem
    exact (List.getElem?_eq_some_iff.mp hitem).1

/-- The items at the other positions stay. -/
theorem splice_selected (modes : QueueModes) (final : Bool) (items : List InboxItem) :
    splice items (selected modes final items) = without items (selected modes final items) := by
  have hperm := List.mergeSort_perm (selected modes final items) (fun i j => decide (j ≤ i))
  have hsorted : ((selected modes final items).mergeSort fun i j => decide (j ≤ i)).Pairwise
      fun i j => decide (j ≤ i) = true :=
    List.pairwise_mergeSort (by simp; omega) (by simp; omega) (selected modes final items)
  have hnodup := hperm.nodup_iff.mpr (nodup_selected modes final items)
  unfold splice
  rw [foldl_eraseIdx]
  · exact without_congr fun i => hperm.mem_iff
  · refine (hsorted.and hnodup).imp ?_
    rintro i j ⟨hle, hne⟩
    have := of_decide_eq_true hle
    omega
  · exact fun i hi => lt_of_selected (hperm.mem_iff.mp hi)

/-- What a boundary stages for the items of an inbox. -/
structure BoundaryLog (c : ConversationId) (modes : QueueModes) (final : Bool) (now : Nat)
    (items : List InboxItem) (es : List EntryRecord)
    (cs : List (SubmissionId × SubmissionChange)) : Prop where
  ids : cs.map Prod.fst = idsAt items (selected modes final items)
  kinds : ∀ p ∈ cs, p.2 = .settled stale ∨ ∃ e, p.2 = .placed e
  writes : ∀ id draft, .write id draft ∈ items → WriteDone c es cs id draft
  users : ∀ i ∈ selectedUsers modes final items, ∀ id content,
    items[i]?.bind InboxItem.user? = some (id, content) → UserPlaced c now es cs id content

/-- A boundary is final where it is asked to be, and where it finds a reset. -/
def isFinal (place : BoundaryAt) (items : List InboxItem) : Bool :=
  decide (place = .final) || items.any InboxItem.isReset

/-- A boundary removes what it selected from the inbox and logs what became of it. -/
theorem yields_applyBoundary {boundary : Boundary} {place : BoundaryAt} {now : Nat}
    {items : List InboxItem} (hitems : tx.inbox boundary.conversationId = items) :
    Yields (applyBoundary boundary place now) tx fun result t => ∃ n es cs, tx.nextId ≤ n ∧
      t = { tx with
        nextId := n, entries := tx.entries ++ es, changes := tx.changes ++ cs
        inbox := Function.update tx.inbox boundary.conversationId
          (without items (selected boundary.modes (isFinal place items) items)) } ∧
      BoundaryLog boundary.conversationId boundary.modes (isFinal place items) now items es cs ∧
      result.users = idsAt items (selectedUsers boundary.modes (isFinal place items) items) ∧
      result.reset = items.any InboxItem.isReset := by
  subst hitems
  refine yields_get_bind ?_
  refine (yields_placeWrites fun i => write_of_index).bind ?_
  rintro _ t ⟨es, cs, hlog, hcs, hkinds, hdone⟩
  refine (yields_placeUsers fun i => user_of_selected).bind ?_
  rintro _ t' ⟨es', cs', hlog', rfl, hcs', hkinds', hdone'⟩
  obtain ⟨n, hn, rfl⟩ := hlog.trans hlog'
  refine yields_modify_bind (yields_pure ⟨n, es ++ es', cs ++ cs', hn, ?_, ?_, rfl, rfl⟩)
  · rw [← splice_selected]
    rfl
  · refine ⟨?_, ?_, ?_, ?_⟩
    · rw [List.map_append, hcs, hcs', ← idsAt_append]
      rfl
    · intro p hp
      rcases List.mem_append.mp hp with hp | hp
      · exact hkinds p hp
      · exact .inr (hkinds' p hp)
    · intro id draft hitem
      obtain ⟨i, hi⟩ := List.mem_iff_getElem?.mp hitem
      exact (hdone i (mem_indexes.mpr ⟨_, hi, rfl⟩) id draft hi).mono (by simp) (by simp)
    · intro i hi id content hitem
      exact (hdone' i hi id content hitem).mono (by simp) (by simp)

end Harness
