import ContextCompaction.Harness.Inbox
import ContextCompaction.Harness.TableLaws
import ContextCompaction.Sequences.Removal

/-!
# What holds inside a commit

At any point of a commit the drafts agree with the records and the changes staged so far: an inbox
holds what is queued and not changed (`Filed`), and the runs list the inputs that are placed
(`Listed`), with those that the callback has placed and not handed to a run yet.
-/

namespace Harness

open Js Program SubmissionStatus Sequences

def InboxItem.key (item : InboxItem) : SubmissionId × SubmissionType := (item.id, item.type)

/-- The queued submissions of a conversation, in the order of the table. -/
def queue (rows : List SubmissionRecord) (c : ConversationId) :
    List (SubmissionId × SubmissionType) :=
  (rows.filter fun r => r.conversationId = c ∧ r.status.isQueued).map fun r => (r.id, r.type)

def Filed (inbox : ConversationId → List InboxItem) (rows : List SubmissionRecord)
    (changes : List (SubmissionId × SubmissionChange)) : Prop :=
  ∀ c, (inbox c).map InboxItem.key = (queue rows c).filter (·.1 ∉ changes.map Prod.fst)

/-- An input that the changes leave placed. -/
def Held (rows : List SubmissionRecord) (changes : List (SubmissionId × SubmissionChange))
    (c : ConversationId) (id : SubmissionId) : Prop :=
  ∃ r ∈ rows, r.id = id ∧ r.conversationId = c ∧ r.type = .input ∧
    (outcome changes r).status.isPlaced

structure Listed (listed : ConversationId → List SubmissionId) (rows : List SubmissionRecord)
    (changes : List (SubmissionId × SubmissionChange)) : Prop where
  held : ∀ c id, id ∈ listed c ↔ Held rows changes c id
  once : ∀ c, (listed c).Nodup

variable {rows : List SubmissionRecord} {changes cs : List (SubmissionId × SubmissionChange)}
  {nextId : Nat} {inbox : ConversationId → List InboxItem} {c : ConversationId}
  {r : SubmissionRecord} {listed : ConversationId → List SubmissionId}

/-! ## Queued submissions -/

theorem mem_queue {k : SubmissionId × SubmissionType} : k ∈ queue rows c ↔
    ∃ r ∈ rows, r.conversationId = c ∧ r.status.isQueued ∧ (r.id, r.type) = k := by
  simp [queue, and_assoc]

theorem queue_append (rows rows' : List SubmissionRecord) :
    queue (rows ++ rows') c = queue rows c ++ queue rows' c := by
  simp [queue]

/-- A changed record is queued no more. -/
theorem queue_outcome (h : Rows rows changes nextId) :
    queue (rows.map (outcome changes)) c =
      (queue rows c).filter (·.1 ∉ changes.map Prod.fst) := by
  unfold queue
  rw [List.filter_map, List.map_map, List.filter_map, List.filter_filter]
  have hfilter : rows.filter ((fun r => decide (r.conversationId = c ∧ r.status.isQueued)) ∘
      outcome changes) =
      rows.filter fun r => ((fun k : SubmissionId × SubmissionType =>
        decide (k.1 ∉ changes.map Prod.fst)) ∘ fun r => (r.id, r.type)) r &&
          decide (r.conversationId = c ∧ r.status.isQueued) := by
    apply List.filter_congr
    intro r hr
    by_cases hid : r.id ∈ changes.map Prod.fst
    · obtain ⟨change, hp⟩ := mem_changed hid
      have hq := nextStatus_not_isQueued (h.legal_of_mem hr hp)
      have hout := outcome_of_mem h.once hp
      simp only [Function.comp, hid, not_true, decide_false, Bool.false_and, hout,
        SubmissionRecord.withStatus]
      simp [hq]
    · have hout := outcome_of_not_mem hid
      simp [Function.comp, hid, hout]
  rw [hfilter]
  apply List.map_congr_left
  intro r _
  simp

theorem nodup_queue (h : Rows rows changes nextId) :
    ((queue rows c).map Prod.fst).Pairwise (· < ·) := by
  unfold queue
  rw [List.map_map]
  exact h.ascending.sublist (List.filter_sublist.map _)

namespace Filed

theorem ascending (h : Filed inbox rows changes) (hrows : Rows rows changes nextId) :
    ((inbox c).map InboxItem.id).Pairwise (· < ·) := by
  have : (inbox c).map InboxItem.id = ((inbox c).map InboxItem.key).map Prod.fst := by
    rw [List.map_map]
    rfl
  rw [this, h c]
  exact (nodup_queue hrows).sublist (List.filter_sublist.map _)

/-- An item stands for a queued submission that is not changed. -/
theorem of_mem (h : Filed inbox rows changes) {item : InboxItem} (hitem : item ∈ inbox c) :
    item.id ∉ changes.map Prod.fst ∧ ∃ r ∈ rows, r.id = item.id ∧ r.conversationId = c ∧
      r.type = item.type ∧ r.status.isQueued := by
  have hmem : item.key ∈ (inbox c).map InboxItem.key := List.mem_map_of_mem hitem
  rw [h c, List.mem_filter] at hmem
  obtain ⟨hq, hid⟩ := hmem
  obtain ⟨r, hr, hc, hqueued, heq⟩ := mem_queue.mp hq
  simp only [InboxItem.key, Prod.mk.injEq] at heq
  exact ⟨of_decide_eq_true hid, r, hr, heq.1, hc, heq.2, hqueued⟩

/-- More changes, of submissions whose items are removed. -/
theorem change (h : Filed inbox rows changes) {inbox' : ConversationId → List InboxItem}
    (hinbox : ∀ c, inbox' c = (inbox c).filter (·.id ∉ cs.map Prod.fst)) :
    Filed inbox' rows (changes ++ cs) := by
  intro c
  have hkeys : (inbox' c).map InboxItem.key =
      ((inbox c).map InboxItem.key).filter (·.1 ∉ cs.map Prod.fst) := by
    rw [hinbox, List.filter_map]
    rfl
  rw [hkeys, h c, List.filter_filter]
  apply List.filter_congr
  intro k _
  grind

/-- Changes of submissions that are not queued. -/
theorem settle (h : Filed inbox rows changes)
    (hids : ∀ id ∈ cs.map Prod.fst, ∀ c, ∀ item ∈ inbox c, item.id ≠ id) :
    Filed inbox rows (changes ++ cs) := by
  refine h.change fun c => (List.filter_eq_self.mpr fun item hitem => ?_).symm
  have : item.id ∉ cs.map Prod.fst := fun hid => hids _ hid c item hitem rfl
  simpa using this

theorem create (h : Filed inbox rows changes) (hr : ¬ r.status.isQueued) :
    Filed inbox (rows ++ [r]) changes := by
  intro c
  have : queue [r] c = [] := by simp [queue, hr]
  rw [queue_append, this, List.append_nil, h c]

/-- A new queued submission stands last. -/
theorem push (h : Filed inbox rows changes) (hr : r.status.isQueued)
    (hfresh : r.id ∉ changes.map Prod.fst) {item : InboxItem} (hkey : item.key = (r.id, r.type)) :
    Filed (Function.update inbox r.conversationId (inbox r.conversationId ++ [item]))
      (rows ++ [r]) changes := by
  intro c
  rw [queue_append, List.filter_append]
  by_cases hc : c = r.conversationId
  · subst hc
    have : queue [r] r.conversationId = [(r.id, r.type)] := by simp [queue, hr]
    rw [Function.update_self, List.map_append, h, this, List.filter_cons_of_pos (by simpa using hfresh)]
    simp [hkey]
  · have : queue [r] c = [] := by
      simp [queue, Ne.symm hc]
    rw [Function.update_of_ne hc, this, h c]
    simp

end Filed

/-! ## Placed inputs -/

/-- An input is placed before some changes, or one of them places it. -/
theorem held_change (h : Rows rows (changes ++ cs) nextId) {id : SubmissionId} :
    Held rows (changes ++ cs) c id ↔ (Held rows changes c id ∧ id ∉ cs.map Prod.fst) ∨
      ∃ r ∈ rows, r.id = id ∧ r.conversationId = c ∧ r.type = .input ∧
        ∃ entry, (id, .placed entry) ∈ cs := by
  have hcut : ∀ r : SubmissionRecord, r.id ∉ cs.map Prod.fst →
      outcome (changes ++ cs) r = outcome changes r := by
    intro r hid
    have : cs.find? (·.1 = r.id) = none := by
      rw [List.find?_eq_none]
      intro p hp hpid
      exact hid (List.mem_map.mpr ⟨p, hp, by simpa using hpid⟩)
    unfold outcome
    rw [List.find?_append, this, Option.or_none]
  constructor
  · rintro ⟨r, hr, rfl, hc, htype, hplaced⟩
    by_cases hid : r.id ∈ cs.map Prod.fst
    · obtain ⟨change, hp⟩ := mem_changed hid
      have hall := List.mem_append_right changes hp
      rw [outcome_of_mem h.once hall] at hplaced
      obtain ⟨-, entry, rfl⟩ := (nextStatus_isPlaced (h.legal_of_mem hr hall)).mp hplaced
      exact .inr ⟨r, hr, rfl, hc, htype, entry, hp⟩
    · rw [hcut r hid] at hplaced
      exact .inl ⟨⟨r, hr, rfl, hc, htype, hplaced⟩, hid⟩
  · rintro (⟨⟨r, hr, rfl, hc, htype, hplaced⟩, hid⟩ | ⟨r, hr, rfl, hc, htype, entry, hp⟩)
    · exact ⟨r, hr, rfl, hc, htype, by rwa [hcut r hid]⟩
    · have hall := List.mem_append_right changes hp
      refine ⟨r, hr, rfl, hc, htype, ?_⟩
      rw [outcome_of_mem h.once hall]
      exact (nextStatus_isPlaced (h.legal_of_mem hr hall)).mpr ⟨htype, entry, rfl⟩

namespace Listed

theorem congr (h : Listed listed rows changes) {listed' : ConversationId → List SubmissionId}
    (heq : ∀ c, listed' c = listed c) : Listed listed' rows changes := by
  have : listed' = listed := funext heq
  rwa [this]

/-- Changes that settle what leaves the lists and place what enters them. -/
theorem change (h : Listed listed rows changes) (hrows : Rows rows (changes ++ cs) nextId)
    {listed' : ConversationId → List SubmissionId}
    (hmem : ∀ c id, id ∈ listed' c ↔ (id ∈ listed c ∧ id ∉ cs.map Prod.fst) ∨
      ∃ r ∈ rows, r.id = id ∧ r.conversationId = c ∧ r.type = .input ∧
        ∃ entry, (id, .placed entry) ∈ cs)
    (honce : ∀ c, (listed' c).Nodup) : Listed listed' rows (changes ++ cs) where
  held c id := by rw [hmem, held_change hrows, h.held]
  once := honce

theorem create (h : Listed listed rows changes)
    {listed' : ConversationId → List SubmissionId} (hfresh : r.id ∉ changes.map Prod.fst)
    (hmem : ∀ c id, id ∈ listed' c ↔ id ∈ listed c ∨
      (r.id = id ∧ r.conversationId = c ∧ r.type = .input ∧ r.status.isPlaced))
    (honce : ∀ c, (listed' c).Nodup) : Listed listed' (rows ++ [r]) changes where
  held c id := by
    rw [hmem, h.held]
    constructor
    · rintro (⟨r', hr', hheld⟩ | ⟨hid, hc, htype, hplaced⟩)
      · exact ⟨r', List.mem_append_left _ hr', hheld⟩
      · exact ⟨r, by simp, hid, hc, htype, by rwa [outcome_of_not_mem hfresh]⟩
    · rintro ⟨r', hr', hid, hc, htype, hplaced⟩
      rcases List.mem_append.mp hr' with hr' | hr'
      · exact .inl ⟨r', hr', hid, hc, htype, hplaced⟩
      · obtain rfl := List.mem_singleton.mp hr'
        rw [outcome_of_not_mem hfresh] at hplaced
        exact .inr ⟨hid, hc, htype, hplaced⟩
  once := honce

/-- A listed input has no item. -/
theorem not_queued (h : Listed listed rows changes) (hrows : Rows rows changes nextId)
    (hfiled : Filed inbox rows changes) {id : SubmissionId} {c c' : ConversationId}
    (hid : id ∈ listed c) {item : InboxItem} (hitem : item ∈ inbox c') : item.id ≠ id := by
  rintro rfl
  obtain ⟨hnew, r, hr, hrid, -, -, hqueued⟩ := hfiled.of_mem hitem
  obtain ⟨r', hr', hid', -, -, hplaced⟩ := (h.held c _).mp hid
  obtain rfl := eq_of_id hrows.ascending hr hr' (hrid.trans hid'.symm)
  rw [outcome_of_not_mem (hrid ▸ hnew), eq_queued hqueued] at hplaced
  cases hplaced

end Listed

end Harness
