import ContextCompaction.Context.PromptLaws

/-!
# A round of planning

The planned entries are appended to the conversation, and the context is read again.

* `viewOf`: the view that a read gives, from the visible entries.
* `planSystemEntries_reaches`: it shows what is wanted, and nothing is left to plan.
-/

namespace Context

open Js Sequences Store

variable {s s' : Store} {conversationId : ConversationId} {visible records : List EntryRecord}

/-! ## Views -/

/-- The newest head marker. -/
def headOf (visible : List EntryRecord) : Option EntryRecord := (visible.filter fun e => e.head.isSome).getLast?

/-- The entries from the head marker's head on. -/
def rangeFrom (visible : List EntryRecord) : List EntryRecord :=
  visible.filter (inRange ((headOf visible).bind EntryRecord.head) none)

/-- The context of a conversation that sees these entries. -/
def viewOf (visible : List EntryRecord) : ContextView :=
  match visible.getLast? with
  | none => emptyView
  | some newest => (deriveRange ⟨headOf visible, newest.id⟩ (rangeFrom visible)).view

/-- A full read is the view of the entries that the conversation sees. -/
theorem readContext_viewOf (hknown : (s.conversation? conversationId).isSome) :
    readContext s conversationId none = .ok (viewOf (s.visible conversationId)) := by
  have hcapture := captureContextBounds_newest hknown
  unfold viewOf
  cases hlast : (s.visible conversationId).getLast? with
  | none =>
    rw [hlast] at hcapture
    rw [readContext, hcapture]
    rfl
  | some newest =>
    have hle := le_newest hlast
    have hmarker : markerAt s conversationId newest.id = headOf (s.visible conversationId) := by
      refine congrArg List.getLast? (List.filter_congr fun e he => ?_)
      simp [hle e he]
    rw [hlast, Option.map_some, hmarker] at hcapture
    have hscan : scanBounds s conversationId ⟨headOf (s.visible conversationId), newest.id⟩ = .ok _ :=
      scanBounds_eq .refl hknown ⟨newest, List.mem_of_getLast? hlast, rfl⟩
    have hrange : rangeOf s conversationId ⟨headOf (s.visible conversationId), newest.id⟩ =
        rangeFrom (s.visible conversationId) := by
      refine List.filter_congr fun e he => ?_
      simp [inRange, hle e he]
    rw [readContext, hcapture]
    simp only [bind, Except.bind, hscan, hrange]
    rfl

/-- A view is derived, with bounds that no field of it reads but the head. -/
theorem viewOf_eq (visible : List EntryRecord) :
    ∃ tail, viewOf visible = (deriveRange ⟨headOf visible, tail⟩ (rangeFrom visible)).view := by
  unfold viewOf
  cases hlast : visible.getLast? with
  | none =>
    obtain rfl := List.getLast?_eq_none_iff.mp hlast
    exact ⟨0, rfl⟩
  | some newest => exact ⟨newest.id, rfl⟩

theorem viewOf_head : (viewOf visible).head = headOf visible := by
  obtain ⟨tail, htail⟩ := viewOf_eq visible
  rw [htail]
  rfl

theorem viewOf_entries : (viewOf visible).entries = selectActive (headOf visible) (rangeFrom visible) := by
  obtain ⟨tail, htail⟩ := viewOf_eq visible
  rw [htail]
  rfl

theorem viewOf_contributions : (viewOf visible).contributions =
    contributionsOf (rangeFrom visible) (selectActive (headOf visible) (rangeFrom visible)) := by
  obtain ⟨tail, htail⟩ := viewOf_eq visible
  rw [htail]
  rfl

theorem viewOf_systems : systems (viewOf visible).messages = systems (viewOf visible).contributions.flatten := by
  obtain ⟨tail, htail⟩ := viewOf_eq visible
  rw [htail, deriveRange_messages, systems_leadWithSystem, systems_orderToolResults]

/-! ## Appended entries -/

/-- Entries as they are committed from drafts. -/
def Committed (drafts : List SystemDraft) (records : List EntryRecord) : Prop :=
  List.Forall₂ (fun draft record => isSystemEntry record = true ∧ record.model = some draft.model ∧
    record.edits = draft.edits ∧ record.head = none) drafts records

variable {drafts : List SystemDraft}

theorem Committed.exists_draft (h : Committed drafts records) {e : EntryRecord} (he : e ∈ records) :
    ∃ draft ∈ drafts, isSystemEntry e = true ∧ e.model = some draft.model ∧ e.edits = draft.edits ∧ e.head = none := by
  induction h with
  | nil => cases he
  | cons hhead _ ih =>
    rcases List.mem_cons.mp he with rfl | he
    · exact ⟨_, List.mem_cons_self, hhead⟩
    · obtain ⟨draft, hdraft, hrecord⟩ := ih he
      exact ⟨draft, List.mem_cons_of_mem _ hdraft, hrecord⟩

theorem Committed.head (h : Committed drafts records) : ∀ e ∈ records, e.head = none := fun e he => by
  obtain ⟨_, -, -, -, -, hhead⟩ := h.exists_draft he
  exact hhead

theorem headOf_append (h : ∀ e ∈ records, e.head = none) : headOf (visible ++ records) = headOf visible := by
  have hnone : records.filter (fun e => e.head.isSome) = [] :=
    List.filter_eq_nil_iff.mpr fun e he => by simp [h e he]
  rw [headOf, List.filter_append, hnone, List.append_nil, headOf]

/-- New entries are in the range, where the head is reached. -/
theorem rangeFrom_append (h : ∀ e ∈ records, e.head = none)
    (hreached : ∀ head ∈ (headOf visible).bind EntryRecord.head, ∀ e ∈ records, head ≤ e.id) :
    rangeFrom (visible ++ records) = rangeFrom visible ++ records := by
  rw [rangeFrom, headOf_append h, List.filter_append, ← rangeFrom]
  refine congrArg _ (List.filter_eq_self.mpr fun e he => ?_)
  cases hhead : (headOf visible).bind EntryRecord.head with
  | none => simp [inRange]
  | some head => simp [inRange, hreached head hhead e he]

theorem entries_append (h : ∀ e ∈ records, e.head = none)
    (hreached : ∀ head ∈ (headOf visible).bind EntryRecord.head, ∀ e ∈ records, head ≤ e.id) :
    (viewOf (visible ++ records)).entries = (viewOf visible).entries ++ records := by
  rw [viewOf_entries, viewOf_entries, headOf_append h, rangeFrom_append h hreached, selectActive_append h]

/-- The edits of the visible entries are for entries before them. -/
theorem contributions_append (hordered : (visible ++ records).Pairwise fun e e' => e.id < e'.id)
    (hback : EditsBack visible) (h : ∀ e ∈ records, e.head = none) (hedits : ∀ e ∈ records, e.edits = none)
    (hreached : ∀ head ∈ (headOf visible).bind EntryRecord.head, ∀ e ∈ records, head ≤ e.id) :
    (viewOf (visible ++ records)).contributions =
      (viewOf visible).contributions ++ records.map fun e => contribute e none := by
  have hlater := (List.pairwise_append.mp hordered).2.2
  have hsame : editsOf (rangeFrom visible ++ records) = editsOf (rangeFrom visible) := editsOf_append hedits
  have hnew : ∀ e ∈ records, mapGet (editsOf (rangeFrom visible)) e.id = none := by
    intro e he
    refine mapGet_editsOf_none fun e' he' edit hedit heq => ?_
    have he' := List.mem_of_mem_filter he'
    exact Nat.ne_of_lt ((hback e' he' edit hedit).trans (hlater e' he' e he)) heq
  rw [viewOf_contributions, viewOf_contributions, headOf_append h, rangeFrom_append h hreached, selectActive_append h,
    contributionsOf, List.map_append, hsame, ← contributionsOf]
  refine congrArg _ (List.map_congr_left fun e he => ?_)
  rw [hnew e he]
  rfl

/-- Each draft is one system message. -/
def Says (drafts : List SystemDraft) : Prop := ∀ draft ∈ drafts, ∃ message, draft.model = [.system message]

/-- The planned entries are system entries whose edits only omit. -/
theorem says_planSystemEntries (view : ContextView) (desired : List (Str × Str)) (tools : List Agent.Tool)
    (timestamp : Number) : Says (planSystemEntries view desired tools timestamp) := by
  intro draft hdraft
  unfold planSystemEntries at hdraft
  dsimp only at hdraft
  split_ifs at hdraft with hbaseline hedits hnone hempty
  · rw [List.mem_singleton.mp hdraft]
    exact ⟨_, rfl⟩
  · rw [List.mem_singleton.mp hdraft]
    exact ⟨_, rfl⟩
  · obtain ⟨patch, -, rfl⟩ := List.mem_map.mp hdraft
    exact ⟨_, rfl⟩
  · rw [List.mem_singleton.mp hdraft]
    exact ⟨_, rfl⟩
  · obtain ⟨patch, -, rfl⟩ := List.mem_map.mp hdraft
    exact ⟨_, rfl⟩

/-- The entries contribute the messages of the drafts. -/
theorem Committed.contribute (h : Committed drafts records) (htold : Says drafts) :
    (records.map fun e => contribute e none).flatten = draftMessages drafts ∧
      systems (draftMessages drafts) = draftMessages drafts := by
  induction h with
  | nil => exact ⟨rfl, rfl⟩
  | @cons draft record drafts records hhead hrest ih =>
    obtain ⟨message, hmessage⟩ := htold draft List.mem_cons_self
    obtain ⟨hcontribute, hsystems⟩ := ih fun draft hdraft => htold draft (List.mem_cons_of_mem _ hdraft)
    have hfirst : Context.contribute record none = [.system message] := by
      rw [Context.contribute, hhead.2.1, hmessage]
      rfl
    have hcons : draftMessages (draft :: drafts) = [.system message] ++ draftMessages drafts := by
      rw [draftMessages, List.map_cons, List.flatten_cons, hmessage]
      rfl
    rw [List.map_cons, List.flatten_cons, hfirst, hcontribute, hcons, systems_append, hsystems]
    exact ⟨rfl, rfl⟩

theorem Shows.of_systems {desired : List (Str × Str)} {tools : List Agent.Tool} {messages messages' : List Message}
    (h : Shows desired tools messages) (hsystems : systems messages = systems messages') :
    Shows desired tools messages' := by
  obtain ⟨hsections, htools⟩ := h
  rw [← replaySections_systems, hsystems, replaySections_systems] at hsections
  rw [← getCurrentTools_systems, hsystems, getCurrentTools_systems] at htools
  exact ⟨hsections, htools⟩

/-- A head marker that no system entry comes after. -/
theorem baseline_iff {view : ContextView} :
    view.head.any (fun head => !view.entries.any fun entry => isSystemEntry entry && decide (head.id < entry.id)) = true ↔
      ∃ head ∈ view.head, ∀ entry ∈ view.entries, isSystemEntry entry = true → entry.id ≤ head.id := by
  rw [Option.any_eq_true]
  refine exists_congr fun head => and_congr Iff.rfl ?_
  simp

/-- Where what is wanted is shown, nothing is left to plan. -/
theorem planSystemEntries_of_shows {view : ContextView} {desired : List (Str × Str)} {tools : List Agent.Tool}
    (timestamp : Number) (hdesired : (desired.map Prod.fst).Nodup) (htools : (tools.map Agent.Tool.name).Nodup)
    (h : Shows desired tools view.messages)
    (hbaseline : ∀ head ∈ view.head, ∃ entry ∈ view.entries, isSystemEntry entry = true ∧ head.id < entry.id) :
    planSystemEntries view desired tools timestamp = [] := by
  have hnot : ¬ ∃ head ∈ view.head, ∀ entry ∈ view.entries, isSystemEntry entry = true → entry.id ≤ head.id := by
    rintro ⟨head, hhead, hnone⟩
    obtain ⟨entry, hentry, hsystem, hlt⟩ := hbaseline head hhead
    exact Nat.not_lt.mpr (hnone entry hentry hsystem) hlt
  unfold planSystemEntries
  rw [if_neg (mt baseline_iff.mp hnot), h.sections, planSections_self hdesired, planTools_self htools h.tools]
  rfl

/-! ## Rounds -/

variable {desired : List (Str × Str)} {tools : List Agent.Tool} {timestamp : Number}

/-- System messages come from system entries only. -/
def Prompted (view : ContextView) : Prop :=
  ∀ p ∈ view.entries.zip view.contributions, isSystemEntry p.1 = false → systems p.2 = []

private theorem reaches_patch (hordered : (visible ++ records).Pairwise fun e e' => e.id < e'.id)
    (hback : EditsBack visible) (hdesired : (desired.map Prod.fst).Nodup) (hplain : Plain desired)
    (hplain' : Plain (replaySections (viewOf visible).messages)) (htools : (tools.map Agent.Tool.name).Nodup)
    (hrecords : Committed (planSystemEntries (viewOf visible) desired tools timestamp) records)
    (hreached : ∀ head ∈ (headOf visible).bind EntryRecord.head, ∀ e ∈ records, head ≤ e.id)
    (hpatch : ¬ ∃ head ∈ (viewOf visible).head, ∀ entry ∈ (viewOf visible).entries,
      isSystemEntry entry = true → entry.id ≤ head.id) :
    Shows desired tools (viewOf (visible ++ records)).messages ∧
      ∀ head ∈ (viewOf (visible ++ records)).head, ∃ entry ∈ (viewOf (visible ++ records)).entries,
        isSystemEntry entry = true ∧ head.id < entry.id := by
  obtain ⟨hshows, hedits⟩ := shows_planSystemEntries timestamp hdesired hplain hplain' htools
    (mt baseline_iff.mp hpatch)
  obtain ⟨hcontribute, hsystems⟩ := hrecords.contribute (says_planSystemEntries _ _ _ _)
  have hplainRecords : ∀ e ∈ records, e.edits = none := fun e he => by
    obtain ⟨draft, hdraft, -, -, heq, -⟩ := hrecords.exists_draft he
    rw [heq, hedits draft hdraft]
  constructor
  · refine hshows.of_systems ?_
    rw [viewOf_systems, contributions_append hordered hback hrecords.head hplainRecords hreached, List.flatten_append,
      hcontribute, systems_append, systems_append, viewOf_systems]
  · rw [viewOf_head, headOf_append hrecords.head, ← viewOf_head, entries_append hrecords.head hreached]
    intro head hhead
    by_contra hnone
    refine hpatch ⟨head, hhead, fun entry hentry hsystem => Nat.not_lt.mp fun hlt => hnone ?_⟩
    exact ⟨entry, List.mem_append_left _ hentry, hsystem, hlt⟩

/-- The entries of a view are visible. -/
theorem mem_viewOf {e : EntryRecord} (he : e ∈ (viewOf visible).entries) : e ∈ visible := by
  rw [viewOf_entries] at he
  cases hhead : headOf visible with
  | none =>
    rw [hhead] at he
    exact List.mem_of_mem_filter he
  | some marker =>
    rw [hhead] at he
    rcases List.mem_cons.mp he with rfl | he
    · exact List.mem_of_mem_filter (List.mem_of_getLast? hhead)
    · exact List.mem_of_mem_filter (List.mem_of_mem_filter he)

/-- The edits of a baseline come before those of the range. -/
private theorem mapGet_editsOf_last {range : List EntryRecord} {record : EntryRecord} (id : EntryId) :
    mapGet (editsOf (range ++ [record])) id =
      (mapGet ((record.edits.getD []).map fun edit => (edit.target, edit)).reverse id).or (mapGet (editsOf range) id) := by
  rw [editsOf, editsOf, mapGet_mapOf, mapGet_mapOf, List.flatMap_append, List.map_append, List.reverse_append,
    mapGet_append]
  simp only [List.flatMap_cons, List.flatMap_nil, List.append_nil]

/-- The entries that a baseline omits. -/
private def omits (view : ContextView) : List ContextEdit :=
  (view.entries.filter isSystemEntry).map fun entry => { target := entry.id, action := .omit }

private theorem mapGet_omits {view : ContextView} {e : EntryRecord} (he : e ∈ view.entries)
    (hunique : ∀ e' ∈ view.entries, e'.id = e.id → e' = e) :
    (mapGet ((omits view).map fun edit => (edit.target, edit)).reverse e.id).map ContextEdit.action =
      if isSystemEntry e then some .omit else none := by
  have hmem {edit : ContextEdit} (hedit : edit ∈ omits view) :
      ∃ e' ∈ view.entries, isSystemEntry e' = true ∧ edit = ⟨e'.id, .omit⟩ := by
    obtain ⟨e', he', rfl⟩ := List.mem_map.mp hedit
    exact ⟨e', List.mem_of_mem_filter he', (List.mem_filter.mp he').2, rfl⟩
  cases hget : mapGet ((omits view).map fun edit => (edit.target, edit)).reverse e.id with
  | none =>
    rw [if_neg fun hsystem => mapGet_eq_none.mp hget ?_]
    · rfl
    · have hedit : (⟨e.id, .omit⟩ : ContextEdit) ∈ omits view :=
        List.mem_map.mpr ⟨e, List.mem_filter.mpr ⟨he, hsystem⟩, rfl⟩
      rw [List.map_reverse, List.mem_reverse, List.map_map]
      exact List.mem_map.mpr ⟨_, hedit, rfl⟩
  | some edit =>
    obtain ⟨edit', hedit', heq⟩ := List.mem_map.mp (List.mem_reverse.mp (mem_of_mapGet hget))
    obtain ⟨htarget, rfl⟩ := Prod.mk.inj heq
    obtain ⟨e', he', hsystem, rfl⟩ := hmem hedit'
    rw [hunique e' he' htarget] at hsystem
    rw [if_pos hsystem]
    rfl

private theorem reaches_baseline {head : EntryRecord} (hordered : (visible ++ records).Pairwise fun e e' => e.id < e'.id)
    (hback : EditsBack visible) (hprompted : Prompted (viewOf visible)) (hdesired : (desired.map Prod.fst).Nodup)
    (hplain : Plain desired) (htools : (tools.map Agent.Tool.name).Nodup)
    (hrecords : Committed (planSystemEntries (viewOf visible) desired tools timestamp) records)
    (hreached : ∀ head ∈ (headOf visible).bind EntryRecord.head, ∀ e ∈ records, head ≤ e.id)
    (hhead : (viewOf visible).head = some head)
    (hnone : ∀ entry ∈ (viewOf visible).entries, isSystemEntry entry = true → entry.id ≤ head.id) :
    Shows desired tools (viewOf (visible ++ records)).messages ∧
      ∀ head ∈ (viewOf (visible ++ records)).head, ∃ entry ∈ (viewOf (visible ++ records)).entries,
        isSystemEntry entry = true ∧ head.id < entry.id := by
  have hplan : ∃ draft, planSystemEntries (viewOf visible) desired tools timestamp = [draft] ∧
      draft.model = (systemEntry (some (mkFields (desired.map fun e => (e.1, some e.2))))
        (some { toolsRemoved := [], toolsAdded := tools.map Agent.Tool.declaration }) timestamp).model ∧
      draft.edits.getD [] = omits (viewOf visible) := by
    unfold planSystemEntries
    rw [if_pos (baseline_iff.mpr ⟨head, hhead, hnone⟩)]
    refine ⟨_, rfl, ?_⟩
    split_ifs with hempty
    · exact ⟨rfl, (List.isEmpty_iff.mp hempty).symm⟩
    · exact ⟨rfl, rfl⟩
  obtain ⟨draft, hdraft, hmodel, hedits⟩ := hplan
  rw [hdraft] at hrecords
  obtain ⟨record, rfl⟩ : ∃ record, records = [record] := by
    cases hrecords with
    | cons _ hrest =>
      cases hrest
      exact ⟨_, rfl⟩
  obtain ⟨⟨hsystem, hrecordModel, hrecordEdits, -⟩, -⟩ := List.forall₂_cons.mp hrecords
  have hheads := hrecords.head
  have hlater : ∀ e ∈ visible, e.id < record.id := fun e he =>
    (List.pairwise_append.mp hordered).2.2 e he record List.mem_cons_self
  have hunique : ∀ e ∈ visible, ∀ e' ∈ visible, e'.id = e.id → e' = e := by
    have hnodup : (visible.map EntryRecord.id).Nodup :=
      List.pairwise_map.mpr ((List.pairwise_append.mp hordered).1.imp Nat.ne_of_lt)
    exact fun e he e' he' => List.inj_on_of_nodup_map hnodup he' he
  have hget (id : EntryId) : mapGet (editsOf (rangeFrom visible ++ [record])) id =
      (mapGet ((omits (viewOf visible)).map fun edit => (edit.target, edit)).reverse id).or
        (mapGet (editsOf (rangeFrom visible)) id) := by
    rw [mapGet_editsOf_last, hrecordEdits, hedits]
  -- What was shown before is omitted, and the rest shows nothing.
  have hold : ∀ e ∈ (viewOf visible).entries, systems (contribute e
      ((mapGet (editsOf (rangeFrom visible ++ [record])) e.id).map ContextEdit.action)) = [] := by
    intro e he
    rw [hget, Option.map_or, mapGet_omits he fun e' he' => hunique e (mem_viewOf he) e' (mem_viewOf he')]
    split_ifs with hsystem
    · rfl
    · refine hprompted (e, _) ?_ (by simpa using hsystem)
      obtain ⟨i, hi⟩ := List.getElem?_of_mem he
      refine List.mem_of_getElem? (i := i) (List.getElem?_zip_eq_some.mpr ⟨hi, ?_⟩)
      rw [viewOf_contributions, ← viewOf_entries, contributionsOf, List.getElem?_map, hi, Option.none_or]
      rfl
  have hnew : systems (contribute record
      ((mapGet (editsOf (rangeFrom visible ++ [record])) record.id).map ContextEdit.action)) = draft.model := by
    have hnone : mapGet (editsOf (rangeFrom visible ++ [record])) record.id = none := by
      refine mapGet_editsOf_none fun e he edit hedit => Nat.ne_of_lt ?_
      rcases List.mem_append.mp he with he | he
      · have he := List.mem_of_mem_filter he
        exact (hback e he edit hedit).trans (hlater e he)
      · rw [List.mem_singleton.mp he, hrecordEdits, hedits] at hedit
        obtain ⟨e', he', rfl⟩ := List.mem_map.mp hedit
        exact hlater e' (mem_viewOf (List.mem_of_mem_filter he'))
    rw [hnone, Option.map_none, contribute, hrecordModel, hmodel]
    rfl
  have hsystems : systems (viewOf (visible ++ [record])).messages = draft.model := by
    rw [viewOf_systems, viewOf_contributions, headOf_append hheads, rangeFrom_append hheads hreached,
      selectActive_append hheads, ← viewOf_entries, contributionsOf, List.map_append, List.flatten_append,
      systems_append, List.map_singleton, List.flatten_singleton, hnew]
    have hnil : systems ((viewOf visible).entries.map fun e => contribute e
        ((mapGet (editsOf (rangeFrom visible ++ [record])) e.id).map ContextEdit.action)).flatten = [] := by
      refine List.filter_eq_nil_iff.mpr fun message hmessage => ?_
      obtain ⟨contribution, hcontribution, hmem⟩ := List.mem_flatten.mp hmessage
      obtain ⟨e, he, rfl⟩ := List.mem_map.mp hcontribution
      exact List.filter_eq_nil_iff.mp (hold e he) message hmem
    rw [hnil, List.nil_append]
  constructor
  · have hshows : Shows desired tools draft.model := by
      obtain ⟨hreplayed, hdeclared⟩ := replay_entry timestamp
        (some (mkFields (desired.map fun e => (e.1, some e.2))))
        (some { toolsRemoved := [], toolsAdded := tools.map Agent.Tool.declaration }) [] []
      have hkeys := keys_map (m := desired) fun e => some e.2
      rw [hmodel]
      refine ⟨?_, ?_⟩
      · rw [replaySections, hreplayed, Option.getD_some,
          mkFields_eq_self (hkeys ▸ hdesired) (hkeys ▸ fun k hk => (hplain k hk).1), patch_fill hdesired]
      · rw [getCurrentTools, hdeclared]
        exact offers_declarations htools
    refine hshows.of_systems ?_
    rw [hsystems, hmodel]
    rfl
  · rw [viewOf_head, headOf_append hheads, ← viewOf_head, entries_append hheads hreached, hhead]
    intro head' hhead'
    obtain rfl := Option.some.inj hhead'
    refine ⟨record, List.mem_append_right _ List.mem_cons_self, hsystem, hlater _ ?_⟩
    rw [viewOf_head] at hhead
    exact List.mem_of_mem_filter (List.mem_of_getLast? hhead)

/-- The planned entries, appended to the conversation, show the model the wanted sections and tools, and
nothing is left to plan. -/
theorem planSystemEntries_reaches {view : ContextView} (hcommits : s.Commits s')
    (hview : readContext s conversationId none = .ok view) (hback : EditsBack (s.visible conversationId))
    (hprompted : Prompted view) (hdesired : (desired.map Prod.fst).Nodup) (hplain : Plain desired)
    (hplain' : Plain (replaySections view.messages)) (htools : (tools.map Agent.Tool.name).Nodup)
    (hrecords : Committed (planSystemEntries view desired tools timestamp) records)
    (happended : s'.visible conversationId = s.visible conversationId ++ records)
    (hreached : ∀ head ∈ view.head.bind EntryRecord.head, ∀ e ∈ records, head ≤ e.id) :
    ∃ view', readContext s' conversationId none = .ok view' ∧ Shows desired tools view'.messages ∧
      ∀ later, planSystemEntries view' desired tools later = [] := by
  have hknown : (s.conversation? conversationId).isSome := by
    by_contra hunknown
    rw [readContext, captureContextBounds_unknown (by simpa using hunknown)] at hview
    cases hview
  have hordered := happended ▸ visible_ordered s' conversationId
  obtain rfl : view = viewOf (s.visible conversationId) := Except.ok.inj (hview.symm.trans (readContext_viewOf hknown))
  have hread := readContext_viewOf (hcommits.known hknown)
  rw [happended] at hread
  rw [viewOf_head] at hreached
  have hreaches : Shows desired tools (viewOf (s.visible conversationId ++ records)).messages ∧
      ∀ head ∈ (viewOf (s.visible conversationId ++ records)).head,
        ∃ entry ∈ (viewOf (s.visible conversationId ++ records)).entries,
          isSystemEntry entry = true ∧ head.id < entry.id := by
    by_cases hbaseline : ∃ head ∈ (viewOf (s.visible conversationId)).head,
        ∀ entry ∈ (viewOf (s.visible conversationId)).entries, isSystemEntry entry = true → entry.id ≤ head.id
    · obtain ⟨head, hhead, hnone⟩ := hbaseline
      exact reaches_baseline hordered hback hprompted hdesired hplain htools hrecords hreached hhead hnone
    · exact reaches_patch hordered hback hdesired hplain hplain' htools hrecords hreached hbaseline
  exact ⟨_, hread, hreaches.1, fun later => planSystemEntries_of_shows later hdesired htools hreaches.1 hreaches.2⟩

/-! ## A new prompt behind a summary -/

def oldPrompt : EntryRecord :=
  ⟨2, 1, lit "pi.system", some (systemEntry (some [(lit "role", some (lit "old"))]) none (Number.ofNat 0)).model, none,
    none, none, none⟩

def newPrompt : EntryRecord :=
  ⟨4, 1, lit "pi.system", some (systemEntry (some [(lit "role", some (lit "new"))])
    (some { toolsRemoved := [], toolsAdded := [] }) (Number.ofNat 1)).model, none, none, some [⟨2, .omit⟩], none⟩

/-- A prompt and a summary that keeps it. -/
def retainedStore : Store :=
  (newStore.commitEntry oldPrompt (by decide)
    ⟨⟨1, none⟩, by decide, rfl⟩).commitEntry (.saying 3 (userSays (lit "greeted")) (some 2)) (by decide)
    ⟨⟨1, none⟩, by decide, rfl⟩

def promptedStore : Store := retainedStore.commitEntry newPrompt (by decide) ⟨⟨1, none⟩, by decide, rfl⟩

/-- The kept prompt is omitted, and the new one is shown. -/
theorem planSystemEntries_reaches_retained : ∃ view', readContext promptedStore 1 none = .ok view' ∧
    Shows [(lit "role", lit "new")] [] view'.messages ∧
      ∀ later, planSystemEntries view' [(lit "role", lit "new")] [] later = [] := by
  have hview := @readContext_viewOf retainedStore 1 (by rfl)
  refine @planSystemEntries_reaches retainedStore promptedStore 1 [newPrompt] _ _ (Number.ofNat 1) _
    (.entry .refl newPrompt (by decide) ⟨⟨1, none⟩, by decide, rfl⟩) hview (editsBack_of_none (by rfl)) ?_ (by decide) ?_ ?_
    (by decide) ?_ (by rfl) ?_
  · have hzip : (viewOf (retainedStore.visible 1)).entries.zip (viewOf (retainedStore.visible 1)).contributions =
        [(.saying 3 (userSays (lit "greeted")) (some 2), [userSays (lit "greeted")]),
          (oldPrompt, (systemEntry (some [(lit "role", some (lit "old"))]) none (Number.ofNat 0)).model)] := by rfl
    intro p hp hkind
    rw [hzip] at hp
    rcases List.mem_cons.mp hp with rfl | hp
    · rfl
    · rw [List.mem_singleton.mp hp] at hkind
      exact absurd hkind (by decide)
  · unfold Plain
    decide
  · have hshown : replaySections (viewOf (retainedStore.visible 1)).messages = [(lit "role", lit "old")] := by rfl
    rw [hshown]
    unfold Plain
    decide
  · have hplan : planSystemEntries (viewOf (retainedStore.visible 1)) [(lit "role", lit "new")] [] (Number.ofNat 1) =
        [⟨(systemEntry (some [(lit "role", some (lit "new"))]) (some { toolsRemoved := [], toolsAdded := [] })
          (Number.ofNat 1)).model, some [⟨2, .omit⟩]⟩] := by rfl
    rw [hplan]
    exact .cons ⟨by decide, rfl, rfl, rfl⟩ .nil
  · have hhead : (viewOf (retainedStore.visible 1)).head.bind EntryRecord.head = some 2 := by rfl
    rw [hhead]
    intro head hreached e he
    obtain rfl := Option.some.inj hreached
    rw [List.mem_singleton.mp he]
    decide

end Context
