import ContextCompaction.Preview.ForkLaws

/-!
# What a fork shows

* `contextMessages_fork`: the messages of its context.
* `getLabel_fork`: the labels of its entries.
* `getBranch_fork`: its branch, where new IDs are fresh.
-/

namespace Compaction

open Js

variable {path before after labels : List SessionRecord} {e e' c : SessionRecord}

/-! ## Messages -/

/-- What an edit does to its target. -/
def replacementOf (edit : Option SessionRecord) : Option Json :=
  edit.map fun edit => (field edit.fields "replacement").getD .null

theorem projectContextEntry_congr (getTime : GetTime) {edit edit' : Option SessionRecord}
    (h : Alike e e') (hedit : replacementOf edit' = replacementOf edit) :
    projectContextEntry getTime e' edit' = projectContextEntry getTime e edit := by
  unfold replacementOf at hedit
  rw [projectContextEntry, hedit, h.messages_eq, projectContextEntry]

theorem projectContextEntry_label (getTime : GetTime) (h : isLabel e) (edit : Option SessionRecord) :
    projectContextEntry getTime e edit = [] := by
  have hnone : sessionEntryToContextMessages getTime e = [] := by
    rw [sessionEntryToContextMessages, of_decide_eq_true h]
  unfold projectContextEntry
  split
  · exact hnone
  · rfl
  · rw [hnone]
    rfl

theorem mapGet_rel {R : SessionRecord → SessionRecord → Prop} {m n : List (Str × SessionRecord)}
    (h : List.Forall₂ (fun p q => p.1 = q.1 ∧ R p.2 q.2) m n) (key : Str) :
    Option.Rel R (mapGet m key) (mapGet n key) := by
  induction h with
  | nil => exact .none
  | @cons p q m n hpq _ ih =>
    rw [mapGet_cons, mapGet_cons, ← hpq.1]
    split
    · exact .some hpq.2
    · exact ih

/-- Edits of alike entries are alike. -/
theorem contextEdits_rel {xs ys : List SessionRecord} (h : List.Forall₂ Alike xs ys) (key : Str) :
    Option.Rel Alike (mapGet (contextEdits xs) key) (mapGet (contextEdits ys) key) := by
  unfold contextEdits
  rw [mapGet_mapOf, mapGet_mapOf]
  refine mapGet_rel (List.rel_reverse ?_) key
  rw [List.forall₂_map_left_iff, List.forall₂_map_right_iff]
  have hedits := rel_filter_eq (p := fun entry => entry.type = .contextEdit) h
    fun _ _ hxy => by rw [hxy.type_eq]
  exact hedits.imp fun _ _ hxy => ⟨(hxy.str "targetId" (by decide) (by decide)).symm, hxy⟩

theorem contextEdits_unlabelled (entries : List SessionRecord) :
    contextEdits (unlabelled entries) = contextEdits entries := by
  unfold contextEdits
  rw [unlabelled, List.filter_filter]
  congr 2
  refine List.filter_congr fun e _ => ?_
  by_cases h : e.type = .contextEdit
  · simp [h, isLabel]
  · simp [h]

/-- The messages are those of the entries in context that are no labels. -/
theorem contextMessages_eq (getTime : GetTime) (hids : (path.map SessionRecord.id).Nodup) :
    contextMessages getTime path = (unlabelled (buildContextEntries path)).flatMap fun e =>
      projectContextEntry getTime e
        (mapGet (contextEdits (unlabelled (buildContextEntries path))) e.id) := by
  have htail := tail_context hids
  unfold contextMessages buildSessionProjection
  dsimp only
  rw [contextEdits_unlabelled]
  generalize buildContextEntries path = entries at htail ⊢
  generalize contextEdits entries = edits
  have hall : entries.zipIdx.flatMap (fun e =>
      if e.1.type = .compaction ∧ 0 < e.2 then []
        else projectContextEntry getTime e.1 (mapGet edits e.1.id)) =
      entries.zipIdx.flatMap fun e => projectContextEntry getTime e.1 (mapGet edits e.1.id) := by
    refine List.flatMap_congr fun e he => if_neg ?_
    rintro ⟨htype, hpos⟩
    refine htail e.1 ?_ htype
    have hget := List.mem_zipIdx_iff_getElem?.mp he
    refine List.mem_of_getElem? (i := e.2 - 1) ?_
    rw [List.getElem?_drop, ← hget]
    congr 1
    omega
  have hfst : entries.zipIdx.flatMap (fun e =>
      projectContextEntry getTime e.1 (mapGet edits e.1.id)) =
      entries.flatMap fun e => projectContextEntry getTime e (mapGet edits e.id) := by
    conv_rhs => rw [← List.zipIdx_map_fst 0 entries, List.flatMap_map]
  rw [List.flatMap_map]
  refine (hall.trans hfst).trans ?_
  clear htail hall hfst
  induction entries with
  | nil => rfl
  | cons e entries ih =>
    by_cases h : isLabel e
    · rw [unlabelled_cons_label h, List.flatMap_cons, projectContextEntry_label getTime h, ih]
      rfl
    · rw [unlabelled_cons h, List.flatMap_cons, List.flatMap_cons, ih]

/-- A fork shows the messages of its path. -/
theorem contextMessages_fork (getTime : GetTime) (hids : (path.map SessionRecord.id).Nodup)
    (hfork : (((rechain path).retained ++ labels).map SessionRecord.id).Nodup)
    (hlabels : ∀ e ∈ labels, isLabel e) :
    contextMessages getTime ((rechain path).retained ++ labels) = contextMessages getTime path := by
  have halike := context_fork hids hfork hlabels
  rw [contextMessages_eq getTime hids, contextMessages_eq getTime hfork]
  refine flatMap_rel halike fun x y hxy => projectContextEntry_congr getTime hxy ?_
  rw [hxy.id_eq]
  rcases rel_cases (contextEdits_rel halike x.id) with ⟨hx, hy⟩ | ⟨a, b, hx, hy, hab⟩
  · rw [hx, hy]
  · rw [hx, hy, replacementOf, Option.map_some, hab "replacement" (by decide) (by decide)]
    rfl

theorem ids_rechain (path : List SessionRecord) :
    (rechain path).retained.map SessionRecord.id = (unlabelled path).map SessionRecord.id := by
  rw [← List.forall₂_eq_eq_eq, List.forall₂_map_left_iff, List.forall₂_map_right_iff]
  exact (alike_rechain path).flip.imp fun x y (hxy : Alike y x) => hxy.id_eq

/-! ## Labels -/

/-- Filtering by key removes the keys that fail and no others. -/
theorem mapGet_filter_keys {β : Type} (m : List (Str × β)) (p : Str → Bool) (key : Str) :
    mapGet (m.filter fun e => p e.1) key = if p key then mapGet m key else none := by
  induction m with
  | nil => simp
  | cons e m ih =>
    obtain ⟨k, v⟩ := e
    by_cases hp : p k
    · by_cases hk : k = key
      · subst hk
        simp [hp]
      · simp [hp, hk, ih]
    · by_cases hk : k = key
      · subst hk
        simp [hp, ih]
      · simp [hp, hk, ih]

/-- A map whose values are labels that are not empty. -/
structure LabelMap (m : List (Str × Str × Str)) : Prop where
  keys : (m.map Prod.fst).Nodup
  named : ∀ e ∈ m, e.2.1 ≠ []

/-- The labels form a map. -/
theorem labelMap_labelsById (entries : List SessionRecord) : LabelMap (labelsById entries) := by
  unfold labelsById
  induction entries using List.reverseRecOn with
  | nil => exact ⟨List.nodup_nil, by simp⟩
  | append_singleton entries e ih =>
    rw [List.foldl_append, List.foldl_cons, List.foldl_nil]
    generalize entries.foldl labelStep [] = m at ih
    unfold labelStep
    split
    · split
      next hlabel =>
        refine ⟨nodup_mapSet ih.keys _ _, fun p hp => ?_⟩
        rcases mem_mapSet hp with hp | rfl
        · exact ih.named p hp
        · exact hlabel
      next =>
        exact ⟨ih.keys.sublist (List.filter_sublist.map _),
          fun p hp => ih.named p (List.mem_of_mem_filter hp)⟩
    · exact ih

theorem isLabel_labelRecord (id : Str) (parentId : Option Str) (timestamp targetId label : Str) :
    isLabel (labelRecord id parentId timestamp targetId label) := by
  simp [isLabel, SessionRecord.type, labelRecord, strField, strField?, field, RecordType.ofName]

theorem labelStep_labelRecord {m : List (Str × Str × Str)} {id timestamp targetId label : Str}
    {parentId : Option Str} (h : label ≠ []) :
    labelStep m (labelRecord id parentId timestamp targetId label) =
      mapSet m targetId (label, timestamp) := by
  rw [labelStep, if_pos (isLabel_labelRecord ..)]
  have hlabel : strField (labelRecord id parentId timestamp targetId label).fields "label" = label := by
    simp [labelRecord, strField, strField?, field]
  have htarget : strField (labelRecord id parentId timestamp targetId label).fields "targetId" =
      targetId := by simp [labelRecord, strField, strField?, field]
  have htime : (labelRecord id parentId timestamp targetId label).timestamp = timestamp := by
    simp [labelRecord, SessionRecord.timestamp, strField, strField?, field]
  rw [hlabel, htarget, htime, if_pos h]

theorem isLabel_labelEntries {randomUUID : Nat → Nat → Str} {written : List (Str × Str × Str)} {k : Nat}
    {taken : List Str} {parentId : Option Str} :
    ∀ e ∈ labelEntries randomUUID written k taken parentId, isLabel e := by
  induction written generalizing k taken parentId with
  | nil => exact fun e he => by cases he
  | cons w written ih =>
    obtain ⟨targetId, label, timestamp⟩ := w
    intro e he
    rcases List.mem_cons.mp he with rfl | he
    · exact isLabel_labelRecord ..
    · exact ih e he

theorem foldl_labelEntries {randomUUID : Nat → Nat → Str} {written m : List (Str × Str × Str)} {k : Nat}
    {taken : List Str} {parentId : Option Str} (h : ∀ e ∈ written, e.2.1 ≠ []) :
    (labelEntries randomUUID written k taken parentId).foldl labelStep m =
      written.foldl (fun m e => mapSet m e.1 e.2) m := by
  induction written generalizing k taken parentId m with
  | nil => rfl
  | cons w written ih =>
    obtain ⟨targetId, label, timestamp⟩ := w
    rw [labelEntries, List.foldl_cons, List.foldl_cons,
      labelStep_labelRecord (h _ List.mem_cons_self)]
    exact ih fun e he => h e (List.mem_cons_of_mem _ he)

/-- An entry of a fork has the label that it had. -/
theorem getLabel_fork (randomUUID : Nat → Nat → Str) (entries path : List SessionRecord)
    (he : e ∈ unlabelled path) :
    getLabel (forkEntries randomUUID entries path) e.id = getLabel entries e.id := by
  have hmap := labelMap_labelsById entries
  have hretained : (rechain path).retained.foldl labelStep [] = [] := by
    have hnone : ∀ e ∈ (rechain path).retained, ¬ isLabel e := fun e he => by
      rw [← unlabelled_rechain] at he
      simpa using (List.mem_filter.mp he).2
    generalize (rechain path).retained = retained at hnone
    induction retained with
    | nil => rfl
    | cons e retained ih =>
      rw [List.foldl_cons, labelStep, if_neg (hnone e (by simp))]
      exact ih fun e he => hnone e (List.mem_cons_of_mem _ he)
  have hmem : e.id ∈ (rechain path).retained.map SessionRecord.id := by
    rw [ids_rechain]
    exact List.mem_map_of_mem he
  have hwritten : LabelMap (labelsToWrite entries (rechain path).retained) :=
    ⟨hmap.keys.sublist (List.filter_sublist.map _),
      fun p hp => hmap.named p (List.mem_of_mem_filter hp)⟩
  have hfork : labelsById (forkEntries randomUUID entries path) =
      labelsToWrite entries (rechain path).retained := by
    rw [labelsById, forkEntries, List.foldl_append, hretained, foldl_labelEntries hwritten.named]
    exact mapOf_eq_self hwritten.keys
  rw [getLabel, getLabel, hfork, labelsToWrite,
    mapGet_filter_keys _ (fun id => decide (id ∈ (rechain path).retained.map SessionRecord.id)),
    if_pos (decide_eq_true hmem)]

/-! ## New IDs -/

/-- What `randomUUID` returns has 36 characters; the whole UUIDs of `count` calls are no IDs in use,
and differ. -/
structure FreshUUIDs (randomUUID : Nat → Nat → Str) (ids : List Str) (count : Nat) : Prop where
  length : ∀ k i, (randomUUID k i).length = 36
  unused : ∀ k < count, randomUUID k 100 ∉ ids
  once : ∀ k < count, ∀ j < count, randomUUID k 100 = randomUUID j 100 → k = j

section

variable {randomUUID : Nat → Nat → Str} {ids taken : List Str} {k count : Nat}

theorem generateId_notMem {draws : Nat → Str} (h : draws 100 ∉ taken) :
    generateId draws taken ∉ taken := by
  unfold generateId
  cases hfind : ((List.range 100).map fun i => (draws i).take 8).find? (· ∉ taken) with
  | none => exact h
  | some id => simpa using List.find?_some hfind

theorem generateId_shape {draws : Nat → Str} (h : ∀ i, (draws i).length = 36) (taken : List Str) :
    (generateId draws taken).length = 8 ∨ generateId draws taken = draws 100 := by
  unfold generateId
  cases hfind : ((List.range 100).map fun i => (draws i).take 8).find? (· ∉ taken) with
  | none => exact .inr rfl
  | some id =>
    obtain ⟨i, -, rfl⟩ := List.mem_map.mp (List.mem_of_find?_eq_some hfind)
    exact .inl (by simp [h])

/-- IDs of the session, and those of its first `k` new labels. -/
def Drawn (randomUUID : Nat → Nat → Str) (ids : List Str) (k : Nat) (taken : List Str) : Prop :=
  ∀ id ∈ taken, id ∈ ids ∨ id.length = 8 ∨ ∃ j < k, id = randomUUID j 100

theorem Drawn.fresh (h : Drawn randomUUID ids k taken) (hfresh : FreshUUIDs randomUUID ids count)
    (hk : k < count) : randomUUID k 100 ∉ taken := by
  intro hmem
  rcases h _ hmem with hid | hlength | ⟨j, hj, heq⟩
  · exact hfresh.unused k hk hid
  · rw [hfresh.length] at hlength
    cases hlength
  · have := hfresh.once k hk j (by omega) heq
    omega

theorem Drawn.next (h : Drawn randomUUID ids k taken) (hfresh : FreshUUIDs randomUUID ids count) :
    Drawn randomUUID ids (k + 1) (taken ++ [generateId (randomUUID k) taken]) := by
  intro id hid
  rcases List.mem_append.mp hid with hid | hid
  · refine (h id hid).imp_right (Or.imp_right ?_)
    rintro ⟨j, hj, heq⟩
    exact ⟨j, by omega, heq⟩
  · rw [List.mem_singleton.mp hid]
    refine .inr ((generateId_shape (hfresh.length k) taken).imp_right fun heq => ?_)
    exact ⟨k, by omega, heq⟩

@[simp] theorem id_labelRecord (id : Str) (parentId : Option Str) (timestamp targetId label : Str) :
    (labelRecord id parentId timestamp targetId label).id = id := by
  simp [SessionRecord.id, labelRecord, strField, strField?, field]

@[simp] theorem parentId_labelRecord (id : Str) (parentId : Option Str)
    (timestamp targetId label : Str) :
    (labelRecord id parentId timestamp targetId label).parentId = parentId := by
  cases parentId <;> simp [SessionRecord.parentId, labelRecord, strField?, field, orNull, Json.str?]

/-- New labels have new IDs, and follow each other. -/
theorem labelEntries_fresh (hfresh : FreshUUIDs randomUUID ids count)
    (h : Drawn randomUUID ids k taken) (written : List (Str × Str × Str))
    (hcount : k + written.length ≤ count) (parentId : Option Str) :
    ((labelEntries randomUUID written k taken parentId).map SessionRecord.id).Nodup ∧
      (∀ e ∈ labelEntries randomUUID written k taken parentId, e.id ∉ taken ∧ e.id ≠ []) ∧
      linked parentId (labelEntries randomUUID written k taken parentId) = true := by
  induction written generalizing k taken parentId with
  | nil => exact ⟨List.nodup_nil, fun e he => (by cases he), rfl⟩
  | cons w written ih =>
    obtain ⟨targetId, label, timestamp⟩ := w
    rw [List.length_cons] at hcount
    obtain ⟨hnodup, hnew, hlinked⟩ := ih (h.next hfresh) (by omega)
      (some (generateId (randomUUID k) taken))
    have hid := generateId_notMem (h.fresh hfresh (by omega))
    rw [labelEntries]
    refine ⟨?_, fun e he => ?_, ?_⟩
    · rw [List.map_cons, List.nodup_cons, id_labelRecord]
      refine ⟨fun hmem => ?_, hnodup⟩
      obtain ⟨e, he, heq⟩ := List.mem_map.mp hmem
      exact (hnew e he).1 (by simp [heq])
    · rcases List.mem_cons.mp he with rfl | he
      · rw [id_labelRecord]
        refine ⟨hid, fun hnil => ?_⟩
        rcases generateId_shape (hfresh.length k) taken with hlength | heq
        · rw [hnil] at hlength
          cases hlength
        · have := hfresh.length k 100
          rw [← heq, hnil] at this
          cases this
      · exact ⟨fun hmem => (hnew e he).1 (List.mem_append_left _ hmem), (hnew e he).2⟩
    · rw [linked, parentId_labelRecord, id_labelRecord, hlinked]
      simp

end

section

variable {randomUUID : Nat → Nat → Str} {entries : List SessionRecord}

/-- The entries of a fork are chained, and have distinct IDs. -/
theorem forkEntries_linked (hpath : IsBranch path) (hsub : path ⊆ entries)
    (hfresh : FreshUUIDs randomUUID (entries.map SessionRecord.id) (labelsById entries).length) :
    ((forkEntries randomUUID entries path).map SessionRecord.id).Nodup ∧
      (∀ e ∈ forkEntries randomUUID entries path, e.id ≠ []) ∧
      linked none (forkEntries randomUUID entries path) = true := by
  have hmem : ∀ id ∈ (rechain path).retained.map SessionRecord.id, id ∈ path.map SessionRecord.id := by
    rw [ids_rechain]
    exact (List.filter_sublist.map _).subset
  have hnamed : ∀ id ∈ (rechain path).retained.map SessionRecord.id, id ≠ [] := by
    intro id hid
    obtain ⟨e, he, rfl⟩ := List.mem_map.mp (hmem id hid)
    exact hpath.named e he
  have hdrawn : Drawn randomUUID (entries.map SessionRecord.id) 0
      ((rechain path).retained.map SessionRecord.id) := by
    intro id hid
    obtain ⟨e, he, rfl⟩ := List.mem_map.mp (hmem id hid)
    exact .inl (List.mem_map_of_mem (hsub he))
  obtain ⟨hlabels, hnew, hlinked⟩ := labelEntries_fresh hfresh hdrawn
    (labelsToWrite entries (rechain path).retained)
    (by rw [Nat.zero_add]; exact List.length_filter_le _ _) (leafId (rechain path).retained)
  have hleaf : (leafId (rechain path).retained).filter (· ≠ []) = leafId (rechain path).retained := by
    cases h : leafId (rechain path).retained with
    | none => rfl
    | some id =>
      obtain ⟨e, he, rfl⟩ := Option.map_eq_some_iff.mp h
      have := hnamed e.id (List.mem_map_of_mem (List.mem_of_getLast? he))
      simp [Option.filter, this]
  rw [forkEntries, hleaf]
  refine ⟨?_, fun e he => ?_, ?_⟩
  · rw [List.map_append, List.nodup_append]
    refine ⟨?_, hlabels, fun id hid id' hid' heq => ?_⟩
    · rw [ids_rechain]
      exact hpath.ids.sublist (List.filter_sublist.map _)
    · obtain ⟨e, he, rfl⟩ := List.mem_map.mp hid'
      exact (hnew e he).1 (heq ▸ hid)
  · rcases List.mem_append.mp he with he | he
    · exact hnamed e.id (List.mem_map_of_mem he)
    · exact (hnew e he).2
  · rw [linked_append, (linked_rechain path).1, Option.or_none, hlinked]
    rfl

end

end Compaction
