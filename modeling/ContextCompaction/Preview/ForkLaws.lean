import Mathlib.Data.List.Forall2
import Mathlib.Data.List.TakeWhile
import ContextCompaction.Preview.ForkBranches

/-!
# The context of a fork

Up to parents and cuts, the entries of a fork are those of its path that are no labels (`Alike`). A
cut at a dropped label is moved to the entry behind it, so the fork keeps the same entries in context
and shows the same messages.

* `redirected_kept`: the moved cut keeps what the stored one kept.
* `contextMessages_fork`: the messages of a fork are those of its path.
-/

namespace Compaction

open Js

variable {path read before after : List SessionRecord} {entry e e' c : SessionRecord}

/-! ## Entries that differ in their parent and cut -/

/-- The same entry, up to its parent and its cut. -/
def Alike (e e' : SessionRecord) : Prop :=
  ∀ key, key ≠ "parentId" → key ≠ "firstKeptEntryId" → field e'.fields key = field e.fields key

namespace Alike

theorem refl (e : SessionRecord) : Alike e e := fun _ _ _ => rfl

theorem str (h : Alike e e') (key : String) (hp : key ≠ "parentId")
    (hk : key ≠ "firstKeptEntryId") : strField e'.fields key = strField e.fields key := by
  rw [strField, strField?, h key hp hk]
  rfl

variable (h : Alike e e')
include h

theorem id_eq : e'.id = e.id := h.str "id" (by decide) (by decide)

theorem type_eq : e'.type = e.type := by
  rw [SessionRecord.type, h.str "type" (by decide) (by decide)]
  rfl

theorem message_eq : e'.message = e.message := by
  rw [SessionRecord.message, h "message" (by decide) (by decide)]
  rfl

theorem summary_eq : e'.summary = e.summary := h.str "summary" (by decide) (by decide)

theorem timestamp_eq : e'.timestamp = e.timestamp := h.str "timestamp" (by decide) (by decide)

theorem details_eq : e'.details = e.details := h "details" (by decide) (by decide)

theorem isLabel_eq : isLabel e' = isLabel e := by rw [isLabel, h.type_eq, isLabel]

theorem role_eq : e'.role = e.role := by rw [SessionRecord.role, h.message_eq, SessionRecord.role]

theorem isSystem_eq : isSystem e' = isSystem e := by
  rw [isSystem, h.type_eq, h.role_eq, isSystem]

theorem messages_eq (getTime : GetTime) :
    sessionEntryToContextMessages getTime e' = sessionEntryToContextMessages getTime e := by
  unfold sessionEntryToContextMessages
  rw [h.type_eq, h.message_eq, h.role_eq, h.summary_eq, h.timestamp_eq]
  simp only [h "customType" (by decide) (by decide), h "content" (by decide) (by decide),
    h "display" (by decide) (by decide), h "details" (by decide) (by decide),
    h "fromId" (by decide) (by decide), h "systemMessage" (by decide) (by decide),
    h "tokensBefore" (by decide) (by decide)]

theorem sourceText_eq : sourceText e' = sourceText e := by
  unfold sourceText
  rw [h.type_eq, h.message_eq, h.role_eq, h.summary_eq, h "content" (by decide) (by decide)]

end Alike

theorem alike_rechained (replacement : List (Str × Str)) (parentId : Option Str)
    (entry : SessionRecord) : Alike entry (rechained replacement parentId entry) := by
  intro key hp hk
  unfold rechained
  split
  · exact (field_mapSet_ne hk).trans (field_mapSet_ne hp)
  · exact field_mapSet_ne hp

theorem parentId_rechained (replacement : List (Str × Str)) (parentId : Option Str)
    (entry : SessionRecord) : (rechained replacement parentId entry).parentId = parentId := by
  have horNull : (orNull parentId).str? = parentId := by cases parentId <;> rfl
  unfold rechained SessionRecord.parentId strField?
  split
  · rw [SessionRecord.keptFrom, field_mapSet_ne (by decide), SessionRecord.relinked,
      field_mapSet_self, Option.bind_some, horNull]
  · rw [SessionRecord.relinked, field_mapSet_self, Option.bind_some, horNull]

theorem firstKeptEntryId_rechained (replacement : List (Str × Str)) (parentId : Option Str)
    (h : entry.type = .compaction) :
    (rechained replacement parentId entry).firstKeptEntryId = redirected replacement entry := by
  rw [rechained, if_pos h, SessionRecord.firstKeptEntryId, SessionRecord.keptFrom, strField,
    strField?, field_mapSet_self]
  rfl

/-! ## The pass -/

/-- The entries that a fork keeps. -/
def unlabelled (path : List SessionRecord) : List SessionRecord := path.filter (!isLabel ·)

@[simp] theorem unlabelled_append (path path' : List SessionRecord) :
    unlabelled (path ++ path') = unlabelled path ++ unlabelled path' := List.filter_append ..

theorem unlabelled_cons_label (h : isLabel e) : unlabelled (e :: path) = unlabelled path := by
  simp [unlabelled, h]

theorem unlabelled_cons (h : ¬ isLabel e) : unlabelled (e :: path) = e :: unlabelled path := by
  simp [unlabelled, h]

@[simp] theorem unlabelled_unlabelled (path : List SessionRecord) :
    unlabelled (unlabelled path) = unlabelled path := by
  simp [unlabelled]

theorem unlabelled_eq_self (h : ∀ e ∈ path, ¬ isLabel e) : unlabelled path = path :=
  List.filter_eq_self.mpr fun e he => by simpa using h e he

variable {st : Rechain}

theorem step_label (h : isLabel e) : st.step e =
    { st with pendingLabelIds := st.pendingLabelIds ++ [e.id] } := if_pos h

/-- The replacements once the entry behind the waiting labels is known. -/
def Rechain.flush (st : Rechain) (id : Str) : List (Str × Str) :=
  st.pendingLabelIds.foldl (fun m labelId => mapSet m labelId id) st.replacementByLabelId

theorem step_entry (h : ¬ isLabel e) : st.step e =
    ⟨st.retained ++ [rechained (st.flush e.id) st.parentId e], st.flush e.id, [], some e.id⟩ :=
  if_neg h

theorem mapGet_flush (st : Rechain) (id key : Str) : mapGet (st.flush id) key =
    if key ∈ st.pendingLabelIds then some id else mapGet st.replacementByLabelId key := by
  unfold Rechain.flush
  generalize st.replacementByLabelId = m
  generalize st.pendingLabelIds = pending
  induction pending generalizing m with
  | nil => simp
  | cons labelId pending ih =>
    rw [List.foldl_cons, ih, mapGet_mapSet]
    by_cases hmem : key ∈ pending
    · simp [hmem]
    · by_cases hid : labelId = key
      · simp [hid]
      · simp [hmem, hid, Ne.symm hid]

/-- What the pass adds is the rest of the path without its labels. -/
theorem foldl_retained (path : List SessionRecord) (st : Rechain) :
    ∃ more, (path.foldl Rechain.step st).retained = st.retained ++ more ∧
      List.Forall₂ Alike (unlabelled path) more := by
  induction path generalizing st with
  | nil => exact ⟨[], (List.append_nil _).symm, .nil⟩
  | cons e path ih =>
    rw [List.foldl_cons]
    by_cases h : isLabel e
    · rw [unlabelled_cons_label h, step_label h]
      exact ih _
    · rw [unlabelled_cons h, step_entry h]
      obtain ⟨more, hmore, halike⟩ := ih ⟨st.retained ++ [rechained (st.flush e.id) st.parentId e],
        st.flush e.id, [], some e.id⟩
      exact ⟨_ :: more, by rw [hmore, List.append_assoc]; rfl, .cons (alike_rechained _ _ e) halike⟩

theorem alike_rechain (path : List SessionRecord) :
    List.Forall₂ Alike (unlabelled path) (rechain path).retained := by
  obtain ⟨more, hmore, halike⟩ := foldl_retained path ⟨[], [], [], none⟩
  rwa [rechain, hmore]

/-- The kept entries are chained, and the pass knows the last one. -/
theorem linked_rechain (path : List SessionRecord) :
    linked none (rechain path).retained = true ∧
      (rechain path).parentId = leafId (rechain path).retained := by
  unfold rechain
  induction path using List.reverseRecOn with
  | nil => exact ⟨rfl, rfl⟩
  | append_singleton path e ih =>
    obtain ⟨hlinked, hparent⟩ := ih
    rw [List.foldl_append, List.foldl_cons, List.foldl_nil]
    by_cases h : isLabel e
    · rw [step_label h]
      exact ⟨hlinked, hparent⟩
    · rw [step_entry h]
      refine ⟨?_, by simp [leafId, (alike_rechained _ _ e).id_eq]⟩
      rw [linked_append_singleton, hlinked, Bool.true_and, decide_eq_true_eq, parentId_rechained,
        hparent, Option.or_none]

/-! ## Moved cuts -/

/-- An ID that no label of a path has is not touched. -/
theorem foldl_untouched (st : Rechain) {id : Str} (h : id ∉ path.map SessionRecord.id)
    (hst : id ∉ st.pendingLabelIds) :
    id ∉ (path.foldl Rechain.step st).pendingLabelIds ∧
      mapGet (path.foldl Rechain.step st).replacementByLabelId id =
        mapGet st.replacementByLabelId id := by
  induction path generalizing st with
  | nil => exact ⟨hst, rfl⟩
  | cons e path ih =>
    rw [List.map_cons, List.mem_cons, not_or] at h
    rw [List.foldl_cons]
    by_cases hl : isLabel e
    · rw [step_label hl]
      exact ih _ h.2 (by simpa using ⟨hst, h.1⟩)
    · rw [step_entry hl]
      obtain ⟨hpending, hget⟩ := ih ⟨st.retained ++ [rechained (st.flush e.id) st.parentId e],
        st.flush e.id, [], some e.id⟩ h.2 (by simp)
      exact ⟨hpending, by rw [hget, mapGet_flush, if_neg hst]⟩

/-- Labels wait, and change nothing else. -/
theorem foldl_labels (h : ∀ e ∈ path, isLabel e) : path.foldl Rechain.step st =
    { st with pendingLabelIds := st.pendingLabelIds ++ path.map SessionRecord.id } := by
  induction path generalizing st with
  | nil => simp
  | cons e path ih =>
    rw [List.foldl_cons, step_label (h e (by simp)), ih fun e he => h e (List.mem_cons_of_mem _ he)]
    simp

theorem dropWhile_ids {id : Str} (h : id ∉ path.map SessionRecord.id) :
    path.dropWhile (fun entry => entry.id ≠ id) = [] := by
  rw [List.dropWhile_eq_nil_iff]
  intro e he
  have : e.id ≠ id := fun heq => h (heq ▸ List.mem_map_of_mem he)
  simpa using this

theorem dropWhile_from {id : Str} (h : id ∉ before.map SessionRecord.id) (he : e.id = id) :
    (before ++ e :: after).dropWhile (fun entry => entry.id ≠ id) = e :: after := by
  have hall : ∀ e ∈ before, decide (e.id ≠ id) = true := fun e hmem =>
    decide_eq_true fun heq => h (heq ▸ List.mem_map_of_mem hmem)
  rw [List.dropWhile_append_of_pos hall, List.dropWhile_cons_of_neg (by simp [he])]

theorem ids_unlabelled {id : Str} (h : id ∉ path.map SessionRecord.id) :
    id ∉ (unlabelled path).map SessionRecord.id := fun hmem =>
  h ((List.filter_sublist.map _).subset hmem)

section

variable {front back rest labels : List SessionRecord} {k : SessionRecord} {id : Str}

theorem rechain_append (front back : List SessionRecord) :
    rechain (front ++ back) = back.foldl Rechain.step (rechain front) := List.foldl_append ..

theorem rechain_untouched (h : id ∉ front.map SessionRecord.id) :
    id ∉ (rechain front).pendingLabelIds ∧ mapGet (rechain front).replacementByLabelId id = none :=
  foldl_untouched ⟨[], [], [], none⟩ h (by simp)

/-- An ID that no label has is not replaced. -/
theorem flush_unknown (h : id ∉ front.map SessionRecord.id) (next : Str) :
    mapGet ((rechain front).flush next) id = none := by
  obtain ⟨hpending, hget⟩ := rechain_untouched h
  rw [mapGet_flush, if_neg hpending, hget]

/-- Nor is the ID of an entry. -/
theorem flush_entry (hfront : e.id ∉ front.map SessionRecord.id)
    (hback : e.id ∉ back.map SessionRecord.id) (h : ¬ isLabel e) (next : Str) :
    mapGet ((rechain (front ++ e :: back)).flush next) e.id = none := by
  obtain ⟨hpending, hget⟩ := rechain_untouched hfront
  rw [rechain_append, List.foldl_cons, step_entry h, mapGet_flush]
  obtain ⟨hpending', hget'⟩ := foldl_untouched ⟨(rechain front).retained ++
    [rechained ((rechain front).flush e.id) (rechain front).parentId e], (rechain front).flush e.id, [],
    some e.id⟩ hback (by simp)
  rw [if_neg hpending', hget', flush_unknown hfront]

/-- A label is replaced by the next entry behind it. -/
theorem flush_label (hrest : e.id ∉ rest.map SessionRecord.id) (h : isLabel e)
    (hlabels : ∀ e ∈ labels, isLabel e) (hk : ¬ isLabel k) (next : Str) :
    mapGet ((rechain (front ++ e :: (labels ++ k :: rest))).flush next) e.id = some k.id := by
  have hst : (labels ++ k :: rest).foldl Rechain.step ((rechain front).step e) =
      rest.foldl Rechain.step ((labels.foldl Rechain.step ((rechain front).step e)).step k) := by
    rw [List.foldl_append, List.foldl_cons]
  rw [rechain_append, List.foldl_cons, hst, foldl_labels hlabels, step_label h, step_entry hk,
    mapGet_flush]
  generalize hflush : Rechain.flush _ k.id = replaced
  have hget : mapGet replaced e.id = some k.id := by
    rw [← hflush, mapGet_flush, if_pos (by simp)]
  generalize rechained replaced _ k = kept
  obtain ⟨hpending, hget'⟩ := foldl_untouched ⟨(rechain front).retained ++ [kept], replaced, [],
    some k.id⟩ hrest (by simp)
  rw [if_neg hpending, hget', hget]

/-- The last labels are replaced by what comes next. -/
theorem flush_last (hback : ∀ e ∈ back, isLabel e) (h : isLabel e) (next : Str) :
    mapGet ((rechain (front ++ e :: back)).flush next) e.id = some next := by
  rw [rechain_append, List.foldl_cons, foldl_labels hback, step_label h, mapGet_flush,
    if_pos (by simp)]

theorem unlabelled_labels (h : ∀ e ∈ labels, isLabel e) : unlabelled labels = [] :=
  List.filter_eq_nil_iff.mpr fun e he => by simpa using h e he

end

/-- The moved cut of a checkpoint keeps what the stored one kept. -/
theorem redirected_kept (hids : ((before ++ [c]).map SessionRecord.id).Nodup) :
    (unlabelled before).dropWhile
        (fun entry => entry.id ≠ redirected ((rechain before).flush c.id) c) =
      unlabelled (before.dropWhile fun entry => entry.id ≠ c.firstKeptEntryId) := by
  rw [List.map_append, List.nodup_append] at hids
  obtain ⟨hbefore, -, hnew⟩ := hids
  have hc : c.id ∉ before.map SessionRecord.id := fun hmem => hnew _ hmem _ (by simp) rfl
  unfold redirected
  generalize c.firstKeptEntryId = f
  by_cases hmem : f ∈ before.map SessionRecord.id
  · have hne : f ≠ c.id := fun heq => hc (heq ▸ hmem)
    rw [if_neg hne]
    obtain ⟨e, he, rfl⟩ := List.mem_map.mp hmem
    obtain ⟨front, back, rfl⟩ := List.append_of_mem he
    rw [List.map_append, List.map_cons, List.nodup_append, List.nodup_cons] at hbefore
    obtain ⟨-, ⟨hback, -⟩, hdisjoint⟩ := hbefore
    have hfront : ∀ k ∈ e :: back, k.id ∉ front.map SessionRecord.id :=
      fun k hk h => hdisjoint _ h _ (List.mem_map_of_mem hk) rfl
    rw [dropWhile_from (hfront e (by simp)) rfl, unlabelled_append]
    by_cases hl : isLabel e
    · rw [unlabelled_cons_label hl]
      cases hfind : back.find? (!isLabel ·) with
      | none =>
        -- only labels: nothing is kept, and the cut moves to the checkpoint itself
        have hall : ∀ e ∈ back, isLabel e := fun e he => by
          simpa using List.find?_eq_none.mp hfind e he
        rw [flush_last hall hl, Option.getD_some, unlabelled_labels hall, List.append_nil]
        refine dropWhile_ids (ids_unlabelled fun h => hc ?_)
        rw [List.map_append]
        exact List.mem_append_left _ h
      | some k =>
        obtain ⟨hk, labels, rest, rfl, hlabels⟩ := List.find?_eq_some_iff_append.mp hfind
        have hk : ¬ isLabel k := by simpa using hk
        have hlabels : ∀ e ∈ labels, isLabel e := fun e he => by simpa using hlabels e he
        rw [List.map_append, List.map_cons, List.mem_append, List.mem_cons, not_or, not_or] at hback
        rw [flush_label hback.2.2 hl hlabels hk, Option.getD_some,
          unlabelled_append, unlabelled_labels hlabels, List.nil_append, unlabelled_cons hk]
        exact dropWhile_from (ids_unlabelled (hfront k (by simp))) rfl
    · rw [flush_entry (hfront e (by simp)) hback hl, Option.getD_none, unlabelled_cons hl]
      exact dropWhile_from (ids_unlabelled (hfront e (by simp))) rfl
  · have hnone : (if f = c.id then c.id else
        (mapGet ((rechain before).flush c.id) f).getD f) = f := by
      rw [flush_unknown hmem]
      split
      next heq => exact heq.symm
      next => rfl
    rw [hnone, dropWhile_ids (ids_unlabelled hmem), dropWhile_ids hmem]
    rfl

/-! ## Related lists -/

section

variable {α β : Type} {R : α → α → Prop} {xs ys : List α}

theorem rel_dropWhile {p : α → Bool} (h : List.Forall₂ R xs ys) (hp : ∀ x y, R x y → p x = p y) :
    List.Forall₂ R (xs.dropWhile p) (ys.dropWhile p) := by
  induction h with
  | nil => exact .nil
  | @cons x y xs ys hxy hrest ih =>
    rw [List.dropWhile_cons, List.dropWhile_cons, hp x y hxy]
    split
    · exact ih
    · exact .cons hxy hrest

theorem rel_filter_eq {p : α → Bool} (h : List.Forall₂ R xs ys) (hp : ∀ x y, R x y → p x = p y) :
    List.Forall₂ R (xs.filter p) (ys.filter p) :=
  List.rel_filter (fun x y hxy => iff_of_eq (congrArg (· = true) (hp x y hxy))) h

theorem exists_related (h : List.Forall₂ R xs ys) {y : α} (hy : y ∈ ys) : ∃ x ∈ xs, R x y := by
  induction h with
  | nil => cases hy
  | @cons x z xs ys hxz _ ih =>
    rcases List.mem_cons.mp hy with rfl | hy
    · exact ⟨x, List.mem_cons_self, hxz⟩
    · obtain ⟨x', hx', hxy⟩ := ih hy
      exact ⟨x', List.mem_cons_of_mem _ hx', hxy⟩

theorem flatMap_rel {f g : α → List β} (h : List.Forall₂ R xs ys)
    (hfg : ∀ x y, R x y → g y = f x) : ys.flatMap g = xs.flatMap f := by
  induction h with
  | nil => rfl
  | cons hxy _ ih => rw [List.flatMap_cons, List.flatMap_cons, hfg _ _ hxy, ih]

end

/-! ## Entries in context -/

theorem lastCompaction_split (hc : c.type = .compaction) (hafter : ∀ e ∈ after, e.type ≠ .compaction) :
    lastCompaction (before ++ c :: after) = some c := by
  have hnone : after.reverse.find? (fun e => decide (e.type = .compaction)) = none := by
    rw [List.find?_eq_none]
    intro e he
    simpa using hafter e (List.mem_reverse.mp he)
  rw [lastCompaction, List.reverse_append, List.reverse_cons, List.append_assoc, List.find?_append,
    hnone]
  simp [hc]

theorem lastCompaction_eq_none : lastCompaction path = none ↔ ∀ e ∈ path, e.type ≠ .compaction := by
  simp [lastCompaction, List.find?_eq_none]

/-- A branch around its newest checkpoint. -/
theorem split_of_lastCompaction (h : lastCompaction path = some c) :
    ∃ before after, path = before ++ c :: after ∧ c.type = .compaction ∧
      ∀ e ∈ after, e.type ≠ .compaction := by
  obtain ⟨hc, after, before, heq, hafter⟩ := List.find?_eq_some_iff_append.mp h
  refine ⟨before.reverse, after.reverse, ?_, of_decide_eq_true hc, fun e he => ?_⟩
  · rw [← List.reverse_reverse path, heq]
    simp
  · simpa using hafter e (List.mem_reverse.mp he)

theorem findIdx_split (hids : ((before ++ c :: after).map SessionRecord.id).Nodup) :
    (before ++ c :: after).findIdx? (fun e => e.id = c.id) = some before.length := by
  rw [List.findIdx?_append, List.findIdx?_eq_none_iff.mpr, List.findIdx?_cons]
  · simp
  · intro e he
    rw [List.map_append, List.map_cons, List.nodup_append] at hids
    exact decide_eq_false fun heq =>
      hids.2.2 e.id (List.mem_map_of_mem he) c.id (by simp) heq

theorem context_split (hids : ((before ++ c :: after).map SessionRecord.id).Nodup)
    (hc : c.type = .compaction) (hafter : ∀ e ∈ after, e.type ≠ .compaction) :
    buildContextEntries (before ++ c :: after) = c :: keptEntries c before ++ after := by
  rw [buildContextEntries, lastCompaction_split hc hafter]
  dsimp only
  rw [findIdx_split hids]
  simp [List.drop_append]

/-- Only the first entry in context is a checkpoint. -/
theorem tail_context (hids : (path.map SessionRecord.id).Nodup) :
    ∀ e ∈ (buildContextEntries path).drop 1, e.type ≠ .compaction := by
  cases hlast : lastCompaction path with
  | none =>
    intro e he
    rw [buildContextEntries, hlast] at he
    exact lastCompaction_eq_none.mp hlast e (List.mem_of_mem_drop he)
  | some c =>
    obtain ⟨before, after, rfl, hc, hafter⟩ := split_of_lastCompaction hlast
    rw [context_split hids hc hafter]
    intro e he
    rcases List.mem_append.mp he with he | he
    · have := (List.mem_filter.mp he).2
      simp only [Bool.and_eq_true, decide_eq_true_eq] at this
      exact this.1
    · exact hafter e he

theorem not_isLabel_of_compaction (hc : c.type = .compaction) : ¬ isLabel c := by
  simp [isLabel, hc]

theorem unlabelled_filter (p : SessionRecord → Bool) (path : List SessionRecord) :
    unlabelled (path.filter p) = (unlabelled path).filter p := by
  rw [unlabelled, unlabelled, List.filter_filter, List.filter_filter]
  exact List.filter_congr fun _ _ => Bool.and_comm ..

theorem rel_unlabelled {xs ys : List SessionRecord} (h : List.Forall₂ Alike xs ys) :
    List.Forall₂ Alike (unlabelled xs) (unlabelled ys) :=
  rel_filter_eq h fun _ _ hxy => by rw [hxy.isLabel_eq]

theorem unlabelled_rechain (path : List SessionRecord) :
    unlabelled (rechain path).retained = (rechain path).retained := by
  refine unlabelled_eq_self fun e he => ?_
  obtain ⟨e', he', halike⟩ := exists_related (alike_rechain path) he
  rw [halike.isLabel_eq]
  simpa using (List.mem_filter.mp he').2

/-- The fork of a branch around its newest checkpoint. -/
theorem rechain_split (before after : List SessionRecord) (hc : c.type = .compaction) :
    ∃ more, (rechain (before ++ c :: after)).retained = (rechain before).retained ++
        rechained ((rechain before).flush c.id) (rechain before).parentId c :: more ∧
      List.Forall₂ Alike (unlabelled after) more := by
  rw [rechain_append, List.foldl_cons, step_entry (not_isLabel_of_compaction hc)]
  obtain ⟨more, hmore, halike⟩ := foldl_retained after _
  exact ⟨more, by rw [hmore, List.append_assoc]; rfl, halike⟩

theorem rel_type {xs ys : List SessionRecord} (h : List.Forall₂ Alike xs ys)
    (hxs : ∀ e ∈ xs, e.type ≠ .compaction) : ∀ e ∈ ys, e.type ≠ .compaction := by
  intro e he
  obtain ⟨e', he', halike⟩ := exists_related h he
  rw [halike.type_eq]
  exact hxs e' he'

theorem type_of_isLabel (h : isLabel e) : e.type ≠ .compaction := by
  rw [of_decide_eq_true h]
  simp

/-- A fork has the entries of its path in context. -/
theorem context_fork {labels : List SessionRecord} (hids : (path.map SessionRecord.id).Nodup)
    (hfork : (((rechain path).retained ++ labels).map SessionRecord.id).Nodup)
    (hlabels : ∀ e ∈ labels, isLabel e) :
    List.Forall₂ Alike (unlabelled (buildContextEntries path))
      (unlabelled (buildContextEntries ((rechain path).retained ++ labels))) := by
  cases hlast : lastCompaction path with
  | none =>
    have htypes := lastCompaction_eq_none.mp hlast
    have hnone : lastCompaction ((rechain path).retained ++ labels) = none := by
      rw [lastCompaction_eq_none]
      intro e he
      rcases List.mem_append.mp he with he | he
      · exact rel_type (alike_rechain path) (fun e he => htypes e (List.mem_of_mem_filter he)) e he
      · exact type_of_isLabel (hlabels e he)
    rw [buildContextEntries, hlast, buildContextEntries, hnone]
    dsimp only
    rw [unlabelled_append, unlabelled_labels hlabels, List.append_nil, unlabelled_rechain]
    exact alike_rechain path
  | some c =>
    obtain ⟨before, after, rfl, hc, hafter⟩ := split_of_lastCompaction hlast
    obtain ⟨more, hmore, halike⟩ := rechain_split before after hc
    have hids' : ((before ++ [c]).map SessionRecord.id).Nodup :=
      hids.sublist ((List.Sublist.append_left (by simp) before).map _)
    have hmoretypes : ∀ e ∈ more ++ labels, e.type ≠ .compaction := by
      intro e he
      rcases List.mem_append.mp he with he | he
      · exact rel_type halike (fun e he => hafter e (List.mem_of_mem_filter he)) e he
      · exact type_of_isLabel (hlabels e he)
    rw [hmore, List.append_assoc, List.cons_append] at hfork ⊢
    have hcut := alike_rechained ((rechain before).flush c.id) (rechain before).parentId c
    have hkept := firstKeptEntryId_rechained ((rechain before).flush c.id) (rechain before).parentId hc
    rw [context_split hids hc hafter, context_split hfork (hcut.type_eq.trans hc) hmoretypes]
    generalize rechained ((rechain before).flush c.id) (rechain before).parentId c = c' at hcut hkept
    rw [List.cons_append, List.cons_append, unlabelled_cons (not_isLabel_of_compaction hc),
      unlabelled_cons (not_isLabel_of_compaction (hcut.type_eq.trans hc)), unlabelled_append,
      unlabelled_append, unlabelled_append, unlabelled_labels hlabels, List.append_nil]
    refine .cons hcut (List.rel_append ?_ ?_)
    · have hdrop := rel_dropWhile (alike_rechain before)
        (p := fun entry => entry.id ≠ c'.firstKeptEntryId) fun _ _ hxy => by rw [hxy.id_eq]
      rw [hkept, redirected_kept hids', ← hkept] at hdrop
      have hunlabelled := rel_unlabelled hdrop
      rw [keptEntries, keptEntries, unlabelled_filter, unlabelled_filter]
      refine rel_filter_eq ?_ fun _ _ hxy => by rw [hxy.type_eq, hxy.isSystem_eq]
      rwa [unlabelled_unlabelled] at hunlabelled
    · have := rel_unlabelled halike
      rwa [unlabelled_unlabelled] at this

end Compaction
