import ContextCompaction.Core.Cuts
import ContextCompaction.Core.Guards

/-!
# The host's context

The host shows its model the newest checkpoint, the records kept from `firstKeptEntryId` on and all
records behind it, under the edits among them.

* `buildContextEntries`: the records in context.
* `buildSessionProjection`: the messages that each contributes.
* `projected_of_mem`: where the recovery edits pass, a user message in context contributes one.
-/

namespace Compaction

open Js

/-- The properties of a message that a host projects. -/
abbrev AgentMessage := List (Str × Json)

def SessionRecord.firstKeptEntryId (entry : SessionRecord) : Str :=
  strField entry.fields "firstKeptEntryId"

/-- A prompt and tool state of the host. -/
def isSystem (entry : SessionRecord) : Bool :=
  decide (entry.type = .message) && decide (entry.role = lit "system")

/-- The kept records before a checkpoint. -/
def keptEntries (checkpoint : SessionRecord) (before : List SessionRecord) : List SessionRecord :=
  (before.dropWhile fun entry => entry.id ≠ checkpoint.firstKeptEntryId).filter fun entry =>
    entry.type ≠ .compaction && !isSystem entry

/-- The records in context, for the path from the first record to the leaf. -/
def buildContextEntries (path : List SessionRecord) : List SessionRecord :=
  match lastCompaction path with
  | none => path
  | some compaction =>
    match path.findIdx? fun entry => entry.id = compaction.id with
    | none => path
    | some at_ => compaction :: keptEntries compaction (path.take at_) ++ path.drop (at_ + 1)

/-- `new Date(timestamp).getTime()` -/
abbrev GetTime := Str → Number

section

variable (getTime : GetTime)

/-- The messages of one record; custom records are state and contribute none. -/
def sessionEntryToContextMessages (entry : SessionRecord) : List AgentMessage :=
  let stamp := some (Json.num (getTime entry.timestamp))
  match entry.type with
  | .message =>
    let message := entry.message
    -- A session file may hold a message with null or missing content.
    if !(field message "content").all isNull then [message]
    else if entry.role = lit "system" then [mapSet message (lit "content") (.str [])]
    else if entry.role ∈ [lit "user", lit "assistant", lit "toolResult"] then
      [mapSet message (lit "content") (.arr [])]
    else [message]
  | .customMessage =>
    [present [("role", some (.str (lit "custom"))), ("customType", field entry.fields "customType"),
      ("content", some ((field entry.fields "content").getD (.arr []))),
      ("display", field entry.fields "display"), ("details", field entry.fields "details"),
      ("timestamp", stamp)]]
  | .branchSummary =>
    if entry.summary = [] then []
    else
      [present [("role", some (.str (lit "branchSummary"))), ("summary", some (.str entry.summary)),
        ("fromId", field entry.fields "fromId"), ("timestamp", stamp)]]
  | .compaction =>
    ((field entry.fields "systemMessage").bind Json.obj?).toList ++
      [present [("role", some (.str (lit "compactionSummary"))), ("summary", some (.str entry.summary)),
        ("tokensBefore", field entry.fields "tokensBefore"), ("timestamp", stamp)]]
  | _ => []

/-- A message whose content an edit replaces. -/
def replaceContent (replacement : Json) (message : AgentMessage) : AgentMessage :=
  let role := strField message "role"
  let content := (replacement.get? (lit "content")).getD .null
  if role = lit "assistant" ∨ role = lit "toolResult" then
    mapSet message (lit "content") (content.str?.elim content fun text =>
      .arr [.obj [(lit "type", .str (lit "text")), (lit "text", .str text)]])
  else if role = lit "user" ∨ role = lit "custom" then mapSet message (lit "content") content
  else message

/-- One record's messages under an edit; without a replacement it contributes none. -/
def projectContextEntry (entry : SessionRecord) (edit : Option SessionRecord) : List AgentMessage :=
  match edit.map fun edit => (field edit.fields "replacement").getD .null with
  | none => sessionEntryToContextMessages getTime entry
  | some .null => []
  | some replacement => (sessionEntryToContextMessages getTime entry).map (replaceContent replacement)

/-- The latest edit in context of each record. -/
def contextEdits (entries : List SessionRecord) : List (Str × SessionRecord) :=
  mapOf ((entries.filter fun entry => entry.type = .contextEdit).map fun entry =>
    (strField entry.fields "targetId", entry))

/-- The context, with the record that each message comes from. Only the newest checkpoint, at index
zero, contributes a summary. -/
def buildSessionProjection (path : List SessionRecord) : List (ProjectedRecord AgentMessage) :=
  let entries := buildContextEntries path
  entries.zipIdx.map fun e =>
    ⟨e.1, if e.1.type = .compaction ∧ 0 < e.2 then []
      else projectContextEntry getTime e.1 (mapGet (contextEdits entries) e.1.id)⟩

end

/-! ## User messages in context -/

/-- The message that the walk over the edits remembers is one that it has passed. -/
theorem recoveryWalk_mem {read : List SessionRecord} {last : Option SessionRecord}
    (h : read.foldlM recoveryStep none = .ok last) : ∀ m ∈ last, m ∈ read := by
  induction read using List.reverseRecOn generalizing last with
  | nil =>
    obtain rfl := Except.ok.inj h
    simp
  | append_singleton read entry ih =>
    intro m hm
    rw [List.foldlM_append] at h
    obtain ⟨before, hbefore, hstep⟩ := bind_ok.mp h
    rw [List.foldlM_cons] at hstep
    obtain ⟨after, hafter, hpure⟩ := bind_ok.mp hstep
    obtain rfl := Except.ok.inj hpure
    have hkeep : ∀ m ∈ before, m ∈ read ++ [entry] := fun m hm =>
      List.mem_append_left _ (ih hbefore m hm)
    unfold recoveryStep at hafter
    split at hafter
    · split_ifs at hafter
      obtain rfl := Except.ok.inj hafter
      exact hkeep m hm
    · obtain rfl := Except.ok.inj hafter
      obtain rfl := Option.some.inj hm
      exact List.mem_append_right _ (List.mem_singleton_self _)
    · obtain rfl := Except.ok.inj hafter
      cases hm
    · obtain rfl := Except.ok.inj hafter
      exact hkeep m hm

/-- The walk accepts an edit that omits a failed response among the records since some point where no
message was remembered. -/
theorem target_of_walk {read more : List SessionRecord} {edit : SessionRecord}
    {last : Option SessionRecord}
    (h : (read ++ edit :: more).foldlM recoveryStep none = .ok last)
    (htype : edit.type = .contextEdit) :
    ∃ target ∈ read, strField? edit.fields "targetId" = some target.id ∧
      failedResponse target = true := by
  rw [List.foldlM_append] at h
  obtain ⟨before, hbefore, hstep⟩ := bind_ok.mp h
  rw [List.foldlM_cons] at hstep
  obtain ⟨after, hafter, -⟩ := bind_ok.mp hstep
  unfold recoveryStep at hafter
  simp only [htype] at hafter
  split_ifs at hafter with hok
  simp only [Bool.and_eq_true, Option.any_eq_true, decide_eq_true_eq] at hok
  obtain ⟨-, target, htarget, hid, hfailed⟩ := hok
  exact ⟨target, recoveryWalk_mem hbefore target htarget, hid, hfailed⟩

/-- An accepted edit omits a failed response of the branch. -/
theorem target_of_recoveryEdits {branch : List SessionRecord}
    (h : assertRecoveryEdits branch = .ok ()) {edit : SessionRecord} (hedit : edit ∈ branch)
    (htype : edit.type = .contextEdit) :
    ∃ target ∈ branch, strField? edit.fields "targetId" = some target.id ∧
      failedResponse target = true := by
  obtain ⟨last, hrun, -⟩ := map_ok.mp h
  obtain ⟨read, more, rfl⟩ := List.append_of_mem hedit
  obtain ⟨target, htarget, hid, hfailed⟩ := target_of_walk hrun htype
  exact ⟨target, List.mem_append_left _ htarget, hid, hfailed⟩

theorem mem_of_mem_context {path : List SessionRecord} {entry : SessionRecord}
    (h : entry ∈ buildContextEntries path) : entry ∈ path := by
  unfold buildContextEntries at h
  split at h
  · exact h
  · rename_i compaction hlast
    split at h
    · exact h
    · rcases List.mem_append.mp h with h | h
      · rcases List.mem_cons.mp h with rfl | h
        · exact List.mem_reverse.mp (List.mem_of_find?_eq_some hlast)
        · exact List.mem_of_mem_take ((List.dropWhile_sublist _).mem (List.mem_filter.mp h).1)
      · exact List.mem_of_mem_drop h

theorem isUser_type {entry : SessionRecord} (h : entry.isUser = true) : entry.type = .message := by
  simp only [SessionRecord.isUser, Bool.and_eq_true, decide_eq_true_eq] at h
  exact h.1

theorem isUser_role {entry : SessionRecord} (h : entry.isUser = true) : entry.role = lit "user" := by
  simp only [SessionRecord.isUser, Bool.and_eq_true, decide_eq_true_eq] at h
  exact h.2

/-- No accepted edit touches a user message. -/
theorem contextEdits_user {path : List SessionRecord} (hnodup : (path.map SessionRecord.id).Nodup)
    (hedits : assertRecoveryEdits path = .ok ()) {user : SessionRecord} (hmem : user ∈ path)
    (huser : user.isUser = true) :
    mapGet (contextEdits (buildContextEntries path)) user.id = none := by
  by_contra hsome
  obtain ⟨edit, hget⟩ := Option.ne_none_iff_exists'.mp hsome
  rw [contextEdits, mapGet_mapOf] at hget
  obtain ⟨edit', hedit, heq⟩ := List.mem_map.mp (List.mem_reverse.mp (mem_of_mapGet hget))
  obtain ⟨hid, rfl⟩ := Prod.mk.inj heq
  obtain ⟨hcontext, htype⟩ := List.mem_filter.mp hedit
  obtain ⟨target, htarget, htid, hfailed⟩ :=
    target_of_recoveryEdits hedits (mem_of_mem_context hcontext) (of_decide_eq_true htype)
  have hsame : target.id = user.id := by
    rw [← hid, strField, htid, Option.getD_some]
  obtain rfl := List.inj_on_of_nodup_map hnodup htarget hmem hsame
  simp only [failedResponse, Bool.and_eq_true, decide_eq_true_eq] at hfailed
  rw [isUser_role huser] at hfailed
  exact absurd (lit_inj.mp hfailed.1.1.2) (by decide)

/-- A user message in context contributes a message. -/
theorem projected_of_mem (getTime : GetTime) {path : List SessionRecord}
    (hnodup : (path.map SessionRecord.id).Nodup) (hedits : assertRecoveryEdits path = .ok ())
    {user : SessionRecord} (hmem : user ∈ buildContextEntries path) (huser : user.isUser = true) :
    ∃ e ∈ buildSessionProjection getTime path, e.sourceEntry = user ∧ e.messages ≠ [] := by
  obtain ⟨k, hk⟩ := List.getElem?_of_mem hmem
  have hat : (user, k) ∈ (buildContextEntries path).zipIdx := List.mem_zipIdx_iff_getElem?.mpr hk
  refine ⟨_, List.mem_map.mpr ⟨(user, k), hat, rfl⟩, rfl, ?_⟩
  simp only [isUser_type huser, reduceCtorEq, false_and, ↓reduceIte]
  rw [contextEdits_user hnodup hedits (mem_of_mem_context hmem) huser, projectContextEntry,
    Option.map_none, sessionEntryToContextMessages, isUser_type huser]
  simp only
  split_ifs <;> exact List.cons_ne_nil _ _

end Compaction
