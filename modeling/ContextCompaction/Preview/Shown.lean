import ContextCompaction.Core.CutLaws
import ContextCompaction.Preview.Compact
import ContextCompaction.Preview.ForkLaws

/-!
# What a cut shows

`compact()` predicts the context behind a checkpoint from the old one: the projected messages of the
records from the cut on. The host rebuilds it from the branch and the new checkpoint.

* `UsedCut`: the cuts that a compaction takes.
* `context_kept`: up to prompts and checkpoints, the context of a branch is one of its tails.
* `retainedFrom_shown`: the prediction holds, and what is appended behind it only adds to it.
-/

namespace Compaction

open Js

variable {getTime : GetTime} {branch more path : List SessionRecord} {entry c : SessionRecord}
  {start : Nat}

/-! ## Cuts -/

/-- No checkpoint behind a record has released it. -/
def KeptByAll (branch : List SessionRecord) (start : Nat) : Prop :=
  ∀ p checkpoint, branch[p]? = some checkpoint → checkpoint.type = .compaction → start ≤ p →
    ∃ k ≤ start, branch[k]?.map SessionRecord.id = some checkpoint.firstKeptEntryId

/-- Where a compaction may cut. -/
inductive UsedCut (getTime : GetTime) (branch : List SessionRecord) : Nat → Prop where
  | recent {ν : Type} [Zero ν] [Add ν] [LE ν] [DecidableLE ν] (estimateTokens : AgentMessage → ν)
      (keepRecentTokens : ν) {start : Nat} (h : chooseCut estimateTokens branch keepRecentTokens
        (buildSessionProjection getTime branch) = .ok start) : UsedCut getTime branch start
  | covered {coveredIndex cut start : Nat}
      (h : prefixCut branch (buildSessionProjection getTime branch) coveredIndex cut = some start) :
      UsedCut getTime branch start
  | interrupted {start : Nat} (h : interruptedTurnStart branch = .ok (some start))
      (hkept : KeptByAll branch start) : UsedCut getTime branch start
  | none : UsedCut getTime branch branch.length

/-- No checkpoint behind a used cut has released its record. -/
theorem UsedCut.kept (h : UsedCut getTime branch start) : KeptByAll branch start := by
  have hturn : TurnStart branch (buildSessionProjection getTime branch) start → KeptByAll branch start :=
    fun hturn p checkpoint hp hc hle => absurd (hturn.behind p checkpoint hp hc) (by omega)
  have hnone : KeptByAll branch branch.length := fun p checkpoint hp _ hle => by
    have := (List.getElem?_eq_some_iff.mp hp).1
    omega
  cases h with
  | recent estimateTokens keepRecentTokens h =>
    by_cases hkeep : keepRecentTokens ≤ 0
    · rw [chooseCut, if_pos hkeep] at h
      obtain rfl := Except.ok.inj h
      exact hnone
    · exact hturn (chooseCut_mem hkeep h)
  | covered h => exact hturn (prefixCut_mem h).1
  | interrupted h hkept => exact hkept
  | none => exact hnone

/-! ## The records that stay -/

/-- Whether a record outlives the next checkpoint. -/
def outlives (entry : SessionRecord) : Bool := entry.type ≠ .compaction && !isSystem entry

theorem outlives_edit (h : entry.type = .contextEdit) : outlives entry = true := by
  simp [outlives, isSystem, h]

theorem outlives_compaction (h : entry.type = .compaction) : outlives entry = false := by
  simp [outlives, h]

theorem keptEntries_eq (c : SessionRecord) (before : List SessionRecord) : keptEntries c before =
    (before.dropWhile fun entry => entry.id ≠ c.firstKeptEntryId).filter outlives := rfl

/-- Of one element, the records from it on are the rest of the list. -/
theorem dropWhile_eq_drop (hids : (branch.map SessionRecord.id).Nodup)
    (h : branch[start]? = some entry) :
    branch.dropWhile (fun e => e.id ≠ entry.id) = branch.drop start := by
  obtain ⟨hlt, hat⟩ := List.getElem?_eq_some_iff.mp h
  have hrest : branch.drop start = entry :: branch.drop (start + 1) := by
    rw [List.drop_eq_getElem_cons hlt, hat]
  have hsplit : branch.take start ++ entry :: branch.drop (start + 1) = branch := by
    rw [← hrest, List.take_append_drop]
  have hnew : entry.id ∉ (branch.take start).map SessionRecord.id := by
    rw [← hsplit, List.map_append, List.map_cons, List.nodup_append] at hids
    exact fun hmem => hids.2.2 _ hmem _ List.mem_cons_self rfl
  calc branch.dropWhile (fun e => e.id ≠ entry.id)
      = (branch.take start ++ entry :: branch.drop (start + 1)).dropWhile (fun e => e.id ≠ entry.id) := by
        rw [hsplit]
    _ = entry :: branch.drop (start + 1) := dropWhile_from hnew rfl
    _ = branch.drop start := hrest.symm

/-- Up to prompts and checkpoints the context of a branch is a tail of it, from where every checkpoint
behind the cut keeps at the latest. -/
theorem context_kept (hids : (branch.map SessionRecord.id).Nodup) (hkept : KeptByAll branch start) :
    ∃ k ≤ start, (buildContextEntries branch).filter outlives = (branch.drop k).filter outlives := by
  cases hlast : lastCompaction branch with
  | none =>
    refine ⟨0, Nat.zero_le _, ?_⟩
    rw [buildContextEntries, hlast, List.drop_zero]
  | some c =>
    obtain ⟨before, after, rfl, hc, hafter⟩ := split_of_lastCompaction hlast
    have htail : ∀ k ≤ before.length,
        ((before ++ c :: after).drop k).filter outlives =
          (before.drop k).filter outlives ++ after.filter outlives := by
      intro k hk
      rw [List.drop_append_of_le_length hk, List.filter_append,
        List.filter_cons_of_neg (by rw [outlives_compaction hc]; decide)]
    have hcontext : (buildContextEntries (before ++ c :: after)).filter outlives =
        (before.dropWhile fun e => e.id ≠ c.firstKeptEntryId).filter outlives ++
          after.filter outlives := by
      rw [context_split hids hc hafter, List.cons_append,
        List.filter_cons_of_neg (by rw [outlives_compaction hc]; decide), List.filter_append,
        keptEntries_eq, List.filter_filter]
      simp only [Bool.and_self]
    rw [hcontext]
    have hnodup : (before.map SessionRecord.id).Nodup :=
      hids.sublist ((List.sublist_append_left _ _).map _)
    by_cases hmem : c.firstKeptEntryId ∈ before.map SessionRecord.id
    · obtain ⟨first, hfirst, hid⟩ := List.mem_map.mp hmem
      obtain ⟨k, hk⟩ := List.getElem?_of_mem hfirst
      have hlt := (List.getElem?_eq_some_iff.mp hk).1
      refine ⟨k, ?_, ?_⟩
      · -- A checkpoint behind the cut keeps from the cut on, so its first record is not behind it.
        by_cases hle : start ≤ before.length
        · obtain ⟨j, hj, hat⟩ := hkept before.length c (by simp) hc hle
          obtain ⟨e, he, heid⟩ := Option.map_eq_some_iff.mp hat
          have hk' : (before ++ c :: after)[k]? = some first := by
            rw [List.getElem?_append_left hlt, hk]
          have hj' := findIdx?_of_nodup hids he
          rw [heid, ← hid, findIdx?_of_nodup hids hk'] at hj'
          obtain rfl := Option.some.inj hj'
          exact hj
        · omega
      · rw [← hid, dropWhile_eq_drop hnodup hk, htail k (Nat.le_of_lt hlt)]
    · -- Nothing before the checkpoint is kept.
      rw [dropWhile_ids hmem]
      by_cases hle : start ≤ before.length
      · obtain ⟨j, hj, hat⟩ := hkept before.length c (by simp) hc hle
        obtain ⟨e, he, heid⟩ := Option.map_eq_some_iff.mp hat
        have hjlen : ¬ j < before.length := fun hjlt => by
          rw [List.getElem?_append_left hjlt] at he
          exact hmem (heid ▸ List.mem_map_of_mem (List.mem_of_getElem? he))
        refine ⟨before.length, by omega, ?_⟩
        rw [htail _ (Nat.le_refl _), List.drop_length]
      · refine ⟨before.length, by omega, ?_⟩
        rw [htail _ (Nat.le_refl _), List.drop_length]

/-- A tail begins with what the later one leaves out. -/
theorem drop_split (branch : List SessionRecord) {k : Nat} (hk : k ≤ start) :
    branch.drop k = (branch.drop k).take (start - k) ++ branch.drop start := by
  rw [show branch.drop start = (branch.drop k).drop (start - k) by
    rw [List.drop_drop, Nat.add_sub_cancel' hk], List.take_append_drop]

/-! ## Edits -/

/-- Some edit among the records names an ID. -/
def Targets (entries : List SessionRecord) (id : Str) : Prop :=
  ∃ edit ∈ entries, edit.type = .contextEdit ∧ strField edit.fields "targetId" = id

instance (entries : List SessionRecord) (id : Str) : Decidable (Targets entries id) :=
  List.decidableBEx _ entries

theorem edits_none {entries : List SessionRecord} {id : Str} (h : ¬ Targets entries id) :
    mapGet (contextEdits entries) id = none := by
  rw [contextEdits, mapGet_mapOf, mapGet_eq_none]
  intro hmem
  obtain ⟨⟨_, edit⟩, he, rfl⟩ := List.mem_map.mp hmem
  obtain ⟨edit, hedit, heq⟩ := List.mem_map.mp (List.mem_reverse.mp he)
  obtain ⟨hin, htype⟩ := List.mem_filter.mp hedit
  exact h ⟨edit, hin, of_decide_eq_true htype, (Prod.mk.inj heq).1⟩

/-- The latest edit counts. -/
theorem edits_append (entries later : List SessionRecord) (id : Str) :
    mapGet (contextEdits (entries ++ later)) id =
      (mapGet (contextEdits later) id).or (mapGet (contextEdits entries) id) := by
  simp only [contextEdits, List.filter_append, List.map_append, mapGet_mapOf, List.reverse_append,
    mapGet_append]

theorem edits_outlives (entries : List SessionRecord) :
    contextEdits (entries.filter outlives) = contextEdits entries := by
  have hedit : ∀ e ∈ entries, (decide (e.type = .contextEdit) && outlives e) =
      decide (e.type = .contextEdit) := by
    intro e _
    by_cases h : e.type = .contextEdit
    · simp [h, outlives_edit h]
    · simp [h]
  rw [contextEdits, contextEdits, List.filter_filter, List.filter_congr hedit]

/-- An accepted edit names a record before it. -/
theorem mem_of_targets {read : List SessionRecord} (more : List SessionRecord) {id : Str}
    (hedits : assertRecoveryEdits (read ++ more) = .ok ()) (h : Targets read id) :
    id ∈ read.map SessionRecord.id := by
  obtain ⟨edit, hedit, htype, rfl⟩ := h
  obtain ⟨front, back, rfl⟩ := List.append_of_mem hedit
  rw [List.append_assoc, List.cons_append] at hedits
  obtain ⟨last, hwalk, -⟩ := map_ok.mp hedits
  obtain ⟨target, htarget, hid, -⟩ := target_of_walk hwalk htype
  rw [strField, hid, List.map_append]
  exact List.mem_append_left _ (List.mem_map_of_mem htarget)

/-- What an edit behind a new checkpoint may name: a record behind the checkpoint. -/
theorem mem_of_targets_behind {id : Str} (hc : c.type = .compaction)
    (hedits : assertRecoveryEdits (branch ++ c :: more) = .ok ()) (h : Targets more id) :
    id ∈ more.map SessionRecord.id := by
  obtain ⟨last, hwalk, -⟩ := map_ok.mp hedits
  rw [List.foldlM_append] at hwalk
  obtain ⟨before, -, hwalk⟩ := bind_ok.mp hwalk
  rw [List.foldlM_cons] at hwalk
  obtain ⟨forgot, hforgot, hwalk⟩ := bind_ok.mp hwalk
  -- The checkpoint makes the walk forget the last message.
  simp only [recoveryStep, hc, Except.ok.injEq] at hforgot
  subst hforgot
  have hmore : assertRecoveryEdits (more ++ []) = .ok () :=
    map_ok.mpr ⟨last, by rwa [List.append_nil], rfl⟩
  exact mem_of_targets [] hmore h

theorem Targets.mono {entries later : List SessionRecord} {id : Str} (h : Targets entries id)
    (hle : entries ⊆ later) : Targets later id := by
  obtain ⟨edit, hedit, htype, hid⟩ := h
  exact ⟨edit, hle hedit, htype, hid⟩

/-- The edits of the records behind a cut are those among them. -/
theorem edits_tail (hids : (branch.map SessionRecord.id).Nodup)
    (hedits : assertRecoveryEdits branch = .ok ()) (hkept : KeptByAll branch start)
    (hentry : entry ∈ branch.drop start) :
    mapGet (contextEdits (buildContextEntries branch)) entry.id =
      mapGet (contextEdits (branch.drop start)) entry.id := by
  obtain ⟨k, hk, hcontext⟩ := context_kept hids hkept
  have hsplit := drop_split branch hk
  have hbefore : (branch.drop k).take (start - k) ⊆ branch.take start := by
    rw [List.take_drop, Nat.add_sub_cancel' hk]
    exact List.drop_subset _ _
  have hnone : ¬ Targets ((branch.drop k).take (start - k)) entry.id := by
    intro htargets
    have hmem := mem_of_targets (branch.drop start)
      (by rwa [List.take_append_drop]) (htargets.mono hbefore)
    rw [← List.take_append_drop start branch, List.map_append, List.nodup_append] at hids
    exact hids.2.2 _ hmem _ (List.mem_map_of_mem hentry) rfl
  rw [← edits_outlives, hcontext, edits_outlives, hsplit, edits_append, edits_none hnone, Option.or_none]

/-! ## Projected messages -/

/-- One record's messages under the edits among some records. -/
def shown (getTime : GetTime) (entries : List SessionRecord) (entry : SessionRecord) :
    List AgentMessage :=
  projectContextEntry getTime entry (mapGet (contextEdits entries) entry.id)

/-- The projection shows each entry of the context by itself. -/
theorem buildSessionProjection_eq (hids : (path.map SessionRecord.id).Nodup) :
    buildSessionProjection getTime path = (buildContextEntries path).map fun entry =>
      ⟨entry, shown getTime (buildContextEntries path) entry⟩ := by
  have htail := tail_context hids
  unfold buildSessionProjection
  generalize buildContextEntries path = entries at htail ⊢
  dsimp only
  have hmap : entries.zipIdx.map (fun e => (⟨e.1, if e.1.type = .compaction ∧ 0 < e.2 then []
      else projectContextEntry getTime e.1 (mapGet (contextEdits entries) e.1.id)⟩ :
        ProjectedRecord AgentMessage)) =
      entries.zipIdx.map ((fun entry => ⟨entry, shown getTime entries entry⟩) ∘ Prod.fst) := by
    refine List.map_congr_left fun e he => ?_
    have hnone : ¬ (e.1.type = .compaction ∧ 0 < e.2) := by
      rintro ⟨hc, hpos⟩
      have hat := List.mem_zipIdx_iff_getElem?.mp he
      refine htail e.1 (List.mem_of_getElem? (i := e.2 - 1) ?_) hc
      rw [List.getElem?_drop, Nat.add_sub_cancel' hpos, hat]
    rw [if_neg hnone]
    rfl
  rw [hmap, ← List.map_map, List.zipIdx_map_fst]

def isSystemMessage (message : AgentMessage) : Bool :=
  decide (strField message "role" = lit "system")

def isSummaryMessage (message : AgentMessage) : Bool :=
  decide (strField message "role" = lit "compactionSummary")

theorem role_mapSet_content (message : AgentMessage) (content : Json) :
    strField (mapSet message (lit "content") content) "role" = strField message "role" := by
  rw [strField, strField?, field_mapSet_ne (by decide)]
  rfl

theorem role_replaceContent (replacement : Json) (message : AgentMessage) :
    strField (replaceContent replacement message) "role" = strField message "role" := by
  unfold replaceContent
  dsimp only
  split_ifs
  · exact role_mapSet_content ..
  · exact role_mapSet_content ..
  · rfl

/-- Who says a projected message. -/
theorem role_sessionEntry {message : AgentMessage} (hc : entry.type ≠ .compaction)
    (h : message ∈ sessionEntryToContextMessages getTime entry) :
    (entry.type = .message ∧ strField message "role" = entry.role) ∨
      (entry.type ≠ .message ∧ (strField message "role" = lit "custom" ∨
        strField message "role" = lit "branchSummary")) := by
  unfold sessionEntryToContextMessages at h
  cases htype : entry.type with
  | message =>
    refine .inl ⟨rfl, ?_⟩
    simp only [htype] at h
    split_ifs at h <;> obtain rfl := List.mem_singleton.mp h
    · rfl
    · exact role_mapSet_content ..
    · exact role_mapSet_content ..
    · rfl
  | customMessage =>
    simp only [htype] at h
    obtain rfl := List.mem_singleton.mp h
    exact .inr ⟨nofun, .inl (by simp [strField, strField?, field, present, Json.str?])⟩
  | branchSummary =>
    simp only [htype] at h
    split_ifs at h
    · cases h
    · obtain rfl := List.mem_singleton.mp h
      exact .inr ⟨nofun, .inr (by simp [strField, strField?, field, present, Json.str?])⟩
  | compaction => exact absurd htype hc
  | custom => simp [htype] at h
  | contextEdit => simp [htype] at h
  | other name => simp [htype] at h

theorem role_projectContextEntry {edit : Option SessionRecord} {message : AgentMessage}
    (h : message ∈ projectContextEntry getTime entry edit) :
    ∃ shown ∈ sessionEntryToContextMessages getTime entry,
      strField message "role" = strField shown "role" := by
  unfold projectContextEntry at h
  split at h
  · exact ⟨message, h, rfl⟩
  · cases h
  · obtain ⟨shown, hshown, rfl⟩ := List.mem_map.mp h
    exact ⟨shown, hshown, role_replaceContent ..⟩

theorem system_of_shown {entries : List SessionRecord} (h : isSystem entry = true) :
    ∀ message ∈ shown getTime entries entry, isSystemMessage message = true := by
  intro message hmessage
  simp only [isSystem, Bool.and_eq_true, decide_eq_true_eq] at h
  obtain ⟨original, horiginal, hrole⟩ := role_projectContextEntry hmessage
  rw [isSystemMessage, decide_eq_true_eq, hrole]
  rcases role_sessionEntry (by simp [h.1]) horiginal with ⟨-, hsame⟩ | ⟨hne, -⟩
  · rw [hsame, h.2]
  · exact absurd h.1 hne

theorem not_system_of_shown {entries : List SessionRecord} (h : outlives entry = true) :
    ∀ message ∈ shown getTime entries entry, isSystemMessage message = false := by
  intro message hmessage
  simp only [outlives, isSystem, Bool.and_eq_true, decide_eq_true_eq, Bool.not_eq_true',
    Bool.and_eq_false_iff, decide_eq_false_iff_not] at h
  obtain ⟨original, horiginal, hrole⟩ := role_projectContextEntry hmessage
  rw [isSystemMessage, decide_eq_false_iff_not, hrole]
  rcases role_sessionEntry h.1 horiginal with ⟨htype, hsame⟩ | ⟨-, hsame | hsame⟩
  · rw [hsame]
    exact h.2.resolve_left (not_not_intro htype)
  · rw [hsame, lit_inj]
    decide
  · rw [hsame, lit_inj]
    decide

theorem not_summary_of_shown {entries : List SessionRecord} (h : outlives entry = true)
    (hrole : entry.type = .message → entry.role ≠ lit "compactionSummary") :
    ∀ message ∈ shown getTime entries entry, isSummaryMessage message = false := by
  intro message hmessage
  simp only [outlives, Bool.and_eq_true, decide_eq_true_eq] at h
  obtain ⟨original, horiginal, heq⟩ := role_projectContextEntry hmessage
  rw [isSummaryMessage, decide_eq_false_iff_not, heq]
  rcases role_sessionEntry h.1 horiginal with ⟨htype, hsame⟩ | ⟨-, hsame | hsame⟩
  · rw [hsame]
    exact hrole htype
  · rw [hsame, lit_inj]
    decide
  · rw [hsame, lit_inj]
    decide

/-- Without its system messages a context is that of the records that are no prompts. -/
theorem shown_filter {entries records : List SessionRecord} (h : ∀ e ∈ records, e.type ≠ .compaction) :
    (records.flatMap (shown getTime entries)).filter (!isSystemMessage ·) =
      (records.filter outlives).flatMap (shown getTime entries) := by
  induction records with
  | nil => rfl
  | cons e records ih =>
    rw [List.flatMap_cons, List.filter_append, ih fun e he => h e (List.mem_cons_of_mem _ he)]
    have htype := h e List.mem_cons_self
    by_cases hs : isSystem e = true
    · have hout : ¬ outlives e = true := by simp [outlives, hs]
      rw [List.filter_cons_of_neg hout, List.filter_eq_nil_iff.mpr fun m hm => by
        simp [system_of_shown hs m hm], List.nil_append]
    · have hout : outlives e = true := by simp [outlives, hs, htype]
      rw [List.filter_cons_of_pos hout, List.flatMap_cons, List.filter_eq_self.mpr fun m hm => by
        simp [not_system_of_shown hout m hm]]

/-! ## The prediction -/

/-- The checkpoint that is committed for a cut. -/
structure CommitsFrom (branch : List SessionRecord) (start : Nat) (c : SessionRecord) : Prop where
  type : c.type = .compaction
  fresh : c.id ∉ branch.map SessionRecord.id
  firstKept : c.firstKeptEntryId = (branch[start]?.map SessionRecord.id).getD CONTEXT_KEEP_NONE
  /-- The prompt and tools that the host captures. -/
  system : ∀ message, (field c.fields "systemMessage").bind Json.obj? = some message →
    isSystemMessage message = true

/-- What is retained is what the host shows beside the new checkpoint. -/
def PredictsShown (getTime : GetTime) (branch : List SessionRecord) (start : Nat)
    (c : SessionRecord) : Prop :=
  (retainedFrom (buildSessionProjection getTime branch) branch start).filter (!isSystemMessage ·) =
    ((buildSessionProjection getTime (branch ++ [c])).flatMap ProjectedRecord.messages).filter
      fun message => !isSystemMessage message && !isSummaryMessage message

/-- Appended records add their own projection to the context. -/
def OnlyAdds (getTime : GetTime) (branch : List SessionRecord) (c : SessionRecord)
    (more : List SessionRecord) : Prop :=
  buildSessionProjection getTime (branch ++ c :: more) =
    buildSessionProjection getTime (branch ++ [c]) ++ buildSessionProjection getTime more

theorem nodup_concat (hids : (branch.map SessionRecord.id).Nodup)
    (hfresh : c.id ∉ branch.map SessionRecord.id) : ((branch ++ [c]).map SessionRecord.id).Nodup := by
  rw [List.map_append, List.map_singleton]
  exact hids.append (List.nodup_singleton _) (List.disjoint_singleton.mpr hfresh)

theorem keptEntries_commit (hids : (branch.map SessionRecord.id).Nodup)
    (hnone : branch.length ≤ start → CONTEXT_KEEP_NONE ∉ branch.map SessionRecord.id)
    (hc : CommitsFrom branch start c) :
    keptEntries c branch = (branch.drop start).filter outlives := by
  rw [keptEntries_eq, hc.firstKept]
  cases hat : branch[start]? with
  | none =>
    have hle := List.getElem?_eq_none_iff.mp hat
    rw [Option.map_none, Option.getD_none, dropWhile_ids (hnone hle), List.drop_of_length_le hle]
  | some first => rw [Option.map_some, Option.getD_some, dropWhile_eq_drop hids hat]

/-- The context behind a commit. -/
theorem context_commit (hids : (branch.map SessionRecord.id).Nodup)
    (hnone : branch.length ≤ start → CONTEXT_KEEP_NONE ∉ branch.map SessionRecord.id)
    (hc : CommitsFrom branch start c) :
    buildContextEntries (branch ++ [c]) = c :: (branch.drop start).filter outlives := by
  rw [context_split (nodup_concat hids hc.fresh) hc.type (by simp), List.append_nil,
    keptEntries_commit hids hnone hc]

/-- Where the IDs are distinct, a tail is found by its IDs. -/
theorem filter_tail (hids : (branch.map SessionRecord.id).Nodup) {k : Nat} (hk : k ≤ start) :
    (branch.drop k).filter (fun e => decide (e.id ∈ (branch.drop start).map SessionRecord.id)) =
      branch.drop start := by
  have hsplit := drop_split branch hk
  have hnodup : ((branch.drop k).map SessionRecord.id).Nodup :=
    hids.sublist ((List.drop_sublist _ _).map _)
  rw [hsplit, List.map_append, List.nodup_append] at hnodup
  conv_lhs => rw [hsplit]
  rw [List.filter_append, List.filter_eq_nil_iff.mpr, List.nil_append, List.filter_eq_self.mpr]
  · exact fun e he => decide_eq_true (List.mem_map_of_mem he)
  · intro e he hmem
    exact hnodup.2.2 _ (List.mem_map_of_mem he) _ (of_decide_eq_true hmem) rfl

/-- The old projection, cut. -/
theorem retainedFrom_eq (hids : (branch.map SessionRecord.id).Nodup)
    (hedits : assertRecoveryEdits branch = .ok ()) (hkept : KeptByAll branch start) :
    (retainedFrom (buildSessionProjection getTime branch) branch start).filter (!isSystemMessage ·) =
      ((branch.drop start).filter outlives).flatMap (shown getTime (branch.drop start)) := by
  obtain ⟨k, hk, hcontext⟩ := context_kept hids hkept
  have hretained : retainedFrom (buildSessionProjection getTime branch) branch start =
      ((buildContextEntries branch).filter fun e => e.type ≠ .compaction &&
        decide (e.id ∈ (branch.drop start).map SessionRecord.id)).flatMap
          (shown getTime (buildContextEntries branch)) := by
    rw [retainedFrom, buildSessionProjection_eq hids, List.filter_map, List.flatMap_map]
    rfl
  rw [hretained, shown_filter fun e he => by
    have := (List.mem_filter.mp he).2
    simp only [Bool.and_eq_true, decide_eq_true_eq] at this
    exact this.1]
  have htail : ((buildContextEntries branch).filter fun e => e.type ≠ .compaction &&
      decide (e.id ∈ (branch.drop start).map SessionRecord.id)).filter outlives =
      (branch.drop start).filter outlives := by
    have hcomm : ∀ e ∈ buildContextEntries branch, (outlives e && (decide (e.type ≠ .compaction) &&
        decide (e.id ∈ (branch.drop start).map SessionRecord.id))) =
        (decide (e.id ∈ (branch.drop start).map SessionRecord.id) && outlives e) := by
      intro e _
      by_cases h : e.type = .compaction
      · simp [outlives, h]
      · simp [h, Bool.and_comm]
    rw [List.filter_filter, List.filter_congr hcomm, ← List.filter_filter, hcontext, List.filter_comm,
      filter_tail hids hk]
  rw [htail]
  refine List.flatMap_congr fun e he => ?_
  rw [shown, edits_tail hids hedits hkept (List.mem_of_mem_filter he), shown]

/-- No edit of an accepted branch names the checkpoint that is committed behind it. -/
theorem edits_commit (hedits : assertRecoveryEdits branch = .ok ())
    (hfresh : c.id ∉ branch.map SessionRecord.id) {entries : List SessionRecord}
    (hentries : entries ⊆ branch) : mapGet (contextEdits entries) c.id = none := by
  refine edits_none fun htargets => hfresh ?_
  exact mem_of_targets [] (by rwa [List.append_nil]) (htargets.mono hentries)

/-- The checkpoint's own messages are its summary and the captured prompt. -/
theorem shown_checkpoint (hc : CommitsFrom branch start c) {entries : List SessionRecord}
    (hedit : mapGet (contextEdits entries) c.id = none) :
    (shown getTime entries c).filter
      (fun message => !isSystemMessage message && !isSummaryMessage message) = [] := by
  rw [List.filter_eq_nil_iff]
  intro message hmessage
  rw [shown, hedit, projectContextEntry, Option.map_none, sessionEntryToContextMessages, hc.type] at hmessage
  rcases List.mem_append.mp hmessage with hsystem | hsummary
  · simp [hc.system message (Option.mem_toList.mp hsystem)]
  · obtain rfl := List.mem_singleton.mp hsummary
    simp [isSummaryMessage, strField, strField?, field, present, Json.str?]

/-- The rebuilt projection. -/
theorem projection_commit (hids : (branch.map SessionRecord.id).Nodup)
    (hedits : assertRecoveryEdits branch = .ok ())
    (hroles : ∀ e ∈ branch, e.type = .message → e.role ≠ lit "compactionSummary")
    (hnone : branch.length ≤ start → CONTEXT_KEEP_NONE ∉ branch.map SessionRecord.id)
    (hc : CommitsFrom branch start c) :
    ((buildSessionProjection getTime (branch ++ [c])).flatMap ProjectedRecord.messages).filter
        (fun message => !isSystemMessage message && !isSummaryMessage message) =
      ((branch.drop start).filter outlives).flatMap (shown getTime (branch.drop start)) := by
  have hkept : (branch.drop start).filter outlives ⊆ branch := fun e he =>
    List.mem_of_mem_drop (List.mem_of_mem_filter he)
  have hcons : ∀ id, mapGet (contextEdits (c :: (branch.drop start).filter outlives)) id =
      mapGet (contextEdits (branch.drop start)) id := by
    intro id
    rw [← edits_outlives, List.filter_cons_of_neg (by rw [outlives_compaction hc.type]; decide),
      List.filter_filter]
    simp only [Bool.and_self]
    rw [edits_outlives]
  rw [buildSessionProjection_eq (nodup_concat hids hc.fresh), context_commit hids hnone hc,
    List.flatMap_map, List.flatMap_cons, List.filter_append, shown_checkpoint hc, List.nil_append]
  · rw [List.filter_eq_self.mpr]
    · exact List.flatMap_congr fun e _ => by rw [shown, hcons, shown]
    · intro message hmessage
      obtain ⟨e, he, hmessage⟩ := List.mem_flatMap.mp hmessage
      have hout := (List.mem_filter.mp he).2
      rw [not_system_of_shown hout message hmessage,
        not_summary_of_shown hout (hroles e (hkept he)) message hmessage]
      rfl
  · rw [hcons]
    exact edits_commit hedits hc.fresh fun e he => List.mem_of_mem_drop he

/-- Records without a checkpoint behind a commit. -/
theorem onlyAdds_commit (hids : ((branch ++ c :: more).map SessionRecord.id).Nodup)
    (hedits : assertRecoveryEdits branch = .ok ()) (hc : c.type = .compaction)
    (hmore : ∀ e ∈ more, e.type ≠ .compaction)
    (htargets : ∀ e ∈ buildContextEntries (branch ++ [c]), ¬ Targets more e.id) :
    OnlyAdds getTime branch c more := by
  have hsplit : branch ++ c :: more = (branch ++ [c]) ++ more := by simp
  have hids' := hids
  rw [hsplit, List.map_append, List.nodup_append] at hids'
  obtain ⟨hfront, hback, hdisjoint⟩ := hids'
  have hcontext : buildContextEntries (branch ++ c :: more) =
      buildContextEntries (branch ++ [c]) ++ more := by
    rw [context_split hids hc hmore, context_split hfront hc (by simp), List.append_nil]
  have hmoreContext : buildContextEntries more = more := by
    rw [buildContextEntries, lastCompaction_eq_none.mpr hmore]
  rw [OnlyAdds, buildSessionProjection_eq hids, buildSessionProjection_eq hfront,
    buildSessionProjection_eq hback, hcontext, hmoreContext, List.map_append]
  congr 1
  · refine List.map_congr_left fun e he => ?_
    rw [shown, edits_append, edits_none (htargets e he), Option.none_or, shown]
  · refine List.map_congr_left fun e he => ?_
    have hnone : ¬ Targets (buildContextEntries (branch ++ [c])) e.id := by
      intro h
      have hbranch : assertRecoveryEdits ((branch ++ [c]) ++ []) = .ok () := by
        rw [List.append_nil]
        exact assertRecoveryEdits_append hedits fun r hr => by simp [List.mem_singleton.mp hr, hc]
      have hmem := mem_of_targets [] hbranch (h.mono fun e he => mem_of_mem_context he)
      exact hdisjoint _ hmem _ (List.mem_map_of_mem he) rfl
    rw [shown, edits_append, edits_none hnone, Option.or_none, shown]

/-- Where the guard accepts the branch with what is appended, no appended edit reaches back. -/
theorem targets_of_accepted {len : Str → Nat} {sha256 : Sha256} {session : PreviewSession}
    {version : Str} {checkpoint : Option ValidatedMemory}
    (h : (assertPreviewSession len sha256 session version (branch ++ c :: more)).result =
      .ok checkpoint)
    (hids : ((branch ++ c :: more).map SessionRecord.id).Nodup) (hc : c.type = .compaction) :
    ∀ e ∈ buildContextEntries (branch ++ [c]), ¬ Targets more e.id := by
  intro e he htargets
  have hmem := mem_of_targets_behind hc (assertPreviewSession_ok.mp h).edits htargets
  rw [show branch ++ c :: more = (branch ++ [c]) ++ more by simp, List.map_append,
    List.nodup_append] at hids
  exact hids.2.2 _ (List.mem_map_of_mem (mem_of_mem_context he)) _ hmem rfl

/-- The compactor's prediction of the context behind its checkpoint is what the host shows, and what
is appended, edits included, only adds to it while no appended edit names a record in context. -/
theorem retainedFrom_shown {len : Str → Nat} {sha256 : Sha256} {session : PreviewSession}
    {version : Str} {checkpoint : Option ValidatedMemory}
    (haccepted : (assertPreviewSession len sha256 session version branch).result = .ok checkpoint)
    (hids : (branch.map SessionRecord.id).Nodup)
    (hroles : ∀ e ∈ branch, e.type = .message → e.role ≠ lit "compactionSummary")
    (hcut : UsedCut getTime branch start)
    (hnone : branch.length ≤ start → CONTEXT_KEEP_NONE ∉ branch.map SessionRecord.id)
    (hc : CommitsFrom branch start c) :
    PredictsShown getTime branch start c ∧
      ∀ more : List SessionRecord, ((branch ++ c :: more).map SessionRecord.id).Nodup →
        (∀ e ∈ more, e.type ≠ .compaction) →
        (∀ e ∈ buildContextEntries (branch ++ [c]), ¬ Targets more e.id) →
        OnlyAdds getTime branch c more := by
  have hedits := (assertPreviewSession_ok.mp haccepted).edits
  constructor
  · rw [PredictsShown, retainedFrom_eq hids hedits hcut.kept,
      projection_commit hids hedits hroles hnone hc]
  · intro more hmoreids hmore htargets
    exact onlyAdds_commit hmoreids hedits hc.type hmore htargets

/-! ### Two questions -/

/-- What a user asks. -/
def asks (id : String) : SessionRecord :=
  messageRecord (lit id) (lit "root") (lit "2026-01-01T00:00:00.000Z") (lit "user") (lit "Fix it.")

/-- A checkpoint that keeps from an ID on. -/
def cutAt (firstKeptEntryId : Str) : SessionRecord where
  fields := [(lit "type", .str (lit "compaction")), (lit "id", .str (lit "c1")),
    (lit "parentId", .null), (lit "timestamp", .str []), (lit "summary", .str []),
    (lit "firstKeptEntryId", .str firstKeptEntryId), (lit "tokensBefore", .num (.ofNat 0))]
  typed := by
    simp [recordTyped, hasStr, strField, strField?, field, RecordType.ofName, isNull]

/-- An edit that leaves a record out. -/
def omits (targetId : String) : SessionRecord where
  fields := [(lit "type", .str (lit "context_edit")), (lit "id", .str (lit "e1")),
    (lit "parentId", .null), (lit "timestamp", .str []), (lit "targetId", .str (lit targetId)),
    (lit "replacement", .null)]
  typed := by
    simp [recordTyped, hasStr, strField, strField?, field, RecordType.ofName, isNull]

theorem accepted_asks (ids : List String)
    (h : ∀ r ∈ ids.map asks, unsupportedContent r = none) :
    (assertPreviewSession List.length (fun _ => []) ⟨0, lit "s", some (lit "f")⟩ (lit "1.4.0")
      (ids.map asks)).result = .ok none := by
  refine accepted_messages (by decide +kernel) (by decide +kernel) (fun r hr => ?_) h
  obtain ⟨id, -, rfl⟩ := List.mem_map.mp hr
  exact type_messageRecord _ _ _ _ _

theorem commitsFrom_cutAt {firstKept : Str}
    (hfresh : lit "c1" ∉ branch.map SessionRecord.id)
    (h : firstKept = (branch[start]?.map SessionRecord.id).getD CONTEXT_KEEP_NONE) :
    CommitsFrom branch start (cutAt firstKept) where
  type := by simp [SessionRecord.type, cutAt, strField, strField?, field, RecordType.ofName]
  fresh := by simpa [SessionRecord.id, cutAt, strField, strField?, field] using hfresh
  firstKept := by
    rw [← h]
    simp [SessionRecord.firstKeptEntryId, cutAt, strField, strField?, field]
  system := by simp [cutAt, field]

/-- A second checkpoint behind an earlier one, and behind it a question that an edit takes out again. -/
theorem retainedFrom_shown_sample :
    let branch := [storedRequest "Fix it.", storedCheckpoint, asks "u2", asks "u3"]
    PredictsShown (fun _ => .ofNat 0) branch 3 (cutAt (lit "u3")) ∧
      OnlyAdds (fun _ => .ofNat 0) branch (cutAt (lit "u3")) [asks "u4", omits "u4"] := by
  intro branch
  have haccepted : (assertPreviewSession List.length (fun _ => []) ⟨0, lit "s", some (lit "f")⟩ (lit "1.4.0")
      branch).result.isOk = true := by decide +kernel
  have hcut : UsedCut (fun _ => .ofNat 0) branch 3 := .recent (fun _ => 1) 1 (by decide +kernel)
  cases h : (assertPreviewSession List.length (fun _ => []) ⟨0, lit "s", some (lit "f")⟩ (lit "1.4.0")
      branch).result with
  | error e =>
    rw [h] at haccepted
    cases haccepted
  | ok checkpoint =>
    have hc : CommitsFrom branch 3 (cutAt (lit "u3")) := commitsFrom_cutAt (by decide +kernel) (by decide +kernel)
    obtain ⟨hpredicts, hadds⟩ := retainedFrom_shown h (by decide +kernel) (by decide +kernel) hcut
      (by decide +kernel) hc
    exact ⟨hpredicts, hadds _ (by decide +kernel) (by decide +kernel) (by decide +kernel)⟩

/-- A record of the ID that marks an empty tail is shown though nothing is retained; and an appended
edit takes a retained message out. -/
theorem not_retainedFrom_shown :
    (∃ branch start c,
      (assertPreviewSession List.length (fun _ => []) ⟨0, lit "s", some (lit "f")⟩ (lit "1.4.0")
        branch).result = .ok none ∧ (branch.map SessionRecord.id).Nodup ∧
      (∀ e ∈ branch, e.role = lit "user") ∧ UsedCut (fun _ => .ofNat 0) branch start ∧
      CommitsFrom branch start c ∧ ¬ PredictsShown (fun _ => .ofNat 0) branch start c) ∧
    ∃ branch start c more,
      (assertPreviewSession List.length (fun _ => []) ⟨0, lit "s", some (lit "f")⟩ (lit "1.4.0")
        branch).result = .ok none ∧ ((branch ++ c :: more).map SessionRecord.id).Nodup ∧
      (∀ e ∈ branch, e.role = lit "user") ∧ UsedCut (fun _ => .ofNat 0) branch start ∧
      CommitsFrom branch start c ∧ (∀ e ∈ more, e.type ≠ .compaction) ∧
      ¬ OnlyAdds (fun _ => .ofNat 0) branch c more := by
  constructor
  · refine ⟨["context-memory:keep-none"].map asks, 1, cutAt CONTEXT_KEEP_NONE,
      accepted_asks _ (by decide +kernel), by decide +kernel, by decide +kernel, .none,
      commitsFrom_cutAt (by decide +kernel) (by decide +kernel), fun h => ?_⟩
    exact absurd (congrArg List.length h) (by decide +kernel)
  · refine ⟨["u1", "u2"].map asks, 1, cutAt (lit "u2"), [omits "u2"],
      accepted_asks _ (by decide +kernel), by decide +kernel, by decide +kernel,
      .recent (fun _ => 1) 1 (by decide +kernel),
      commitsFrom_cutAt (by decide +kernel) (by decide +kernel), by decide +kernel, fun h => ?_⟩
    exact absurd (congrArg (fun p => (p.flatMap ProjectedRecord.messages).length) h) (by decide +kernel)

end Compaction
