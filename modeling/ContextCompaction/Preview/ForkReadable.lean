import ContextCompaction.Core.Preparation
import ContextCompaction.Preview.ForkReads

/-!
# Whether a fork can be read

A memory checkpoint stores the hash of the entries it covers. A fork whose checkpoint covers no label
starts with the same entries; where it covers one, the hash is of other entries, and the fork is
refused.

* `fork_keeps_iff`: the forks that are read as their branch is.
-/

namespace Compaction

open Js

variable {len : Str → Nat} {sha256 : Sha256} {path before after front labels : List SessionRecord}
  {e e' c : SessionRecord}

/-! ## Entries that stay as they are -/

theorem field_parentId (e : SessionRecord) : field e.fields "parentId" = some (orNull e.parentId) := by
  have htyped := e.typed
  simp only [recordTyped, Bool.and_eq_true] at htyped
  obtain ⟨v, hv, hshape⟩ := (Option.any_eq_true _ _).mp htyped.1.1.1.2
  rw [SessionRecord.parentId, strField?, hv]
  cases v <;> simp_all [isNull, isStr, Json.str?, orNull]

theorem field_firstKeptEntryId (h : e.type = .compaction) :
    field e.fields "firstKeptEntryId" = some (.str e.firstKeptEntryId) := by
  have htyped := e.typed
  have htype : RecordType.ofName (strField e.fields "type") = .compaction := h
  simp only [recordTyped, htype, Bool.and_eq_true] at htyped
  have hstr := htyped.2.1.2
  rw [hasStr, strField?, Option.isSome_iff_exists] at hstr
  obtain ⟨s, hs⟩ := hstr
  obtain ⟨v, hv, hvs⟩ := Option.bind_eq_some_iff.mp hs
  rw [Json.str?_eq_some] at hvs
  rw [SessionRecord.firstKeptEntryId, strField, strField?, hv, hvs]
  rfl

theorem ext_fields (h : e'.fields = e.fields) : e' = e := by
  cases e
  cases e'
  cases h
  rfl

/-- An entry that keeps its parent, where no label was dropped. -/
theorem rechained_self {parentId : Option Str} (h : e.parentId = parentId) :
    rechained [] parentId e = e := by
  have hrelinked : e.relinked parentId = e :=
    ext_fields (mapSet_eq_self (h ▸ field_parentId e))
  have hredirected : redirected [] e = e.firstKeptEntryId := by
    unfold redirected
    split
    next heq => exact heq.symm
    next => rfl
  unfold rechained
  split
  next htype =>
    rw [hrelinked, hredirected]
    exact ext_fields (mapSet_eq_self (field_firstKeptEntryId htype))
  next => exact hrelinked

/-- The front of a branch stays as it is up to the first label. -/
theorem rechain_front (hlabels : ∀ e ∈ front, ¬ isLabel e) (hlinked : linked none front = true) :
    rechain front = ⟨front, [], [], leafId front⟩ := by
  induction front using List.reverseRecOn with
  | nil => rfl
  | append_singleton front e ih =>
    rw [linked_append_singleton, Bool.and_eq_true, decide_eq_true_eq, Option.or_none] at hlinked
    rw [rechain_append, ih (fun e he => hlabels e (List.mem_append_left _ he)) hlinked.1,
      List.foldl_cons, List.foldl_nil, step_entry (hlabels e (by simp))]
    have hflush : Rechain.flush ⟨front, [], [], leafId front⟩ e.id = [] := rfl
    rw [hflush, rechained_self hlinked.2]
    simp [leafId]

/-! ## The checks on a checkpoint -/

/-- The latest memory is what the last compaction validates to. -/
theorem latestMemory_split (hc : c.type = .compaction) (hafter : ∀ e ∈ after, e.type ≠ .compaction) :
    latestMemory len sha256 .pi (before ++ c :: after) =
      validateMemoryCheckpoint len c before.length
        (plainValidation sha256 .pi (before ++ c :: after) before.length) := by
  have hfind : (before ++ c :: after).zipIdx.reverse.find?
      (fun e => decide (e.1.type = .compaction)) = some (c, before.length) := by
    have hnone : (after.zipIdx (0 + before.length + 1)).reverse.find?
        (fun e => decide (e.1.type = .compaction)) = none := by
      rw [List.find?_eq_none]
      intro e he
      have := List.fst_mem_of_mem_zipIdx (List.mem_reverse.mp he)
      simpa using hafter e.1 this
    rw [List.zipIdx_append, List.zipIdx_cons, List.reverse_append, List.reverse_cons,
      List.append_assoc, List.find?_append, hnone]
    simp [hc]
  rw [latestMemory, hfind]

/-- The details are valid when they have this version, cover a prefix, match its hash and hold a valid
note. -/
theorem validateDetails_ok {data : List (Str × Json)} {index : Nat} {v : CheckpointValidation}
    {m : ValidatedMemory} : validateDetails len c data index v = .ok m ↔
      ¬ ((field data "version").bind count? ≠ some 1 ∨ (!hasStr data "coveredThrough") = true ∨
        (!hasStr data "sourceHash") = true) ∧
      ∃ last, v.coverageIndex (strField data "coveredThrough") = some last ∧ last < index ∧
        v.prefixHash (last + 1) = .ok (some (strField data "sourceHash")) ∧
        validateStored len c data last v = .ok m := by
  unfold validateDetails
  split
  next hshape =>
    refine ⟨fun h => ?_, fun h => absurd hshape h.1⟩
    cases h
  next hshape =>
    simp only [hshape, not_false_eq_true, true_and]
    cases hcov : v.coverageIndex (strField data "coveredThrough") with
    | none => simp
    | some last =>
      dsimp only
      split
      next hle =>
        simp only [reduceCtorEq, false_iff, not_exists, not_and, Option.some.injEq]
        rintro _ rfl hlt
        omega
      next hle =>
        rw [bind_ok]
        constructor
        · rintro ⟨hash, hhash, hrest⟩
          split_ifs at hrest with hne
          rw [not_not] at hne
          exact ⟨last, rfl, by omega, hne ▸ hhash, hrest⟩
        · rintro ⟨_, ⟨⟩, -, hhash, hrest⟩
          exact ⟨_, hhash, by rwa [if_neg (by simp)]⟩

/-- A stored note is valid when it keeps its budget, is cited, opens the summary and fits the
continuation. -/
theorem validateStored_ok {data : List (Str × Json)} {last : Nat} {v : CheckpointValidation}
    {m : ValidatedMemory} : validateStored len c data last v = .ok m ↔
      ∃ hardTokens note, storedNoteLimit (field data "noteBudget") = .ok hardTokens ∧
        validateNoteSources len ((field data "note").getD .null) v.sourceById = .ok note ∧
        assertNoteBudget ((field data "note").getD .null) hardTokens = .ok () ∧
        renderNote note [] <+: c.summary ∧
        checkContinuation c data note (v.requests last) v.source = .ok () ∧ m = ⟨c, data⟩ := by
  unfold validateStored
  simp only [bind_ok]
  constructor
  · rintro ⟨hardTokens, htokens, note, hnote, _, hbudget, hrest⟩
    split_ifs at hrest with hsummary
    obtain ⟨_, hcontinuation, hpure⟩ := bind_ok.mp hrest
    exact ⟨hardTokens, note, htokens, hnote, hbudget, hsummary, hcontinuation,
      (Except.ok.inj hpure).symm⟩
  · rintro ⟨hardTokens, note, htokens, hnote, hbudget, hsummary, hcontinuation, rfl⟩
    refine ⟨hardTokens, htokens, note, hnote, (), hbudget, ?_⟩
    rw [if_neg (not_not.mpr hsummary), bind_ok]
    exact ⟨(), hcontinuation, rfl⟩

/-- More that is readable keeps a fact cited. -/
theorem cited_readable {f g : Str → Option Str}
    (h : ∀ id text, text ≠ [] → f id = some text → g id = some text) {item : NoteFact}
    (hc : Cited f item) : Cited g item := by
  have hreadable : ∀ id, readable f id = true → ∃ text, text ≠ [] ∧ f id = some text := by
    intro id hr
    cases hf : f id with
    | none => simp [readable, hf] at hr
    | some text => exact ⟨text, by simpa [readable, hf] using hr, rfl⟩
  have hmono : ∀ id, readable f id = true → readable g id = true := by
    intro id hr
    obtain ⟨text, hne, hf⟩ := hreadable id hr
    simp [readable, h id text hne hf, hne]
  refine ⟨fun id hid => hmono id (hc.sources id hid), fun q hq hne => ?_,
    fun ids hids id hid => hmono id (hc.supersedes ids hids id hid)⟩
  obtain ⟨id, hid, hin⟩ := hc.quote q hq hne
  obtain ⟨text, hne, hf⟩ := hreadable id (hc.sources id hid)
  refine ⟨id, hid, ?_⟩
  rwa [h id text hne hf, ← hf]

theorem validateStored_alike {data : List (Str × Json)} {last : Nat} {v v' : CheckpointValidation}
    {m : ValidatedMemory} (halike : Alike c e')
    (hsource : ∀ id text, text ≠ [] → v.sourceById id = some text → v'.sourceById id = some text)
    (hrequests : v'.requests last = v.requests last) (htext : v'.source = v.source)
    (h : validateStored len c data last v = .ok m) :
    validateStored len e' data last v' = .ok ⟨e', data⟩ := by
  obtain ⟨hardTokens, note, htokens, hnote, hbudget, hsummary, hcontinuation, -⟩ :=
    validateStored_ok.mp h
  obtain ⟨hschema, rfl, hcited⟩ := validateNoteSources_ok.mp hnote
  refine validateStored_ok.mpr ⟨hardTokens, _, htokens, validateNoteSources_ok.mpr
    ⟨hschema, rfl, fun item hitem => cited_readable hsource (hcited item hitem)⟩, hbudget, ?_, ?_, rfl⟩
  · rwa [halike.summary_eq]
  · unfold checkContinuation at hcontinuation ⊢
    rwa [halike.summary_eq, hrequests, htext]

/-- What can be cited before a checkpoint is still there. -/
theorem textById_rechain (hids : (before.map SessionRecord.id).Nodup) {id text : Str}
    (hne : text ≠ []) (h : textById before id = some text) :
    textById (rechain before).retained id = some text := by
  obtain ⟨e, hget, rfl⟩ := Option.map_eq_some_iff.mp h
  obtain ⟨hmem, rfl⟩ := mem_of_byId hget
  have hlabel : ¬ isLabel e := fun hl => hne (by rw [sourceText, of_decide_eq_true hl])
  have hkept : e ∈ unlabelled before := List.mem_filter.mpr ⟨hmem, by simpa using hlabel⟩
  obtain ⟨e', he', halike⟩ := exists_related (alike_rechain before).flip hkept
  have hnodup : ((rechain before).retained.map SessionRecord.id).Nodup := by
    rw [ids_rechain]
    exact hids.sublist (List.filter_sublist.map _)
  have halike : Alike e e' := halike
  rw [textById, ← halike.id_eq, byId_of_mem hnodup he', Option.map_some, halike.sourceText_eq]

/-! ## Acceptance -/

variable (len sha256) in
/-- The checkpoint of a branch covers no label, and the branch starts at a root. -/
def CoversNoLabel (path : List SessionRecord) : Prop :=
  ∀ m, latestMemory len sha256 .pi path = .ok (some m) →
    ∃ last, path.findIdx? (fun e => e.id = m.coveredThrough) = some last ∧
      (∀ e ∈ path.take (last + 1), ¬ isLabel e) ∧ ∀ root ∈ path.head?, root.parentId = none

theorem opaque_alike (h : Alike c e') : opaqueCheckpoint e' = opaqueCheckpoint c := by
  rw [opaqueCheckpoint, h.details_eq, h.summary_eq, opaqueCheckpoint]

/-- A checkpoint of another method has nothing to check. -/
theorem validate_other (h : ∀ data, c.details.bind Json.obj? = some data →
    strField? data "kind" ≠ some CONTEXT_MEMORY_KIND) (index : Nat) (v : CheckpointValidation) :
    validateMemoryCheckpoint len c index v = .ok none := by
  unfold validateMemoryCheckpoint
  cases hdata : c.details.bind Json.obj? with
  | none => rfl
  | some data => exact if_pos (h data hdata)

theorem validate_memory {data : List (Str × Json)} (hdata : c.details.bind Json.obj? = some data)
    (hkind : strField? data "kind" = some CONTEXT_MEMORY_KIND) (index : Nat)
    (v : CheckpointValidation) : validateMemoryCheckpoint len c index v =
      (validateDetails len c data index v).map some := by
  rw [validateMemoryCheckpoint, hdata]
  exact if_neg (not_not.mpr hkind)

/-- The checkpoint of a fork, where it covers no label. -/
theorem validateDetails_fork {data : List (Str × Json)} {m : ValidatedMemory}
    {fork : List SessionRecord} (halike : Alike c e')
    (hids : (before.map SessionRecord.id).Nodup) (hlinked : linked none before = true)
    (hfork : (rechain before).retained <+: fork) {last : Nat}
    (hlast : (before ++ c :: after).findIdx? (fun e => e.id = strField data "coveredThrough") = some last)
    (hlabels : ∀ e ∈ (before ++ c :: after).take (last + 1), ¬ isLabel e)
    (h : validateDetails len c data before.length
      (plainValidation sha256 .pi (before ++ c :: after) before.length) = .ok m) :
    validateDetails len e' data (rechain before).retained.length
      (plainValidation sha256 .pi fork (rechain before).retained.length) = .ok ⟨e', data⟩ := by
  obtain ⟨hshape, last', hlast', hlt, hhash, hstored⟩ := validateDetails_ok.mp h
  cases hlast.symm.trans hlast'
  -- the covered entries stand at the front of the fork as they are
  have hlength : (before.take (last + 1)).length = last + 1 := by
    rw [List.length_take]
    omega
  have htake : (before ++ c :: after).take (last + 1) = before.take (last + 1) :=
    List.take_append_of_le_length hlt
  rw [htake] at hlabels
  have hfront : linked none (before.take (last + 1)) = true := by
    rw [← List.take_append_drop (last + 1) before, linked_append, Bool.and_eq_true] at hlinked
    exact hlinked.1
  obtain ⟨mid, hmid⟩ : ∃ mid, (rechain before).retained = before.take (last + 1) ++ mid := by
    obtain ⟨mid, hmid, -⟩ := foldl_retained (before.drop (last + 1)) (rechain (before.take (last + 1)))
    refine ⟨mid, ?_⟩
    rw [← rechain_append, List.take_append_drop, rechain_front hlabels hfront] at hmid
    exact hmid
  obtain ⟨behind, rfl⟩ := hfork
  have htake' : ((rechain before).retained ++ behind).take (last + 1) = before.take (last + 1) := by
    rw [hmid, List.append_assoc, List.take_append_of_le_length (Nat.le_of_eq hlength.symm),
      List.take_of_length_le (Nat.le_of_eq hlength)]
  have hfound : ((rechain before).retained ++ behind).findIdx?
      (fun e => e.id = strField data "coveredThrough") = some last := by
    have hin : (before.take (last + 1)).findIdx?
        (fun e => e.id = strField data "coveredThrough") = some last := by
      rw [← htake, List.findIdx?_take]
      simp [hlast]
    rw [hmid, List.append_assoc, List.findIdx?_append, hin]
    rfl
  have hlonger : last < (rechain before).retained.length := by
    rw [hmid, List.length_append, hlength]
    omega
  refine validateDetails_ok.mpr ⟨hshape, last, hfound, hlonger, ?_, ?_⟩
  · rw [← hhash]
    simp only [plainValidation, htake, htake']
  · refine validateStored_alike (v := plainValidation sha256 .pi (before ++ c :: after) before.length)
      halike (fun id text hne htext => ?_) ?_ rfl hstored
    · simp only [plainValidation, List.take_left'] at htext ⊢
      exact textById_rechain hids hne htext
    · simp only [plainValidation, htake, htake']

theorem parentId_sameText (h : SameText e.json e'.json) : e.parentId = e'.parentId := by
  unfold SessionRecord.parentId strField?
  rcases rel_cases (sameFields_field (sameFields_record h) "parentId") with
    ⟨hv, hw⟩ | ⟨a, b, hv, hw, hab⟩
  · rw [hv, hw]
  · rw [hv, hw, Option.bind_some, Option.bind_some, hab.str?]

/-- A fork whose checkpoint passes starts with the entries that its path starts with. -/
theorem covers_of_validateDetails (hsha : Function.Injective sha256) {data : List (Str × Json)}
    {m m' : ValidatedMemory} {fork : List SessionRecord} (hlinked : linked none fork = true)
    (hfork : (rechain before).retained <+: fork)
    (h : validateDetails len c data before.length
      (plainValidation sha256 .pi (before ++ c :: after) before.length) = .ok m)
    (h' : validateDetails len e' data (rechain before).retained.length
      (plainValidation sha256 .pi fork (rechain before).retained.length) = .ok m') :
    ∃ last, (before ++ c :: after).findIdx? (fun e => e.id = strField data "coveredThrough") = some last ∧
      (∀ e ∈ (before ++ c :: after).take (last + 1), ¬ isLabel e) ∧
        ∀ root ∈ (before ++ c :: after).head?, root.parentId = none := by
  obtain ⟨-, last, hlast, -, hhash, -⟩ := validateDetails_ok.mp h
  obtain ⟨-, last', -, hlt, hhash', -⟩ := validateDetails_ok.mp h'
  have hsame : hashEntries sha256 ((before ++ c :: after).take (last + 1)) =
      hashEntries sha256 (fork.take (last' + 1)) := by
    have := Except.ok.inj (hhash.trans hhash'.symm)
    simpa [hashRecords] using this
  rw [hashEntries_eq, hashEntries_eq] at hsame
  have htexts := hashValues_inj hsha hsame
  rw [List.forall₂_map_left_iff, List.forall₂_map_right_iff] at htexts
  refine ⟨last, hlast, fun e he => ?_, fun root hroot => ?_⟩
  · obtain ⟨e', he', hpair⟩ := exists_related htexts.flip he
    have htype : e.type = e'.type := type_sameText hpair
    obtain ⟨behind, rfl⟩ := hfork
    rw [List.take_append_of_le_length hlt] at he'
    have hkept := List.mem_of_mem_take he'
    rw [← unlabelled_rechain] at hkept
    rw [isLabel, htype, ← isLabel]
    simpa using (List.mem_filter.mp hkept).2
  · cases hbranch : before ++ c :: after with
    | nil => simp at hbranch
    | cons first rest =>
      rw [hbranch] at htexts hroot
      cases hroot
      cases fork with
      | nil => cases htexts
      | cons first' rest' =>
        rw [List.take_succ_cons, List.take_succ_cons] at htexts
        cases htexts with
        | cons hfirst _ =>
          rw [linked, Bool.and_eq_true, decide_eq_true_eq] at hlinked
          rw [parentId_sameText hfirst, hlinked.1]

/-- A fork is read with the memory of its path exactly where that covers no label. -/
theorem readable_iff (hsha : Function.Injective sha256) (hpath : IsBranch path)
    (hreadable : assertReadableBranch len sha256 path = .ok ())
    (hfork : linked none ((rechain path).retained ++ labels) = true)
    (hlabels : ∀ e ∈ labels, isLabel e) :
    (assertReadableBranch len sha256 ((rechain path).retained ++ labels) = .ok () ∧
      (latestMemory len sha256 .pi ((rechain path).retained ++ labels)).map
          (Option.map ValidatedMemory.memory) =
        (latestMemory len sha256 .pi path).map (Option.map ValidatedMemory.memory)) ↔
      CoversNoLabel len sha256 path := by
  cases hlast : lastCompaction path with
  | none =>
    have htypes := lastCompaction_eq_none.mp hlast
    have hnone : ∀ e ∈ (rechain path).retained ++ labels, e.type ≠ .compaction := by
      intro e he
      rcases List.mem_append.mp he with he | he
      · exact rel_type (alike_rechain path) (fun e he => htypes e (List.mem_of_mem_filter he)) e he
      · exact type_of_isLabel (hlabels e he)
    have hmemory : ∀ branch : List SessionRecord, (∀ e ∈ branch, e.type ≠ .compaction) →
        latestMemory len sha256 .pi branch = .ok none := by
      intro branch h
      have : branch.zipIdx.reverse.find? (fun e => decide (e.1.type = .compaction)) = none := by
        rw [List.find?_eq_none]
        intro e he
        simpa using h e.1 (List.fst_mem_of_mem_zipIdx (List.mem_reverse.mp he))
      rw [latestMemory, this]
    rw [assertReadableBranch, lastCompaction_eq_none.mpr hnone, hmemory _ htypes, hmemory _ hnone]
    refine iff_of_true ⟨rfl, rfl⟩ fun m hm => ?_
    rw [hmemory _ htypes] at hm
    cases hm
  | some c =>
    rw [assertReadableBranch, hlast] at hreadable
    obtain ⟨before, after, rfl, hc, hafter⟩ := split_of_lastCompaction hlast
    obtain ⟨more, hmore, halike⟩ := rechain_split before after hc
    have hcut := alike_rechained ((rechain before).flush c.id) (rechain before).parentId c
    generalize rechained ((rechain before).flush c.id) (rechain before).parentId c = c' at hcut hmore
    have hbehind : ∀ e ∈ more ++ labels, e.type ≠ .compaction := by
      intro e he
      rcases List.mem_append.mp he with he | he
      · exact rel_type halike (fun e he => hafter e (List.mem_of_mem_filter he)) e he
      · exact type_of_isLabel (hlabels e he)
    have hc' : c'.type = .compaction := hcut.type_eq.trans hc
    rw [hmore, List.append_assoc, List.cons_append] at hfork ⊢
    rw [assertReadableBranch, lastCompaction_split hc' hbehind, latestMemory_split hc hafter,
      latestMemory_split hc' hbehind]
    dsimp only at hreadable ⊢
    rw [opaque_alike hcut]
    split at hreadable
    next => cases hreadable
    next hopaque =>
    rw [if_neg hopaque]
    rw [latestMemory_split hc hafter] at hreadable
    by_cases hmemory : ∃ data, c.details.bind Json.obj? = some data ∧
        strField? data "kind" = some CONTEXT_MEMORY_KIND
    · obtain ⟨data, hdata, hkind⟩ := hmemory
      have hdata' : c'.details.bind Json.obj? = some data := by rwa [hcut.details_eq]
      rw [validate_memory hdata hkind] at hreadable ⊢
      rw [validate_memory hdata' hkind]
      obtain ⟨_, hvalid, -⟩ := map_ok.mp hreadable
      obtain ⟨m, hm, -⟩ := map_ok.mp hvalid
      obtain ⟨-, _, -, -, -, hstored⟩ := validateDetails_ok.mp hm
      obtain ⟨_, _, -, -, -, -, -, rfl⟩ := validateStored_ok.mp hstored
      have hlatest : latestMemory len sha256 .pi (before ++ c :: after) = .ok (some ⟨c, data⟩) := by
        rw [latestMemory_split hc hafter, validate_memory hdata hkind, hm]
        rfl
      constructor
      · rintro ⟨hread, -⟩ m hm'
        rw [hlatest] at hm'
        cases hm'
        obtain ⟨_, hvalid', -⟩ := map_ok.mp hread
        obtain ⟨m', hm', -⟩ := map_ok.mp hvalid'
        exact covers_of_validateDetails hsha hfork (List.prefix_append _ _) hm hm'
      · intro hcovers
        obtain ⟨last, hfound, hnone, hroot⟩ := hcovers _ hlatest
        obtain ⟨previous, hlinked, hprevious⟩ := hpath.linked
        have hbefore : linked none before = true := by
          cases before with
          | nil => rfl
          | cons root before =>
            have hnone := hroot root rfl
            rw [hprevious root rfl] at hnone
            rw [hnone, linked_append, Bool.and_eq_true] at hlinked
            exact hlinked.1
        have hids : (before.map SessionRecord.id).Nodup := by
          have := hpath.ids
          rw [List.map_append, List.nodup_append] at this
          exact this.1
        have hm' := validateDetails_fork hcut hids hbefore (List.prefix_append _ (c' :: (more ++ labels)))
          hfound hnone hm
        rw [hm', hm]
        exact ⟨rfl, rfl⟩
    · have hother : ∀ data, c.details.bind Json.obj? = some data →
          strField? data "kind" ≠ some CONTEXT_MEMORY_KIND :=
        fun data hdata hkind => hmemory ⟨data, hdata, hkind⟩
      have hother' : ∀ data, c'.details.bind Json.obj? = some data →
          strField? data "kind" ≠ some CONTEXT_MEMORY_KIND := by
        rwa [hcut.details_eq]
      rw [validate_other hother, validate_other hother']
      refine iff_of_true ⟨rfl, rfl⟩ fun m hm => ?_
      rw [latestMemory_split hc hafter, validate_other hother] at hm
      cases hm

/-! ## Forks -/

variable (len sha256) in
/-- A fork is read as its path is, and its entries have the labels they had. -/
structure ForkKeeps (entries path fork : List SessionRecord) : Prop where
  branch : ∃ branch, getBranch fork (leafId fork) = some branch ∧
    (assertReadableBranch len sha256 branch = .ok () ∧
      (latestMemory len sha256 .pi branch).map (Option.map ValidatedMemory.memory) =
        (latestMemory len sha256 .pi path).map (Option.map ValidatedMemory.memory)) ∧
    ∀ getTime, contextMessages getTime branch = contextMessages getTime path
  labels : ∀ e ∈ path, ¬ isLabel e → getLabel fork e.id = getLabel entries e.id

/-- A fork of a readable path is readable exactly when no checkpoint covers a label. -/
theorem fork_keeps_path (hsha : Function.Injective sha256) {entries : List SessionRecord}
    {randomUUID : Nat → Nat → Str} (hpath : IsBranch path) (hsub : path ⊆ entries)
    (hfresh : FreshUUIDs randomUUID (entries.map SessionRecord.id) (labelsById entries).length)
    (hreadable : assertReadableBranch len sha256 path = .ok ()) :
    ForkKeeps len sha256 entries path (forkEntries randomUUID entries path) ↔
      CoversNoLabel len sha256 path := by
  obtain ⟨hids, hnamed, hlinked⟩ := forkEntries_linked hpath hsub hfresh
  have hbranch := getBranch_linked hids hnamed hlinked
  have hlabels := fun e he => getLabel_fork (e := e) randomUUID entries path he
  have hiff := readable_iff hsha hpath hreadable hlinked isLabel_labelEntries
  constructor
  · rintro ⟨⟨branch, hget, hread, -⟩, -⟩
    obtain rfl := Option.some.inj (hbranch.symm.trans hget)
    exact hiff.mp hread
  · intro hcovers
    refine ⟨⟨_, hbranch, hiff.mpr hcovers, fun getTime => ?_⟩, fun e he hl => ?_⟩
    · exact contextMessages_fork getTime hpath.ids hids isLabel_labelEntries
    · exact hlabels e (List.mem_filter.mpr ⟨he, by simpa using hl⟩)

/-- `createBranchedSession` keeps a branch exactly where the entry has a name and the newest memory
checkpoint covers no label, from a root on. -/
theorem fork_keeps_iff (hsha : Function.Injective sha256) {entries : List SessionRecord} {leaf : Str}
    {randomUUID : Nat → Nat → Str} (hids : (entries.map SessionRecord.id).Nodup)
    (hfresh : FreshUUIDs randomUUID (entries.map SessionRecord.id) (labelsById entries).length)
    (hleaf : leaf ∈ entries.map SessionRecord.id)
    (hbranch : getBranch entries (some leaf) = some path)
    (hreadable : assertReadableBranch len sha256 path = .ok ()) :
    (∃ fork, createBranchedSession len sha256 randomUUID entries leaf = some (.ok fork) ∧
        ForkKeeps len sha256 entries path fork) ↔
      leaf ≠ [] ∧ CoversNoLabel len sha256 path := by
  have hwalk := getBranch_eq_some.mp hbranch
  have hpath := isBranch_of_getBranch hids hbranch
  have hsub : path ⊆ entries := fun e he => by
    obtain ⟨key, -, hget⟩ := hwalk.mem e (List.mem_reverse.mpr he)
    exact (mem_of_byId hget).1
  have hempty : path = [] ↔ leaf = [] := by
    obtain ⟨e, he, rfl⟩ := List.mem_map.mp hleaf
    by_cases hname : e.id = []
    · have hnone : lookup (recordsById entries) (some e.id) = none := by simp [lookup, hname]
      rw [hnone] at hwalk
      generalize hrev : path.reverse = walk at hwalk
      cases hwalk
      simp [hname, List.reverse_eq_nil_iff.mp hrev]
    · have hsome : lookup (recordsById entries) (some e.id) = some e :=
        lookup_eq_some.mpr ⟨e.id, hname, rfl, byId_of_mem hids he⟩
      rw [hsome] at hwalk
      refine iff_of_false (fun hnil => ?_) hname
      rw [hnil] at hwalk
      cases hwalk
  have hcreate : createBranchedSession len sha256 randomUUID entries leaf =
      some (if path = [] then .error (.error (lit "Entry " ++ leaf ++ lit " not found"))
        else .ok (forkEntries randomUUID entries path)) := by
    rw [createBranchedSession, hbranch, Option.map_some, hreadable]
  rw [hcreate]
  by_cases hname : leaf = []
  · rw [if_pos (hempty.mpr hname)]
    refine iff_of_false ?_ fun h => h.1 hname
    rintro ⟨fork, hfork, -⟩
    cases hfork
  · rw [if_neg fun h => hname (hempty.mp h), ← fork_keeps_path hsha hpath hsub hfresh hreadable]
    constructor
    · rintro ⟨fork, hfork, hkeeps⟩
      cases hfork
      exact ⟨hname, hkeeps⟩
    · rintro ⟨-, hkeeps⟩
      exact ⟨_, rfl, hkeeps⟩

/-- A marked request, a second one, and a checkpoint that covers both. -/
def markedRequests : List SessionRecord :=
  [firstRequest, labelRecord (lit "l") (some (lit "u")) [] (lit "u") (lit "mark"),
    messageRecord (lit "v") (lit "l") [] (lit "user") (lit "Again.")]

example : (rechain markedRequests).retained.map (fun e => (e.id, e.parentId)) =
    [(lit "u", none), (lit "v", some (lit "u"))] := by decide +kernel

/-- The same without the mark. -/
def plainRequests : List SessionRecord :=
  [firstRequest, messageRecord (lit "v") (lit "u") [] (lit "user") (lit "Again.")]

/-- A checkpoint that covers the branch through `v`. -/
def sampleCheckpoint (covered : List SessionRecord) : SessionRecord where
  fields := [(lit "type", .str (lit "compaction")), (lit "id", .str (lit "c")),
    (lit "parentId", .str (lit "v")), (lit "timestamp", .str []),
    (lit "summary", .str (renderNote preparedNote [])), (lit "firstKeptEntryId", .str (lit "v")),
    (lit "tokensBefore", .num (.ofNat 0)),
    (lit "details", .obj [(lit "kind", .str CONTEXT_MEMORY_KIND), (lit "version", .num (.ofNat 1)),
      (lit "note", preparedNote.toJson), (lit "coveredThrough", .str (lit "v")),
      (lit "sourceHash", .str (hashEntries plainHash covered))])]
  typed := by
    simp [recordTyped, hasStr, strField, strField?, field, RecordType.ofName, isNull, isStr]

def markedSession : List SessionRecord := markedRequests ++ [sampleCheckpoint markedRequests]

def plainSession : List SessionRecord := plainRequests ++ [sampleCheckpoint plainRequests]

def sampleUUID (k i : Nat) : Str := k.toUInt16 :: i.toUInt16 :: List.replicate 34 0x78

/-- The details that the checkpoint stores. -/
def sampleDetails (covered : List SessionRecord) : List (Str × Json) :=
  [(lit "kind", .str CONTEXT_MEMORY_KIND), (lit "version", .num (.ofNat 1)),
    (lit "note", preparedNote.toJson), (lit "coveredThrough", .str (lit "v")),
    (lit "sourceHash", .str (hashEntries plainHash covered))]

example : leafId plainSession = some (lit "c") := by decide +kernel

theorem type_sample (covered : List SessionRecord) :
    (sampleCheckpoint covered).type = .compaction := by
  simp [SessionRecord.type, sampleCheckpoint, strField, strField?, field, Json.str?,
    RecordType.ofName]

theorem details_sample (covered : List SessionRecord) :
    (sampleCheckpoint covered).details.bind Json.obj? = some (sampleDetails covered) := by
  simp [SessionRecord.details, field, sampleCheckpoint, sampleDetails, Json.obj?]

theorem summary_of_field {text : Str} (h : field e.fields "summary" = some (.str text)) :
    e.summary = text := by
  rw [SessionRecord.summary, strField, strField?, h]
  rfl

theorem summary_sample (covered : List SessionRecord) :
    (sampleCheckpoint covered).summary = renderNote preparedNote [] :=
  summary_of_field (by simp [field, sampleCheckpoint])

theorem opaque_sample (covered : List SessionRecord) :
    opaqueCheckpoint (sampleCheckpoint covered) = false := by
  have hphrases : (["PI_CODEX_REMOTE_CHECKPOINT:", "stores the older history opaquely",
      "Full replay requires @narumitw/pi-codex-compact"].any fun phrase =>
        includes (renderNote preparedNote []) (lit phrase)) = false := by
    rw [renderNote, OPENING, lit_ofList]
    decide +kernel
  rw [opaqueCheckpoint, details_sample, summary_sample, hphrases, Bool.or_false]
  simp [sampleDetails, strField?, field, Json.str?, CONTEXT_MEMORY_KIND]

/-- The checkpoint passes behind the entries it covers. -/
theorem latestMemory_sample {requests : List SessionRecord}
    (hlast : (requests ++ [sampleCheckpoint requests]).findIdx? (fun e => e.id = lit "v") =
      some (requests.length - 1)) (hne : requests ≠ [])
    (hasked : readable (textById requests) (lit "u") = true) :
    latestMemory List.length plainHash .pi (requests ++ [sampleCheckpoint requests]) =
      .ok (some ⟨sampleCheckpoint requests, sampleDetails requests⟩) := by
  have hlength := List.length_pos_of_ne_nil hne
  have hcovered : requests.length - 1 + 1 = requests.length := Nat.sub_add_cancel hlength
  have hnote : validateNoteSources List.length preparedNote.toJson (textById requests) =
      .ok preparedNote := by
    refine validateNoteSources_ok.mpr ⟨by decide +kernel, ?_, fun item hitem => ?_⟩
    · exact (MemoryNote.ofJson_toJson _).symm
    · obtain ⟨_ | _, hin⟩ := MemoryNote.mem_allFacts.mp hitem <;>
        simp [preparedNote] at hin
      subst hin
      exact ⟨by simpa using hasked, by simp, by simp⟩
  have hstored : validateStored List.length (sampleCheckpoint requests) (sampleDetails requests)
      (requests.length - 1) (plainValidation plainHash .pi (requests ++ [sampleCheckpoint requests])
        requests.length) = .ok ⟨sampleCheckpoint requests, sampleDetails requests⟩ := by
    refine validateStored_ok.mpr ⟨6000, preparedNote, ?_, ?_, ?_, ?_, ?_, rfl⟩
    · simp [sampleDetails, field, storedNoteLimit]
    · simpa [sampleDetails, field, plainValidation] using hnote
    · have : noteBytes preparedNote.toJson ≤ 18000 := by decide +kernel
      simp [sampleDetails, field, assertNoteBudget, Nat.not_lt.mpr this]
    · rw [summary_sample]
    · simp [sampleDetails, field, checkContinuation]
  rw [latestMemory_split (type_sample requests) (by simp), validate_memory (details_sample requests)
    (by simp [sampleDetails, strField?, field, Json.str?])]
  rw [validateDetails_ok.mpr ⟨?_, requests.length - 1, ?_, by omega, ?_, hstored⟩]
  · rfl
  · have hone : count? (.num (.ofNat 1)) = some 1 := by decide +kernel
    simp [sampleDetails, field, hone, hasStr, strField?, Json.str?]
  · simpa [sampleDetails, plainValidation, strField, strField?, field, Json.str?] using hlast
  · simp [hcovered, sampleDetails, plainValidation, strField, strField?, field, Json.str?, hashRecords,
      Except.map]

theorem readable_sample {requests : List SessionRecord} {m : ValidatedMemory}
    (h : latestMemory List.length plainHash .pi (requests ++ [sampleCheckpoint requests]) =
      .ok (some m)) :
    assertReadableBranch List.length plainHash (requests ++ [sampleCheckpoint requests]) = .ok () := by
  rw [assertReadableBranch, lastCompaction_split (type_sample requests) (by simp)]
  simp [opaque_sample, h, Except.map]

theorem ids_plain : plainSession.map SessionRecord.id = [lit "u", lit "v", lit "c"] := by
  simp [plainSession, plainRequests, firstRequest, messageRecord, sampleCheckpoint, SessionRecord.id,
    strField, strField?, field, Json.str?]

theorem ids_marked : markedSession.map SessionRecord.id =
    [lit "u", lit "l", lit "v", lit "c"] := by
  simp [markedSession, markedRequests, firstRequest, labelRecord, messageRecord, sampleCheckpoint,
    SessionRecord.id, strField, strField?, field, Json.str?]

theorem findIdx_plain : plainSession.findIdx? (fun e => e.id = lit "v") = some 1 := by
  have hid : plainSession.findIdx? ((fun id => decide (id = lit "v")) ∘ SessionRecord.id) = some 1 := by
    rw [← List.findIdx?_map, ids_plain]
    simp [List.findIdx?_cons]
  exact hid

theorem findIdx_marked : markedSession.findIdx? (fun e => e.id = lit "v") = some 2 := by
  have hid : markedSession.findIdx? ((fun id => decide (id = lit "v")) ∘ SessionRecord.id) = some 2 := by
    rw [← List.findIdx?_map, ids_marked]
    simp [List.findIdx?_cons]
  exact hid

theorem latestMemory_plain : latestMemory List.length plainHash .pi plainSession =
    .ok (some ⟨sampleCheckpoint plainRequests, sampleDetails plainRequests⟩) :=
  latestMemory_sample findIdx_plain (by simp [plainRequests]) (by decide +kernel)

theorem latestMemory_marked : latestMemory List.length plainHash .pi markedSession =
    .ok (some ⟨sampleCheckpoint markedRequests, sampleDetails markedRequests⟩) :=
  latestMemory_sample findIdx_marked (by simp [markedRequests]) (by decide +kernel)

theorem coveredThrough_sample (entry : SessionRecord) (covered : List SessionRecord) :
    (ValidatedMemory.mk entry (sampleDetails covered)).coveredThrough = lit "v" := by
  simp [ValidatedMemory.coveredThrough, sampleDetails, strField, strField?, field, Json.str?]

theorem fork_keeps_iff_plain :
    ∃ fork, createBranchedSession List.length plainHash sampleUUID plainSession (lit "c") =
        some (.ok fork) ∧
      ForkKeeps List.length plainHash plainSession plainSession fork := by
  have hbranch : getBranch plainSession (leafId plainSession) = some plainSession := getBranch_linked
    (by simp [ids_plain]) (by decide +kernel) (by decide +kernel)
  have hleaf : leafId plainSession = some (lit "c") := by decide +kernel
  rw [hleaf] at hbranch
  refine (fork_keeps_iff plainHash_injective (by simp [ids_plain])
    ⟨fun _ _ => rfl, by decide +kernel, by decide +kernel⟩ (by simp [ids_plain]) hbranch
    (readable_sample latestMemory_plain)).mpr ⟨by decide +kernel, fun m hm => ?_⟩
  cases latestMemory_plain.symm.trans hm
  rw [coveredThrough_sample]
  exact ⟨1, findIdx_plain, by decide +kernel, by decide +kernel⟩

/-- A label among the covered entries: the branch is readable, its fork is refused. -/
theorem not_fork_keeps_marked :
    getBranch markedSession (some (lit "c")) = some markedSession ∧
      assertReadableBranch List.length plainHash markedSession = .ok () ∧
      ∃ fork, createBranchedSession List.length plainHash sampleUUID markedSession (lit "c") =
          some (.ok fork) ∧
        ¬ ForkKeeps List.length plainHash markedSession markedSession fork := by
  have hbranch : getBranch markedSession (leafId markedSession) = some markedSession :=
    getBranch_linked (by simp [ids_marked]) (by decide +kernel) (by decide +kernel)
  have hleaf : leafId markedSession = some (lit "c") := by decide +kernel
  rw [hleaf] at hbranch
  have hread : assertReadableBranch List.length plainHash markedSession = .ok () :=
    readable_sample latestMemory_marked
  refine ⟨hbranch, hread, forkEntries sampleUUID markedSession markedSession, ?_, fun hkeeps => ?_⟩
  · rw [createBranchedSession, hbranch, Option.map_some, hread]
    rfl
  · obtain ⟨last, hlast, hlabels, -⟩ := (fork_keeps_path plainHash_injective
      (isBranch_of_getBranch (by simp [ids_marked]) hbranch) (List.Subset.refl _)
      ⟨fun _ _ => rfl, by decide +kernel, by decide +kernel⟩ hread).mp hkeeps _ latestMemory_marked
    rw [coveredThrough_sample, findIdx_marked] at hlast
    cases hlast
    exact hlabels _ (List.mem_cons_of_mem _ List.mem_cons_self) (by decide +kernel)

end Compaction
