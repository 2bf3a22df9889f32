import ContextCompaction.Preview.Appends
import ContextCompaction.Preview.ForkReadable

/-!
# Branches that are written and read back

What is read back of a record has the same text and, where that asks for a number, the same number.
So the checks on a branch come out alike.

* `exists_reread`: what is read back of a record is a record.
* `readable_reread`: a branch that is read back is readable if it was.
-/

namespace Compaction

open Js

variable {len : Str → Nat} {sha256 : Sha256} {branch stored : List SessionRecord}
  {e r c c' : SessionRecord}

/-! ## One record -/

section

variable (hnative : e.json.Native) (h : Reread e r)
include hnative h

theorem sameText_reread : SameText e.json r.json := by
  have hjson : e.json.normal = r.json := by
    rw [Reread, parse_stringify] at h
    exact Option.some.inj h
  exact hjson ▸ stringify_normal hnative

theorem fields_reread : r.fields = e.fields.map fun f => (f.1, f.2.normal) := by
  have hjson : e.json.normal = r.json := by
    rw [Reread, parse_stringify] at h
    exact Option.some.inj h
  cases hnative with
  | obj hkeys horder _ =>
    rw [SessionRecord.json, normal_fields hkeys horder] at hjson
    exact (Json.obj.inj hjson).symm

end

theorem field_normal (fields : List (Str × Json)) (key : String) :
    field (fields.map fun f => (f.1, f.2.normal)) key = (field fields key).map Json.normal :=
  mapGet_map Json.normal fields (lit key)

theorem strField?_normal (fields : List (Str × Json)) (key : String) :
    strField? (fields.map fun f => (f.1, f.2.normal)) key = strField? fields key := by
  rw [strField?, strField?, field_normal]
  cases field fields key with
  | none => rfl
  | some v => exact str?_normal v

/-! ### Its shape -/

/-- A number that is read back as one: it is finite. -/
def StaysNumber (v : Json) : Prop := v.num?.isSome → v.normal.num?.isSome

theorem isStr_normal (v : Json) : isStr v.normal = isStr v := by
  rw [isStr, str?_normal, isStr]

theorem hasStr_normal (fields : List (Str × Json)) (key : String) :
    hasStr (fields.map fun f => (f.1, f.2.normal)) key = hasStr fields key := by
  rw [hasStr, strField?_normal, hasStr]

theorem isNull_normal {v : Json} (h : isNull v) : isNull v.normal := by
  cases v <;> simp_all [isNull, Json.normal]

theorem isBool_normal {v : Json} (h : isBool v) : isBool v.normal := by
  cases v <;> simp_all [isBool, Json.normal]

theorem optional_normal {p : Json → Bool} {v : Option Json} (h : optional p v)
    (hp : ∀ w, v = some w → p w → p w.normal) : optional p (v.map Json.normal) := by
  cases v with
  | none => rfl
  | some w => exact hp w rfl h

theorem blockTyped_normal {v : Json} (hv : v.Native) (h : blockTyped v) : blockTyped v.normal := by
  cases hv with
  | obj hkeys horder _ =>
    rw [normal_fields hkeys horder]
    simp only [blockTyped, Json.obj?_obj, Option.any_some, Bool.and_eq_true, hasStr_normal,
      field_normal] at h ⊢
    have hstr : ∀ {w : Option Json}, optional isStr w → optional isStr (w.map Json.normal) :=
      fun hw => optional_normal hw fun x _ hx => by rwa [isStr_normal]
    exact ⟨⟨⟨h.1.1.1, hstr h.1.1.2⟩, hstr h.1.2⟩, hstr h.2⟩
  | _ => simp [blockTyped, Json.obj?] at h

theorem contentTyped_normal {v : Json} (hv : v.Native) (h : contentTyped v) :
    contentTyped v.normal := by
  cases hv with
  | str s => exact h
  | @arr xs hxs =>
    simp only [contentTyped, isStr, Json.str?, Option.isSome_none, Json.arr?_arr, Option.any_some,
      Bool.false_or, List.all_eq_true, Json.normal, Json.normalElements_eq_map, List.mem_map,
      forall_exists_index, and_imp, forall_apply_eq_imp_iff₂] at h ⊢
    exact fun x hx => blockTyped_normal (hxs x hx) (h x hx)
  | _ => simp [contentTyped, isStr, Json.str?, Json.arr?] at h

/-- A message keeps its types when it is read back. -/
theorem messageTyped_normal {v : Json} (hv : v.Native) (h : messageTyped v)
    (hexit : ∀ fields, v = .obj fields → ∀ w, field fields "exitCode" = some w → StaysNumber w) :
    messageTyped v.normal := by
  cases hv with
  | @obj fields hkeys horder hfields =>
    have hget : ∀ key w, field fields key = some w → w.Native := fun key w hw =>
      hfields _ (mem_of_mapGet hw)
    have hstr : ∀ {w : Option Json}, optional isStr w → optional isStr (w.map Json.normal) :=
      fun hw => optional_normal hw fun x _ hx => by rwa [isStr_normal]
    have hbool : ∀ {w : Option Json}, optional isBool w → optional isBool (w.map Json.normal) :=
      fun hw => optional_normal hw fun x _ hx => isBool_normal hx
    rw [normal_fields hkeys horder]
    simp only [messageTyped, Json.obj?_obj, Option.any_some, Bool.and_eq_true, hasStr_normal,
      field_normal] at h ⊢
    obtain ⟨⟨⟨⟨⟨⟨⟨⟨⟨⟨⟨hrole, hcontent⟩, hstop⟩, herror⟩, hcall⟩, htool⟩, hisError⟩, hcommand⟩, houtput⟩,
      hcode⟩, hpath⟩, hexclude⟩ := h
    refine ⟨⟨⟨⟨⟨⟨⟨⟨⟨⟨⟨hrole, ?_⟩, hstr hstop⟩, hstr herror⟩, hstr hcall⟩, hstr htool⟩, hbool hisError⟩,
      hstr hcommand⟩, hstr houtput⟩, ?_⟩, hstr hpath⟩, hbool hexclude⟩
    · exact optional_normal hcontent fun w hw hx => contentTyped_normal (hget _ w hw) hx
    · refine optional_normal hcode fun w hw hx => ?_
      exact hexit fields rfl w hw hx
  | _ => simp [messageTyped, Json.obj?] at h

/-- What is read back of a record is a record, where its counts stay numbers. -/
theorem exists_reread (hnative : e.json.Native)
    (htokens : ∀ v, field e.fields "tokensBefore" = some v → StaysNumber v)
    (hexit : ∀ v, field e.message "exitCode" = some v → StaysNumber v) : ∃ r, Reread e r := by
  have htyped : recordTyped (e.fields.map fun f => (f.1, f.2.normal)) = true := by
    have htyped := e.typed
    have hget : ∀ key w, field e.fields key = some w → w.Native := fun key w hw =>
      @Json.Native.get? _ _ hnative (lit key) hw
    have hany : ∀ {p : Json → Bool} {key : String}, (field e.fields key).any p →
        (∀ w, field e.fields key = some w → p w → p w.normal) →
        ((field e.fields key).map Json.normal).any p := by
      intro p key h hp
      cases hw : field e.fields key with
      | none => simp [hw] at h
      | some w => simpa [hw] using hp w hw (by simpa [hw] using h)
    have hcontent : ∀ {w : Json}, w.Native → (w.get? (lit "content")).any contentTyped →
        (w.normal.get? (lit "content")).any contentTyped := by
      intro w hw h
      rw [get?_normal hw]
      cases hc : w.get? (lit "content") with
      | none => simp [hc] at h
      | some c => simpa [hc] using contentTyped_normal (hw.get? hc) (by simpa [hc] using h)
    have hstrField : ∀ key, strField (e.fields.map fun f => (f.1, f.2.normal)) key =
        strField e.fields key := fun key => by rw [strField, strField?_normal, strField]
    unfold recordTyped at htyped ⊢
    simp only [hasStr_normal, field_normal, hstrField, Bool.and_eq_true] at htyped ⊢
    obtain ⟨⟨⟨⟨hid, hparent⟩, htype⟩, htime⟩, hkind⟩ := htyped
    refine ⟨⟨⟨⟨hid, hany hparent fun w _ h => ?_⟩, htype⟩, htime⟩, ?_⟩
    · rw [Bool.or_eq_true] at h ⊢
      exact h.imp isNull_normal fun h => by rwa [isStr_normal]
    · cases hname : RecordType.ofName (strField e.fields "type") with
      | message =>
        rw [hname] at hkind
        refine hany hkind fun w hw h => messageTyped_normal (hget _ w hw) h ?_
        rintro fields rfl v hv
        exact hexit v (by simpa [SessionRecord.message, hw] using hv)
      | compaction =>
        simp only [hname, Bool.and_eq_true] at hkind ⊢
        exact ⟨hkind.1, hany hkind.2 fun w hw h => htokens w hw h⟩
      | custom =>
        simpa only [hname] using hkind
      | customMessage =>
        rw [hname] at hkind
        exact hany hkind fun w hw h => contentTyped_normal (hget _ w hw) h
      | branchSummary => simpa only [hname] using hkind
      | contextEdit =>
        simp only [hname, Bool.and_eq_true] at hkind ⊢
        refine ⟨hkind.1, hany hkind.2 fun w hw h => ?_⟩
        rw [Bool.or_eq_true] at h ⊢
        exact h.imp isNull_normal (hcontent (hget _ w hw))
      | other name => rfl
  refine ⟨⟨_, htyped⟩, ?_⟩
  cases hnative with
  | obj hkeys horder _ =>
    rw [Reread, parse_stringify, SessionRecord.json, normal_fields hkeys horder]
    rfl

/-! ### What the checks ask of it -/

/-- The `details` of a checkpoint. -/
theorem details_reread (hnative : c.json.Native) (h : Reread c c') {data : List (Str × Json)}
    (hdata : c.details.bind Json.obj? = some data) :
    c'.details.bind Json.obj? = some (data.map fun f => (f.1, f.2.normal)) ∧
      (Json.obj data).Native := by
  obtain ⟨v, hv, hobj⟩ := Option.bind_eq_some_iff.mp hdata
  obtain rfl := Json.obj?_eq_some.mp hobj
  cases hnative with
  | obj hkeys horder hfields =>
    have hdetails := hfields _ (mem_of_mapGet hv)
    refine ⟨?_, hdetails⟩
    cases hdetails with
    | obj hkeys' horder' _ =>
      rw [SessionRecord.details, fields_reread (.obj hkeys horder hfields) h, field_normal,
        show field c.fields "details" = some (.obj data) from hv, Option.map_some,
        normal_fields hkeys' horder']
      rfl

theorem storedNoteLimit_normal {v : Json} (h : v.Native) :
    storedNoteLimit (some v.normal) = storedNoteLimit (some v) := by
  have hcount : ∀ key, countField? v.normal key = countField? v key := by
    intro key
    rw [countField?, get?_normal h, countField?]
    cases v.get? (lit key) with
    | none => rfl
    | some w => exact count?_normal w
  have hmode : (v.normal.get? (lit "mode")).bind Json.str? = (v.get? (lit "mode")).bind Json.str? := by
    rw [get?_normal h]
    cases v.get? (lit "mode") with
    | none => rfl
    | some w => exact str?_normal w
  simp only [storedNoteLimit, hcount, hmode]

/-- What passes the note's schema passes it when read back. -/
theorem kept_noteSchema : Kept len noteSchema := by
  have hfact : Kept len factSchema := by
    refine kept_object fun p hp => ?_
    simp only [List.mem_cons, List.not_mem_nil, or_false] at hp
    rcases hp with rfl | rfl | rfl | rfl
    · exact kept_string _ _
    · exact kept_array (kept_string _ _) _ _ _
    · exact kept_string _ _
    · exact kept_array (kept_string _ _) _ _ _
  refine kept_object fun p hp => ?_
  rcases List.mem_append.mp hp with hp | hp
  · obtain ⟨s, -, rfl⟩ := List.mem_map.mp hp
    exact kept_array hfact _ _ _
  · obtain rfl := List.mem_singleton.mp hp
    exact kept_array (kept_string _ _) _ _ _

/-! ## Branches with the same texts -/

/-- The same text, entry by entry. -/
def SameTexts (xs ys : List SessionRecord) : Prop :=
  List.Forall₂ (fun x y => SameText x.json y.json) xs ys

theorem SameTexts.hashEntries {xs ys : List SessionRecord} (h : SameTexts xs ys) :
    hashEntries sha256 xs = hashEntries sha256 ys := by
  have hframes := map_eq_of_forall₂ (f := fun x : SessionRecord => frame (stringify x.json))
    (fun _ _ hxy => congrArg frame hxy) h
  rw [Compaction.hashEntries, List.flatMap_def, hframes, ← List.flatMap_def, Compaction.hashEntries]

theorem SameTexts.findIdx {xs ys : List SessionRecord} (h : SameTexts xs ys) (id : Str) :
    xs.findIdx? (fun source => source.id = id) = ys.findIdx? fun source => source.id = id := by
  have hids := map_eq_of_forall₂ (f := SessionRecord.id) (fun _ _ hxy => id_sameText hxy) h
  have hfind : ∀ zs : List SessionRecord, zs.findIdx? (fun source => decide (source.id = id)) =
      (zs.map SessionRecord.id).findIdx? (fun id' => decide (id' = id)) := fun zs => by
    rw [List.findIdx?_map]
    rfl
  rw [hfind, hids, ← hfind]

theorem SameTexts.take {xs ys : List SessionRecord} (h : SameTexts xs ys) (n : Nat) :
    SameTexts (xs.take n) (ys.take n) := List.forall₂_take n h

theorem isStop_sameText (h : SameText e.json r.json) : isStop e = isStop r := by
  have hmessage := sameFields_message h
  rw [isStop, isStop, type_sameText h, SessionRecord.role, SessionRecord.role,
    sameFields_strField hmessage "role", SessionRecord.stopReason, SessionRecord.stopReason,
    strField?, strField?]
  rcases rel_cases (sameFields_field hmessage "stopReason") with ⟨hv, hw⟩ | ⟨a, b, hv, hw, hab⟩
  · rw [hv, hw]
  · rw [hv, hw, Option.bind_some, Option.bind_some, hab.str?]

theorem SameTexts.inProgressRequests {xs ys : List SessionRecord} (h : SameTexts xs ys) :
    SameTexts (inProgressRequests xs) (inProgressRequests ys) := by
  refine rel_filter_eq (List.rel_reverse ?_) fun _ _ hxy => isUser_sameText hxy
  have hreverse : SameTexts xs.reverse ys.reverse := List.rel_reverse h
  generalize xs.reverse = xs, ys.reverse = ys at hreverse
  induction hreverse with
  | nil => exact .nil
  | @cons x y xs ys hxy _ ih =>
    rw [List.takeWhile_cons, List.takeWhile_cons, isStop_sameText hxy]
    split
    · exact .cons hxy ih
    · exact .nil

/-- Branches of the same texts decide alike about a continuation. -/
theorem SameTexts.checkContinuation {xs ys : List SessionRecord} (h : SameTexts xs ys)
    (hc : SameText c.json c'.json) {data data' : List (Str × Json)}
    (hdata : Option.Rel SameText (field data "continuation") (field data' "continuation"))
    (note : MemoryNote) :
    checkContinuation c data note xs sourceText = checkContinuation c' data' note ys sourceText := by
  have hids := map_eq_of_forall₂ (f := SessionRecord.id) (fun _ _ hxy => id_sameText hxy) h
  have htexts := map_eq_of_forall₂ (f := fun entry : SessionRecord =>
    stringify (.obj [(lit "entryId", .str entry.id), (lit "request", .str (sourceText entry))]))
    (fun _ _ hxy => by rw [id_sameText hxy, sourceText_sameText hxy]) h
  have hsummary : c.summary = c'.summary := sameFields_strField (sameFields_record hc) "summary"
  have hempty : xs = [] ↔ ys = [] := by
    rw [← List.length_eq_zero_iff, h.length_eq, List.length_eq_zero_iff]
  unfold Compaction.checkContinuation
  rcases rel_cases hdata with ⟨hv, hw⟩ | ⟨a, b, hv, hw, hab⟩
  · rw [hv, hw]
  · rw [hv, hw]
    have hrender : renderContinuationWithText xs sourceText = renderContinuationWithText ys sourceText := by
      rw [renderContinuationWithText, htexts, renderContinuationWithText]
    have htext : stringify a = stringify b := hab
    refine if_congr ?_ rfl rfl
    rw [hempty, hids, hrender, hsummary, htext]

/-- Entries of the same text are opaque checkpoints alike. -/
theorem opaque_sameText (h : SameText e.json r.json) : opaqueCheckpoint e = opaqueCheckpoint r := by
  have hdetails : Option.Rel SameText e.details r.details :=
    sameFields_field (sameFields_record h) "details"
  have hkind : (e.details.bind Json.obj?).any (fun details =>
      strField? details "kind" = some (lit "pi-codex-remote-compaction")) =
      (r.details.bind Json.obj?).any fun details =>
        strField? details "kind" = some (lit "pi-codex-remote-compaction") := by
    rcases rel_cases hdetails with ⟨hv, hw⟩ | ⟨a, b, hv, hw, hab⟩
    · rw [hv, hw]
    · rw [hv, hw, Option.bind_some, Option.bind_some]
      rcases rel_cases hab.obj? with ⟨ha, hb⟩ | ⟨fs, gs, ha, hb, hfg⟩
      · rw [ha, hb]
      · rw [ha, hb, Option.any_some, Option.any_some, strField?, strField?]
        rcases rel_cases (sameFields_field hfg "kind") with ⟨hv, hw⟩ | ⟨x, y, hv, hw, hxy⟩
        · rw [hv, hw]
        · rw [hv, hw, Option.bind_some, Option.bind_some, hxy.str?]
  rw [opaqueCheckpoint, hkind, show e.summary = r.summary from
    sameFields_strField (sameFields_record h) "summary", opaqueCheckpoint]

/-! ## The checks on a branch that is read back -/

/-- A checkpoint that is valid stays so when the branch is read back. -/
theorem validateDetails_reread (hnative : c.json.Native) (hread : Reread c c')
    {data : List (Str × Json)} (hdata : c.details.bind Json.obj? = some data)
    (hsame : SameTexts branch stored) {index : Nat} {m : ValidatedMemory}
    (h : validateDetails len c data index (plainValidation sha256 .pi branch index) = .ok m) :
    ∃ m', validateDetails len c' (data.map fun f => (f.1, f.2.normal)) index
      (plainValidation sha256 .pi stored index) = .ok m' := by
  have hc := sameText_reread hnative hread
  have hdetails := (details_reread hnative hread hdata).2
  have hvalue : ∀ key v, field data key = some v → v.Native := fun key v hv =>
    @Json.Native.get? _ _ hdetails (lit key) hv
  obtain ⟨hshape, last, hlast, hlt, hhash, hstored⟩ := validateDetails_ok.mp h
  obtain ⟨hardTokens, note, htokens, hnote, hbudget, hsummary, hcontinuation, -⟩ :=
    validateStored_ok.mp hstored
  have hversion : (field (data.map fun f => (f.1, f.2.normal)) "version").bind count? =
      (field data "version").bind count? := by
    rw [field_normal]
    cases field data "version" with
    | none => rfl
    | some v => exact count?_normal v
  have hlimit : storedNoteLimit (field (data.map fun f => (f.1, f.2.normal)) "noteBudget") =
      storedNoteLimit (field data "noteBudget") := by
    rw [field_normal]
    cases hv : field data "noteBudget" with
    | none => rfl
    | some v => exact storedNoteLimit_normal (hvalue _ _ hv)
  -- a note that passes is made of strings
  have hkept : (field (data.map fun f => (f.1, f.2.normal)) "note").getD .null =
      (field data "note").getD .null := by
    rw [field_normal]
    obtain ⟨hschema, -, -⟩ := validateNoteSources_ok.mp hnote
    cases hv : field data "note" with
    | none => rfl
    | some v =>
      rw [hv] at hschema
      exact kept_noteSchema v (hvalue _ _ hv) hschema
  have hrel : Option.Rel SameText (field data "continuation")
      (field (data.map fun f => (f.1, f.2.normal)) "continuation") := by
    rw [field_normal]
    cases hv : field data "continuation" with
    | none => exact .none
    | some v => exact .some (stringify_normal (hvalue _ _ hv))
  have hchecked := ((hsame.take (last + 1)).inProgressRequests).checkContinuation hc hrel note
  have htexts : textById (stored.take index) = textById (branch.take index) := by
    refine (textById_sameText ?_).symm
    rw [List.forall₂_map_left_iff, List.forall₂_map_right_iff]
    exact hsame.take index
  refine ⟨⟨c', data.map fun f => (f.1, f.2.normal)⟩, validateDetails_ok.mpr ⟨?_, last, ?_, hlt, ?_,
    validateStored_ok.mpr ⟨hardTokens, note, hlimit.trans htokens, ?_, ?_, ?_, ?_, rfl⟩⟩⟩
  · simpa only [hversion, hasStr, strField?_normal] using hshape
  · simpa only [plainValidation, strField, strField?_normal, hsame.findIdx] using hlast
  · simpa only [plainValidation, strField, strField?_normal, hashRecords,
      (hsame.take (last + 1)).hashEntries] using hhash
  · simpa only [hkept, plainValidation, htexts] using hnote
  · rwa [hkept]
  · rwa [show c'.summary = c.summary from
      (sameFields_strField (sameFields_record hc) "summary").symm]
  · exact hchecked.symm.trans hcontinuation

theorem sameTexts_of_reread (hnative : ∀ e ∈ branch, e.json.Native)
    (h : List.Forall₂ Reread branch stored) : SameTexts branch stored := by
  have hboth := (List.forall₂_and_left branch stored).mpr ⟨hnative, h⟩
  exact hboth.imp fun _ _ hxy => sameText_reread hxy.1 hxy.2

theorem related_append {α β : Type} {R : α → β → Prop} {xs ys : List α} {zs : List β}
    (h : List.Forall₂ R (xs ++ ys) zs) :
    ∃ xs' ys', zs = xs' ++ ys' ∧ List.Forall₂ R xs xs' ∧ List.Forall₂ R ys ys' := by
  induction xs generalizing zs with
  | nil => exact ⟨[], zs, rfl, .nil, h⟩
  | cons x xs ih =>
    rw [List.cons_append] at h
    cases h with
    | cons hx h =>
      obtain ⟨xs', ys', rfl, hxs, hys⟩ := ih h
      exact ⟨_ :: xs', ys', rfl, .cons hx hxs, hys⟩

/-- A readable branch that is read back is readable. -/
theorem readable_reread (hnative : ∀ e ∈ branch, e.json.Native)
    (h : List.Forall₂ Reread branch stored)
    (hread : assertReadableBranch len sha256 branch = .ok ()) :
    assertReadableBranch len sha256 stored = .ok () := by
  have htypes : ∀ {xs ys : List SessionRecord}, SameTexts xs ys →
      (∀ x ∈ xs, x.type ≠ .compaction) → ∀ y ∈ ys, y.type ≠ .compaction := by
    intro xs ys hxy hxs y hy
    obtain ⟨x, hx, hpair⟩ := exists_related hxy hy
    exact type_sameText hpair ▸ hxs x hx
  have hsame := sameTexts_of_reread hnative h
  rw [assertReadableBranch] at hread ⊢
  cases hlast : lastCompaction branch with
  | none =>
    have hnone := lastCompaction_eq_none.mpr (htypes hsame (lastCompaction_eq_none.mp hlast))
    rw [hnone]
  | some c =>
    rw [hlast] at hread
    obtain ⟨before, after, rfl, hc, hafter⟩ := split_of_lastCompaction hlast
    obtain ⟨before', rest, rfl, hbefore, hrest⟩ := related_append h
    obtain ⟨c', after', hcc, hbehind, rfl⟩ := List.forall₂_cons_left_iff.mp hrest
    have hnative' : c.json.Native := hnative c (by simp)
    have hcsame := sameText_reread hnative' hcc
    have hc' : c'.type = .compaction := (type_sameText hcsame).symm.trans hc
    have hafter' := htypes (sameTexts_of_reread (fun e he => hnative e (by simp [he])) hbehind) hafter
    rw [lastCompaction_split hc' hafter']
    dsimp only at hread ⊢
    rw [opaque_sameText hcsame] at hread
    split at hread
    next => cases hread
    next hnot =>
    rw [if_neg hnot]
    rw [latestMemory_split hc hafter] at hread
    rw [latestMemory_split hc' hafter', ← hbefore.length_eq]
    by_cases hmemory : ∃ data, c.details.bind Json.obj? = some data ∧
        strField? data "kind" = some CONTEXT_MEMORY_KIND
    · obtain ⟨data, hdata, hkind⟩ := hmemory
      rw [validate_memory hdata hkind] at hread
      obtain ⟨_, hvalid, -⟩ := map_ok.mp hread
      obtain ⟨m, hm, -⟩ := map_ok.mp hvalid
      obtain ⟨m', hm'⟩ := validateDetails_reread hnative' hcc hdata hsame hm
      rw [validate_memory (details_reread hnative' hcc hdata).1 (by rwa [strField?_normal]), hm']
      rfl
    · have hother : ∀ data, c'.details.bind Json.obj? = some data →
          strField? data "kind" ≠ some CONTEXT_MEMORY_KIND := by
        intro data hdata hkind
        rcases rel_cases (sameFields_field (sameFields_record hcsame) "details") with
          ⟨-, hw⟩ | ⟨a, b, hv, hw, hab⟩
        · rw [SessionRecord.details, hw] at hdata
          cases hdata
        · rw [SessionRecord.details, hw, Option.bind_some] at hdata
          rcases rel_cases hab.obj? with ⟨-, hb⟩ | ⟨fs, gs, ha, hb, hfg⟩
          · rw [hb] at hdata
            cases hdata
          · obtain rfl := Option.some.inj (hb.symm.trans hdata)
            refine hmemory ⟨fs, ?_, ?_⟩
            · rw [SessionRecord.details, hv]
              exact ha
            · rw [← hkind, strField?, strField?]
              rcases rel_cases (sameFields_field hfg "kind") with ⟨hx, hy⟩ | ⟨x, y, hx, hy, hxy⟩
              · rw [hx, hy]
              · rw [hx, hy, Option.bind_some, Option.bind_some, hxy.str?]
      rw [validate_other hother]
      rfl

end Compaction
