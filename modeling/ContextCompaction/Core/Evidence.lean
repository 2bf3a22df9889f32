import ContextCompaction.Core.Canonical
import ContextCompaction.Core.Notes

/-!
# Canonical text and evidence

The canonical hash reads a record's structural fields in key order; a citation reads the record's
text, in which a tool call's arguments stand in the order they are stored in.

* `toolCallArguments`: the part of the text that depends on that order.
* `evidence_of_canonical`: records with one canonical text have one role, and one text if their
  tool-call arguments are stored alike.
* `validateNoteContent_of_rearranged`: a note is accepted on both of two such branches or on
  neither.
-/

namespace Compaction

open Js

/-! ## Fields up to order -/

theorem mapGet_present (properties : List (String × Option Json)) (k : Str) :
    mapGet (present properties) k =
      properties.findSome? fun p => if lit p.1 = k then p.2 else none := by
  induction properties with
  | nil => rfl
  | cons p properties ih =>
    obtain ⟨key, v⟩ := p
    unfold present at *
    cases v with
    | none => simpa using ih
    | some v => by_cases h : lit key = k <;> simp [h, ih]

/-- With distinct names each property is found under its own. -/
theorem mapGet_present_of_mem {properties : List (String × Option Json)}
    (hd : (properties.map Prod.fst).Nodup) {key : String} {v : Option Json}
    (h : (key, v) ∈ properties) : mapGet (present properties) (lit key) = v := by
  rw [mapGet_present]
  induction properties with
  | nil => cases h
  | cons p properties ih =>
    rw [List.map_cons, List.nodup_cons] at hd
    rw [List.findSome?_cons]
    rcases List.mem_cons.mp h with rfl | h
    · simp only [↓reduceIte]
      cases v with
      | some v => rfl
      | none =>
        refine List.findSome?_eq_none_iff.mpr fun p hp => ?_
        have hne : p.1 ≠ key := fun hk => hd.1 (List.mem_map.mpr ⟨p, hp, hk⟩)
        simp [hne]
    · have hne : p.1 ≠ key := fun hk => hd.1 (List.mem_map.mpr ⟨(key, v), h, hk.symm⟩)
      rw [if_neg (by simpa using hne)]
      exact ih hd.2 h

/-- Both absent, or both there and the same. -/
def SameOpt (v w : Option Json) : Prop := Option.Rel Json.Same v w

theorem same_field {fs gs : List (Str × Json)} (h : (Json.obj fs).Same (.obj gs)) (key : String) :
    SameOpt (field fs key) (field gs key) := by
  unfold field
  rcases h.get (lit key) with ⟨hx, hy⟩ | ⟨x, y, hx, hy, hxy⟩
  · rw [hx, hy]
    exact .none
  · rw [hx, hy]
    exact .some hxy

theorem SameOpt.strField {fs gs : List (Str × Json)} {key : String}
    (h : SameOpt (field fs key) (field gs key)) : strField? fs key = strField? gs key := by
  unfold strField?
  generalize field fs key = v at h
  generalize field gs key = w at h
  cases h with
  | none => rfl
  | some h => cases h <;> rfl

theorem same_strField {fs gs : List (Str × Json)} (h : (Json.obj fs).Same (.obj gs)) (key : String) :
    strField fs key = strField gs key := by
  rw [strField, strField, (same_field h key).strField]

/-- The same strings or numbers have the same text. -/
theorem SameOpt.stringify {v w : Option Json} (h : SameOpt v w)
    (hflat : ∀ x ∈ v, x.str?.isSome = true ∨ x.num?.isSome = true) :
    v.map stringify = w.map stringify := by
  cases h with
  | none => rfl
  | some h =>
    rcases hflat _ rfl with hx | hx
    · cases h <;> first | rfl | cases hx
    · cases h with
      | num h => exact congrArg some h.json
      | _ => cases hx

/-- Objects built from the same optional fields are the same. -/
theorem same_present {ps qs : List (String × Option Json)}
    (h : List.Forall₂ (fun p q => p.1 = q.1 ∧ SameOpt p.2 q.2) ps qs) :
    (Json.obj (present ps)).Same (.obj (present qs)) := by
  have hget : ∀ k, SameOpt (mapGet (present ps) k) (mapGet (present qs) k) := by
    intro k
    rw [mapGet_present, mapGet_present]
    induction h with
    | nil => exact .none
    | @cons p q ps qs hpq _ ih =>
      obtain ⟨key, v⟩ := p
      obtain ⟨key', w⟩ := q
      obtain ⟨rfl, hvw⟩ := hpq
      rw [List.findSome?_cons, List.findSome?_cons]
      by_cases hk : lit key = k
      · simp only [hk, ↓reduceIte]
        cases hvw with
        | none => exact ih
        | some hvw => exact .some hvw
      · simpa only [hk, ↓reduceIte] using ih
  refine .obj (fun k => ?_) fun k x y hx hy => ?_
  · have := hget k
    generalize mapGet (present ps) k = v at this
    generalize mapGet (present qs) k = w at this
    cases this <;> rfl
  · have := hget k
    rw [hx, hy] at this
    cases this with
    | some h => exact h

/-- Objects built from fields of the same texts have the same text. -/
theorem stringify_present {ps qs : List (String × Option Json)}
    (h : ps.map (fun p => (p.1, p.2.map stringify)) = qs.map fun p => (p.1, p.2.map stringify)) :
    stringify (.obj (present ps)) = stringify (.obj (present qs)) := by
  have htexts : ∀ ps : List (String × Option Json),
      (present ps).map (fun e => memberText (e.1, stringify e.2)) =
        (ps.map fun p => (p.1, p.2.map stringify)).filterMap fun p =>
          p.2.map fun t => memberText (lit p.1, t) := by
    intro ps
    induction ps with
    | nil => rfl
    | cons p ps ih =>
      obtain ⟨key, v⟩ := p
      unfold present at *
      cases v with
      | none => simpa using ih
      | some v => simpa using ih
  rw [stringify_obj, stringify_obj, htexts, htexts, h]

/-- Distinct names and distinct values make a distinct object. -/
theorem distinct_present {ps : List (String × Option Json)} (hd : (ps.map Prod.fst).Nodup)
    (h : ∀ p ∈ ps, ∀ v ∈ p.2, v.Distinct) : (Json.obj (present ps)).Distinct := by
  have hsub : List.Sublist ((present ps).map Prod.fst) ((ps.map Prod.fst).map lit) := by
    unfold present
    clear hd h
    induction ps with
    | nil => exact .slnil
    | cons p ps ih =>
      obtain ⟨key, v⟩ := p
      cases v with
      | none => simpa using ih.cons _
      | some v => simpa using ih
  refine .obj ((hd.map fun _ _ hk => lit_inj.mp hk).sublist hsub) fun e he => ?_
  obtain ⟨p, hp, hmap⟩ := List.mem_filterMap.mp he
  obtain ⟨v, hv, rfl⟩ := Option.map_eq_some_iff.mp hmap
  exact h p hp v hv

/-! ## Normalized records -/

/-- The structural fields of the message. -/
def normalizedMessage (record : SessionRecord) : List (Str × Json) :=
  present (messageFields.map fun key => (key, field record.message key))

theorem nodup_messageFields : messageFields.Nodup := by decide

theorem field_normalizedMessage {record : SessionRecord} {key : String} (h : key ∈ messageFields) :
    field (normalizedMessage record) key = field record.message key := by
  refine mapGet_present_of_mem ?_ (List.mem_map.mpr ⟨key, h, rfl⟩)
  rw [List.map_map]
  exact nodup_messageFields.map fun _ _ h => h

theorem distinct_get {fields : List (Str × Json)} (h : (Json.obj fields).Distinct) {key : String}
    {v : Json} (hv : field fields key = some v) : v.Distinct := by
  cases h with
  | obj _ h => exact h _ (mem_of_mapGet hv)

theorem distinct_message {record : SessionRecord} (h : record.json.Distinct) :
    (Json.obj record.message).Distinct := by
  unfold SessionRecord.message
  cases hm : field record.fields "message" with
  | none => exact .obj .nil (by simp)
  | some v =>
    have hv := distinct_get h hm
    cases v with
    | obj fields => exact hv
    | _ => exact .obj .nil (by simp [Json.obj?])

/-- Normalizing keeps the keys of a record distinct. -/
theorem distinct_normalizeRecord {record : SessionRecord} (h : record.json.Distinct) :
    (Json.obj (normalizeRecord record)).Distinct := by
  have hfield : ∀ key : String, ∀ v ∈ field record.fields key, v.Distinct :=
    fun key v hv => distinct_get h hv
  have hmessage : (Json.obj (normalizedMessage record)).Distinct := by
    refine distinct_present ?_ fun p hp v hv => ?_
    · rw [List.map_map]
      exact nodup_messageFields.map fun _ _ h => h
    · obtain ⟨key, -, rfl⟩ := List.mem_map.mp hp
      exact distinct_get (distinct_message h) hv
  unfold normalizeRecord
  cases record.type <;> refine distinct_present (by simp) ?_ <;>
    simp only [List.cons_append, List.nil_append, List.mem_cons, List.not_mem_nil, or_false,
      forall_eq_or_imp, forall_eq, Option.mem_some_iff]
  case message =>
    refine ⟨hfield _, hfield _, hfield _, hfield _, ?_⟩
    rintro v rfl
    exact hmessage
  case compaction =>
    exact ⟨hfield _, hfield _, hfield _, hfield _, hfield _, hfield _, hfield _, hfield _⟩
  case custom => exact ⟨hfield _, hfield _, hfield _, hfield _, hfield _, hfield _⟩
  case customMessage => exact ⟨hfield _, hfield _, hfield _, hfield _, hfield _⟩
  case branchSummary => exact ⟨hfield _, hfield _, hfield _, hfield _, hfield _⟩
  case contextEdit => exact ⟨hfield _, hfield _, hfield _, hfield _, hfield _, hfield _⟩
  case other => exact ⟨hfield _, hfield _, hfield _, hfield _⟩

/-- Records that are the same have normalized forms that are. -/
theorem same_normalizeRecord {r r' : SessionRecord} (h : r.json.Same r'.json) :
    (Json.obj (normalizeRecord r)).Same (.obj (normalizeRecord r')) := by
  have hfield := same_field h
  have htype : r.type = r'.type := by
    rw [SessionRecord.type, SessionRecord.type, same_strField h]
  have hmessage : (Json.obj r.message).Same (.obj r'.message) := by
    unfold SessionRecord.message
    have := hfield "message"
    generalize field r.fields "message" = v at this
    generalize field r'.fields "message" = w at this
    cases this with
    | none => exact .refl _
    | some hvw =>
      cases hvw with
      | obj hkeys h => exact .obj hkeys h
      | _ => exact .refl _
  have hnormalized : (Json.obj (normalizedMessage r)).Same (.obj (normalizedMessage r')) := by
    refine same_present ?_
    rw [List.forall₂_map_left_iff, List.forall₂_map_right_iff]
    exact List.forall₂_same.mpr fun key _ => ⟨rfl, same_field hmessage key⟩
  unfold normalizeRecord
  rw [← htype]
  cases r.type <;> refine same_present ?_ <;>
    simp only [List.cons_append, List.nil_append, List.forall₂_cons, List.forall₂_nil_left_iff, hfield,
      true_and, and_true]
  exact .some hnormalized

/-! ## The same evidence -/

/-- The texts of a message's tool-call arguments, block by block. -/
def toolCallArguments (entry : SessionRecord) : List (Option Str) :=
  match field entry.message "content" with
  | none => []
  | some content => (blocks content).map fun block =>
      if strField block "type" = lit "toolCall" then (field block "arguments").map stringify else none

theorem typed_message {r : SessionRecord} (h : r.type = .message) :
    messageTyped (.obj r.message) = true := by
  have ht := r.typed
  have htype : RecordType.ofName (strField r.fields "type") = .message := h
  simp only [recordTyped, htype, Bool.and_eq_true] at ht
  unfold SessionRecord.message
  cases hm : field r.fields "message" with
  | none => simp [hm] at ht
  | some v =>
    have hv : messageTyped v = true := by simpa [hm] using ht.2
    cases v with
    | obj fields => exact hv
    | _ => simp [messageTyped, Json.obj?] at hv

theorem optional_isStr {v : Option Json} (h : optional isStr v = true) :
    ∀ x ∈ v, x.str?.isSome = true ∨ x.num?.isSome = true := by
  rintro x rfl
  exact .inl h

/-- Blocks that are the same have the same text, if their arguments are written alike. -/
theorem blockText_same {b b' : List (Str × Json)} (h : (Json.obj b).Same (.obj b'))
    (ht : blockTyped (.obj b) = true)
    (harguments : strField b "type" = lit "toolCall" →
      (field b "arguments").map stringify = (field b' "arguments").map stringify) :
    blockText b = blockText b' := by
  unfold blockText
  rw [same_strField h "type", same_strField h "text"] at *
  split_ifs with h₁ h₂
  · rfl
  · refine stringify_present ?_
    have hname := (same_field h "name").stringify (optional_isStr (by
      simp only [blockTyped, Json.obj?_obj, Option.any_some, Bool.and_eq_true] at ht
      exact ht.2))
    simp only [List.map_cons, List.map_nil, hname, harguments h₂]
  · rfl

/-- Contents that are the same up to order, with arguments stored alike, have one text. -/
theorem contentText_same {c c' : Json} (h : c.Same c') (ht : contentTyped c = true)
    (hargs : (blocks c).map (fun b =>
        if strField b "type" = lit "toolCall" then (field b "arguments").map stringify else none) =
      (blocks c').map fun b =>
        if strField b "type" = lit "toolCall" then (field b "arguments").map stringify else none) :
    (blocks c).map blockText = (blocks c').map blockText := by
  cases h with
  | @arr xs ys hlen hsame =>
    simp only [blocks, Json.arr?_arr, Option.getD_some, List.map_map] at hargs ⊢
    have htyped : ∀ x ∈ xs, blockTyped x = true := by
      simpa [contentTyped, isStr, Json.str?] using ht
    apply List.ext_getElem (by simpa using hlen)
    intro i hi hi'
    rw [List.length_map] at hi hi'
    have hx := htyped _ (List.getElem_mem hi)
    have hs := hsame i _ _ (List.getElem?_eq_getElem hi) (List.getElem?_eq_getElem hi')
    have harg := congrArg (fun l => l[i]?) hargs
    simp only [List.getElem?_map, List.getElem?_eq_getElem hi, List.getElem?_eq_getElem hi',
      Option.map_some, Option.some.injEq, Function.comp_apply] at harg
    rw [List.getElem_map, List.getElem_map, Function.comp_apply, Function.comp_apply]
    generalize xs[i] = x at hx hs harg
    generalize ys[i] = y at hs harg
    cases hs with
    | @obj b b' hkeys h =>
      change blockText b = blockText b'
      refine blockText_same (.obj hkeys h) hx fun htool => ?_
      have htool' : strField b' "type" = lit "toolCall" :=
        (same_strField (.obj hkeys h) "type").symm.trans htool
      change (if strField b "type" = lit "toolCall" then (field b "arguments").map stringify else none) =
        if strField b' "type" = lit "toolCall" then (field b' "arguments").map stringify else none at harg
      rwa [if_pos htool, if_pos htool'] at harg
    | _ => simp [blockTyped, Json.obj?] at hx
  | obj => simp [contentTyped, isStr, Json.str?, Json.arr?] at ht
  | _ => rfl

theorem field_normalizeRecord {r : SessionRecord} {key : String}
    (h : key ∈ ["id", "parentId", "type", "timestamp"]) :
    field (normalizeRecord r) key = field r.fields key := by
  unfold field normalizeRecord
  simp only [List.mem_cons, List.not_mem_nil, or_false] at h
  cases r.type <;> refine mapGet_present_of_mem (by simp) ?_ <;> rcases h with rfl | rfl | rfl | rfl <;>
    simp [field]

section

variable {r r' : SessionRecord}

/-- Messages of records of the same normalized form have the same fields. -/
theorem same_message (htype : r.type = .message) (htype' : r'.type = .message)
    (h : (Json.obj (normalizeRecord r)).Same (.obj (normalizeRecord r'))) {key : String}
    (hkey : key ∈ messageFields) : SameOpt (field r.message key) (field r'.message key) := by
  have hfield : ∀ s : SessionRecord, s.type = .message →
      field (normalizeRecord s) "message" = some (.obj (normalizedMessage s)) := by
    intro s hs
    unfold field normalizeRecord
    rw [hs]
    exact mapGet_present_of_mem (by simp) (by simp [normalizedMessage])
  have hmessage := same_field h "message"
  rw [hfield r htype, hfield r' htype'] at hmessage
  cases hmessage with
  | some hm =>
    have := same_field hm key
    rwa [field_normalizedMessage hkey, field_normalizedMessage hkey] at this

theorem same_content (htype : r.type = .customMessage) (htype' : r'.type = .customMessage)
    (h : (Json.obj (normalizeRecord r)).Same (.obj (normalizeRecord r'))) :
    SameOpt (field r.fields "content") (field r'.fields "content") := by
  have hfield : ∀ s : SessionRecord, s.type = .customMessage →
      field (normalizeRecord s) "content" = field s.fields "content" := by
    intro s hs
    unfold field normalizeRecord
    rw [hs]
    exact mapGet_present_of_mem (by simp) (by simp [field])
  have := same_field h "content"
  rwa [hfield r htype, hfield r' htype'] at this

theorem same_summary (htype : r.type = .branchSummary) (htype' : r'.type = .branchSummary)
    (h : (Json.obj (normalizeRecord r)).Same (.obj (normalizeRecord r'))) : r.summary = r'.summary := by
  have hfield : ∀ s : SessionRecord, s.type = .branchSummary →
      field (normalizeRecord s) "summary" = field s.fields "summary" := by
    intro s hs
    unfold field normalizeRecord
    rw [hs]
    exact mapGet_present_of_mem (by simp) (by simp [field])
  have := same_field h "summary"
  rw [hfield r htype, hfield r' htype'] at this
  exact congrArg (Option.getD · []) this.strField

/-- Contents that are the same have parts of the same text. -/
theorem partText_same {c c' : Json} (h : c.Same c') :
    (blocks c).map partText = (blocks c').map partText := by
  cases h with
  | @arr xs ys hlen hsame =>
    simp only [blocks, Json.arr?_arr, Option.getD_some, List.map_map]
    apply List.ext_getElem (by simpa using hlen)
    intro i hi hi'
    rw [List.length_map] at hi hi'
    have hs := hsame i _ _ (List.getElem?_eq_getElem hi) (List.getElem?_eq_getElem hi')
    rw [List.getElem_map, List.getElem_map, Function.comp_apply, Function.comp_apply]
    generalize xs[i] = x at hs
    generalize ys[i] = y at hs
    cases hs with
    | @obj b b' hkeys h =>
      change partText b = partText b'
      have hb : (Json.obj b).Same (.obj b') := .obj hkeys h
      rw [partText, partText, same_strField hb "type", same_strField hb "text"]
    | _ => rfl
  | _ => rfl

/-- Records of the same normalized form have the same source text, if their tool arguments are written
alike. -/
theorem sourceText_same (htype : r.type = r'.type)
    (h : (Json.obj (normalizeRecord r)).Same (.obj (normalizeRecord r')))
    (hargs : toolCallArguments r = toolCallArguments r') : sourceText r = sourceText r' := by
  unfold sourceText
  rw [← htype]
  cases ht : r.type with
  | message =>
    have hm := fun (key : String) (hkey : key ∈ messageFields) =>
      same_message ht (htype ▸ ht) h hkey
    have hrole : r.role = r'.role := congrArg (Option.getD · []) (hm "role" (by decide)).strField
    have htyped := typed_message ht
    simp only [messageTyped, Json.obj?_obj, Option.any_some, Bool.and_eq_true] at htyped
    obtain ⟨⟨⟨⟨⟨⟨⟨⟨⟨⟨⟨-, hcontent⟩, -⟩, -⟩, -⟩, -⟩, -⟩, hcommand⟩, houtput⟩, hexit⟩, hpath⟩, -⟩ := htyped
    simp only
    rw [← hrole]
    split_ifs with hbash
    · have hnum : ∀ x ∈ field r.message "exitCode", x.str?.isSome = true ∨ x.num?.isSome = true := by
        intro x hx
        rw [Option.mem_def] at hx
        rw [hx] at hexit
        exact .inr hexit
      refine stringify_present ?_
      simp only [List.map_cons, List.map_nil,
        (hm "command" (by decide)).stringify (optional_isStr hcommand),
        (hm "output" (by decide)).stringify (optional_isStr houtput),
        (hm "exitCode" (by decide)).stringify hnum,
        (hm "fullOutputPath" (by decide)).stringify (optional_isStr hpath)]
    · unfold toolCallArguments at hargs
      have hc := hm "content" (by decide)
      generalize field r.message "content" = v at hc hargs hcontent
      generalize field r'.message "content" = w at hc hargs
      cases hc with
      | none => rfl
      | some hc =>
        have htext := contentText_same hc hcontent hargs
        cases hc with
        | str s => rfl
        | _ => exact congrArg (join "\n") htext
  | customMessage =>
    have hc := same_content ht (htype ▸ ht) h
    simp only
    generalize field r.fields "content" = v at hc
    generalize field r'.fields "content" = w at hc
    cases hc with
    | none => rfl
    | some hc =>
      have htext := partText_same hc
      cases hc with
      | str s => rfl
      | _ => exact congrArg (join "\n") htext
  | branchSummary => exact same_summary ht (htype ▸ ht) h
  | _ => rfl

/-- Records with one canonical text have one ID and one role, and one text if their tool-call
arguments are stored alike. -/
theorem evidence_same (hd : r.json.Distinct) (hd' : r'.json.Distinct) {text : Str}
    (h : serializeCanonicalRecord r = .ok text) (h' : serializeCanonicalRecord r' = .ok text) :
    r.id = r'.id ∧ sourceRole r = sourceRole r' ∧
      (toolCallArguments r = toolCallArguments r' → sourceText r = sourceText r') := by
  have hp := plain_of_canonicalize (distinct_normalizeRecord hd) h
  have hp' := plain_of_canonicalize (distinct_normalizeRecord hd') h'
  have hsame := same_of_canonicalize hp hp' (h.trans h'.symm)
  have hname : ∀ key ∈ ["id", "parentId", "type", "timestamp"],
      strField r.fields key = strField r'.fields key := by
    intro key hkey
    have := same_field hsame key
    rw [field_normalizeRecord hkey, field_normalizeRecord hkey] at this
    exact congrArg (Option.getD · []) this.strField
  have htypeName := hname "type" (by decide)
  have htype : r.type = r'.type := congrArg RecordType.ofName htypeName
  refine ⟨hname "id" (by decide), ?_, sourceText_same htype hsame⟩
  unfold sourceRole
  rw [← htype]
  cases ht : r.type with
  | message =>
    exact congrArg (Option.getD · []) (same_message ht (htype ▸ ht) hsame (by decide)).strField
  | _ => exact htypeName

end

/-! ## Notes over rearranged branches -/

theorem textById_eq (sources : List SessionRecord) (id : Str) :
    textById sources id = mapGet (sources.map fun entry => (entry.id, sourceText entry)).reverse id := by
  have := mapGet_map sourceText (sources.map fun entry => (entry.id, entry)).reverse id
  rw [textById, recordsById, mapGet_mapOf, ← this, List.map_reverse, List.map_map]
  rfl

/-- Branches that differ in the order of stored properties only, tool-call arguments apart. -/
def Rearranged (branch branch' : List SessionRecord) : Prop :=
  List.Forall₂ (fun r r' => r.json.Same r'.json ∧ toolCallArguments r = toolCallArguments r')
    branch branch'

theorem mapM_ok {α β : Type} {f : α → Except Failure β} {xs : List α} {ys : List β}
    (h : xs.mapM f = .ok ys) : ∀ x ∈ xs, ∃ y, f x = .ok y := by
  induction xs generalizing ys with
  | nil => exact fun x hx => by cases hx
  | cons x xs ih =>
    rw [List.mapM_cons] at h
    obtain ⟨y, hy, h⟩ := bind_ok.mp h
    obtain ⟨ys', hys, -⟩ := bind_ok.mp h
    rw [List.forall_mem_cons]
    exact ⟨⟨y, hy⟩, ih hys⟩

theorem serializes_of_hash {sha256 : Sha256} {records : List SessionRecord} {hash : Str}
    (h : hashCanonicalRecords sha256 records = .ok hash) :
    ∀ r ∈ records, ∃ text, serializeCanonicalRecord r = .ok text := by
  obtain ⟨frames, hframes, -⟩ := bind_ok.mp h
  intro r hr
  obtain ⟨bytes, hbytes⟩ := mapM_ok hframes r hr
  obtain ⟨text, htext, -⟩ := map_ok.mp hbytes
  exact ⟨text, htext⟩

/-- Rearranged records have one canonical text. -/
theorem serialize_rearranged {r r' : SessionRecord} (hd : r.json.Distinct) (hd' : r'.json.Distinct)
    (hsame : r.json.Same r'.json) {text text' : Str} (h : serializeCanonicalRecord r = .ok text)
    (h' : serializeCanonicalRecord r' = .ok text') : text = text' := by
  have hp := plain_of_canonicalize (distinct_normalizeRecord hd) h
  have hp' := plain_of_canonicalize (distinct_normalizeRecord hd') h'
  have := canonicalize_same hp hp' (same_normalizeRecord hsame)
  exact Except.ok.inj (h.symm.trans (this.trans h'))

/-- Branches that are stored forms of the same records look up the same texts. -/
theorem textById_rearranged {branch branch' : List SessionRecord}
    (hd : ∀ r ∈ branch, r.json.Distinct) (hd' : ∀ r ∈ branch', r.json.Distinct)
    (hr : Rearranged branch branch')
    (hs : ∀ r ∈ branch, ∃ text, serializeCanonicalRecord r = .ok text)
    (hs' : ∀ r ∈ branch', ∃ text, serializeCanonicalRecord r = .ok text) :
    textById branch = textById branch' := by
  have hmap : branch.map (fun entry => (entry.id, sourceText entry)) =
      branch'.map fun entry => (entry.id, sourceText entry) := by
    induction hr with
    | nil => rfl
    | @cons r r' l l' hrr _ ih =>
      simp only [List.forall_mem_cons] at hd hd' hs hs'
      obtain ⟨text, h⟩ := hs.1
      obtain ⟨text', h'⟩ := hs'.1
      obtain rfl := serialize_rearranged hd.1 hd'.1 hrr.1 h h'
      obtain ⟨hid, -, htext⟩ := evidence_same hd.1 hd'.1 h h'
      rw [List.map_cons, List.map_cons, hid, htext hrr.2, ih hd.2 hd'.2 hs.2 hs'.2]
  funext id
  rw [textById_eq, textById_eq, hmap]

/-- What the canonical hash binds: the role of a record, and its text as far as tool-call arguments
are stored in the same order; so a note accepted on a branch is accepted on a rearranged one. -/
theorem evidence_of_canonical :
    (∀ r r' : SessionRecord, r.json.Distinct → r'.json.Distinct → ∀ text,
      serializeCanonicalRecord r = .ok text → serializeCanonicalRecord r' = .ok text →
      sourceRole r = sourceRole r' ∧
        (toolCallArguments r = toolCallArguments r' → sourceText r = sourceText r')) ∧
    ∀ (len : Str → Nat) (sha256 : Sha256) (branch branch' : List SessionRecord),
      (∀ r ∈ branch, r.json.Distinct) → (∀ r ∈ branch', r.json.Distinct) →
      Rearranged branch branch' → ∀ hash, hashCanonicalRecords sha256 branch = .ok hash →
      hashCanonicalRecords sha256 branch' = .ok hash → ∀ value note,
      validateNoteContent len value branch = .ok note ↔
        validateNoteContent len value branch' = .ok note := by
  refine ⟨fun r r' hd hd' text h h' => (evidence_same hd hd' h h').2, ?_⟩
  intro len sha256 branch branch' hd hd' hr hash hh hh' value note
  have := textById_rearranged hd hd' hr (serializes_of_hash hh) (serializes_of_hash hh')
  rw [validateNoteContent, validateNoteContent, this]

/-! ### One call, stored in two orders -/

/-- An assistant's call of a tool, as a host stores it. -/
def toolCallRecord (arguments : List (Str × Json)) : SessionRecord where
  fields := [(lit "type", .str (lit "message")), (lit "id", .str (lit "a")), (lit "parentId", .null),
    (lit "timestamp", .str []), (lit "message", .obj [(lit "role", .str (lit "assistant")),
      (lit "content", .arr [.obj [(lit "type", .str (lit "toolCall")), (lit "id", .str (lit "c")),
        (lit "name", .str (lit "t")), (lit "arguments", .obj arguments)]])])]
  typed := by
    simp [recordTyped, hasStr, strField, strField?, field, RecordType.ofName, messageTyped,
      contentTyped, blockTyped, optional, isStr, isNull, Json.str?]

theorem distinct_toolCallRecord {arguments : List (Str × Json)} (h : (Json.obj arguments).Distinct) :
    (toolCallRecord arguments).json.Distinct := by
  have hblock : (Json.obj [(lit "type", .str (lit "toolCall")), (lit "id", .str (lit "c")),
      (lit "name", .str (lit "t")), (lit "arguments", .obj arguments)]).Distinct :=
    .obj (by simp) (by simpa using ⟨.str _, .str _, .str _, h⟩)
  have hmessage : (Json.obj [(lit "role", .str (lit "assistant")),
      (lit "content", .arr [.obj [(lit "type", .str (lit "toolCall")), (lit "id", .str (lit "c")),
        (lit "name", .str (lit "t")), (lit "arguments", .obj arguments)]])]).Distinct :=
    .obj (by simp) (by simpa using ⟨.str _, .arr (by simpa using hblock)⟩)
  exact .obj (by simp [toolCallRecord])
    (by simpa [toolCallRecord] using ⟨.str _, .str _, .null, .str _, hmessage⟩)

theorem distinct_nulls {a b : Str} (h : a ≠ b) : (Json.obj [(a, .null), (b, .null)]).Distinct :=
  .obj (by simpa using h) (by simpa using .null)

theorem exists_of_toOption_eq {a b : Except Failure Str} (h : a.toOption = b.toOption)
    (hsome : a.toOption.isSome = true) : ∃ text, a = .ok text ∧ b = .ok text := by
  cases a with
  | error e => cases hsome
  | ok text =>
    cases b with
    | error e => cases h
    | ok text' => exact ⟨text, rfl, congrArg Except.ok (Option.some.inj h).symm⟩

theorem serialize_toolCallRecord : ∃ text,
    serializeCanonicalRecord (toolCallRecord [(lit "x", .null), (lit "y", .null)]) = .ok text ∧
      serializeCanonicalRecord (toolCallRecord [(lit "y", .null), (lit "x", .null)]) = .ok text :=
  exists_of_toOption_eq (by decide +kernel) (by decide +kernel)

/-- Two records of one call with equal canonical text and different citation texts. -/
theorem not_sourceText_of_canonical :
    let r := toolCallRecord [(lit "x", .null), (lit "y", .null)]
    let r' := toolCallRecord [(lit "y", .null), (lit "x", .null)]
    r.json.Distinct ∧ r'.json.Distinct ∧
      (∃ text, serializeCanonicalRecord r = .ok text ∧ serializeCanonicalRecord r' = .ok text) ∧
      sourceText r ≠ sourceText r' :=
  ⟨distinct_toolCallRecord (distinct_nulls (by simp)),
    distinct_toolCallRecord (distinct_nulls (by simp)), serialize_toolCallRecord, by decide +kernel⟩

/-- The digest of the record's canonical text and its line feed. -/
def toolCallDigest : Sha256 := fun _ =>
  lit "c532154c012e797992a2b2c109fbaf9cdc28eb4d8321f9af123461aa61758a2a"

/-- The call with its properties stored backwards. -/
def backwardsRecord : SessionRecord where
  fields := (toolCallRecord [(lit "x", .null), (lit "y", .null)]).fields.reverse
  typed := by
    simp [toolCallRecord, recordTyped, hasStr, strField, strField?, field, RecordType.ofName, messageTyped,
      contentTyped, blockTyped, optional, isStr, isNull, Json.str?]

theorem rearranged_backwards :
    Rearranged [toolCallRecord [(lit "x", .null), (lit "y", .null)]] [backwardsRecord] := by
  refine .cons ⟨.obj (fun k => ?_) fun k x y hx hy => ?_, by decide +kernel⟩ .nil
  all_goals
    have hget : mapGet backwardsRecord.fields k =
        mapGet (toolCallRecord [(lit "x", .null), (lit "y", .null)]).fields k := by
      rw [backwardsRecord, ← mapGet_mapOf, mapOf_eq_self (by simp [toolCallRecord])]
  · rw [hget]
  · rw [hget, hx] at hy
    obtain rfl := Option.some.inj hy
    exact .refl x

/-- The call and its backwards form: the stored forms differ, the evidence does not. -/
theorem evidence_of_canonical_sample :
    let r := toolCallRecord [(lit "x", .null), (lit "y", .null)]
    r.fields ≠ backwardsRecord.fields ∧ sourceRole r = sourceRole backwardsRecord ∧
      sourceText r = sourceText backwardsRecord ∧
      ∀ value note, validateNoteContent List.length value [r] = .ok note ↔
        validateNoteContent List.length value [backwardsRecord] = .ok note := by
  intro r
  have hd : r.json.Distinct := distinct_toolCallRecord (distinct_nulls (by simp))
  have hd' : backwardsRecord.json.Distinct := by
    cases hd with
    | obj hnodup hmem =>
      exact .obj (by simpa [backwardsRecord] using List.nodup_reverse.mpr hnodup)
        (by simpa [backwardsRecord] using hmem)
  obtain ⟨text, h, h'⟩ := exists_of_toOption_eq (a := serializeCanonicalRecord r)
    (b := serializeCanonicalRecord backwardsRecord) (by decide +kernel) (by decide +kernel)
  have hhash : ∀ record, serializeCanonicalRecord record = .ok text →
      hashCanonicalRecords toolCallDigest [record] = .ok (toolCallDigest []) := by
    intro record hrecord
    simp [hashCanonicalRecords, toolCallDigest, hrecord, Except.map, bind, Except.bind, pure, Except.pure]
  obtain ⟨hrole, htext⟩ := evidence_of_canonical.1 r backwardsRecord hd hd' text h h'
  have hkeys : r.fields.map Prod.fst ≠ backwardsRecord.fields.map Prod.fst := by decide +kernel
  refine ⟨fun h => hkeys (congrArg _ h), hrole, htext (by decide +kernel), ?_⟩
  exact evidence_of_canonical.2 List.length toolCallDigest [r] [backwardsRecord] (by simpa using hd)
    (by simpa using hd') rearranged_backwards _ (hhash r h) (hhash backwardsRecord h')

end Compaction
