import ContextCompaction.Core.Quotes
import ContextCompaction.Js.JsonOrder

/-!
# Work notes and their merge

A work note is data about the work that the model records while it runs. `mergeWorkNotes` folds the
notes since a checkpoint into its note, without a model call. Facts are told apart by their JSON
text, so they are kept here as the objects that they are stored as.

* `StoredFact.ext_text`: a fact is its text.
* `mergeWorkNotes_keeps`: what the merge keeps, and why a fact is missing from its result.
-/

namespace Compaction

open Js

/-! ## Stored facts -/

/-- A list of texts. -/
def stringsTyped (v : Json) : Bool := v.arr?.any fun xs => xs.all isStr

/-- `NoteFact`: distinct keys, and values of the fact's types. -/
def factTyped (fields : List (Str × Json)) : Bool :=
  decide ((fields.map Prod.fst).Nodup) &&
    fields.all (fun f =>
      ((f.1 = lit "text" || f.1 = lit "quote") && isStr f.2) ||
        ((f.1 = lit "sources" || f.1 = lit "supersedes") && stringsTyped f.2)) &&
    (field fields "text").isSome && (field fields "sources").isSome

/-- One fact as it is stored. -/
structure StoredFact where
  fields : List (Str × Json)
  typed : factTyped fields = true

namespace StoredFact

/-- The fact as it is stored. -/
def json (item : StoredFact) : Json := .obj item.fields

/-- What a note reads of the fact. -/
def view (item : StoredFact) : NoteFact := NoteFact.ofJson item.json

/-- `JSON.stringify(item)`. -/
def text (item : StoredFact) : Str := stringify item.json

/-- The records that a stored fact cites. -/
def sources (item : StoredFact) : List Str := item.view.sources

/-- The records whose facts a stored fact replaces. -/
def supersedes (item : StoredFact) : List Str := item.view.supersedes.getD []

/-- A stored fact, if the value has its shape. -/
def ofJson? (v : Json) : Option StoredFact :=
  v.obj?.bind fun fields => if h : factTyped fields = true then some ⟨fields, h⟩ else none

theorem factTyped_iff {fields : List (Str × Json)} : factTyped fields = true ↔
    (fields.map Prod.fst).Nodup ∧
      (∀ f ∈ fields, (f.1 = lit "text" ∨ f.1 = lit "quote") ∧ isStr f.2 = true ∨
        (f.1 = lit "sources" ∨ f.1 = lit "supersedes") ∧ stringsTyped f.2 = true) ∧
      (field fields "text").isSome = true ∧ (field fields "sources").isSome = true := by
  simp [factTyped, and_assoc]

private theorem normal_of_isStr {v : Json} (h : isStr v = true) : v.normal = v := by
  obtain ⟨s, hs⟩ := Option.isSome_iff_exists.mp h
  obtain rfl := Json.str?_eq_some.mp hs
  rfl

private theorem normal_of_stringsTyped {v : Json} (h : stringsTyped v = true) : v.normal = v := by
  obtain ⟨xs, rfl, hxs⟩ : ∃ xs, v = .arr xs ∧ ∀ x ∈ xs, isStr x = true := by
    simpa [stringsTyped, Option.any_eq_true] using h
  have hsame : Json.normalElements xs = xs := by
    clear h
    induction xs with
    | nil => rfl
    | cons x xs ih =>
      rw [Json.normalElements, normal_of_isStr (hxs x List.mem_cons_self),
        ih fun y hy => hxs y (List.mem_cons_of_mem _ hy)]
  rw [Json.normal, hsame]

/-- A fact survives a round trip as it is. -/
theorem normal_json (item : StoredFact) : item.json.normal = item.json := by
  obtain ⟨hd, htyped, -⟩ := factTyped_iff.mp item.typed
  have hvalues : Json.normalFields item.fields = item.fields := by
    rw [Json.normalFields_eq_map]
    refine (List.map_congr_left fun f hf => ?_).trans (List.map_id' _)
    rcases htyped f hf with ⟨-, h⟩ | ⟨-, h⟩
    · rw [normal_of_isStr h]
    · rw [normal_of_stringsTyped h]
  have hindex : ∀ k ∈ item.fields.map Prod.fst, indexKey k = none := by
    intro k hk
    obtain ⟨f, hf, rfl⟩ := List.mem_map.mp hk
    rcases htyped f hf with ⟨h | h, -⟩ | ⟨h | h, -⟩ <;> rw [h] <;> rfl
  rw [json, Json.normal, hvalues, mkFields_eq_self hd hindex]

/-- A fact is its text. -/
theorem ext_text {a b : StoredFact} (h : a.text = b.text) : a = b := by
  have hparse : some a.json.normal = some b.json.normal := by
    rw [← parse_stringify, ← parse_stringify]
    exact congrArg parse h
  rw [normal_json, normal_json] at hparse
  obtain ⟨fields, _⟩ := a
  obtain ⟨fields', _⟩ := b
  obtain rfl : fields = fields' := Json.obj.inj (Option.some.inj hparse)
  rfl

instance : DecidableEq StoredFact := fun _ _ =>
  decidable_of_iff _ ⟨ext_text, congrArg text⟩

end StoredFact

/-! ## Stored notes -/

/-- A note as it is stored. -/
@[ext] structure StoredNote where
  items : NoteSection → List StoredFact
  gaps : List Str

namespace StoredNote

/-- A note without facts. -/
def empty : StoredNote := ⟨fun _ => [], []⟩

/-- The note that is stored. -/
def view (note : StoredNote) : MemoryNote := ⟨fun s => (note.items s).map StoredFact.view, note.gaps⟩

/-- The stored facts of a value, section by section. -/
def ofJson (v : Json) : StoredNote where
  items s := (((v.get? (lit s.name)).bind Json.arr?).getD []).filterMap StoredFact.ofJson?
  gaps := ((v.get? (lit "gaps")).map Json.strs).getD []

/-- The note as it is stored, each fact with all its fields. -/
def toJson (note : StoredNote) : Json :=
  .obj (noteSections.map (fun s => (lit s.name, .arr ((note.items s).map StoredFact.json))) ++
    [(lit "gaps", strings note.gaps)])

/-- All facts, section by section. -/
def allItems (note : StoredNote) : List StoredFact := noteSections.flatMap note.items

end StoredNote

theorem mapGet_mapSet_text {fields : List (Str × Json)} {v : Json} (k : String) :
    field (mapSet fields (lit "text") v) k = if k = "text" then some v else field fields k := by
  by_cases h : k = "text"
  · simp [h, field]
  · have : lit "text" ≠ lit k := fun heq => h (lit_inj.mp heq).symm
    simp [h, field, mapGet_mapSet, this]

/-- A fact stays well typed under another text. -/
theorem factTyped_mapSet {fields : List (Str × Json)} (h : factTyped fields = true) (s : Str) :
    factTyped (mapSet fields (lit "text") (.str s)) = true := by
  obtain ⟨hd, htyped, htext, hsources⟩ := StoredFact.factTyped_iff.mp h
  have hkeys : ∀ l : List (Str × Json), (l.map Prod.fst).Nodup → lit "text" ∈ l.map Prod.fst →
      (mapSet l (lit "text") (.str s)).map Prod.fst = l.map Prod.fst ∧
        ∀ f ∈ mapSet l (lit "text") (.str s), f = (lit "text", .str s) ∨ f ∈ l := by
    intro l hl hmem
    induction l with
    | nil => simp at hmem
    | cons e l ih =>
      obtain ⟨k, v⟩ := e
      rw [List.map_cons, List.nodup_cons] at hl
      by_cases hk : k = lit "text"
      · subst hk
        simp only [mapSet, ↓reduceIte, List.map_cons, true_and]
        grind
      · have := ih hl.2 (by simpa [Ne.symm hk] using hmem)
        simp only [mapSet, hk, ↓reduceIte, List.map_cons, this.1, true_and]
        grind
  have hmem : lit "text" ∈ fields.map Prod.fst := by
    by_contra hno
    rw [field, mapGet_eq_none.mpr hno] at htext
    cases htext
  obtain ⟨hsame, hvalues⟩ := hkeys fields hd hmem
  refine StoredFact.factTyped_iff.mpr ⟨hsame ▸ hd, fun f hf => ?_, ?_, ?_⟩
  · rcases hvalues f hf with rfl | hf
    · exact .inl ⟨.inl rfl, rfl⟩
    · exact htyped f hf
  · simp [mapGet_mapSet_text]
  · simpa [mapGet_mapSet_text] using hsources

/-- The fact with its text folded onto one line, in place. -/
def StoredFact.fold (item : StoredFact) : StoredFact where
  fields := mapSet item.fields (lit "text") (.str (Compaction.fold item.view.text))
  typed := factTyped_mapSet item.typed _

/-- `oneLineNote` on a stored note. -/
def StoredNote.fold (note : StoredNote) : StoredNote where
  items s := (note.items s).map StoredFact.fold
  gaps := note.gaps.map Compaction.fold

/-- A fact that passes the schema is stored as it is. -/
theorem StoredFact.ofJson?_of_check {len : Str → Nat} {v : Json} (h : check len factSchema v = true)
    (hd : v.Distinct) : ∃ item : StoredFact, item.json = v ∧ StoredFact.ofJson? v = some item := by
  obtain ⟨fields, rfl, hkeys, hvalues⟩ := check_object.mp h
  have hnd : (fields.map Prod.fst).Nodup := by
    cases hd with
    | obj hkeys _ => exact hkeys
  have hstr : ∀ {lo hi v}, check len (.string lo hi) v = true → isStr v = true := by
    intro lo hi v hv
    obtain ⟨s, rfl, -⟩ := check_string.mp hv
    rfl
  have hstrs : ∀ {lo hi min max unique v},
      check len (.array (.string lo hi) min max unique) v = true → stringsTyped v = true := by
    intro lo hi min max unique v hv
    obtain ⟨ss, rfl, -⟩ := check_strings.mp hv
    simp [stringsTyped, isStr]
  have htext := hvalues _ List.mem_cons_self
  have hsources := hvalues _ (.tail _ List.mem_cons_self)
  have hquote := hvalues _ (.tail _ (.tail _ List.mem_cons_self))
  have hsup := hvalues _ (.tail _ (.tail _ (.tail _ List.mem_cons_self)))
  have htyped : factTyped fields = true := by
    refine factTyped_iff.mpr ⟨hnd, fun f hf => ?_, ?_, ?_⟩
    · have hget : mapGet fields f.1 = some f.2 := (mem_iff_mapGet hnd).mp hf
      obtain ⟨p, hp, hpf⟩ := hkeys f hf
      simp only [List.mem_cons, List.not_mem_nil, or_false] at hp
      rcases hp with rfl | rfl | rfl | rfl
      · rw [hpf, hget] at htext
        exact .inl ⟨.inl hpf.symm, hstr htext⟩
      · rw [hpf, hget] at hsources
        exact .inr ⟨.inl hpf.symm, hstrs hsources⟩
      · rw [hpf, hget] at hquote
        exact .inl ⟨.inr hpf.symm, hstr hquote⟩
      · rw [hpf, hget] at hsup
        exact .inr ⟨.inr hpf.symm, hstrs hsup⟩
    · unfold field
      cases hg : mapGet fields (lit "text") with
      | none => simp [hg] at htext
      | some _ => rfl
    · unfold field
      cases hg : mapGet fields (lit "sources") with
      | none => simp [hg] at hsources
      | some _ => rfl
  exact ⟨⟨fields, htyped⟩, rfl, by simp [StoredFact.ofJson?, htyped]⟩

/-- Nothing of a note that passes the schema is lost where it is stored. -/
theorem StoredNote.view_ofJson {len : Str → Nat} {v : Json} (h : check len noteSchema v = true)
    (hd : v.Distinct) : (StoredNote.ofJson v).view = MemoryNote.ofJson v := by
  obtain ⟨fields, rfl, -, hprops⟩ := check_object.mp h
  have hlist : ∀ xs : List Json, (∀ x ∈ xs, check len factSchema x = true) →
      (∀ x ∈ xs, x.Distinct) →
      (xs.filterMap StoredFact.ofJson?).map StoredFact.view = xs.map NoteFact.ofJson := by
    intro xs hitems hdxs
    induction xs with
    | nil => rfl
    | cons x xs ih =>
      rw [List.forall_mem_cons] at hitems hdxs
      obtain ⟨item, rfl, hx⟩ := StoredFact.ofJson?_of_check hitems.1 hdxs.1
      rw [List.filterMap_cons_some hx, List.map_cons, List.map_cons, ih hitems.2 hdxs.2]
      rfl
  ext1
  · funext s
    have hs := hprops _ (List.mem_append_left _ (List.mem_map_of_mem (mem_noteSections s)))
    cases hv : mapGet fields (lit s.name) with
    | none => simp [hv] at hs
    | some v =>
      simp only [hv] at hs
      obtain ⟨xs, rfl, -, hitems, -⟩ := check_array.mp hs
      have hdxs : ∀ x ∈ xs, x.Distinct := by
        cases hd with
        | obj _ hmem =>
          cases hmem _ (mem_of_mapGet hv) with
          | arr h => exact h
      simpa [view, ofJson, MemoryNote.ofJson, hv] using hlist xs hitems hdxs
  · rfl

/-- Folding a stored note folds what is read of it. -/
theorem StoredNote.view_fold (note : StoredNote) : note.fold.view = oneLineNote note.view := by
  have hitem : ∀ item : StoredFact, item.fold.view = { item.view with text := Compaction.fold item.view.text } := by
    intro item
    have hget : ∀ k : String, item.fold.json.get? (lit k) =
        if k = "text" then some (.str (Compaction.fold item.view.text)) else item.json.get? (lit k) :=
      fun k => mapGet_mapSet_text k
    simp only [StoredFact.view, NoteFact.ofJson, hget]
    rfl
  ext1
  · funext s
    simp [view, StoredNote.fold, oneLineNote, hitem, Function.comp_def]
  · rfl

/-! ## Work notes -/

/-- `customType` of the records that hold work notes. -/
def CONTEXT_NOTE_TYPE : Str := lit "context-memory-note"

/-- Text on one line. -/
def lineSchema (maxLength : Nat) : Schema := .pattern 1 maxLength fun u => !isLineBreak u

/-- The schema of a list of record IDs. -/
def entryIds (minItems : Nat) : Schema := .array (.string 1 64) minItems 20 true

/-- The schema of a fact of a work note: its text is one line. -/
def workFactSchema : Schema :=
  .object [(lit "text", false, lineSchema 4000), (lit "sources", false, entryIds 1),
    (lit "quote", true, .string 1 4000), (lit "supersedes", true, entryIds 0)]

/-- The `context_note` schema: data about the work, with no field for instructions. -/
def workNoteSchema : Schema :=
  .object [(lit "state", false, .array workFactSchema 1 40 false),
    (lit "reasons", true, .array workFactSchema 0 40 false),
    (lit "failedPaths", true, .array workFactSchema 0 40 false),
    (lit "files", true, .array workFactSchema 0 40 false),
    (lit "nextSteps", true, .array workFactSchema 0 5 false),
    (lit "gaps", true, .array (lineSchema 1000) 0 20 false)]

/-- The note that a work note stands for; `instructions` stays empty. -/
def workMemory (note : List (Str × Json)) : Json :=
  let list (key : String) := (lit key, (field note key).getD (.arr []))
  .obj [(lit "instructions", .arr []), list "failedPaths", list "reasons", list "state",
    list "nextSteps", list "files", list "gaps"]

/-- One line per failing field: where the text actually is. -/
def quoteFeedback (failures : List QuoteFailure) : Str :=
  join "\n" (failures.map fun failure =>
    let where_ := join ", " (failure.foundIn.map fun location =>
      location.entryId ++ lit " (" ++ location.role ++ lit ")")
    let name := lit failure.noteSection.name ++ lit "[" ++ Number.text (.ofNat failure.index) ++ lit "].quote"
    match failure.kind with
    | .elsewhere => name ++ lit " is not in " ++ join ", " failure.cited ++ lit "; the exact text is in " ++
        where_ ++
        lit ". Cite that entry, or drop the quote. Text from an assistant or tool entry is not a user ruling."
    | .format => name ++ lit " differs from " ++ where_ ++
        lit " in spacing or punctuation; copy the text exactly or drop the quote."
    | .absent => name ++
        lit " is in no readable entry; quote exact text from a cited entry or drop the quote.")

/-- What a merge reads of a work note. -/
structure WorkNote where
  note : StoredNote
  /-- The note gave `gaps`, possibly empty, and so replaces the open questions before it. -/
  gapsListed : Bool

/-- A work note, and the record that holds it. -/
structure WorkNoteEntry extends WorkNote where
  index : Nat
  id : Str

section

variable (nfkc : Str → Str) (len : Str → Nat)

/-- Sources and quotes are checked against the branch that the note was written on. -/
def validateWorkNote (value : Option Json) (branch : List SessionRecord) : Except Failure StoredNote :=
  match value.filter (check len workNoteSchema) with
  | none =>
    .error (.ofText "CONTEXT_NOTE_INVALID: a work note has state and optional data sections, one line per fact")
  | some value =>
    let memory := workMemory (value.obj?.getD [])
    match validateNote len memory branch 2000 with
    | .ok _ => .ok (StoredNote.ofJson memory)
    | .error (.error message) =>
      -- The model retries a refused note on its own, so a failed quotation says where the text is.
      if lit "CONTEXT_NOTE_QUOTE" <+: message then
        let feedback := quoteFeedback (diagnoseQuotes nfkc branch (MemoryNote.ofJson memory)).failures
        .error (.error (if feedback = [] then message else message ++ lit "\n" ++ feedback))
      else .error (.error message)
    | .error e => .error e

variable {nfkc len}

/-- An accepted work note passes its schema, and as a note the checks on notes. -/
theorem validateWorkNote_ok {value : Option Json} {branch : List SessionRecord} {note : StoredNote} :
    validateWorkNote nfkc len value branch = .ok note ↔
      ∃ v, value = some v ∧ check len workNoteSchema v = true ∧
        note = StoredNote.ofJson (workMemory (v.obj?.getD [])) ∧
        ∃ memory, validateNote len (workMemory (v.obj?.getD [])) branch 2000 = .ok memory := by
  unfold validateWorkNote
  cases hv : value.filter (check len workNoteSchema) with
  | none =>
    have hno : ∀ v, value = some v → check len workNoteSchema v = false := by
      rintro v rfl
      simpa using hv
    simp only [reduceCtorEq, false_iff]
    rintro ⟨v, hsome, hcheck, -⟩
    rw [hno v hsome] at hcheck
    cases hcheck
  | some v =>
    obtain ⟨rfl, hcheck⟩ := Option.filter_eq_some_iff.mp hv
    simp only [Option.some.injEq, exists_eq_left', hcheck, true_and]
    split
    · rename_i memory hvalid
      simp [hvalid, eq_comm]
    · rename_i hvalid
      simp only [hvalid]
      split <;> simp
    · rename_i hvalid
      simp [hvalid]

/-- An accepted work note gives no instructions, and all its facts are stored. -/
theorem validateWorkNote_view {value : Option Json} {branch : List SessionRecord} {note : StoredNote}
    (h : validateWorkNote nfkc len value branch = .ok note) (hd : ∀ v ∈ value, v.Distinct) :
    note.items .instructions = [] ∧
      ∃ v ∈ value, note.view = MemoryNote.ofJson (workMemory (v.obj?.getD [])) := by
  obtain ⟨v, rfl, hcheck, rfl, memory, hvalid⟩ := validateWorkNote_ok.mp h
  refine ⟨by simp [StoredNote.ofJson, workMemory, NoteSection.name], v, rfl, ?_⟩
  have hcontent := (validateNoteSources_ok.mp (validateNote_ok.mp hvalid).1).1
  refine StoredNote.view_ofJson hcontent ?_
  obtain ⟨fields, rfl, -⟩ := check_object.mp hcheck
  have hfield : ∀ key, ((field fields key).getD (.arr [])).Distinct := by
    intro key
    cases hf : field fields key with
    | none => exact .arr (by simp)
    | some x =>
      cases hd _ rfl with
      | obj _ hmem => exact hmem _ (mem_of_mapGet hf)
  refine .obj (by simp) fun f hf => ?_
  simp only [Json.obj?_obj, Option.getD_some, List.mem_cons, List.not_mem_nil, or_false] at hf
  rcases hf with rfl | rfl | rfl | rfl | rfl | rfl | rfl
  · exact .arr (by simp)
  all_goals exact hfield _

variable (nfkc len)

/-- The work note of the record at an index, if it validates. -/
def workNoteAt (branch : List SessionRecord) (index : Nat) : Option WorkNoteEntry :=
  branch[index]?.bind fun entry =>
    if entry.type ≠ .custom ∨ strField? entry.fields "customType" ≠ some CONTEXT_NOTE_TYPE then none
    else
      match validateWorkNote nfkc len (field entry.fields "data") (branch.take index) with
      | .ok note =>
        some { note, gapsListed := ((field entry.fields "data").bind fun d => d.get? (lit "gaps")).isSome,
               index, id := entry.id }
      | .error _ => none

/-- Valid work notes after `afterId`, oldest first. -/
def workNotes (branch : List SessionRecord) (afterId : Option Str) : List WorkNoteEntry :=
  let start := ((afterId.filter (· ≠ [])).bind fun id =>
    branch.findIdx? fun entry => entry.id = id).elim 0 (· + 1)
  ((List.range branch.length).drop start).filterMap (workNoteAt nfkc len branch)

end

/-! ## The merge -/

/-- The sections whose facts stay until they are superseded. -/
def dataSections : List NoteSection := [.failedPaths, .reasons, .state, .files]

/-- The IDs that a note supersedes. -/
def supersededIds (note : StoredNote) : List Str := note.allItems.flatMap StoredFact.supersedes

/-- The fact cites an ID that the note supersedes. -/
def replaced (note : StoredNote) (item : StoredFact) : Bool :=
  item.sources.any fun id => id ∈ supersededIds note

/-- The earlier facts that a note may drop: its own plan replaces the earlier one. -/
def droppable (merged note : StoredNote) : List StoredFact :=
  dataSections.flatMap merged.items ++
    (if note.items .nextSteps = [] then merged.items .nextSteps else [])

/-- The facts of a list that cite an ID. -/
def citing (id : Str) (items : List StoredFact) : List StoredFact :=
  items.filter fun item => id ∈ item.sources

/-- The facts of a note that name an ID in `supersedes`. -/
def naming (id : Str) (note : StoredNote) : List StoredFact :=
  note.allItems.filter fun item => id ∈ item.supersedes

/-- The facts of one section after a note. -/
def mergeSection (merged note : StoredNote) (s : NoteSection) : List StoredFact :=
  let kept := (merged.items s).filter fun item => !replaced note item
  kept ++ (note.items s).filter fun item => item.text ∉ kept.map StoredFact.text

/-- The note after a work note that may be merged. -/
def mergeInto (merged : StoredNote) (work : WorkNote) : StoredNote where
  items
    | .instructions => merged.items .instructions
    | .nextSteps =>
      if work.note.items .nextSteps ≠ [] then work.note.items .nextSteps
      else (merged.items .nextSteps).filter fun item => !replaced work.note item
    | s => mergeSection merged work.note s
  gaps := if work.gapsListed then work.note.gaps.eraseDups else merged.gaps

/-- One work note. -/
def mergeOne (merged : StoredNote) (work : WorkNote) : Option StoredNote :=
  if (merged.items .instructions).any (replaced work.note) then none
  else if (supersededIds work.note).any fun id =>
      decide ((naming id work.note).length < (citing id (droppable merged work.note)).length) then none
  else some (mergeInto merged work)

/-- The note before the first work note. -/
def mergeStart (previous : Option StoredNote) : StoredNote := (previous.getD .empty).fold

/-- The note after some work notes. -/
def mergeAll (previous : Option StoredNote) (notes : List WorkNote) : Option StoredNote :=
  notes.foldlM mergeOne (mergeStart previous)

/-- The work notes merged into the previous note, if the result still passes the schema. -/
def mergeWorkNotes (len : Str → Nat) (previous : Option StoredNote) (notes : List WorkNote) :
    Option StoredNote :=
  (mergeAll previous notes).filter fun merged => check len noteSchema merged.toJson

/-! ## What a merge keeps -/

/-- The notes that a merge reads, oldest first. -/
def mergeInputs (previous : Option StoredNote) (notes : List WorkNote) : List StoredNote :=
  mergeStart previous :: notes.map WorkNote.note

/-- A fact of the note names a source of the item in `supersedes`. -/
def Supersedes (note : StoredNote) (item : StoredFact) : Prop :=
  ∃ fact ∈ note.allItems, ∃ id ∈ fact.supersedes, id ∈ item.sources

instance (note : StoredNote) (item : StoredFact) : Decidable (Supersedes note item) :=
  List.decidableBEx _ note.allItems

/-- The facts that a note drops. -/
def droppedBy (merged note : StoredNote) : List StoredFact :=
  (droppable merged note).filter fun item => Supersedes note item

/-- A later note drops a fact of the input at `k`: it supersedes the fact, and names each source of the fact
that it supersedes in at least as many of its facts as the facts citing it that it drops. -/
def DroppedAfter (previous : Option StoredNote) (notes : List WorkNote) (k : Nat) (s : NoteSection)
    (item : StoredFact) : Prop :=
  ∃ j work merged, k ≤ j ∧ notes[j]? = some work ∧ mergeAll previous (notes.take j) = some merged ∧
    item ∈ merged.items s ∧ item ∈ droppedBy merged work.note ∧ Supersedes work.note item ∧
    ∀ fact ∈ work.note.allItems, ∀ id ∈ fact.supersedes, id ∈ item.sources →
      (citing id (droppedBy merged work.note)).length ≤ (naming id work.note).length

/-- What a merge of some notes keeps of them. -/
structure MergeKeeps (previous : Option StoredNote) (notes : List WorkNote) (merged : StoredNote) :
    Prop where
  instructions : merged.items .instructions = (mergeStart previous).items .instructions
  kept : ∀ s ∈ dataSections, ∀ k input, (mergeInputs previous notes)[k]? = some input →
    ∀ item ∈ input.items s, item ∈ merged.items s ∨ DroppedAfter previous notes k s item
  /-- The latest nonempty plan, less the facts that later notes supersede. -/
  plan : ∀ k input, (mergeInputs previous notes)[k]? = some input → input.items .nextSteps ≠ [] →
    (∀ work ∈ notes.drop k, work.note.items .nextSteps = []) →
    merged.items .nextSteps = (input.items .nextSteps).filter fun item =>
      ∀ work ∈ notes.drop k, ¬ Supersedes work.note item
  noPlan : (∀ input ∈ mergeInputs previous notes, input.items .nextSteps = []) →
    merged.items .nextSteps = []
  gaps : merged.gaps = ((notes.reverse.find? WorkNote.gapsListed).map fun work =>
    work.note.gaps.eraseDups).getD (mergeStart previous).gaps
  origin : ∀ s, ∀ item ∈ merged.items s, ∃ input ∈ mergeInputs previous notes, item ∈ input.items s

theorem mem_supersededIds {note : StoredNote} {id : Str} :
    id ∈ supersededIds note ↔ ∃ fact ∈ note.allItems, id ∈ fact.supersedes :=
  List.mem_flatMap

theorem replaced_iff {note : StoredNote} {item : StoredFact} :
    replaced note item = true ↔ Supersedes note item := by
  unfold replaced
  simp only [List.any_eq_true, decide_eq_true_eq, mem_supersededIds]
  constructor
  · rintro ⟨id, hid, fact, hfact, hnames⟩
    exact ⟨fact, hfact, id, hnames, hid⟩
  · rintro ⟨fact, hfact, id, hnames, hid⟩
    exact ⟨id, hid, fact, hfact, hnames⟩

/-- A note is merged when it replaces no instruction and names each ID it supersedes at least as often as
the facts that it may drop cite it. -/
theorem mergeOne_some {merged merged' : StoredNote} {work : WorkNote} :
    mergeOne merged work = some merged' ↔ merged' = mergeInto merged work ∧
      (∀ item ∈ merged.items .instructions, replaced work.note item = false) ∧
      ∀ id ∈ supersededIds work.note,
        (citing id (droppable merged work.note)).length ≤ (naming id work.note).length := by
  unfold mergeOne
  split_ifs with h₁ h₂
  · obtain ⟨item, hitem, hr⟩ := List.any_eq_true.mp h₁
    grind
  · obtain ⟨id, hid, hlt⟩ := List.any_eq_true.mp h₂
    have := of_decide_eq_true hlt
    grind
  · simp only [Bool.not_eq_true, List.any_eq_false, decide_eq_true_eq, Nat.not_lt] at h₁ h₂
    simp only [Option.some.injEq]
    exact ⟨fun h => ⟨h.symm, fun item hitem => by simpa using h₁ item hitem, h₂⟩, fun h => h.1.symm⟩

theorem mergeAll_append {previous : Option StoredNote} {notes : List WorkNote} {work : WorkNote}
    {merged' : StoredNote} : mergeAll previous (notes ++ [work]) = some merged' ↔
      ∃ merged, mergeAll previous notes = some merged ∧ mergeOne merged work = some merged' := by
  unfold mergeAll
  rw [List.foldlM_append]
  cases notes.foldlM mergeOne (mergeStart previous) with
  | none => simp
  | some merged => simp

/-- A section after a note: the facts that are not replaced, and the note's own. -/
theorem mem_mergeSection {merged note : StoredNote} {s : NoteSection} {item : StoredFact} :
    item ∈ mergeSection merged note s ↔
      (item ∈ merged.items s ∧ replaced note item = false) ∨ item ∈ note.items s := by
  simp only [mergeSection, List.mem_append, List.mem_filter, Bool.not_eq_true', decide_not,
    decide_eq_false_iff_not]
  constructor
  · rintro (h | ⟨h, -⟩)
    · exact .inl h
    · exact .inr h
  · rintro (h | h)
    · exact .inl h
    · by_cases hmem : item.text ∈ ((merged.items s).filter fun item => !replaced note item).map
          StoredFact.text
      · -- A fact of the same text is the same fact.
        obtain ⟨item', hitem', htext⟩ := List.mem_map.mp hmem
        obtain rfl := StoredFact.ext_text htext
        obtain ⟨hin, hr⟩ := List.mem_filter.mp hitem'
        exact .inl ⟨hin, by simpa using hr⟩
      · exact .inr ⟨h, hmem⟩

theorem items_mergeInto {merged : StoredNote} {work : WorkNote} {s : NoteSection}
    (hs : s ∈ dataSections) : (mergeInto merged work).items s = mergeSection merged work.note s := by
  cases s <;> simp_all [dataSections, mergeInto]

/-- A fact of a data section that a note replaces is one that it drops. -/
theorem mem_droppedBy {merged note : StoredNote} {s : NoteSection} (hs : s ∈ dataSections)
    {item : StoredFact} (hitem : item ∈ merged.items s) (h : Supersedes note item) :
    item ∈ droppedBy merged note :=
  List.mem_filter.mpr ⟨List.mem_append_left _ (List.mem_flatMap.mpr ⟨s, hs, hitem⟩), decide_eq_true h⟩

theorem DroppedAfter.append {previous : Option StoredNote} {notes : List WorkNote} {k : Nat}
    {s : NoteSection} {item : StoredFact} (h : DroppedAfter previous notes k s item) (work : WorkNote) :
    DroppedAfter previous (notes ++ [work]) k s item := by
  obtain ⟨j, w, merged, hkj, hj, hm, hrest⟩ := h
  have hlt := (List.getElem?_eq_some_iff.mp hj).1
  refine ⟨j, w, merged, hkj, ?_, ?_, hrest⟩
  · rw [List.getElem?_append_left hlt, hj]
  · rw [List.take_append_of_le_length (by omega), hm]

theorem citing_droppedBy {merged note : StoredNote} {id : Str} (h : id ∈ supersededIds note) :
    citing id (droppedBy merged note) = citing id (droppable merged note) := by
  unfold citing droppedBy
  rw [List.filter_filter]
  refine List.filter_congr fun item _ => ?_
  by_cases hid : id ∈ item.sources
  · obtain ⟨fact, hfact, hnames⟩ := mem_supersededIds.mp h
    have : Supersedes note item := ⟨fact, hfact, id, hnames, hid⟩
    simp [hid, this]
  · simp [hid]

theorem mergeInputs_append (previous : Option StoredNote) (notes : List WorkNote) (work : WorkNote) :
    mergeInputs previous (notes ++ [work]) = mergeInputs previous notes ++ [work.note] := by
  simp [mergeInputs]

/-- One work note keeps what the merge has kept. -/
theorem mergeOne_keeps {previous : Option StoredNote} {notes : List WorkNote} {work : WorkNote}
    {merged merged' : StoredNote} (hall : mergeAll previous notes = some merged)
    (hone : mergeOne merged work = some merged') (h : MergeKeeps previous notes merged) :
    MergeKeeps previous (notes ++ [work]) merged' := by
  obtain ⟨rfl, -, hcount⟩ := mergeOne_some.mp hone
  have hlen : (mergeInputs previous notes).length = notes.length + 1 := by simp [mergeInputs]
  have hinput : ∀ k input, (mergeInputs previous (notes ++ [work]))[k]? = some input →
      (k ≤ notes.length ∧ (mergeInputs previous notes)[k]? = some input) ∨
        (k = notes.length + 1 ∧ input = work.note) := by
    intro k input hk
    rw [mergeInputs_append, List.getElem?_append] at hk
    grind
  refine ⟨h.instructions, fun s hs k input hk item hitem => ?_, fun k input hk hne hlater => ?_,
    fun hnone => ?_, ?_, fun s item hitem => ?_⟩
  · rw [items_mergeInto hs, mem_mergeSection]
    rcases hinput k input hk with ⟨hle, hold⟩ | ⟨-, rfl⟩
    · rcases h.kept s hs k input hold item hitem with hin | hdrop
      · by_cases hr : Supersedes work.note item
        · refine .inr ⟨notes.length, work, merged, hle, by simp, by simpa using hall, hin,
            mem_droppedBy hs hin hr, hr, fun fact hfact id hnames _ => ?_⟩
          have hid := mem_supersededIds.mpr ⟨fact, hfact, hnames⟩
          rw [citing_droppedBy hid]
          exact hcount id hid
        · exact .inl (.inl ⟨hin, Bool.eq_false_iff.mpr (mt replaced_iff.mp hr)⟩)
      · exact .inr (hdrop.append work)
    · exact .inl (.inr hitem)
  · rcases hinput k input hk with ⟨hle, hold⟩ | ⟨rfl, rfl⟩
    · rw [List.drop_append_of_le_length hle] at hlater ⊢
      have hplan := h.plan k input hold hne fun w hw => hlater w (List.mem_append_left _ hw)
      have hempty : work.note.items .nextSteps = [] := hlater work (by simp)
      simp only [mergeInto, hempty, ne_eq, not_true_eq_false, ↓reduceIte, hplan, List.filter_filter]
      refine List.filter_congr fun item _ => ?_
      rw [Bool.eq_iff_iff]
      simp [← replaced_iff, and_comm, or_imp, forall_and]
    · have hdrop : (notes ++ [work]).drop (notes.length + 1) = [] :=
        List.drop_eq_nil_iff.mpr (by simp)
      simp [mergeInto, hne, hdrop]
  · simp only [mergeInputs_append, List.mem_append, List.mem_singleton] at hnone
    have hempty := hnone work.note (.inr rfl)
    simp [mergeInto, hempty, h.noPlan fun input hin => hnone input (.inl hin)]
  · rw [List.reverse_append, List.reverse_singleton, List.singleton_append, List.find?_cons]
    by_cases hg : work.gapsListed = true
    · simp [mergeInto, hg]
    · simpa [mergeInto, hg] using h.gaps
  · rw [mergeInputs_append]
    have hold : item ∈ merged.items s →
        ∃ input ∈ mergeInputs previous notes ++ [work.note], item ∈ input.items s := by
      intro hin
      obtain ⟨input, hinput, hin⟩ := h.origin s item hin
      exact ⟨input, List.mem_append_left _ hinput, hin⟩
    by_cases hs : s ∈ dataSections
    · rw [items_mergeInto hs, mem_mergeSection] at hitem
      rcases hitem with ⟨hin, -⟩ | hin
      · exact hold hin
      · exact ⟨work.note, by simp, hin⟩
    · cases s with
      | instructions => exact hold hitem
      | nextSteps =>
        simp only [mergeInto] at hitem
        split at hitem
        · exact ⟨work.note, by simp, hitem⟩
        · exact hold (List.mem_filter.mp hitem).1
      | failedPaths => simp [dataSections] at hs
      | reasons => simp [dataSections] at hs
      | state => simp [dataSections] at hs
      | files => simp [dataSections] at hs

/-- A run over work notes. -/
theorem mergeAll_keeps {previous : Option StoredNote} {notes : List WorkNote} {merged : StoredNote}
    (h : mergeAll previous notes = some merged) : MergeKeeps previous notes merged := by
  induction notes using List.reverseRecOn generalizing merged with
  | nil =>
    obtain rfl : mergeStart previous = merged := by simpa [mergeAll] using h
    refine ⟨rfl, fun s _ k input hk item hitem => ?_, fun k input hk _ _ => ?_, fun hnone => ?_, rfl,
      fun s item hitem => ⟨_, by simp [mergeInputs], hitem⟩⟩
    · obtain ⟨rfl, rfl⟩ : k = 0 ∧ input = mergeStart previous := by grind [mergeInputs]
      exact .inl hitem
    · obtain ⟨rfl, rfl⟩ : k = 0 ∧ input = mergeStart previous := by grind [mergeInputs]
      simp
    · exact hnone _ (by simp [mergeInputs])
  | append_singleton notes work ih =>
    obtain ⟨before, hall, hone⟩ := mergeAll_append.mp h
    exact mergeOne_keeps hall hone (ih hall)

/-- What a merge that returns a note keeps, drops and adds; the note passes the schema. -/
theorem mergeWorkNotes_keeps {len : Str → Nat} {previous : Option StoredNote} {notes : List WorkNote}
    {merged : StoredNote} (h : mergeWorkNotes len previous notes = some merged) :
    MergeKeeps previous notes merged ∧ check len noteSchema merged.toJson = true := by
  obtain ⟨hall, hcheck⟩ := Option.filter_eq_some_iff.mp h
  exact ⟨mergeAll_keeps hall, hcheck⟩

/-- A checkpoint's note with one fact of the state. -/
def earlierNote : StoredNote :=
  .ofJson (.obj [(lit "state", .arr [.obj [(lit "text", .str (lit "Tests fail.")),
    (lit "sources", strings [lit "a"])]])])

/-- A work note that corrects it. -/
def laterNote : WorkNote where
  note := .ofJson (.obj [(lit "state", .arr [.obj [(lit "text", .str (lit "Tests pass.")),
    (lit "sources", strings [lit "b"]), (lit "supersedes", strings [lit "a"])]])])
  gapsListed := false

theorem mergeWorkNotes_keeps_sample :
    ∃ merged, mergeWorkNotes List.length (some earlierNote) [laterNote] = some merged ∧
      MergeKeeps (some earlierNote) [laterNote] merged ∧
      check List.length noteSchema merged.toJson = true := by
  have hsome : (mergeWorkNotes List.length (some earlierNote) [laterNote]).isSome = true := by
    decide +kernel
  obtain ⟨merged, h⟩ := Option.isSome_iff_exists.mp hsome
  exact ⟨merged, h, mergeWorkNotes_keeps h⟩

end Compaction
