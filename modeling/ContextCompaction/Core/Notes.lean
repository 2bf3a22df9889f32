import ContextCompaction.Core.Config
import ContextCompaction.Js.Schema

/-!
# Notes

A note is validated as a JSON value and then read through `MemoryNote`. The length that TypeBox's
string bounds measure is the parameter `len`.

* `noteSchema`, `MemoryNote.Valid`: the schema, and what it says of a note that has been read.
* `validateNote`: schema, citations and quotations, budget, in this order.
* `renderNote`: the stored rendering; `oneLineNote`: facts and gaps folded onto one line.
-/

namespace Compaction

open Js

/-! ## The data -/

/-- The sections of a note. -/
inductive NoteSection where
  | instructions
  | failedPaths
  | reasons
  | state
  | nextSteps
  | files
  deriving DecidableEq

instance : LawfulBEq (NoteSection × Nat) := inferInstance

/-- The name of a section, which is its key in the JSON. -/
def NoteSection.name : NoteSection → String
  | .instructions => "instructions"
  | .failedPaths => "failedPaths"
  | .reasons => "reasons"
  | .state => "state"
  | .nextSteps => "nextSteps"
  | .files => "files"

/-- The sections in their fixed order. -/
def noteSections : List NoteSection :=
  [.instructions, .failedPaths, .reasons, .state, .nextSteps, .files]

@[simp] theorem mem_noteSections (s : NoteSection) : s ∈ noteSections := by cases s <;> decide

/-- A fact with the records that it cites; a quotation stands in one of them word for word. -/
structure NoteFact where
  text : Str
  sources : List Str
  quote : Option Str
  supersedes : Option (List Str)
  deriving DecidableEq

/-- A note: the facts of each section, and the gaps. -/
@[ext] structure MemoryNote where
  facts : NoteSection → List NoteFact
  gaps : List Str

/-- All facts, section by section. -/
def MemoryNote.allFacts (note : MemoryNote) : List NoteFact := noteSections.flatMap note.facts

theorem MemoryNote.mem_allFacts {note : MemoryNote} {item : NoteFact} :
    item ∈ note.allFacts ↔ ∃ s, item ∈ note.facts s := by
  simp [MemoryNote.allFacts]

/-! ## The schema -/

/-- The schema of a fact. -/
def factSchema : Schema :=
  .object [(lit "text", false, .string 1 4000),
    (lit "sources", false, .array (.string 1 64) 1 20 true),
    (lit "quote", true, .string 1 4000),
    (lit "supersedes", true, .array (.string 1 64) 0 20 false)]

/-- The fewest facts of a section. -/
def NoteSection.minItems : NoteSection → Nat
  | .state => 1
  | _ => 0

/-- The most facts of a section. -/
def NoteSection.maxItems : NoteSection → Nat
  | .nextSteps => 5
  | _ => 40

/-- `memoryNoteSchema`: every section, and the gaps. -/
def noteSchema : Schema :=
  .object (noteSections.map (fun s => (lit s.name, false, .array factSchema s.minItems s.maxItems false)) ++
    [(lit "gaps", false, .array (.string 0 1000) 0 20 false)])

/-! ## Reading and writing -/

/-- A fact that is read from its JSON. -/
def NoteFact.ofJson (v : Json) : NoteFact where
  text := ((v.get? (lit "text")).bind Json.str?).getD []
  sources := ((v.get? (lit "sources")).map Json.strs).getD []
  quote := (v.get? (lit "quote")).bind Json.str?
  supersedes := (v.get? (lit "supersedes")).map Json.strs

/-- A list of texts as JSON. -/
def strings (ss : List Str) : Json := .arr (ss.map .str)

/-- A fact as JSON; what it lacks is left out. -/
def NoteFact.toJson (f : NoteFact) : Json :=
  .obj (present [("text", some (.str f.text)), ("sources", some (strings f.sources)),
    ("quote", f.quote.map .str), ("supersedes", f.supersedes.map strings)])

/-- A note that is read from its JSON. -/
def MemoryNote.ofJson (v : Json) : MemoryNote where
  facts s := (((v.get? (lit s.name)).bind Json.arr?).getD []).map NoteFact.ofJson
  gaps := ((v.get? (lit "gaps")).map Json.strs).getD []

/-- A note as JSON, section by section. -/
def MemoryNote.toJson (note : MemoryNote) : Json :=
  .obj (noteSections.map (fun s => (lit s.name, .arr ((note.facts s).map NoteFact.toJson))) ++
    [(lit "gaps", strings note.gaps)])

/-! ## Validity -/

section

variable (len : Str → Nat)

/-- A fact within the bounds of its schema. -/
structure NoteFact.Valid (f : NoteFact) : Prop where
  text : 1 ≤ len f.text ∧ len f.text ≤ 4000
  sources : 1 ≤ f.sources.length ∧ f.sources.length ≤ 20
  ids : ∀ id ∈ f.sources, 1 ≤ len id ∧ len id ≤ 64
  nodup : f.sources.Nodup
  quote : ∀ q, f.quote = some q → 1 ≤ len q ∧ len q ≤ 4000
  supersedes : ∀ ids, f.supersedes = some ids →
    ids.length ≤ 20 ∧ ∀ id ∈ ids, 1 ≤ len id ∧ len id ≤ 64

/-- A note within the bounds of its schema. -/
structure MemoryNote.Valid (note : MemoryNote) : Prop where
  facts : ∀ s, ∀ f ∈ note.facts s, f.Valid len
  items : ∀ s, s.minItems ≤ (note.facts s).length ∧ (note.facts s).length ≤ s.maxItems
  gaps : note.gaps.length ≤ 20 ∧ ∀ g ∈ note.gaps, len g ≤ 1000

variable {len}

theorem NoteFact.ofJson_toJson (f : NoteFact) : NoteFact.ofJson f.toJson = f := by
  obtain ⟨text, sources, quote, supersedes⟩ := f
  cases quote <;> cases supersedes <;>
    simp [NoteFact.ofJson, NoteFact.toJson, present, strings]

theorem MemoryNote.ofJson_toJson (note : MemoryNote) : MemoryNote.ofJson note.toJson = note := by
  have hfacts : ∀ s, ((note.facts s).map NoteFact.toJson).map NoteFact.ofJson = note.facts s := by
    intro s
    simp [Function.comp_def, NoteFact.ofJson_toJson]
  ext1
  · funext s
    cases s <;>
      simpa [MemoryNote.ofJson, MemoryNote.toJson, noteSections, NoteSection.name] using hfacts _
  · simp [MemoryNote.ofJson, MemoryNote.toJson, noteSections, NoteSection.name, strings]

/-- A valid fact passes the schema. -/
theorem NoteFact.check_toJson {f : NoteFact} (h : f.Valid len) :
    check len factSchema f.toJson = true := by
  obtain ⟨text, sources, quote, supersedes⟩ := f
  have htext := check_string.mpr ⟨text, rfl, h.text⟩
  have hsources : check len (.array (.string 1 64) 1 20 true) (strings sources) = true :=
    check_strings.mpr ⟨sources, rfl, h.sources, h.ids, fun _ => h.nodup⟩
  have hquote : ∀ q, quote = some q → check len (.string 1 4000) (.str q) = true :=
    fun q hq => check_string.mpr ⟨q, rfl, h.quote q hq⟩
  have hsup : ∀ ids, supersedes = some ids →
      check len (.array (.string 1 64) 0 20 false) (strings ids) = true := fun ids hids =>
    check_strings.mpr ⟨ids, rfl, ⟨Nat.zero_le _, (h.supersedes ids hids).1⟩,
      (h.supersedes ids hids).2, by simp⟩
  rw [factSchema, check_object]
  refine ⟨_, rfl, ?_, ?_⟩ <;> cases quote <;> cases supersedes <;>
    simp_all [present]

/-- What passes the schema is read as a valid fact. -/
theorem NoteFact.valid_ofJson {v : Json} (h : check len factSchema v = true) :
    (NoteFact.ofJson v).Valid len := by
  rw [factSchema, check_object] at h
  obtain ⟨fields, rfl, -, h⟩ := h
  have htext := h _ (List.mem_cons_self)
  have hsources := h _ (.tail _ (List.mem_cons_self))
  have hquote := h _ (.tail _ (.tail _ (List.mem_cons_self)))
  have hsup := h _ (.tail _ (.tail _ (.tail _ (List.mem_cons_self))))
  cases ht : mapGet fields (lit "text") with
  | none => simp [ht] at htext
  | some t =>
    cases hs : mapGet fields (lit "sources") with
    | none => simp [hs] at hsources
    | some ss =>
      simp only [ht] at htext
      simp only [hs] at hsources
      obtain ⟨text, rfl, hb⟩ := check_string.mp htext
      obtain ⟨ids, rfl, hlen, hids, hnd⟩ := check_strings.mp hsources
      refine ⟨by simpa [NoteFact.ofJson, ht] using hb, by simpa [NoteFact.ofJson, hs] using hlen,
        by simpa [NoteFact.ofJson, hs] using hids, by simpa [NoteFact.ofJson, hs] using hnd,
        fun q hq => ?_, fun ids hids => ?_⟩
      · cases hv : mapGet fields (lit "quote") with
        | none => simp [NoteFact.ofJson, hv] at hq
        | some v =>
          simp only [hv] at hquote
          obtain ⟨q', rfl, hb⟩ := check_string.mp hquote
          obtain rfl : q' = q := by simpa [NoteFact.ofJson, hv] using hq
          exact hb
      · cases hv : mapGet fields (lit "supersedes") with
        | none => simp [NoteFact.ofJson, hv] at hids
        | some v =>
          simp only [hv] at hsup
          obtain ⟨ids', rfl, hlen, hb, -⟩ := check_strings.mp hsup
          obtain rfl : ids' = ids := by simpa [NoteFact.ofJson, hv] using hids
          exact ⟨hlen.2, hb⟩

/-- What is written of a valid note passes the schema. -/
theorem MemoryNote.check_toJson {note : MemoryNote} (h : note.Valid len) :
    check len noteSchema note.toJson = true := by
  have hsec : ∀ s : NoteSection, check len (.array factSchema s.minItems s.maxItems false)
      (.arr ((note.facts s).map NoteFact.toJson)) = true := by
    intro s
    refine check_array.mpr ⟨_, rfl, by simpa using h.items s, fun x hx => ?_, by simp⟩
    obtain ⟨f, hf, rfl⟩ := List.mem_map.mp hx
    exact NoteFact.check_toJson (h.facts s f hf)
  have hgaps : check len (.array (.string 0 1000) 0 20 false) (strings note.gaps) = true :=
    check_strings.mpr ⟨note.gaps, rfl, ⟨Nat.zero_le _, h.gaps.1⟩,
      fun g hg => ⟨Nat.zero_le _, h.gaps.2 g hg⟩, by simp⟩
  rw [noteSchema, check_object]
  refine ⟨_, rfl, ?_, ?_⟩
  · simp [noteSections, NoteSection.name]
  · simp [noteSections, NoteSection.name, hsec, hgaps]

/-- A note that passed the schema is valid. -/
theorem MemoryNote.valid_ofJson {v : Json} (h : check len noteSchema v = true) :
    (MemoryNote.ofJson v).Valid len := by
  rw [noteSchema, check_object] at h
  obtain ⟨fields, rfl, -, h⟩ := h
  have hsec : ∀ s : NoteSection, ∃ xs, mapGet fields (lit s.name) = some (.arr xs) ∧
      (s.minItems ≤ xs.length ∧ xs.length ≤ s.maxItems) ∧
      ∀ x ∈ xs, check len factSchema x = true := by
    intro s
    have hs := h _ (List.mem_append_left _ (List.mem_map_of_mem (mem_noteSections s)))
    cases hv : mapGet fields (lit s.name) with
    | none => simp [hv] at hs
    | some v =>
      simp only [hv] at hs
      obtain ⟨xs, rfl, hlen, hitems, -⟩ := check_array.mp hs
      exact ⟨xs, rfl, hlen, hitems⟩
  refine ⟨fun s f hf => ?_, fun s => ?_, ?_⟩
  · obtain ⟨xs, hv, -, hitems⟩ := hsec s
    obtain ⟨x, hx, rfl⟩ : ∃ x ∈ xs, NoteFact.ofJson x = f := by
      simpa [MemoryNote.ofJson, hv] using hf
    exact NoteFact.valid_ofJson (hitems x hx)
  · obtain ⟨xs, hv, hlen, -⟩ := hsec s
    simpa [MemoryNote.ofJson, hv] using hlen
  · have hg := h _ (List.mem_append_right _ List.mem_cons_self)
    cases hv : mapGet fields (lit "gaps") with
    | none => simp [hv] at hg
    | some v =>
      simp only [hv] at hg
      obtain ⟨gs, rfl, hlen, hb, -⟩ := check_strings.mp hg
      simpa [MemoryNote.ofJson, hv] using ⟨hlen.2, fun g hg => (hb g hg).2⟩

end

/-! ## Validation -/

/-- Whether an ID has text: `Boolean(textById(id))`. -/
def readable (textById : Str → Option Str) (id : Str) : Bool := (textById id).any (· ≠ [])

/-- The checks on one fact, in order. -/
def checkFact (textById : Str → Option Str) (item : NoteFact) : Except Failure Unit :=
  if item.sources.any fun id => !readable textById id then
    .error (.ofText "CONTEXT_NOTE_SCOPE: a note cites unavailable evidence")
  else if item.quote.any fun quote =>
      quote ≠ [] && !item.sources.any fun id => includes ((textById id).getD []) quote then
    .error (.ofText "CONTEXT_NOTE_QUOTE: a quoted source does not match the original text")
  else if (item.supersedes.getD []).any fun id => !readable textById id then
    .error (.ofText "CONTEXT_NOTE_SCOPE: a superseded source is unavailable or unreadable")
  else .ok ()

/-- `new Map(sources.map((entry) => [entry.id, entry]))`: of equal IDs the last record counts. -/
def recordsById (sources : List SessionRecord) : List (Str × SessionRecord) :=
  mapOf (sources.map fun entry => (entry.id, entry))

/-- The text of a cited ID among some records. -/
def textById (sources : List SessionRecord) (id : Str) : Option Str :=
  (mapGet (recordsById sources) id).map sourceText

/-- `Buffer.byteLength(JSON.stringify(note), "utf8")`. -/
def noteBytes (value : Json) : Nat := byteLength (stringify value)

variable (len : Str → Nat)

/-- The note in a value that passes the schema, and whose facts cite what can be read. -/
def validateNoteSources (value : Json) (textById : Str → Option Str) : Except Failure MemoryNote := do
  if !check len noteSchema value then
    throw (.ofText "CONTEXT_NOTE_INVALID: writer must return the complete note schema")
  let note := MemoryNote.ofJson value
  note.allFacts.forM (checkFact textById)
  pure note

/-- Schema, citations and quotations. -/
def validateNoteContent (value : Json) (sources : List SessionRecord) : Except Failure MemoryNote :=
  validateNoteSources len value (textById sources)

/-- A note has at most three bytes for each token of its budget. -/
def assertNoteBudget (value : Json) (maxTokens : Nat) : Except Failure Unit :=
  if maxTokens * 3 < noteBytes value then .error (.noteBudget (noteBytes value) maxTokens)
  else .ok ()

/-- A note that cites the records and keeps its budget. -/
def validateNote (value : Json) (sources : List SessionRecord) (maxTokens : Nat) :
    Except Failure MemoryNote := do
  let note ← validateNoteContent len value sources
  assertNoteBudget value maxTokens
  pure note

/-- The token estimate of what some records say. -/
def compactedSourceTokens (entries : List SessionRecord) : Nat :=
  (entries.map fun entry => textTokens (sourceText entry)).sum

/-! ### What is accepted -/

/-- A fact whose citations are readable and whose quotation stands in one of them. -/
structure Cited (textById : Str → Option Str) (item : NoteFact) : Prop where
  sources : ∀ id ∈ item.sources, readable textById id = true
  quote : ∀ q, item.quote = some q → q ≠ [] →
    ∃ id ∈ item.sources, includes ((textById id).getD []) q = true
  supersedes : ∀ ids, item.supersedes = some ids → ∀ id ∈ ids, readable textById id = true

theorem readable_mono {f g : Str → Option Str} (h : ∀ id text, f id = some text → g id = some text)
    {id : Str} (hr : readable f id = true) : readable g id = true := by
  unfold readable at *
  cases hf : f id with
  | none => simp [hf] at hr
  | some text => rwa [h id text hf, ← hf]

/-- What more records make citable stays citable. -/
theorem Cited.mono {f g : Str → Option Str} (h : ∀ id text, f id = some text → g id = some text)
    {item : NoteFact} (hc : Cited f item) : Cited g item := by
  refine ⟨fun id hid => readable_mono h (hc.sources id hid), fun q hq hne => ?_,
    fun ids hids id hid => readable_mono h (hc.supersedes ids hids id hid)⟩
  obtain ⟨id, hid, hin⟩ := hc.quote q hq hne
  have hr := hc.sources id hid
  cases hf : f id with
  | none => simp [readable, hf] at hr
  | some text => exact ⟨id, hid, by rwa [h id text hf, ← hf]⟩

/-- A fact passes when its sources exist and its quotation stands in one of them. -/
theorem checkFact_ok {textById : Str → Option Str} {item : NoteFact} :
    checkFact textById item = .ok () ↔ Cited textById item := by
  obtain ⟨text, sources, quote, supersedes⟩ := item
  unfold checkFact
  split_ifs with h1 h2 h3
  · simp only [false_iff]
    intro h
    obtain ⟨id, hid, hr⟩ := List.any_eq_true.mp h1
    simp [h.sources id hid] at hr
  · simp only [false_iff]
    intro h
    cases quote with
    | none => simp at h2
    | some q =>
      simp only [Option.any_some, Bool.and_eq_true, decide_eq_true_eq, Bool.not_eq_true',
        List.any_eq_false] at h2
      obtain ⟨id, hid, hq⟩ := h.quote q rfl h2.1
      exact h2.2 id hid hq
  · simp only [false_iff]
    intro h
    obtain ⟨id, hid, hr⟩ := List.any_eq_true.mp h3
    cases supersedes with
    | none => simp at hid
    | some ids => simp [h.supersedes ids rfl id hid] at hr
  · simp only [true_iff]
    refine ⟨by simpa using h1, fun q hq hne => ?_, fun ids hids id hid => ?_⟩
    · obtain rfl : quote = some q := hq
      simpa [hne] using h2
    · obtain rfl : supersedes = some ids := hids
      have h3 : ∀ id ∈ ids, readable textById id = true := by simpa using h3
      exact h3 id hid

theorem forM_ok {α : Type} (xs : List α) (f : α → Except Failure Unit) :
    xs.forM f = .ok () ↔ ∀ x ∈ xs, f x = .ok () := by
  induction xs with
  | nil => simp [pure, Except.pure]
  | cons x xs ih =>
    rw [List.forall_mem_cons, List.forM_eq_forM, List.forM_cons]
    rw [List.forM_eq_forM] at ih
    cases hx : f x with
    | error e => simp [bind, Except.bind]
    | ok u => simpa [bind, Except.bind] using ih

variable {len}

/-- A note passes when it satisfies the schema and all its facts are cited. -/
theorem validateNoteSources_ok {value : Json} {textById : Str → Option Str} {note : MemoryNote} :
    validateNoteSources len value textById = .ok note ↔
      check len noteSchema value = true ∧ note = MemoryNote.ofJson value ∧
        ∀ item ∈ note.allFacts, Cited textById item := by
  unfold validateNoteSources
  by_cases hc : check len noteSchema value = true
  · have hm := forM_ok (MemoryNote.ofJson value).allFacts (checkFact textById)
    simp only [checkFact_ok] at hm
    cases he : (MemoryNote.ofJson value).allFacts.forM (checkFact textById) with
    | error e =>
      rw [he] at hm
      simp only [hc, Bool.not_true, Bool.false_eq_true, ↓reduceIte, bind, Except.bind, he, reduceCtorEq,
        true_and, false_iff, not_and]
      rintro rfl h
      exact absurd (hm.mpr h) (by simp)
    | ok u =>
      rw [he] at hm
      have hall := hm.mp rfl
      simp only [hc, Bool.not_true, Bool.false_eq_true, ↓reduceIte, bind, Except.bind, pure, Except.pure,
        he, Except.ok.injEq, true_and]
      constructor
      · rintro rfl
        exact ⟨rfl, hall⟩
      · rintro ⟨rfl, -⟩
        rfl
  · simp [hc, bind, Except.bind, throw, throwThe, MonadExceptOf.throw]

theorem validateNote_ok {value : Json} {sources : List SessionRecord} {maxTokens : Nat}
    {note : MemoryNote} :
    validateNote len value sources maxTokens = .ok note ↔
      validateNoteContent len value sources = .ok note ∧ noteBytes value ≤ maxTokens * 3 := by
  unfold validateNote assertNoteBudget
  cases validateNoteContent len value sources with
  | error e => simp [bind, Except.bind]
  | ok n =>
    by_cases hb : maxTokens * 3 < noteBytes value
    · simp [bind, Except.bind, hb]
    · simp [bind, Except.bind, pure, Except.pure, hb, Nat.not_lt.mp hb]

/-- Where IDs are distinct, a text found in a prefix is found in the whole branch. -/
theorem textById_of_take {branch : List SessionRecord} (h : (branch.map SessionRecord.id).Nodup)
    (n : Nat) {id text : Str} (ht : textById (branch.take n) id = some text) :
    textById branch id = some text := by
  have hkeys : ∀ l : List SessionRecord, (l.map SessionRecord.id).Nodup →
      recordsById l = l.map fun entry => (entry.id, entry) := fun l hl =>
    mapOf_eq_self (by rwa [List.map_map])
  unfold textById at *
  rw [hkeys _ (by rw [List.map_take]; exact h.sublist (List.take_sublist _ _))] at ht
  rw [hkeys _ h]
  conv_lhs => rw [← List.take_append_drop n branch, List.map_append, mapGet_append]
  cases hg : mapGet ((branch.take n).map fun entry => (entry.id, entry)) id with
  | none => rw [hg] at ht; cases ht
  | some entry => rw [hg] at ht; exact ht

/-! ## Rendering -/

/-- One earlier checkpoint, reduced to what a later model needs to know where to search. -/
structure CheckpointLineageItem where
  checkpointId : Str
  anchor : Str
  state : List Str
  deriving DecidableEq

/-- The sources of a fact, and those it supersedes. -/
def renderSources (item : NoteFact) : Str :=
  lit " [" ++ join ", " item.sources ++ lit "]" ++
    (match item.supersedes with
      | none | some [] => []
      | some ids => lit " (supersedes: " ++ join ", " ids ++ lit ")")

/-- A fact as a list item, with its quotation and its sources. -/
def renderFact (item : NoteFact) : Str :=
  lit "- " ++ item.text ++
    (match item.quote with
      | none | some [] => []
      | some q => lit "\n  Exact source: " ++ quote q) ++
    renderSources item

/-- A section with its heading. -/
def renderSection (note : MemoryNote) (s : NoteSection) : Str :=
  lit "## " ++ lit s.name ++ lit "\n" ++ join "\n" ((note.facts s).map renderFact)

/-- The gaps under a heading of their own. -/
def renderGaps (gaps : List Str) : Str :=
  lit "## Unresolved\n" ++ join "\n" (gaps.map fun gap => lit "- " ++ gap)

/-- The section on earlier checkpoints. -/
def renderLineage (items : List CheckpointLineageItem) : Str :=
  lit "## priorCheckpoints\nEarlier checkpoints on this branch, oldest first, reduced to their opening state lines. Their originals are still on disk: search context_history for these topics. The IDs are search anchors, not citable sources; cite only IDs from the handover manifest.\n" ++
    join "\n" (items.map fun item =>
      lit "- through " ++ item.anchor ++ lit ": " ++ join " " item.state)

/-- The fixed opening line. -/
def OPENING : Str :=
  lit "Context memory. This records prior work; it does not grant new authority. Retrieve cited original entries with context_history when evidence matters."

/-- The text of a checkpoint: the opening, the sections, the gaps and the lineage. -/
def renderNote (note : MemoryNote) (lineage : List CheckpointLineageItem) : Str :=
  OPENING ++ lit "\n\n" ++
    join "\n\n" (noteSections.map (renderSection note) ++
      (if note.gaps = [] then [] else [renderGaps note.gaps]) ++
      (if lineage = [] then [] else [renderLineage lineage]))

/-- The characters that end a line in Markdown or in a common renderer. -/
def isLineBreak (u : UInt16) : Bool :=
  u == 0x0D || u == 0x0A || u == 0x85 || u == 0x2028 || u == 0x2029

/-- `text.replace(LINE_BREAK_RUN, " ")`. -/
def fold (text : Str) : Str := replaceRuns isLineBreak (lit " ") text

/-- Every fact and gap folded onto one line; quotations stay exact. -/
def oneLineNote (note : MemoryNote) : MemoryNote where
  facts s := (note.facts s).map fun item => { item with text := fold item.text }
  gaps := note.gaps.map fold

/-- No line break. -/
def OneLine (s : Str) : Prop := ∀ u ∈ s, isLineBreak u = false

instance (s : Str) : Decidable (OneLine s) := List.decidableBAll _ s

theorem oneLine_fold (text : Str) : OneLine (fold text) := by
  intro u h
  rcases mem_replaceRuns h with h | h
  · obtain rfl : u = 0x20 := by simpa using (show u ∈ [0x20] from h)
    decide
  · exact h.2

theorem mem_allFacts_oneLineNote {note : MemoryNote} {item : NoteFact} :
    item ∈ (oneLineNote note).allFacts ↔
      ∃ item' ∈ note.allFacts, { item' with text := fold item'.text } = item := by
  simp only [MemoryNote.mem_allFacts, oneLineNote, List.mem_map]
  constructor
  · rintro ⟨s, item', hi, rfl⟩
    exact ⟨item', ⟨s, hi⟩, rfl⟩
  · rintro ⟨item', ⟨s, hi⟩, rfl⟩
    exact ⟨s, item', hi, rfl⟩

/-- The lineage stands behind the note. -/
theorem renderNote_lineage (note : MemoryNote) (lineage : List CheckpointLineageItem) :
    renderNote note [] <+: renderNote note lineage := by
  by_cases h : lineage = []
  · rw [h]
  · simp only [renderNote, h, ↓reduceIte, List.append_nil]
    have hne : noteSections.map (renderSection note) ++
        (if note.gaps = [] then [] else [renderGaps note.gaps]) ≠ [] := by
      simp [noteSections]
    rw [join_append "\n\n" hne (by simp), List.append_assoc, List.append_assoc, List.append_assoc]
    simp

end Compaction
