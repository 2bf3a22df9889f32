import ContextCompaction.Agent.Transcript
import ContextCompaction.Context.Ranges
import ContextCompaction.Js.Patches

/-!
# Prompts and tools of a context

The prompt of a conversation is named sections in an order. They are shown to the model by system
messages, each a patch of those before it, and so are the tools that it may call. Before a request, the
entries are planned that bring what is shown to what is wanted.

* `replaySections`, `getCurrentTools`: what is shown.
* `planSystemEntries`: the entries that are missing.
-/

namespace Context

open Js

/-! ## What is shown -/

/-- A section's text, or `null`. Other values are no sections. -/
def sectionText : Json → Option (Option Str)
  | .null => some none
  | .str text => some (some text)
  | _ => none

/-- `Object.entries(message.sections)`. -/
def sectionEntries (message : Json) : List (Str × Option Str) :=
  match message.get? (lit "sections") with
  | some (.obj fields) => fields.filterMap fun field => (sectionText field.2).map (field.1, ·)
  | _ => []

/-- What one message does to the sections. -/
def replaySection (shown : List (Str × Str)) : Message → List (Str × Str)
  | .system message => patch shown (sectionEntries message)
  | _ => shown

/-- Sections in effect after replaying system messages in order: set in place, `null` deletes, re-adding
appends. -/
def replaySections (messages : List Message) : List (Str × Str) := messages.foldl replaySection []

def textField (v : Json) (key : String) : Str := ((v.get? (lit key)).bind Json.str?).getD []

def toolOf (v : Json) : Agent.Tool where
  name := textField v "name"
  description := textField v "description"
  parameters := (v.get? (lit "parameters")).getD .null
  constrainedSampling := v.get? (lit "constrainedSampling")

/-- `message[key] ?? []`. -/
def listField (message : Json) (key : String) : List Json := ((message.get? (lit key)).bind Json.arr?).getD []

/-- What one message does to the tools. -/
def declareTools (tools : List (Str × Agent.Tool)) : Message → List (Str × Agent.Tool)
  | .system message =>
    let kept := ((listField message "toolsRemoved").map fun tool => textField tool "name").foldl mapDelete tools
    ((listField message "toolsAdded").map toolOf).foldl (fun tools tool => mapSet tools tool.name tool) kept
  | _ => tools

/-- The tools available after applying every transcript delta in order. -/
def getCurrentTools (messages : List Message) : List Agent.Tool :=
  (messages.foldl declareTools []).map Prod.snd

/-! ## Plans -/

structure SystemDraft where
  model : List Message
  edits : Option (List ContextEdit)

def isSystemEntry (entry : EntryRecord) : Bool := decide (entry.kind = lit "pi.system")

def toolJson (tool : Agent.Tool) : Json :=
  .obj ([(lit "name", .str tool.name), (lit "description", .str tool.description),
    (lit "parameters", tool.parameters)] ++
    match tool.constrainedSampling with
    | none => []
    | some sampling => [(lit "constrainedSampling", sampling)])

def toolReference (name : Str) : Json := .obj [(lit "name", .str name)]

/-- A property that is left out when there is nothing in it. -/
def property (key : String) (value : Option Json) : List (Str × Json) := (value.map (lit key, ·)).toList

def sectionsJson (sections : List (Str × Option Str)) : Json :=
  .obj (sections.map fun entry => (entry.1, entry.2.elim .null .str))

def systemEntry (sections : Option (List (Str × Option Str))) (tools : Option Agent.ToolStateChanges)
    (timestamp : Number) : SystemDraft :=
  let changes := tools.getD .none
  { model := [.system (.obj ([(lit "role", .str (lit "system")), (lit "content", .str [])] ++
      property "sections" (sections.map sectionsJson) ++
      property "toolsRemoved" ((Agent.unlessEmpty changes.toolsRemoved).map fun names => .arr (names.map toolReference)) ++
      property "toolsAdded" ((Agent.unlessEmpty changes.toolsAdded).map fun tools => .arr (tools.map toolJson)) ++
      [(lit "timestamp", .num timestamp)]))]
    edits := none }

/-- Tool changes from `offered` to `desired`. A changed declaration is removed and re-added. Replay keeps
retained tools in place and appends additions; when that would not yield the desired order, every offered
tool is removed and every desired tool re-added in order. -/
def planTools (offered desired : List Agent.Tool) : Agent.ToolStateChanges :=
  let wanted := mapOf (desired.map fun tool => (tool.name, tool))
  let kept := offered.filter fun tool => (mapGet wanted tool.name).any (Agent.declarationsEqual tool)
  let keptNames := kept.map Agent.Tool.name
  let added := desired.filter fun tool => decide (tool.name ∉ keptNames)
  let replayed := kept ++ added
  if replayed.zipIdx.any fun (tool, index) => desired[index]?.map Agent.Tool.name ≠ some tool.name then
    { toolsRemoved := offered.map Agent.Tool.name, toolsAdded := desired.map Agent.Tool.declaration }
  else
    { toolsRemoved := (offered.filter fun tool => decide (tool.name ∉ keptNames)).map Agent.Tool.name
      toolsAdded := added.map Agent.Tool.declaration }

/-- `patch[key] = value`. Assigning `__proto__` makes no property. -/
def assign (patch : List (Str × Option Str)) (key : Str) (value : Option Str) : List (Str × Option Str) :=
  if key = lit "__proto__" then patch else mapSet patch key value

/-- Section patches: none, the minimal patch, or a remove-all/re-add-all pair when the order would
differ. -/
def planSections (shown desired : List (Str × Str)) : List (List (Str × Option Str)) :=
  let has (m : List (Str × Str)) (key : Str) : Bool := (mapGet m key).isSome
  let shownOrder := shown.map Prod.fst
  let desiredOrder := desired.map Prod.fst
  let patchedOrder := shownOrder.filter (has desired) ++ desiredOrder.filter fun key => !has shown key
  if patchedOrder.zipIdx.any fun (key, index) => desiredOrder[index]? ≠ some key then
    [mkFields (shown.map fun e => (e.1, none)), mkFields (desired.map fun e => (e.1, some e.2))]
  else
    let changed := shown.foldl
      (fun patch e => if mapGet desired e.1 ≠ some e.2 then assign patch e.1 (mapGet desired e.1) else patch) []
    let patch := desired.foldl
      (fun patch e => if has shown e.1 then patch else assign patch e.1 (some e.2)) changed
    if patch.isEmpty then [] else [ownOrder patch]

/-- The `pi.system` entries that make the replayed sections and tools of `view` equal `desired` and `tools`
in values and order. A head marker with no later system entry gets a complete baseline that omits every
earlier system entry. -/
def planSystemEntries (view : ContextView) (desired : List (Str × Str)) (tools : List Agent.Tool)
    (timestamp : Number) : List SystemDraft :=
  if view.head.any fun head => !view.entries.any fun entry => isSystemEntry entry && decide (head.id < entry.id) then
    let edits := (view.entries.filter isSystemEntry).map fun entry => { target := entry.id, action := .omit }
    let baseline := systemEntry (some (mkFields (desired.map fun e => (e.1, some e.2))))
      (some { toolsRemoved := [], toolsAdded := tools.map Agent.Tool.declaration }) timestamp
    [if edits.isEmpty then baseline else { baseline with edits := some edits }]
  else
    let sections := planSections (replaySections view.messages) desired
    let changes := planTools (getCurrentTools view.messages) tools
    if changes.toolsRemoved.isEmpty && changes.toolsAdded.isEmpty then
      sections.map fun patch => systemEntry (some patch) none timestamp
    else if sections.isEmpty then [systemEntry none (some changes) timestamp]
    else sections.zipIdx.map fun (patch, index) =>
      systemEntry (some patch) (if index = sections.length - 1 then some changes else none) timestamp

end Context
