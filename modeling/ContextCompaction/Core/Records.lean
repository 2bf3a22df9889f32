import ContextCompaction.Js.Except
import ContextCompaction.Js.JsonParse

/-!
# Session records

A record of a branch is a JSON object that satisfies the types of `records.ts`; `SessionRecord`
carries that as its invariant, so the accessors below never meet a value of another type.

* `SessionRecord`, `RecordType`: the record, and its kind (`type`).
* `sourceText`, `sourceRole`: what a record says, and who says it.
* `Failure`: what the core throws.
-/

namespace Compaction

open Js

/-! ## Errors -/

/-- A thrown value: `new Error(message)`, a `TypeError`, or the `NoteBudgetError`. -/
inductive Failure where
  | error (message : Str)
  | typeError (message : Str)
  | noteBudget (bytes maxTokens : Nat)
  deriving DecidableEq

/-- A string literal of an error. -/
def Failure.ofText (message : String) : Failure := .error (lit message)

/-! ## The shape of a record -/

/-- The kind of a record; one outside the core's six passes through opaque. -/
inductive RecordType where
  | message
  | compaction
  | custom
  | customMessage
  | branchSummary
  | contextEdit
  | other (name : Str)
  deriving DecidableEq

/-- The type that a name stands for. -/
def RecordType.ofName (name : Str) : RecordType :=
  if name = lit "message" then .message
  else if name = lit "compaction" then .compaction
  else if name = lit "custom" then .custom
  else if name = lit "custom_message" then .customMessage
  else if name = lit "branch_summary" then .branchSummary
  else if name = lit "context_edit" then .contextEdit
  else .other name

/-- `fields[key]`; `none` is `undefined`. -/
def field (fields : List (Str × Json)) (key : String) : Option Json := mapGet fields (lit key)

/-- A property that is a string. -/
def strField? (fields : List (Str × Json)) (key : String) : Option Str :=
  (field fields key).bind Json.str?

/-- The text under a key, or the empty one. -/
def strField (fields : List (Str × Json)) (key : String) : Str := (strField? fields key).getD []

/-- There is a text under the key. -/
def hasStr (fields : List (Str × Json)) (key : String) : Bool := (strField? fields key).isSome

/-- A property that is absent or passes a test. -/
def optional (p : Json → Bool) (v : Option Json) : Bool := v.all p

/-- `typeof v === "string"`. -/
def isStr (v : Json) : Bool := v.str?.isSome

/-- `RecordContentBlock`. -/
def blockTyped (v : Json) : Bool :=
  v.obj?.any fun b =>
    hasStr b "type" && optional isStr (field b "text") && optional isStr (field b "id") &&
      optional isStr (field b "name")

/-- `string | RecordContentBlock[]`. -/
def contentTyped (v : Json) : Bool := isStr v || v.arr?.any fun xs => xs.all blockTyped

/-- `typeof v === "boolean"`. -/
def isBool : Json → Bool
  | .bool _ => true
  | _ => false

/-- `RecordMessage`. -/
def messageTyped (v : Json) : Bool :=
  v.obj?.any fun m =>
    hasStr m "role" && optional contentTyped (field m "content") &&
      optional isStr (field m "stopReason") && optional isStr (field m "errorMessage") &&
      optional isStr (field m "toolCallId") && optional isStr (field m "toolName") &&
      optional isBool (field m "isError") && optional isStr (field m "command") &&
      optional isStr (field m "output") &&
      optional (fun v => v.num?.isSome) (field m "exitCode") &&
      optional isStr (field m "fullOutputPath") && optional isBool (field m "excludeFromContext")

/-- `v === null`. -/
def isNull : Json → Bool
  | .null => true
  | _ => false

/-- `SessionRecord`. -/
def recordTyped (r : List (Str × Json)) : Bool :=
  hasStr r "id" && (field r "parentId").any (fun v => isNull v || isStr v) && hasStr r "type" &&
    hasStr r "timestamp" &&
    match RecordType.ofName (strField r "type") with
    | .message => (field r "message").any messageTyped
    | .compaction =>
      hasStr r "summary" && hasStr r "firstKeptEntryId" &&
        (field r "tokensBefore").any fun v => v.num?.isSome
    | .custom => hasStr r "customType"
    | .customMessage => (field r "content").any contentTyped
    | .branchSummary => hasStr r "summary"
    | .contextEdit =>
      hasStr r "targetId" && (field r "replacement").any fun v =>
        isNull v || ((v.get? (lit "content")).any contentTyped)
    | .other _ => true

/-- One record of a branch. -/
structure SessionRecord where
  fields : List (Str × Json)
  typed : recordTyped fields = true

namespace SessionRecord

/-- The record as it is stored. -/
def json (r : SessionRecord) : Json := .obj r.fields

/-- The ID of a record. -/
def id (r : SessionRecord) : Str := strField r.fields "id"

/-- The preceding record's ID; `none` is `null`. -/
def parentId (r : SessionRecord) : Option Str := strField? r.fields "parentId"

/-- The type of a record. -/
def type (r : SessionRecord) : RecordType := RecordType.ofName (strField r.fields "type")

/-- When a record was appended, as it is written there. -/
def timestamp (r : SessionRecord) : Str := strField r.fields "timestamp"

/-- The properties of `message`. -/
def message (r : SessionRecord) : List (Str × Json) :=
  ((field r.fields "message").bind Json.obj?).getD []

/-- `message.role`. -/
def role (r : SessionRecord) : Str := strField r.message "role"

/-- `message.stopReason`. -/
def stopReason (r : SessionRecord) : Option Str := strField? r.message "stopReason"

/-- The summary of a checkpoint or of an abandoned branch. -/
def summary (r : SessionRecord) : Str := strField r.fields "summary"

/-- What a host has stored with a checkpoint. -/
def details (r : SessionRecord) : Option Json := field r.fields "details"

/-- A message of the user. -/
def isUser (r : SessionRecord) : Bool := decide (r.type = .message) && decide (r.role = lit "user")

end SessionRecord

/-! ## What a record says -/

/-- The properties that are not `undefined`, in order. -/
def present (properties : List (String × Option Json)) : List (Str × Json) :=
  properties.filterMap fun p => p.2.map fun v => (lit p.1, v)

/-- One block of a message's content. -/
def blockText (block : List (Str × Json)) : Str :=
  if strField block "type" = lit "text" then strField block "text"
  else if strField block "type" = lit "toolCall" then
    stringify (.obj (present [("tool", field block "name"), ("arguments", field block "arguments")]))
  else
    lit "[" ++ strField block "type" ++
      lit " content retained in original session; not inferred in text notes]"

/-- The blocks of a content that is an array. -/
def blocks (content : Json) : List (List (Str × Json)) :=
  (content.arr?.getD []).map fun b => b.obj?.getD []

/-- A part of auxiliary text. -/
def partText (part : List (Str × Json)) : Str :=
  if strField part "type" = lit "text" then strField part "text"
  else lit "[image retained in original session]"

/-- A string or `null`. -/
def orNull (s : Option Str) : Json := s.elim .null .str

/-- The text that a note may cite. -/
def sourceText (entry : SessionRecord) : Str :=
  match entry.type with
  | .message =>
    if entry.role = lit "bashExecution" then
      stringify (.obj (present [("command", field entry.message "command"),
        ("output", field entry.message "output"), ("exitCode", field entry.message "exitCode"),
        ("fullOutputPath", field entry.message "fullOutputPath")]))
    else
      match field entry.message "content" with
      | none => []
      | some (.str s) => s
      | some content => join "\n" ((blocks content).map blockText)
  | .customMessage =>
    match field entry.fields "content" with
    | some (.str s) => s
    | some content => join "\n" ((blocks content).map partText)
    | none => []
  | .branchSummary => entry.summary
  | _ => []

/-- The role under which a record is quoted: that of its message, else its type. -/
def sourceRole (entry : SessionRecord) : Str :=
  match entry.type with
  | .message => entry.role
  | _ => strField entry.fields "type"

/-! ## Building records -/

/-- A message with a text, as a host stores it. -/
def messageRecord (id parentId timestamp role content : Str) : SessionRecord where
  fields := [(lit "type", .str (lit "message")), (lit "id", .str id),
    (lit "parentId", .str parentId), (lit "timestamp", .str timestamp),
    (lit "message", .obj [(lit "role", .str role), (lit "content", .str content)])]
  typed := by
    simp [recordTyped, hasStr, strField, strField?, field, RecordType.ofName, messageTyped,
      contentTyped, optional, isStr]

section

variable (id parentId timestamp role content : Str)

@[simp] theorem id_messageRecord : (messageRecord id parentId timestamp role content).id = id := by
  simp [SessionRecord.id, messageRecord, strField, strField?, field]

@[simp] theorem type_messageRecord :
    (messageRecord id parentId timestamp role content).type = .message := by
  simp [SessionRecord.type, messageRecord, strField, strField?, field, RecordType.ofName]

@[simp] theorem role_messageRecord :
    (messageRecord id parentId timestamp role content).role = role := by
  simp [SessionRecord.role, SessionRecord.message, messageRecord, strField, strField?, field]

@[simp] theorem sourceText_messageRecord (h : role ≠ lit "bashExecution") :
    sourceText (messageRecord id parentId timestamp role content) = content := by
  rw [sourceText, type_messageRecord, role_messageRecord]
  simp [h, SessionRecord.message, messageRecord, field]

end

end Compaction
