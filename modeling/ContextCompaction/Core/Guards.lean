import ContextCompaction.Core.Records

/-!
# Guards

* `assertToolPairs`: every tool call is answered before the next turn, and nothing else is.
* `assertRecoveryEdits`: an edit only omits a failed response.
-/

namespace Compaction

open Js

/-! ## Tool pairs -/

/-- The projected-message fields that a reduction reads. -/
structure ReducibleMessage where
  role : Str
  toolCallId : Option Str
  content : Option Json

/-- The fields of a projected message that the guards read. -/
def reducible (message : List (Str × Json)) : ReducibleMessage :=
  ⟨strField message "role", strField? message "toolCallId", field message "content"⟩

/-- The IDs of a content's tool calls. -/
def toolCallIds (content : Option Json) : List Str :=
  ((content.bind Json.arr?).getD []).filterMap fun part =>
    part.obj?.bind fun b => if strField? b "type" = some (lit "toolCall") then strField? b "id" else none

/-- `pending.add(id)` for each ID. -/
def addPending (pending ids : List Str) : List Str :=
  ids.foldl (fun pending id => if id ∈ pending then pending else pending ++ [id]) pending

/-- One message, with the calls that wait for their results. -/
def pairStep (pending : List Str) (message : ReducibleMessage) : Except Failure (List Str) :=
  if message.role = lit "assistant" then
    if pending ≠ [] then
      .error (.ofText "CONTEXT_TOOL_BOUNDARY: missing tool results before an assistant turn")
    else .ok (addPending pending (toolCallIds message.content))
  else if message.role = lit "toolResult" then
    match message.toolCallId with
    | none => .error (.ofText "CONTEXT_TOOL_BOUNDARY: an unmatched tool result")
    | some id =>
      if id ∈ pending then .ok (pending.filter (· ≠ id))
      else .error (.ofText "CONTEXT_TOOL_BOUNDARY: an unmatched tool result")
  else if message.role = lit "user" ∧ pending ≠ [] then
    .error (.ofText "CONTEXT_TOOL_BOUNDARY: user input interrupts an unfinished tool batch")
  else .ok pending

def assertToolPairs (messages : List ReducibleMessage) : Except Failure Unit :=
  (messages.foldlM pairStep []).bind fun pending =>
    if pending ≠ [] then
      .error (.ofText "CONTEXT_TOOL_BOUNDARY: wait for the tool batch to finish")
    else .ok ()

/-- The content of a message that is no assistant's does not matter. -/
theorem pairStep_content {message : ReducibleMessage} (h : message.role = lit "toolResult")
    (pending : List Str) (content : Option Json) :
    pairStep pending { message with content } = pairStep pending message := by
  simp [pairStep, h]

/-! ## Recovery edits -/

/-- Whether a message's content is an array with a part of a type. -/
def hasPart (message : List (Str × Json)) (type : String) : Bool :=
  ((field message "content").bind Json.arr?).any fun parts =>
    parts.any fun part => (part.get? (lit "type")).bind Json.str? = some (lit type)

/-- A failed response without tool calls: all that an edit may omit. -/
def failedResponse (entry : SessionRecord) : Bool :=
  decide (entry.type = .message) && decide (entry.role = lit "assistant") &&
    decide (entry.stopReason = some (lit "error")) && !hasPart entry.message "toolCall"

/-- One record, with the last message since the last checkpoint. -/
def recoveryStep (lastMessage : Option SessionRecord) (entry : SessionRecord) :
    Except Failure (Option SessionRecord) :=
  match entry.type with
  | .contextEdit =>
    if (field entry.fields "replacement").any isNull && lastMessage.any fun last =>
        decide (strField? entry.fields "targetId" = some last.id) && failedResponse last then
      .ok lastMessage
    else
      .error (.ofText "CONTEXT_PREVIEW_UNSUPPORTED: only failed-response recovery omissions are supported")
  | .message => .ok (some entry)
  | .compaction => .ok none
  | _ => .ok lastMessage

/-- An edit omits the latest failed response, and nothing else. -/
def assertRecoveryEdits (branch : List SessionRecord) : Except Failure Unit :=
  (branch.foldlM recoveryStep none).map fun _ => ()

/-- A record that is no edit passes. -/
theorem recoveryStep_ok {entry : SessionRecord} (h : entry.type ≠ .contextEdit)
    (lastMessage : Option SessionRecord) : ∃ next, recoveryStep lastMessage entry = .ok next := by
  unfold recoveryStep
  split
  · rename_i hedit
    exact absurd hedit h
  all_goals exact ⟨_, rfl⟩

/-- Records that are no edits pass behind a branch that passed. -/
theorem assertRecoveryEdits_append {branch more : List SessionRecord}
    (h : assertRecoveryEdits branch = .ok ()) (hmore : ∀ r ∈ more, r.type ≠ .contextEdit) :
    assertRecoveryEdits (branch ++ more) = .ok () := by
  have hrun : ∀ (more : List SessionRecord) (last : Option SessionRecord),
      (∀ r ∈ more, r.type ≠ .contextEdit) → ∃ next, more.foldlM recoveryStep last = .ok next := by
    intro more
    induction more with
    | nil => exact fun last _ => ⟨last, rfl⟩
    | cons r more ih =>
      intro last hmore
      obtain ⟨next, hnext⟩ := recoveryStep_ok (hmore r List.mem_cons_self) last
      obtain ⟨final, hfinal⟩ := ih next fun r' hr' => hmore r' (List.mem_cons_of_mem _ hr')
      exact ⟨final, by rw [List.foldlM_cons]; exact bind_ok.mpr ⟨next, hnext, hfinal⟩⟩
  obtain ⟨last, hlast, -⟩ := map_ok.mp h
  obtain ⟨next, hnext⟩ := hrun more last hmore
  refine map_ok.mpr ⟨next, ?_, rfl⟩
  rw [List.foldlM_append]
  exact bind_ok.mpr ⟨last, hlast, hnext⟩

end Compaction
