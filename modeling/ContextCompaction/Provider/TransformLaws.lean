import Mathlib.Data.List.TakeWhile
import ContextCompaction.Provider.TransformMessages

/-!
# What a provider is sent

* `Sent`: the messages of a session beside those that are sent.
* `Paired`: each result is of a call of the assistant message before it, and there is one at most.
* `transformMessages_sent_iff`: every call is sent with one result, just if no answered call gets the
  empty ID.
-/

namespace Provider

open Js

variable {model : Model} {normalizeToolCallId : Option Normalizer}

/-! ## Blocks -/

/-- The ID that a call is sent with. -/
def newId (model : Model) (normalizeToolCallId : Option Normalizer) (source : AssistantMessage) (id : Str) :
    Str :=
  if source.isSameModel model then id
  else normalizeToolCallId.elim id fun normalize => normalize id model source

/-- A block beside the blocks that are sent for it. -/
inductive SentBlock (newId : Str → Str) : Block → List Block → Prop
  | text (text : Str) (signature sent : Option Str) : SentBlock newId (.text text signature) [.text text sent]
  | dropped (thinking : Str) (signature : Option Str) (redacted : Bool) :
    SentBlock newId (.thinking thinking signature redacted) []
  | thinking (thinking : Str) (signature : Option Str) (redacted : Bool) :
    SentBlock newId (.thinking thinking signature redacted) [.thinking thinking signature redacted]
  | plain (thinking : Str) (signature : Option Str) (redacted : Bool) :
    SentBlock newId (.thinking thinking signature redacted) [.text thinking none]
  | toolCall (call : ToolCall) (sent : Option Str) :
    SentBlock newId (.toolCall call) [.toolCall { call with id := newId call.id, thoughtSignature := sent }]

/-- Content beside the content that is sent. -/
def SentContent (newId : Str → Str) (content sent : List Block) : Prop :=
  ∃ parts, sent = parts.flatten ∧ List.Forall₂ (SentBlock newId) content parts

/-- A call beside the call that is sent. -/
def SentCall (newId : Str → Str) (call sent : ToolCall) : Prop :=
  ∃ signature, sent = { call with id := newId call.id, thoughtSignature := signature }

theorem SentContent.toolCalls {newId : Str → Str} {content sent : List Block}
    (h : SentContent newId content sent) :
    List.Forall₂ (SentCall newId) (content.filterMap Block.toolCall?) (sent.filterMap Block.toolCall?) := by
  obtain ⟨parts, rfl, h⟩ := h
  induction h with
  | nil => exact .nil
  | cons hblock _ ih =>
    rw [List.flatten_cons, List.filterMap_append]
    cases hblock with
    | toolCall call signature => exact .cons ⟨signature, rfl⟩ ih
    | text => exact ih
    | dropped => exact ih
    | thinking => exact ih
    | plain => exact ih

theorem transformThinking_sent (newId : Str → Str) (same : Bool) (thinking : Str)
    (signature : Option Str) (redacted : Bool) :
    SentBlock newId (.thinking thinking signature redacted)
      (transformThinking same thinking signature redacted) := by
  unfold transformThinking
  split_ifs
  · exact .thinking ..
  · exact .dropped ..
  · exact .thinking ..
  · exact .dropped ..
  · exact .thinking ..
  · exact .plain ..

/-- A call gets its ID, which is noted if it is another one. -/
theorem transformBlock_toolCall (source : AssistantMessage) (idMap : List (Str × Str)) (call : ToolCall) :
    let id := newId model normalizeToolCallId source call.id
    ∃ signature, transformBlock model normalizeToolCallId source idMap (.toolCall call) =
      ([.toolCall { call with id := id, thoughtSignature := signature }],
        if id = call.id then idMap else mapSet idMap call.id id) := by
  unfold transformBlock newId
  dsimp only
  obtain ⟨signature, hunsigned⟩ : ∃ signature,
      (if truthy call.thoughtSignature then { call with thoughtSignature := none } else call) =
        { call with thoughtSignature := signature } := by
    split_ifs
    · exact ⟨none, rfl⟩
    · exact ⟨call.thoughtSignature, rfl⟩
  by_cases hsame : source.isSameModel model = true
  · simp only [if_pos hsame]
    exact ⟨call.thoughtSignature, rfl⟩
  · simp only [if_neg hsame, hunsigned]
    refine ⟨signature, ?_⟩
    cases normalizeToolCallId with
    | none => simp
    | some normalize =>
      simp only [Option.elim_some]
      by_cases hid : normalize call.id model source = call.id
      · simp [hid]
      · simp [hid]

/-! ## Content and IDs -/

/-- Content is sent block by block, with the IDs that its message is given. -/
theorem transformContent_sent (source : AssistantMessage) (content : List Block) (idMap : List (Str × Str)) :
    SentContent (newId model normalizeToolCallId source) content
      (transformContent model normalizeToolCallId source content idMap).1 := by
  induction content generalizing idMap with
  | nil => exact ⟨[], rfl, .nil⟩
  | cons block rest ih =>
    obtain ⟨parts, hparts, hsent⟩ := ih (transformBlock model normalizeToolCallId source idMap block).2
    refine ⟨(transformBlock model normalizeToolCallId source idMap block).1 :: parts, ?_, .cons ?_ hsent⟩
    · rw [List.flatten_cons, ← hparts]
      rfl
    · cases block with
      | text text signature => exact .text ..
      | thinking thinking signature redacted => exact transformThinking_sent ..
      | toolCall call =>
        obtain ⟨signature, hcall⟩ := @transformBlock_toolCall model normalizeToolCallId source idMap call
        rw [hcall]
        exact .toolCall ..

/-- The IDs noted for other calls stay. -/
theorem transformContent_other (source : AssistantMessage) {content : List Block} {id : Str}
    (h : id ∉ (content.filterMap Block.toolCall?).map ToolCall.id) (idMap : List (Str × Str)) :
    mapGet (transformContent model normalizeToolCallId source content idMap).2 id = mapGet idMap id := by
  induction content generalizing idMap with
  | nil => rfl
  | cons block rest ih =>
    rw [transformContent]
    cases block with
    | toolCall call =>
      rw [show (Block.toolCall call :: rest).filterMap Block.toolCall? =
        call :: rest.filterMap Block.toolCall? from rfl, List.map_cons, List.mem_cons, not_or] at h
      obtain ⟨signature, hcall⟩ := @transformBlock_toolCall model normalizeToolCallId source idMap call
      dsimp only
      rw [hcall, ih h.2]
      dsimp only
      split_ifs
      · rfl
      · rw [mapGet_mapSet, if_neg (Ne.symm h.1)]
    | text text signature => exact ih h idMap
    | thinking thinking signature redacted => exact ih h idMap

/-- The ID of a call is noted if it is another one. -/
theorem transformContent_own (source : AssistantMessage) {content : List Block} {id : Str}
    (hnodup : ((content.filterMap Block.toolCall?).map ToolCall.id).Nodup)
    (hid : id ∈ (content.filterMap Block.toolCall?).map ToolCall.id) (idMap : List (Str × Str)) :
    mapGet (transformContent model normalizeToolCallId source content idMap).2 id =
      if newId model normalizeToolCallId source id = id then mapGet idMap id
      else some (newId model normalizeToolCallId source id) := by
  induction content generalizing idMap with
  | nil => cases hid
  | cons block rest ih =>
    rw [transformContent]
    cases block with
    | toolCall call =>
      rw [show (Block.toolCall call :: rest).filterMap Block.toolCall? =
        call :: rest.filterMap Block.toolCall? from rfl, List.map_cons] at hnodup hid
      rw [List.nodup_cons] at hnodup
      obtain ⟨signature, hcall⟩ := @transformBlock_toolCall model normalizeToolCallId source idMap call
      dsimp only
      rw [hcall]
      dsimp only
      rcases List.mem_cons.mp hid with rfl | hid
      · rw [transformContent_other source hnodup.1]
        split_ifs
        · rfl
        · rw [mapGet_mapSet, if_pos rfl]
      · have hne : call.id ≠ id := fun heq => hnodup.1 (heq ▸ hid)
        rw [ih hnodup.2 hid]
        congr 1
        split_ifs
        · rfl
        · rw [mapGet_mapSet, if_neg hne]
    | text text signature => exact ih hnodup hid idMap
    | thinking thinking signature redacted => exact ih hnodup hid idMap

/-! ## Images -/

/-- Content beside the content for a model that reads no images. Each run of images leaves one
placeholder, and none where the run follows a text that is the placeholder already (`previous`). -/
inductive Downgraded (placeholder : Str) : Bool → List ContentBlock → List ContentBlock → Prop
  | nil (previous : Bool) : Downgraded placeholder previous [] []
  | text (previous : Bool) (text : Str) (signature : Option Str) {rest shown : List ContentBlock}
      (h : Downgraded placeholder (decide (text = placeholder)) rest shown) :
    Downgraded placeholder previous (.text text signature :: rest) (.text text signature :: shown)
  | image (data mimeType : Str) {rest shown : List ContentBlock} (h : Downgraded placeholder true rest shown) :
    Downgraded placeholder false (.image data mimeType :: rest) (.text placeholder none :: shown)
  | repeated (data mimeType : Str) {rest shown : List ContentBlock}
      (h : Downgraded placeholder true rest shown) :
    Downgraded placeholder true (.image data mimeType :: rest) shown

/-- Content beside the content that is sent to the model. -/
def ShownContent (model : Model) (placeholder : Str) (content shown : List ContentBlock) : Prop :=
  if model.readsImages then shown = content else Downgraded placeholder false content shown

inductive ShownUser (model : Model) : UserMessage → UserMessage → Prop
  | text (text : Str) (timestamp : Nat) : ShownUser model ⟨.text text, timestamp⟩ ⟨.text text, timestamp⟩
  | blocks {content shown : List ContentBlock} (timestamp : Nat)
      (h : ShownContent model NON_VISION_USER_IMAGE_PLACEHOLDER content shown) :
    ShownUser model ⟨.blocks content, timestamp⟩ ⟨.blocks shown, timestamp⟩

/-- A result beside the result that is sent, under another ID. -/
def ShownResult (model : Model) (newId : Str → Str) (result shown : ToolResultMessage) : Prop :=
  ∃ content, ShownContent model NON_VISION_TOOL_IMAGE_PLACEHOLDER result.content content ∧
    shown = { result with toolCallId := newId result.toolCallId, content := content }

/-- Images are replaced by one placeholder for each run of them; all else stays. -/
theorem replaceFrom_downgraded (placeholder : Str) (previous : Bool) (content : List ContentBlock) :
    Downgraded placeholder previous content (replaceFrom placeholder previous content) := by
  induction content generalizing previous with
  | nil => exact .nil previous
  | cons block rest ih =>
    cases block with
    | text text signature =>
      refine .text _ _ _ ?_
      rw [← beq_eq_decide]
      exact ih _
    | image data mimeType =>
      rw [replaceFrom]
      cases previous with
      | true => exact .repeated _ _ (ih _)
      | false => exact .image _ _ (ih _)

/-- An image is never lost without a trace: content with an image shows the placeholder. -/
theorem Downgraded.placeholder_mem {placeholder : Str} {content shown : List ContentBlock}
    (h : Downgraded placeholder false content shown) {data mimeType : Str}
    (himage : .image data mimeType ∈ content) : ∃ signature, .text placeholder signature ∈ shown := by
  have hrun : ∀ previous, Downgraded placeholder previous content shown →
      previous = true ∨ ∃ signature, .text placeholder signature ∈ shown := by
    clear h
    intro previous h
    induction h with
    | nil => cases himage
    | text previous text signature _ ih =>
      rcases ih ((List.mem_cons.mp himage).resolve_left (by simp)) with htext | ⟨signature', hmem⟩
      · exact .inr ⟨signature, by simp [of_decide_eq_true htext]⟩
      · exact .inr ⟨signature', .tail _ hmem⟩
    | image => exact .inr ⟨none, List.mem_cons_self⟩
    | repeated => exact .inl rfl
  exact (hrun false h).resolve_left Bool.false_ne_true

/-- A message as the model is shown it. -/
def shown (model : Model) (message : Message) : Message :=
  if model.readsImages then message else downgradeMessage message

theorem downgradeUnsupportedImages_eq (messages : List Message) (model : Model) :
    downgradeUnsupportedImages messages model = messages.map (shown model) := by
  unfold downgradeUnsupportedImages shown
  split_ifs
  · exact (List.map_id _).symm
  · rfl

theorem shown_system (message : Json) : shown model (.system message) = .system message := by
  unfold shown
  split_ifs <;> rfl

theorem shown_assistant (message : AssistantMessage) :
    shown model (.assistant message) = .assistant message := by
  unfold shown
  split_ifs <;> rfl

/-- A user message is shown as it is, with its images downgraded where the model takes none. -/
theorem shown_user (message : UserMessage) :
    ∃ message', shown model (.user message) = .user message' ∧ ShownUser model message message' := by
  unfold shown
  obtain ⟨content, timestamp⟩ := message
  split_ifs with hreads
  · refine ⟨_, rfl, ?_⟩
    cases content with
    | text text => exact .text ..
    | blocks content => exact .blocks _ (by rw [ShownContent, if_pos hreads])
  · cases content with
    | text text => exact ⟨_, rfl, .text ..⟩
    | blocks content =>
      refine ⟨_, rfl, .blocks _ ?_⟩
      rw [ShownContent, if_neg hreads]
      exact replaceFrom_downgraded ..

theorem shown_toolResult (result : ToolResultMessage) :
    ∃ content, shown model (.toolResult result) = .toolResult { result with content := content } ∧
      ShownContent model NON_VISION_TOOL_IMAGE_PLACEHOLDER result.content content := by
  unfold shown
  split_ifs with hreads
  · exact ⟨result.content, rfl, by rw [ShownContent, if_pos hreads]⟩
  · refine ⟨_, rfl, ?_⟩
    rw [ShownContent, if_neg hreads]
    exact replaceFrom_downgraded ..

/-! ## Sessions -/

def Message.toolResult? : Message → Option ToolResultMessage
  | .toolResult message => some message
  | _ => none

def Message.isSystem : Message → Bool
  | .system _ => true
  | _ => false

/-- It leaves the calls before it open. -/
def Message.keepsOpen : Message → Bool
  | .system _ => true
  | .toolResult _ => true
  | _ => false

def results (messages : List Message) : List ToolResultMessage := messages.filterMap Message.toolResult?

def AssistantMessage.callIds (message : AssistantMessage) : List Str := message.toolCalls.map ToolCall.id

/-- The IDs of the calls of a session. -/
def callIds (messages : List Message) : List Str :=
  messages.flatMap fun
    | .assistant message => message.callIds
    | _ => []

/-- Each result is of one of the calls that are still open; a failed message opens none. -/
def Paired : List Str → List Message → Prop
  | _, [] => True
  | open_, .system _ :: rest => Paired open_ rest
  | _, .user _ :: rest => Paired [] rest
  | _, .assistant message :: rest => Paired (if message.failed then [] else message.callIds) rest
  | open_, .toolResult message :: rest =>
    message.toolCallId ∈ open_ ∧ Paired (open_.erase message.toolCallId) rest

/-- The messages of a session beside those that are sent. Failed messages are left out, and of a batch
the system messages come last. -/
inductive Sent (model : Model) (normalizeToolCallId : Option Normalizer)
    (answers : AssistantMessage → List ToolResultMessage → List ToolResultMessage → Prop) :
    List Message → List Message → Prop
  | nil : Sent model normalizeToolCallId answers [] []
  | system (message : Json) {rest sent : List Message}
      (h : Sent model normalizeToolCallId answers rest sent) :
    Sent model normalizeToolCallId answers (.system message :: rest) (.system message :: sent)
  | user {message message' : UserMessage} {rest sent : List Message} (hshown : ShownUser model message message')
      (h : Sent model normalizeToolCallId answers rest sent) :
    Sent model normalizeToolCallId answers (.user message :: rest) (.user message' :: sent)
  | failed {message : AssistantMessage} {rest sent : List Message} (hfailed : message.failed = true)
      (h : Sent model normalizeToolCallId answers rest sent) :
    Sent model normalizeToolCallId answers (.assistant message :: rest) sent
  | batch {message : AssistantMessage} {content : List Block} {behind rest sent : List Message}
      {answered : List ToolResultMessage} (hfailed : message.failed = false)
      (hcontent : SentContent (newId model normalizeToolCallId message) message.content content)
      (hbehind : ∀ m ∈ behind, m.keepsOpen = true) (hanswers : answers message (results behind) answered)
      (h : Sent model normalizeToolCallId answers rest sent) :
    Sent model normalizeToolCallId answers (.assistant message :: (behind ++ rest))
      (.assistant { message with content := content } ::
        (answered.map Message.toolResult ++ behind.filter Message.isSystem ++ sent))

/-- The results that are made up for calls. -/
def Missing (newId : Str → Str) (calls : List ToolCall) (missing : List ToolResultMessage) : Prop :=
  List.Forall₂ (fun call result => ∃ now, result = noResult { call with id := newId call.id } now) calls missing

/-- Every call has one result under its ID, and it is the result that it had. -/
def Answers (model : Model) (normalizeToolCallId : Option Normalizer) (message : AssistantMessage)
    (results answered : List ToolResultMessage) : Prop :=
  let newId := newId model normalizeToolCallId message
  (∃ kept missing, answered = kept ++ missing ∧ List.Forall₂ (ShownResult model newId) results kept ∧
    Missing newId
      (message.toolCalls.filter fun call => call.id ∉ results.map ToolResultMessage.toolCallId) missing) ∧
  (answered.map ToolResultMessage.toolCallId).Perm (message.callIds.map newId) ∧
  (message.callIds.map newId).Nodup

/-! ## What the passes do -/

/-- The ID that a result is sent with. -/
def keptId (newId : Str → Str) (id : Str) : Str := if newId id = [] then id else newId id

/-- What the passes make of a batch. -/
def Replayed (model : Model) (normalizeToolCallId : Option Normalizer) (message : AssistantMessage)
    (results answered : List ToolResultMessage) : Prop :=
  let newId := newId model normalizeToolCallId message
  (results.map ToolResultMessage.toolCallId).Nodup ∧
  (∀ result ∈ results, result.toolCallId ∈ message.callIds) ∧
  ∃ kept missing, answered = kept ++ missing ∧ List.Forall₂ (ShownResult model (keptId newId)) results kept ∧
    Missing newId (message.toolCalls.filter fun call =>
      newId call.id ∉ results.map fun result => keptId newId result.toolCallId) missing

/-- A result is made up for each call that has none, in the order of the calls. -/
theorem pushMissing_spec (clock : Nat → Nat) (existing : List Str) (result : List Message)
    (calls : List ToolCall) : ∃ missing,
      pushMissing clock existing result calls = result ++ missing.map Message.toolResult ∧
      List.Forall₂ (fun call result => ∃ now, result = noResult call now)
        (calls.filter fun call => call.id ∉ existing) missing := by
  induction calls generalizing result with
  | nil => exact ⟨[], (List.append_nil _).symm, .nil⟩
  | cons call rest ih =>
    rw [pushMissing]
    split_ifs with hexists
    · obtain ⟨missing, hpush, hmissing⟩ := ih result
      refine ⟨missing, hpush, ?_⟩
      rwa [List.filter_cons_of_neg (by simpa using hexists)]
    · obtain ⟨missing, hpush, hmissing⟩ := ih (result ++ [.toolResult (noResult call (clock result.length))])
      refine ⟨noResult call (clock result.length) :: missing, ?_, ?_⟩
      · rw [hpush, List.append_assoc]
        rfl
      · rw [List.filter_cons_of_pos (by simpa using hexists)]
        exact .cons ⟨_, rfl⟩ hmissing

/-- The results that are made up carry the names and the new IDs of the calls. -/
theorem missing_of_sentCalls {newId : Str → Str} {calls sent : List ToolCall}
    {missing : List ToolResultMessage} {existing : List Str} (h : List.Forall₂ (SentCall newId) calls sent)
    (hmissing : List.Forall₂ (fun call result => ∃ now, result = noResult call now)
      (sent.filter fun call => call.id ∉ existing) missing) :
    Missing newId (calls.filter fun call => newId call.id ∉ existing) missing := by
  induction h generalizing missing with
  | nil =>
    cases hmissing
    exact .nil
  | @cons call sentCall calls sent hcall _ ih =>
    obtain ⟨signature, rfl⟩ := hcall
    by_cases hexists : newId call.id ∈ existing
    · rw [List.filter_cons_of_neg (by simpa using hexists)] at hmissing ⊢
      exact ih hmissing
    · rw [List.filter_cons_of_pos (by simpa using hexists)] at hmissing ⊢
      cases hmissing with
      | cons hnow hrest =>
        obtain ⟨now, rfl⟩ := hnow
        exact .cons ⟨now, rfl⟩ (ih hrest)

variable (clock : Nat → Nat) {s : Pass}

/-- No call is open. -/
structure Pass.Closed (s : Pass) : Prop where
  pending : s.pendingToolCalls = []
  held : s.heldSystemMessages = []

theorem Pass.Closed.close (h : s.Closed) : closePendingToolCalls clock s = s := by
  unfold closePendingToolCalls
  obtain ⟨result, pending, existing, held⟩ := s
  obtain rfl : pending = [] := h.pending
  obtain rfl : held = [] := h.held
  simp

theorem close_closed (s : Pass) : (closePendingToolCalls clock s).Closed := by
  unfold closePendingToolCalls
  refine ⟨?_, rfl⟩
  dsimp only
  split_ifs with hempty
  · exact List.isEmpty_iff.mp hempty
  · rfl

/-- A message that opens or closes a batch closes the one before. -/
theorem step_close {message : Message} (h : message.keepsOpen = false) (s : Pass) :
    secondPassStep clock (closePendingToolCalls clock s) message = secondPassStep clock s message := by
  cases message with
  | system message => cases h
  | toolResult message => cases h
  | user message => rw [secondPassStep, secondPassStep, (close_closed clock s).close]
  | assistant message => rw [secondPassStep, secondPassStep, (close_closed clock s).close]

theorem foldl_close {messages : List Message} (h : ∀ m ∈ messages.head?, m.keepsOpen = false) (s : Pass) :
    closePendingToolCalls clock (messages.foldl (secondPassStep clock) (closePendingToolCalls clock s)) =
      closePendingToolCalls clock (messages.foldl (secondPassStep clock) s) := by
  cases messages with
  | nil => exact (close_closed clock s).close clock
  | cons message rest => rw [List.foldl_cons, List.foldl_cons, step_close clock (h message rfl)]

/-- What follows open calls is a result, or it is held. -/
theorem foldl_open (s : Pass) {messages : List Message} (hopen : s.pendingToolCalls ≠ [])
    (h : ∀ m ∈ messages, m.keepsOpen = true) :
    messages.foldl (secondPassStep clock) s =
      { s with
        result := s.result ++ (results messages).map Message.toolResult
        existingToolResultIds := s.existingToolResultIds ++ (results messages).map ToolResultMessage.toolCallId
        heldSystemMessages := s.heldSystemMessages ++ messages.filter Message.isSystem } := by
  induction messages generalizing s with
  | nil => simp [results]
  | cons message rest ih =>
    obtain ⟨hmessage, hrest⟩ := List.forall_mem_cons.mp h
    rw [List.foldl_cons]
    cases message with
    | user message => cases hmessage
    | assistant message => cases hmessage
    | system message =>
      have hstep : secondPassStep clock s (.system message) =
          { s with heldSystemMessages := s.heldSystemMessages ++ [.system message] } :=
        if_neg (by simpa using hopen)
      rw [hstep, ih { s with heldSystemMessages := s.heldSystemMessages ++ [.system message] } hopen hrest]
      simp [results, List.filterMap_cons, List.filter_cons, Message.toolResult?, Message.isSystem]
    | toolResult message =>
      rw [ih (secondPassStep clock s (.toolResult message)) hopen hrest]
      simp [secondPassStep, results, Message.toolResult?, Message.isSystem]

/-- System messages pass through while no call waits. -/
theorem foldl_systems (s : Pass) {messages : List Message} (hclosed : s.pendingToolCalls = [])
    (h : ∀ m ∈ messages, m.isSystem = true) :
    messages.foldl (secondPassStep clock) s = { s with result := s.result ++ messages } := by
  induction messages generalizing s with
  | nil => simp
  | cons message rest ih =>
    obtain ⟨hmessage, hrest⟩ := List.forall_mem_cons.mp h
    cases message with
    | system message =>
      have hstep : secondPassStep clock s (.system message) = { s with result := s.result ++ [.system message] } :=
        if_pos (by rw [hclosed]; rfl)
      rw [List.foldl_cons, hstep, ih { s with result := s.result ++ [.system message] } hclosed hrest]
      simp
    | user message => cases hmessage
    | assistant message => cases hmessage
    | toolResult message => cases hmessage

/-! ## Batches -/

/-- The results behind an assistant message are of its open calls, each of another one. -/
theorem paired_behind {behind rest : List Message} {ids : List Str} (h : Paired ids (behind ++ rest))
    (hnodup : ids.Nodup) (hbehind : ∀ m ∈ behind, m.keepsOpen = true)
    (hrest : ∀ m ∈ rest.head?, m.keepsOpen = false) :
    ((results behind).map ToolResultMessage.toolCallId).Nodup ∧
      (∀ result ∈ results behind, result.toolCallId ∈ ids) ∧ Paired [] rest := by
  induction behind generalizing ids with
  | nil =>
    refine ⟨List.nodup_nil, fun _ h => absurd h List.not_mem_nil, ?_⟩
    cases rest with
    | nil => trivial
    | cons message rest =>
      cases message with
      | user message => exact h
      | assistant message => exact h
      | system message => cases hrest _ rfl
      | toolResult message => cases hrest _ rfl
  | cons message behind ih =>
    obtain ⟨hmessage, hmore⟩ := List.forall_mem_cons.mp hbehind
    cases message with
    | user message => cases hmessage
    | assistant message => cases hmessage
    | system message => exact ih h hnodup hmore
    | toolResult message =>
      obtain ⟨hmem, h⟩ := h
      obtain ⟨hresults, hids, hpaired⟩ := ih h (hnodup.erase _) hmore
      have hcons : results (.toolResult message :: behind) = message :: results behind := rfl
      rw [hcons, List.map_cons, List.nodup_cons]
      refine ⟨⟨fun hin => ?_, hresults⟩, ?_, hpaired⟩
      · obtain ⟨result, hresult, heq⟩ := List.mem_map.mp hin
        exact hnodup.not_mem_erase (heq ▸ hids result hresult)
      · rintro result (_ | ⟨_, hresult⟩)
        · exact hmem
        · exact List.mem_of_mem_erase (hids result hresult)

/-- What is noted for the calls of a message renames their results. -/
theorem renameResult_eq {newId : Str → Str} {idMap : List (Str × Str)} {result : ToolResultMessage}
    (h : mapGet idMap result.toolCallId =
      if newId result.toolCallId = result.toolCallId then none else some (newId result.toolCallId)) :
    renameResult idMap result = { result with toolCallId := keptId newId result.toolCallId } := by
  unfold renameResult keptId
  rw [h]
  by_cases hsame : newId result.toolCallId = result.toolCallId
  · simp only [if_pos hsame]
    split_ifs
    · rfl
    · rw [hsame]
  · simp only [if_neg hsame]
    by_cases hempty : newId result.toolCallId = []
    · simp [hempty]
    · simp [hempty, hsame]

/-- The first pass over what follows an assistant message. -/
theorem firstPass_behind {newId : Str → Str} {idMap : List (Str × Str)} {behind : List Message}
    (rest : List Message) (hbehind : ∀ m ∈ behind, m.keepsOpen = true)
    (h : ∀ result ∈ results behind, mapGet idMap result.toolCallId =
      if newId result.toolCallId = result.toolCallId then none else some (newId result.toolCallId)) :
    ∃ behind', firstPass model normalizeToolCallId idMap ((behind ++ rest).map (shown model)) =
        behind' ++ firstPass model normalizeToolCallId idMap (rest.map (shown model)) ∧
      (∀ m ∈ behind', m.keepsOpen = true) ∧ behind'.filter Message.isSystem = behind.filter Message.isSystem ∧
      List.Forall₂ (ShownResult model (keptId newId)) (results behind) (results behind') := by
  induction behind with
  | nil => exact ⟨[], rfl, fun _ h => absurd h List.not_mem_nil, rfl, .nil⟩
  | cons message behind ih =>
    obtain ⟨hmessage, hmore⟩ := List.forall_mem_cons.mp hbehind
    cases message with
    | user message => cases hmessage
    | assistant message => cases hmessage
    | system message =>
      obtain ⟨behind', hpass, hopen, hsystems, hresults⟩ := ih hmore h
      refine ⟨.system message :: behind', ?_, List.forall_mem_cons.mpr ⟨rfl, hopen⟩, ?_, hresults⟩
      · rw [List.cons_append, List.map_cons, shown_system, firstPass, hpass]
        · rfl
        · rintro m ⟨⟩
        · rintro m ⟨⟩
      · rw [List.filter_cons_of_pos rfl, List.filter_cons_of_pos rfl, hsystems]
    | toolResult message =>
      obtain ⟨hresult, h⟩ := List.forall_mem_cons.mp h
      obtain ⟨behind', hpass, hopen, hsystems, hresults⟩ := ih hmore h
      obtain ⟨content, hshown, hcontent⟩ := @shown_toolResult model message
      refine ⟨.toolResult { message with
          toolCallId := keptId newId message.toolCallId, content := content } :: behind', ?_,
        List.forall_mem_cons.mpr ⟨rfl, hopen⟩, hsystems, .cons ⟨content, hcontent, rfl⟩ hresults⟩
      rw [List.cons_append, List.map_cons, hshown, firstPass, hpass]
      rw [@renameResult_eq newId idMap { message with content := content } hresult]
      rfl

/-- The second pass over a batch, up to the message that closes it. -/
theorem secondPass_batch (hclosed : s.Closed) {message : AssistantMessage} (hfailed : message.failed = false)
    {behind : List Message} (hbehind : ∀ m ∈ behind, m.keepsOpen = true)
    (hnone : message.toolCalls = [] → results behind = []) :
    ∃ missing, closePendingToolCalls clock (behind.foldl (secondPassStep clock)
          (secondPassStep clock s (.assistant message))) =
        { s with
          result := s.result ++ .assistant message ::
            ((results behind ++ missing).map Message.toolResult ++ behind.filter Message.isSystem)
          existingToolResultIds := if message.toolCalls.isEmpty then s.existingToolResultIds else [] } ∧
      List.Forall₂ (fun call result => ∃ now, result = noResult call now)
        (message.toolCalls.filter fun call =>
          call.id ∉ (results behind).map ToolResultMessage.toolCallId) missing := by
  have hstart : secondPassStep clock s (.assistant message) =
      { s with
        result := s.result ++ [.assistant message]
        pendingToolCalls := message.toolCalls
        existingToolResultIds := if message.toolCalls.isEmpty then s.existingToolResultIds else [] } := by
    rw [secondPassStep, hclosed.close]
    simp only [hfailed]
    cases hcalls : message.toolCalls with
    | nil => simp [hclosed.pending]
    | cons call calls => simp
  rw [hstart]
  by_cases hcalls : message.toolCalls = []
  · have hsystems : ∀ m ∈ behind, m.isSystem = true := by
      intro m hm
      have hopen := hbehind m hm
      have hresult := List.filterMap_eq_nil_iff.mp (hnone hcalls) m hm
      cases m with
      | system message => rfl
      | toolResult message => cases hresult
      | user message => cases hopen
      | assistant message => cases hopen
    refine ⟨[], ?_, by rw [hcalls]; exact .nil⟩
    rw [foldl_systems clock _ hcalls hsystems, hnone hcalls, List.filter_eq_self.mpr hsystems]
    simp [closePendingToolCalls, hcalls, hclosed.pending, hclosed.held]
  · rw [foldl_open clock _ hcalls hbehind]
    obtain ⟨missing, hpush, hmissing⟩ := pushMissing_spec clock
      ((results behind).map ToolResultMessage.toolCallId)
      (s.result ++ [.assistant message] ++ (results behind).map Message.toolResult) message.toolCalls
    refine ⟨missing, ?_, hmissing⟩
    have hnonempty : message.toolCalls.isEmpty = false := by simpa using hcalls
    simp only [hnonempty, Bool.false_eq_true, if_false, List.nil_append]
    rw [closePendingToolCalls]
    simp only [hnonempty, Bool.false_eq_true, if_false, hpush]
    simp [hclosed.held, hclosed.pending]

/-! ## A session -/

theorem callIds_assistant (message : AssistantMessage) (rest : List Message) :
    callIds (.assistant message :: rest) = message.callIds ++ callIds rest := rfl

theorem callIds_append (messages rest : List Message) :
    callIds (messages ++ rest) = callIds messages ++ callIds rest := List.flatMap_append

/-- The results of a batch are sent under the IDs that they keep. -/
theorem ids_of_shown {newId : Str → Str} {results kept : List ToolResultMessage}
    (h : List.Forall₂ (ShownResult model newId) results kept) :
    kept.map ToolResultMessage.toolCallId = results.map fun result => newId result.toolCallId := by
  induction h with
  | nil => rfl
  | cons hshown _ ih =>
    obtain ⟨content, -, rfl⟩ := hshown
    rw [List.map_cons, List.map_cons, ih]

/-- The first pass keeps a head that closes the batch before it. -/
theorem firstPass_head {idMap : List (Str × Str)} {messages : List Message}
    (h : ∀ m ∈ messages.head?, m.keepsOpen = false) :
    ∀ m ∈ (firstPass model normalizeToolCallId idMap (messages.map (shown model))).head?,
      m.keepsOpen = false := by
  cases messages with
  | nil => exact fun _ h => nomatch h
  | cons message rest =>
    have hmessage := h message rfl
    cases message with
    | system message => cases hmessage
    | toolResult message => cases hmessage
    | user message =>
      obtain ⟨message', hshown, -⟩ := @shown_user model message
      rw [List.map_cons, hshown, firstPass]
      · rintro m ⟨⟩
        rfl
      · rintro m ⟨⟩
      · rintro m ⟨⟩
    | assistant message =>
      rw [List.map_cons, shown_assistant, firstPass]
      rintro m ⟨⟩
      rfl

/-- From where no call is open, the passes make of a session what they make of its batches. -/
theorem passes_sent (n : Nat) {messages : List Message} (hlength : messages.length ≤ n) {s : Pass}
    (hclosed : s.Closed) {idMap : List (Str × Str)} (hnodup : (callIds messages).Nodup)
    (hfresh : ∀ id ∈ callIds messages, mapGet idMap id = none) (hpaired : Paired [] messages) :
    ∃ sent, (closePendingToolCalls clock
        ((firstPass model normalizeToolCallId idMap (messages.map (shown model))).foldl
          (secondPassStep clock) s)).result = s.result ++ sent ∧
      Sent model normalizeToolCallId (Replayed model normalizeToolCallId) messages sent := by
  induction n generalizing messages s idMap with
  | zero =>
    obtain rfl := List.eq_nil_of_length_eq_zero (Nat.le_zero.mp hlength)
    exact ⟨[], by rw [List.append_nil]; exact congrArg Pass.result (hclosed.close clock), .nil⟩
  | succ n ih =>
    cases messages with
    | nil => exact ⟨[], by rw [List.append_nil]; exact congrArg Pass.result (hclosed.close clock), .nil⟩
    | cons message rest =>
      have hrest : rest.length ≤ n := Nat.le_of_succ_le_succ hlength
      cases message with
      | toolResult message => exact absurd hpaired.1 List.not_mem_nil
      | system message =>
        have hnext : ({ s with result := s.result ++ [.system message] } : Pass).Closed :=
          ⟨hclosed.pending, hclosed.held⟩
        obtain ⟨sent, hresult, hsent⟩ := ih hrest hnext hnodup hfresh hpaired
        refine ⟨.system message :: sent, ?_, .system message hsent⟩
        rw [List.map_cons, shown_system, firstPass, List.foldl_cons]
        · have hstep : secondPassStep clock s (.system message) =
              { s with result := s.result ++ [.system message] } :=
            if_pos (by rw [hclosed.pending]; rfl)
          rw [hstep, hresult, List.append_assoc]
          rfl
        · rintro m ⟨⟩
        · rintro m ⟨⟩
      | user message =>
        obtain ⟨message', hshown, hsame⟩ := @shown_user model message
        have hnext : ({ s with result := s.result ++ [.user message'] } : Pass).Closed :=
          ⟨hclosed.pending, hclosed.held⟩
        obtain ⟨sent, hresult, hsent⟩ := ih hrest hnext hnodup hfresh hpaired
        refine ⟨.user message' :: sent, ?_, .user hsame hsent⟩
        rw [List.map_cons, hshown, firstPass, List.foldl_cons, secondPassStep, hclosed.close]
        · rw [hresult, List.append_assoc]
          rfl
        · rintro m ⟨⟩
        · rintro m ⟨⟩
      | assistant message =>
        rw [callIds_assistant] at hnodup hfresh
        obtain ⟨hown, hlater, hdisjoint⟩ := List.nodup_append.mp hnodup
        have hcontent := @transformContent_sent model normalizeToolCallId message message.content
          idMap
        have hnextFresh : ∀ id ∈ callIds rest, mapGet
            (transformContent model normalizeToolCallId message message.content idMap).2 id = none := by
          intro id hid
          rw [transformContent_other message fun hin => hdisjoint id hin id hid rfl]
          exact hfresh id (List.mem_append_right _ hid)
        have hnoted : ∀ id ∈ message.callIds, mapGet
            (transformContent model normalizeToolCallId message message.content idMap).2 id =
              if newId model normalizeToolCallId message id = id then none
              else some (newId model normalizeToolCallId message id) := by
          intro id hid
          rw [transformContent_own message hown hid, hfresh id (List.mem_append_left _ hid)]
        rw [List.map_cons, shown_assistant, firstPass]
        dsimp only
        generalize transformContent model normalizeToolCallId message message.content idMap = r
          at hcontent hnextFresh hnoted
        obtain ⟨content, noted⟩ := r
        dsimp only at hcontent hnextFresh hnoted ⊢
        rw [List.foldl_cons]
        cases hfailed : message.failed with
        | true =>
          have hpaired : Paired [] rest := by simpa [Paired, hfailed] using hpaired
          obtain ⟨sent, hresult, hsent⟩ := ih hrest hclosed hlater hnextFresh hpaired
          refine ⟨sent, ?_, .failed hfailed hsent⟩
          rw [secondPassStep, hclosed.close]
          change (closePendingToolCalls clock (List.foldl _ (if message.failed then s else _) _)).result = _
          rw [hfailed, if_pos rfl, hresult]
        | false =>
          have hpaired : Paired message.callIds rest := by simpa [Paired, hfailed] using hpaired
          -- The batch goes up to the next message that closes it.
          generalize hbehind : rest.takeWhile Message.keepsOpen = behind
          generalize hafter : rest.dropWhile Message.keepsOpen = after
          obtain rfl : behind ++ after = rest := by
            rw [← hbehind, ← hafter]
            exact List.takeWhile_append_dropWhile
          have hopen : ∀ m ∈ behind, m.keepsOpen = true := fun m hm =>
            List.mem_takeWhile_imp (hbehind.symm ▸ hm)
          have hhead : ∀ m ∈ after.head?, m.keepsOpen = false := by
            intro m hm
            have := List.head?_dropWhile_not Message.keepsOpen (behind ++ after)
            rw [hafter, hm] at this
            simpa using this
          obtain ⟨hresultIds, hresults, hpaired⟩ := paired_behind hpaired hown hopen hhead
          obtain ⟨behind', hpass, hopen', hsystems, hkept⟩ :=
            @firstPass_behind model normalizeToolCallId (newId model normalizeToolCallId message) noted behind
              after hopen fun result hresult => hnoted _ (hresults result hresult)
          have hcalls := hcontent.toolCalls
          have hnone : ({ message with content := content } : AssistantMessage).toolCalls = [] →
              results behind' = [] := by
            intro hempty
            have hnoCalls : message.toolCalls = [] := by
              have hlength := hcalls.length_eq
              rw [show content.filterMap Block.toolCall? = [] from hempty] at hlength
              exact List.eq_nil_of_length_eq_zero hlength
            have hnoResults : results behind = [] := by
              refine List.eq_nil_iff_forall_not_mem.mpr fun result hresult => ?_
              have hin := hresults result hresult
              rw [AssistantMessage.callIds, hnoCalls] at hin
              cases hin
            rw [hnoResults] at hkept
            exact List.forall₂_nil_left_iff.mp hkept
          obtain ⟨missing, hclose, hmissing⟩ := @secondPass_batch clock s hclosed
            { message with content := content } hfailed behind' hopen' hnone
          have hlater : (callIds after).Nodup := by
            rw [callIds_append] at hlater
            exact (List.nodup_append.mp hlater).2.1
          have hnext := close_closed clock (behind'.foldl (secondPassStep clock)
            (secondPassStep clock s (.assistant { message with content := content })))
          have hafterLength : after.length ≤ n := by
            rw [List.length_append] at hrest
            omega
          obtain ⟨sent, hresult, hsent⟩ := ih hafterLength hnext hlater (fun id hid => hnextFresh id (by
            rw [callIds_append]
            exact List.mem_append_right _ hid)) hpaired
          refine ⟨_, ?_, .batch hfailed hcontent hopen ⟨hresultIds, hresults, results behind', missing, rfl, hkept, ?_⟩
            hsent⟩
          · rw [hpass, List.foldl_append, ← foldl_close clock (firstPass_head hhead), hresult, hclose, hsystems]
            simp
          · have hids := ids_of_shown hkept
            rw [← hids]
            exact missing_of_sentCalls hcalls hmissing

/-! ## New IDs -/

section NewIds

/-- The IDs of one message's calls stay apart under their new IDs, and from them. -/
structure Apart (newId : Str → Str) (ids : List Str) : Prop where
  nodup : ids.Nodup
  injective : ∀ id ∈ ids, ∀ id' ∈ ids, newId id = newId id' → id = id'
  apart : ∀ id ∈ ids, ∀ id' ∈ ids, newId id = id' → id = id'

variable {newId : Str → Str} {ids : List Str}

/-- A result keeps the ID of no other call. -/
theorem Apart.of_keptId (h : Apart newId ids) {id id' : Str} (hid : id ∈ ids) (hid' : id' ∈ ids)
    (heq : newId id = keptId newId id') : id = id' := by
  unfold keptId at heq
  split_ifs at heq
  · exact h.apart id hid id' hid' heq
  · exact h.injective id hid id' hid' heq

theorem keptId_eq {id : Str} (h : newId id = [] → id = []) : keptId newId id = newId id := by
  unfold keptId
  split_ifs with hempty
  · rw [hempty, h hempty]
  · rfl

variable {message : AssistantMessage} {rs answered : List ToolResultMessage}

theorem filter_callIds (message : AssistantMessage) (p : Str → Bool) :
    (message.toolCalls.filter fun call => p call.id).map ToolCall.id = message.callIds.filter p := by
  rw [AssistantMessage.callIds, List.filter_map]
  rfl

theorem ids_of_missing {calls : List ToolCall} {missing : List ToolResultMessage}
    (h : Missing newId calls missing) :
    missing.map ToolResultMessage.toolCallId = (calls.map ToolCall.id).map newId := by
  induction h with
  | nil => rfl
  | cons hnow _ ih =>
    obtain ⟨now, rfl⟩ := hnow
    rw [List.map_cons, ih]
    rfl

theorem shownResults_congr {newId' : Str → Str} {kept : List ToolResultMessage}
    (h : List.Forall₂ (ShownResult model newId) rs kept)
    (heq : ∀ result ∈ rs, newId result.toolCallId = newId' result.toolCallId) :
    List.Forall₂ (ShownResult model newId') rs kept := by
  induction h with
  | nil => exact .nil
  | cons hshown _ ih =>
    obtain ⟨content, hcontent, rfl⟩ := hshown
    obtain ⟨hfirst, hrest⟩ := List.forall_mem_cons.mp heq
    exact .cons ⟨content, hcontent, by rw [hfirst]⟩ (ih hrest)

/-- Unless an answered call gets the empty ID, each call has one result under its new ID. -/
theorem Replayed.answers (h : Replayed model normalizeToolCallId message rs answered)
    (hapart : Apart (Provider.newId model normalizeToolCallId message) message.callIds)
    (hgood : ∀ result ∈ rs, Provider.newId model normalizeToolCallId message result.toolCallId = [] →
      result.toolCallId = []) : Answers model normalizeToolCallId message rs answered := by
  obtain ⟨hresultIds, hresults, kept, missing, rfl, hkept, hmissing⟩ := h
  unfold Answers
  generalize Provider.newId model normalizeToolCallId message = newId at *
  dsimp only
  have hsame : ∀ result ∈ rs, keptId newId result.toolCallId = newId result.toolCallId :=
    fun result hresult => keptId_eq (hgood result hresult)
  have hkept := shownResults_congr hkept hsame
  have hfilter : (message.toolCalls.filter fun call =>
      newId call.id ∉ rs.map fun result => keptId newId result.toolCallId) =
        message.toolCalls.filter fun call => call.id ∉ rs.map ToolResultMessage.toolCallId := by
    refine List.filter_congr fun call hcall => ?_
    have hid : call.id ∈ message.callIds := List.mem_map_of_mem hcall
    rw [decide_eq_decide, not_iff_not, List.mem_map, List.mem_map]
    constructor
    · rintro ⟨result, hresult, heq⟩
      exact ⟨result, hresult, (hapart.of_keptId hid (hresults result hresult) heq.symm).symm⟩
    · rintro ⟨result, hresult, heq⟩
      exact ⟨result, hresult, by rw [hsame result hresult, heq]⟩
  rw [hfilter] at hmissing
  refine ⟨⟨kept, missing, rfl, hkept, hmissing⟩, ?_, ?_⟩
  · have hperm : (rs.map ToolResultMessage.toolCallId ++
        message.callIds.filter fun id => id ∉ rs.map ToolResultMessage.toolCallId).Perm message.callIds := by
      rw [List.perm_ext_iff_of_nodup ?_ hapart.nodup]
      · intro id
        by_cases hin : id ∈ rs.map ToolResultMessage.toolCallId
        · obtain ⟨result, hresult, rfl⟩ := List.mem_map.mp hin
          simp [hin, hresults result hresult]
        · simp only [List.mem_append, hin, false_or, List.mem_filter, not_false_eq_true, decide_true, and_true]
      · refine List.nodup_append.mpr ⟨hresultIds, hapart.nodup.filter _, ?_⟩
        rintro id hid id' hid' rfl
        exact absurd hid (of_decide_eq_true (List.mem_filter.mp hid').2)
    have hmap := hperm.map newId
    rw [List.map_append, List.map_map] at hmap
    rw [List.map_append, ids_of_shown hkept, ids_of_missing hmissing, filter_callIds message fun id =>
      decide (id ∉ rs.map ToolResultMessage.toolCallId)]
    exact hmap
  · exact hapart.nodup.map_on hapart.injective

/-- There are at least as many results as calls, and more if an answered call gets the empty ID. -/
theorem Replayed.length (h : Replayed model normalizeToolCallId message rs answered)
    (hapart : Apart (Provider.newId model normalizeToolCallId message) message.callIds) :
    message.callIds.length ≤ answered.length ∧ (answered.length = message.callIds.length →
      ∀ result ∈ rs, Provider.newId model normalizeToolCallId message result.toolCallId = [] →
        result.toolCallId = []) := by
  obtain ⟨hresultIds, hresults, kept, missing, rfl, hkept, hmissing⟩ := h
  generalize Provider.newId model normalizeToolCallId message = newId at *
  generalize hkeptIds : (rs.map fun result => keptId newId result.toolCallId) = keptIds at hmissing
  have hanswered : (kept ++ missing).length =
      rs.length + (message.callIds.filter fun id => !decide (newId id ∈ keptIds)).length := by
    have hcalls := congrArg List.length (filter_callIds message fun id => !decide (newId id ∈ keptIds))
    rw [List.length_map] at hcalls
    rw [List.length_append, ← hkept.length_eq, ← hmissing.length_eq, ← hcalls]
    simp only [decide_not]
  have hall := List.length_eq_length_filter_add (l := message.callIds) fun id => decide (newId id ∈ keptIds)
  -- A call for which no result is made up has one.
  have hhas : ∀ id ∈ message.callIds.filter (fun id => newId id ∈ keptIds),
      id ∈ rs.map ToolResultMessage.toolCallId := by
    intro id hid
    obtain ⟨hcall, hin⟩ := List.mem_filter.mp hid
    rw [← hkeptIds, decide_eq_true_eq, List.mem_map] at hin
    obtain ⟨result, hresult, heq⟩ := hin
    rw [hapart.of_keptId hcall (hresults result hresult) heq.symm]
    exact List.mem_map_of_mem hresult
  have hfew : (message.callIds.filter fun id => newId id ∈ keptIds).length ≤ rs.length := by
    have := ((hapart.nodup.filter _).subperm hhas).length_le
    rwa [List.length_map] at this
  refine ⟨by omega, fun heq result hresult hempty => ?_⟩
  by_contra hne
  -- The call that gets the empty ID has a result and is made up another one.
  have hnot : result.toolCallId ∉ message.callIds.filter fun id => newId id ∈ keptIds := by
    intro hin
    obtain ⟨-, hin⟩ := List.mem_filter.mp hin
    rw [← hkeptIds, decide_eq_true_eq, List.mem_map, hempty] at hin
    obtain ⟨other, hother, hkeptEmpty⟩ := hin
    unfold keptId at hkeptEmpty
    split_ifs at hkeptEmpty with hotherEmpty
    · have := hapart.injective _ (hresults result hresult) _ (hresults other hother) (hempty.trans hotherEmpty.symm)
      exact hne (this.trans hkeptEmpty)
    · exact hotherEmpty hkeptEmpty
  have hmore : (result.toolCallId :: message.callIds.filter fun id => newId id ∈ keptIds).length ≤ rs.length := by
    have hsub : ∀ id ∈ result.toolCallId :: message.callIds.filter (fun id => newId id ∈ keptIds),
        id ∈ rs.map ToolResultMessage.toolCallId :=
      List.forall_mem_cons.mpr ⟨List.mem_map_of_mem hresult, hhas⟩
    have := ((List.nodup_cons.mpr ⟨hnot, hapart.nodup.filter _⟩).subperm hsub).length_le
    rwa [List.length_map] at this
  rw [List.length_cons] at hmore
  omega

end NewIds

/-! ## Every call and its result -/

namespace Sent

variable {messages sent : List Message}
  {answers answers' : AssistantMessage → List ToolResultMessage → List ToolResultMessage → Prop}

/-- What is sent for one notion of an answer is sent for every weaker one. -/
theorem mono (h : Sent model normalizeToolCallId answers messages sent)
    (himp : ∀ message rs answered, .assistant message ∈ messages → (∀ result ∈ rs, result ∈ results messages) →
      answers message rs answered → answers' message rs answered) :
    Sent model normalizeToolCallId answers' messages sent := by
  induction h with
  | nil => exact .nil
  | system message _ ih => exact .system message (ih fun m rs answered hm => himp m rs answered (.tail _ hm))
  | user hshown _ ih => exact .user hshown (ih fun m rs answered hm => himp m rs answered (.tail _ hm))
  | failed hfailed _ ih => exact .failed hfailed (ih fun m rs answered hm => himp m rs answered (.tail _ hm))
  | @batch message content behind rest sent answered hfailed hcontent hbehind hanswers _ ih =>
    have hresults : results (.assistant message :: (behind ++ rest)) = results behind ++ results rest := by
      simp [results, List.filterMap_cons, Message.toolResult?]
    refine .batch hfailed hcontent hbehind ?_ (ih fun m rs answered hm hrs => himp m rs answered ?_ ?_)
    · refine himp message _ _ List.mem_cons_self (fun result hresult => ?_) hanswers
      rw [hresults]
      exact List.mem_append_left _ hresult
    · exact .tail _ (List.mem_append_right _ hm)
    · rw [hresults]
      exact fun result hresult => List.mem_append_right _ (hrs result hresult)

/-- Each result is one of a batch. -/
theorem of_result (h : Sent model normalizeToolCallId answers messages sent) {result : ToolResultMessage}
    (hresult : result ∈ results messages) :
    ∃ message rs answered, .assistant message ∈ messages ∧ result ∈ rs ∧ answers message rs answered := by
  induction h with
  | nil => cases hresult
  | system _ _ ih =>
    obtain ⟨message, rs, answered, hm, hrest⟩ := ih hresult
    exact ⟨message, rs, answered, .tail _ hm, hrest⟩
  | user _ _ ih =>
    obtain ⟨message, rs, answered, hm, hrest⟩ := ih hresult
    exact ⟨message, rs, answered, .tail _ hm, hrest⟩
  | failed _ _ ih =>
    obtain ⟨message, rs, answered, hm, hrest⟩ := ih hresult
    exact ⟨message, rs, answered, .tail _ hm, hrest⟩
  | @batch message content behind rest sent answered _ _ _ hanswers _ ih =>
    have hin : result ∈ results behind ++ results rest := by
      simpa [results, List.filterMap_cons, Message.toolResult?] using hresult
    rcases List.mem_append.mp hin with hin | hin
    · exact ⟨message, _, answered, List.mem_cons_self, hin, hanswers⟩
    · obtain ⟨message, rs, answered, hm, hrest⟩ := ih hin
      exact ⟨message, rs, answered, .tail _ (List.mem_append_right _ hm), hrest⟩

/-- The calls that are sent. -/
def calls : List Message → Nat
  | [] => 0
  | .assistant message :: rest => (if message.failed then 0 else message.callIds.length) + calls rest
  | _ :: rest => calls rest

theorem calls_behind {behind : List Message} (h : ∀ m ∈ behind, m.keepsOpen = true) (rest : List Message) :
    calls (behind ++ rest) = calls rest := by
  induction behind with
  | nil => rfl
  | cons message behind ih =>
    obtain ⟨hmessage, hmore⟩ := List.forall_mem_cons.mp h
    cases message with
    | system message => exact ih hmore
    | toolResult message => exact ih hmore
    | user message => cases hmessage
    | assistant message => cases hmessage

/-- The results of a batch are those that answer its calls. -/
theorem results_batch (message : AssistantMessage) (answered : List ToolResultMessage)
    (behind sent : List Message) :
    results (.assistant message :: (answered.map Message.toolResult ++ behind.filter Message.isSystem ++ sent)) =
      answered ++ results sent := by
  have hanswered : results (answered.map Message.toolResult) = answered := by
    rw [results, List.filterMap_map]
    exact List.filterMap_some
  have hsystems : results (behind.filter Message.isSystem) = [] := by
    refine List.filterMap_eq_nil_iff.mpr fun m hm => ?_
    have hsystem := (List.mem_filter.mp hm).2
    cases m with
    | system message => rfl
    | user message => cases hsystem
    | assistant message => cases hsystem
    | toolResult message => cases hsystem
  change results (_ ++ _ ++ sent) = _
  unfold results at *
  rw [List.filterMap_append, List.filterMap_append, hanswered, hsystems, List.append_nil]

/-- With one result for each call, there are as many results as calls. -/
theorem length_eq (h : Sent model normalizeToolCallId (Answers model normalizeToolCallId) messages sent) :
    (results sent).length = calls messages := by
  induction h with
  | nil => rfl
  | system _ _ ih => exact ih
  | user _ _ ih => exact ih
  | failed hfailed _ ih => rw [calls, hfailed, if_pos rfl, Nat.zero_add, ih]
  | batch hfailed _ hbehind hanswers _ ih =>
    have hlength := hanswers.2.1.length_eq
    rw [List.length_map, List.length_map] at hlength
    rw [results_batch, List.length_append, ih, calls, hfailed, calls_behind hbehind, hlength]
    rfl

/-- As the passes make them, results are not fewer than calls; if they are as many, no answered call gets
the empty ID. -/
theorem length_le (h : Sent model normalizeToolCallId (Replayed model normalizeToolCallId) messages sent)
    (hapart : ∀ message, .assistant message ∈ messages →
      Apart (Provider.newId model normalizeToolCallId message) message.callIds) :
    calls messages ≤ (results sent).length ∧ ((results sent).length = calls messages →
      Sent model normalizeToolCallId (fun message rs answered =>
        Replayed model normalizeToolCallId message rs answered ∧ ∀ result ∈ rs,
          newId model normalizeToolCallId message result.toolCallId = [] → result.toolCallId = [])
        messages sent) := by
  induction h with
  | nil => exact ⟨Nat.le_refl _, fun _ => .nil⟩
  | system message _ ih =>
    obtain ⟨hle, himp⟩ := ih fun m hm => hapart m (.tail _ hm)
    exact ⟨hle, fun heq => .system message (himp heq)⟩
  | user hshown _ ih =>
    obtain ⟨hle, himp⟩ := ih fun m hm => hapart m (.tail _ hm)
    exact ⟨hle, fun heq => .user hshown (himp heq)⟩
  | failed hfailed _ ih =>
    obtain ⟨hle, himp⟩ := ih fun m hm => hapart m (.tail _ hm)
    rw [calls, hfailed, if_pos rfl, Nat.zero_add]
    exact ⟨hle, fun heq => .failed hfailed (himp heq)⟩
  | @batch message content behind rest sent answered hfailed hcontent hbehind hanswers _ ih =>
    obtain ⟨hle, himp⟩ := ih fun m hm => hapart m (.tail _ (List.mem_append_right _ hm))
    obtain ⟨hfew, hgood⟩ := hanswers.length (hapart message List.mem_cons_self)
    rw [results_batch, List.length_append, calls, hfailed, calls_behind hbehind]
    simp only [Bool.false_eq_true, if_false]
    refine ⟨by omega, fun heq => .batch hfailed hcontent hbehind ⟨hanswers, hgood (by omega)⟩ (himp (by omega))⟩

end Sent

/-- The normalizer is injective on the calls that it is applied to, and yields no other call's ID. -/
structure Renames (model : Model) (normalizeToolCallId : Option Normalizer) (messages : List Message) :
    Prop where
  injective : ∀ source source', .assistant source ∈ messages → .assistant source' ∈ messages →
    source.isSameModel model = false → source'.isSameModel model = false →
    ∀ id ∈ source.callIds, ∀ id' ∈ source'.callIds,
      newId model normalizeToolCallId source id = newId model normalizeToolCallId source' id' → id = id'
  apart : ∀ source other, .assistant source ∈ messages → .assistant other ∈ messages →
    source.isSameModel model = false → ∀ id ∈ source.callIds, ∀ id' ∈ other.callIds,
      newId model normalizeToolCallId source id = id' → id = id'

variable {messages : List Message}

theorem Renames.ids_apart (h : Renames model normalizeToolCallId messages)
    (hnodup : (callIds messages).Nodup) {source : AssistantMessage} (hsource : .assistant source ∈ messages) :
    Apart (newId model normalizeToolCallId source) source.callIds where
  nodup := (List.nodup_flatMap.mp hnodup).1 _ hsource
  injective := by
    intro id hid id' hid' heq
    cases hsame : source.isSameModel model with
    | true => simpa [newId, hsame] using heq
    | false => exact h.injective source source hsource hsource hsame hsame id hid id' hid' heq
  apart := by
    intro id hid id' hid' heq
    cases hsame : source.isSameModel model with
    | true => simpa [newId, hsame] using heq
    | false => exact h.apart source source hsource hsource hsame id hid id' hid' heq

/-- A call has one message. -/
theorem source_unique (hnodup : (callIds messages).Nodup) {source source' : AssistantMessage} {id : Str}
    (hsource : .assistant source ∈ messages) (hsource' : .assistant source' ∈ messages)
    (hid : id ∈ source.callIds) (hid' : id ∈ source'.callIds) : source = source' := by
  by_contra hne
  have hpairwise := (List.nodup_flatMap.mp hnodup).2
  have : Std.Symm (Function.onFun List.Disjoint fun message : Message =>
      match message with
      | .assistant message => message.callIds
      | _ => []) := ⟨fun _ _ h => h.symm⟩
  exact hpairwise.forall hsource hsource' (fun heq => hne (Message.assistant.inj heq)) hid hid'

/-- What is sent for a session is what the passes make of its batches. -/
theorem transformMessages_replayed (hnodup : (callIds messages).Nodup) (hpaired : Paired [] messages) :
    Sent model normalizeToolCallId (Replayed model normalizeToolCallId) messages
      (transformMessages model normalizeToolCallId clock messages) := by
  obtain ⟨sent, hresult, hsent⟩ := @passes_sent model normalizeToolCallId clock messages.length messages
    (Nat.le_refl _) ⟨[], [], [], []⟩ ⟨rfl, rfl⟩ [] hnodup (fun _ _ => rfl) hpaired
  rw [transformMessages, secondPass, downgradeUnsupportedImages_eq, hresult]
  exact hsent

/-- Every call is sent with one result, and the session is otherwise sent as it is, just if no answered
call gets the empty ID. -/
theorem transformMessages_sent_iff (model : Model) (normalizeToolCallId : Option Normalizer)
    (clock : Nat → Nat) (messages : List Message) (hnodup : (callIds messages).Nodup)
    (hpaired : Paired [] messages) (hrenames : Renames model normalizeToolCallId messages) :
    Sent model normalizeToolCallId (Answers model normalizeToolCallId) messages
        (transformMessages model normalizeToolCallId clock messages) ↔
      ∀ source, .assistant source ∈ messages → ∀ result ∈ results messages,
        result.toolCallId ∈ source.callIds →
          newId model normalizeToolCallId source result.toolCallId = [] → result.toolCallId = [] := by
  have hreplayed := @transformMessages_replayed model normalizeToolCallId clock messages hnodup hpaired
  have hapart := fun message hm => @Renames.ids_apart model normalizeToolCallId messages hrenames hnodup message hm
  constructor
  · intro hsent source hsource result hresult hcall
    have hgood := (hreplayed.length_le hapart).2 hsent.length_eq
    obtain ⟨message, rs, answered, hm, hin, ⟨-, hresults, -⟩, hgood⟩ := hgood.of_result hresult
    obtain rfl := source_unique hnodup hsource hm hcall (hresults result hin)
    exact hgood result hin
  · intro hgood
    refine hreplayed.mono fun message rs answered hm hrs h => h.answers (hapart message hm) fun result hresult => ?_
    exact hgood message hm result (hrs result hresult) (h.2.1 result hresult)

/-! ## A session of two models -/

def otherModel : Model := ⟨lit "b", lit "api", lit "p", [lit "text"]⟩

/-- A message with two calls. -/
def calling (first second : Str) : AssistantMessage :=
  let call (id : Str) : Block := .toolCall ⟨id, lit "read", .obj [], none, none⟩
  ⟨[call first, call second], lit "api", lit "p", lit "a", .toolUse, .obj []⟩

/-- The first call is answered, behind a system message. -/
def twoCalls (first second : Str) : List Message :=
  [.assistant (calling first second), .system (.str (lit "mode")),
    .toolResult ⟨first, lit "read", [.image (lit "AA==") (lit "image/png")], false, 1, .obj []⟩,
    .user ⟨.text (lit "go on"), 2⟩]

theorem twoCalls_paired (first second : Str) : Paired [] (twoCalls first second) :=
  ⟨List.mem_cons_self, trivial⟩

theorem twoCalls_source {first second : Str} {source : AssistantMessage}
    (h : .assistant source ∈ twoCalls first second) : source = calling first second := by
  simpa [twoCalls] using h

/-- Two calls are renamed apart when their new IDs differ from each other and from the other's old ID. -/
theorem twoCalls_renames {first second : Str} {normalizeToolCallId : Option Normalizer}
    (hinjective : ∀ id ∈ [first, second], ∀ id' ∈ [first, second],
      newId otherModel normalizeToolCallId (calling first second) id =
        newId otherModel normalizeToolCallId (calling first second) id' → id = id')
    (hapart : ∀ id ∈ [first, second], ∀ id' ∈ [first, second],
      newId otherModel normalizeToolCallId (calling first second) id = id' → id = id') :
    Renames otherModel normalizeToolCallId (twoCalls first second) where
  injective := by
    intro source source' hsource hsource' _ _
    obtain rfl := twoCalls_source hsource
    obtain rfl := twoCalls_source hsource'
    exact hinjective
  apart := by
    intro source other hsource hother _
    obtain rfl := twoCalls_source hsource
    obtain rfl := twoCalls_source hother
    exact hapart

/-- The second part of an ID with a bar. -/
def afterBar : Normalizer := fun id _ _ => (id.dropWhile (· != 0x7C)).drop 1

/-- The first part of an ID with a bar. -/
def beforeBar : Normalizer := fun id _ _ => id.takeWhile (· != 0x7C)

/-- The first call keeps its result, and the second gets one, before the system message. -/
theorem transformMessages_sent_twoCalls :
    Sent otherModel (some afterBar) (Answers otherModel (some afterBar)) (twoCalls (lit "a|1") (lit "a|2"))
      (transformMessages otherModel (some afterBar) id (twoCalls (lit "a|1") (lit "a|2"))) := by
  refine (transformMessages_sent_iff otherModel (some afterBar) id _ (by decide +kernel) (twoCalls_paired _ _)
    (twoCalls_renames (by decide +kernel) (by decide +kernel))).mpr fun source hsource result _ hcall => ?_
  obtain rfl := twoCalls_source hsource
  generalize result.toolCallId = id at hcall
  revert id
  decide +kernel

/-- The first call gets the empty ID; its result keeps the old one, and a second result is made up. -/
theorem transformMessages_emptyId :
    (callIds (twoCalls (lit "|1") (lit "b|2"))).Nodup ∧ Paired [] (twoCalls (lit "|1") (lit "b|2")) ∧
      Renames otherModel (some beforeBar) (twoCalls (lit "|1") (lit "b|2")) ∧
      ¬Sent otherModel (some beforeBar) (Answers otherModel (some beforeBar)) (twoCalls (lit "|1") (lit "b|2"))
        (transformMessages otherModel (some beforeBar) id (twoCalls (lit "|1") (lit "b|2"))) := by
  refine ⟨by decide +kernel, twoCalls_paired _ _, twoCalls_renames (by decide +kernel) (by decide +kernel),
    fun h => ?_⟩
  have hresults := h.length_eq
  revert hresults
  decide +kernel

end Provider
