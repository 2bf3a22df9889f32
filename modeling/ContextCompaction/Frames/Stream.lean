import ContextCompaction.Frames.Reducer
import ContextCompaction.Js.Except

/-!
# Streams of assistant message events

* `Phase.advance`: which events a stream may send, and what has been sent of each block.
* `Scheduled`: every event is encoded when the shared message reflects it and any number of later ones.
* `Continues`, `Reached`: when parsed deltas have come to the arguments that a tool call's start had seen.
* `Phase.shown`: the message that the events encoded so far describe.
-/

namespace Frames

open Js

/-! ## Streams -/

/-- What has been encoded of a block: its content at the start, its deltas, and its content at the end. -/
structure Progress where
  start : Block
  deltas : List Str
  finished : Option Block

/-- What a stream of events has shown so far: the starting message, its blocks and whether it has ended.
-/
structure Phase where
  message : Option AssistantMessage
  blocks : List Progress
  terminal : Bool

namespace Phase

/-- Nothing has been shown. -/
def initial : Phase := ⟨none, [], false⟩

/-- Blocks start in index order. -/
def begin (ph : Phase) (contentIndex : Nat) (block : Block) : Option Phase :=
  if contentIndex = ph.blocks.length then
    some { ph with blocks := ph.blocks ++ [⟨block, [], none⟩] }
  else none

/-- A change of a block that has started and not ended. -/
def change (ph : Phase) (contentIndex : Nat) (kind : Kind) (f : Progress → Progress) : Option Phase := do
  let progress ← ph.blocks[contentIndex]?
  if progress.start.kind = kind ∧ progress.finished.isNone then
    some { ph with blocks := ph.blocks.set contentIndex (f progress) }
  else none

/-- A delta is added to a block that has not ended. -/
def delta (ph : Phase) (contentIndex : Nat) (kind : Kind) (delta : Str) : Option Phase :=
  ph.change contentIndex kind fun progress => { progress with deltas := progress.deltas ++ [delta] }

/-- A block's final content is noted; it takes no more deltas. -/
def finish (ph : Phase) (contentIndex : Nat) (block : Block) : Option Phase :=
  ph.change contentIndex block.kind fun progress => { progress with finished := some block }

/-- The events of a block: its start, its deltas and its end. -/
def advanceBlock (ph : Phase) : Event → Option Phase
  | .textStart i live =>
    match live.content[i]? with
    | some (.text content) => ph.begin i (.text content)
    | _ => none
  | .thinkingStart i live =>
    match live.content[i]? with
    | some (.thinking content) => ph.begin i (.thinking content)
    | _ => none
  | .toolcallStart i live =>
    match live.content[i]? with
    | some (.toolCall call) => ph.begin i (.toolCall call)
    | _ => none
  | .textDelta i delta => ph.delta i .text delta
  | .thinkingDelta i delta => ph.delta i .thinking delta
  | .toolcallDelta i delta => ph.delta i .toolCall delta
  | .textEnd i text live =>
    match live.content[i]? with
    | some (.text content) => ph.finish i (.text ⟨text, content.textSignature⟩)
    | _ => none
  | .thinkingEnd i thinking live =>
    match live.content[i]? with
    | some (.thinking content) =>
      ph.finish i (.thinking ⟨thinking, content.thinkingSignature, content.redacted⟩)
    | _ => none
  | .toolcallEnd i call live =>
    match live.content[i]? with
    | some (.toolCall _) => ph.finish i (.toolCall call)
    | _ => none
  | .start _ | .done | .error => none

/-- One start, then blocks, then at most one end; an error may also come before the start. -/
def advance (ph : Phase) (event : Event) : Option Phase :=
  if ph.terminal then none
  else
    match event, ph.message with
    | .start live, none => some { ph with message := some live }
    | .error, _ => some { ph with terminal := true }
    | _, none => none
    | .done, some _ => some { ph with terminal := true }
    | event, some _ => ph.advanceBlock event

/-- The events one after the other; `none` means that one of them did not fit. -/
def run : Phase → List Event → Option Phase
  | ph, [] => some ph
  | ph, event :: events => do
    let ph ← ph.advance event
    run ph events

end Phase

/-- The live message that an event carries. -/
def Event.live? : Event → Option AssistantMessage
  | .start live | .textStart _ live | .textEnd _ _ live | .thinkingStart _ live | .thinkingEnd _ _ live
  | .toolcallStart _ live | .toolcallEnd _ _ live => some live
  | _ => none

/-- The text or the thinking of a block. -/
def Block.text? : Block → Option Str
  | .text content => some content.text
  | .thinking content => some content.thinking
  | .toolCall _ => none

/-- The shared message when these events have been sent: each block's text is its deltas so far. The
arguments of a tool call and all metadata are whatever the provider has put there. -/
def Reflects (ph : Phase) (live : AssistantMessage) : Prop :=
  live.content.length < 2 ^ 32 ∧
    ∀ (i : Nat) (progress : Progress), ph.blocks[i]? = some progress → ∃ block : Block,
      live.content[i]? = some block ∧ block.kind = progress.start.kind ∧
        ∀ text ∈ block.text?, text = progress.deltas.flatten

/-- A stream, and for every event a lag: how many events the shared message reflects when the event is
encoded, itself among them. -/
structure Scheduled (events : List Event) (last : Phase) : Prop where
  run : Phase.initial.run events = some last
  live : ∀ (k : Nat) (event : Event), events[k]? = some event → ∀ live ∈ event.live?,
    ∃ n > k, ∀ ph, Phase.initial.run (events.take n) = some ph → Reflects ph live

/-! ## What the events show -/

/-- Of a value more has come: a string has more behind it, an array more elements, and an object has still
each of its properties. -/
inductive Continues : Json → Json → Prop
  | null : Continues .null .null
  | bool (b : Bool) : Continues (.bool b) (.bool b)
  | num (n : Number) : Continues (.num n) (.num n)
  | str {s t : Str} (h : s <+: t) : Continues (.str s) (.str t)
  | arr {xs ys : List Json} (hlen : xs.length ≤ ys.length)
      (h : ∀ (i : Nat) (x y : Json), xs[i]? = some x → ys[i]? = some y → Continues x y) :
      Continues (.arr xs) (.arr ys)
  | obj {fs gs : List (Str × Json)} (hkeys : ∀ f ∈ fs, (mapGet gs f.1).isSome)
      (h : ∀ f ∈ fs, ∀ y, mapGet gs f.1 = some y → Continues f.2 y) : Continues (.obj fs) (.obj gs)

theorem continues_null {y : Json} : Continues .null y ↔ .null = y :=
  ⟨by rintro ⟨⟩; rfl, by rintro rfl; exact .null⟩

theorem continues_bool {b : Bool} {y : Json} : Continues (.bool b) y ↔ .bool b = y :=
  ⟨by rintro ⟨⟩; rfl, by rintro rfl; exact .bool b⟩

theorem continues_num {n : Number} {y : Json} : Continues (.num n) y ↔ .num n = y :=
  ⟨by rintro ⟨⟩; rfl, by rintro rfl; exact .num n⟩

theorem continues_str {s : Str} {y : Json} : Continues (.str s) y ↔ ∃ t, y = .str t ∧ s <+: t :=
  ⟨by rintro (_ | _ | _ | h); exact ⟨_, rfl, h⟩, by rintro ⟨t, rfl, h⟩; exact .str h⟩

/-- The prefix test on arrays is the continuation of the elements, at their indexes. -/
theorem isPrefixElements_iff {xs ys : List Json}
    (h : ∀ x ∈ xs, ∀ y, isJsonPrefix x y = true ↔ Continues x y) : isPrefixElements xs ys = true ↔
      ∀ (i : Nat) (x y : Json), xs[i]? = some x → ys[i]? = some y → Continues x y := by
  induction xs generalizing ys with
  | nil => simp [isPrefixElements]
  | cons x xs ih =>
    cases ys with
    | nil => simp [isPrefixElements]
    | cons y ys =>
      rw [List.forall_mem_cons] at h
      rw [isPrefixElements, Bool.and_eq_true, h.1 y, ih h.2]
      constructor
      · rintro ⟨hfirst, hrest⟩ i x' y' hx hy
        cases i with
        | zero => exact Option.some.inj hx ▸ Option.some.inj hy ▸ hfirst
        | succ i => exact hrest i x' y' hx hy
      · exact fun hall => ⟨hall 0 x y rfl rfl, fun i x' y' hx hy => hall (i + 1) x' y' hx hy⟩

theorem isPrefixFields_iff {fs gs : List (Str × Json)}
    (h : ∀ f ∈ fs, ∀ y, isJsonPrefix f.2 y = true ↔ Continues f.2 y) : isPrefixFields fs gs = true ↔
      (∀ f ∈ fs, (mapGet gs f.1).isSome) ∧ ∀ f ∈ fs, ∀ y, mapGet gs f.1 = some y → Continues f.2 y := by
  induction fs with
  | nil => simp [isPrefixFields]
  | cons f fs ih =>
    obtain ⟨key, x⟩ := f
    rw [List.forall_mem_cons] at h
    rw [isPrefixFields, Bool.and_eq_true, ih h.2, List.forall_mem_cons, List.forall_mem_cons]
    cases hget : mapGet gs key with
    | none => simp
    | some y => simp [h.1 y, and_left_comm]

/-- The encoder's comparison of parsed arguments says that they go on. -/
theorem isJsonPrefix_iff {x y : Json} : isJsonPrefix x y = true ↔ Continues x y := by
  induction x generalizing y with
  | arr xs ih =>
    cases y with
    | arr ys =>
      rw [isJsonPrefix, Bool.and_eq_true, decide_eq_true_iff, isPrefixElements_iff fun x hx y => ih x hx]
      constructor
      · rintro ⟨hlen, h⟩
        exact .arr hlen h
      · rintro (_ | _ | _ | _ | ⟨hlen, h⟩)
        exact ⟨hlen, h⟩
    | _ => exact ⟨fun h => by simp [isJsonPrefix] at h, by rintro ⟨⟩⟩
  | obj fs ih =>
    cases y with
    | obj gs =>
      rw [isJsonPrefix, isPrefixFields_iff fun f hf y => ih f hf]
      constructor
      · rintro ⟨hkeys, h⟩
        exact .obj hkeys h
      · rintro (_ | _ | _ | _ | _ | ⟨hkeys, h⟩)
        exact ⟨hkeys, h⟩
    | _ => exact ⟨fun h => by simp [isJsonPrefix] at h, by rintro ⟨⟩⟩
  | null => cases y <;> simp [isJsonPrefix, continues_null]
  | bool b => cases y <;> simp [isJsonPrefix, continues_bool]
  | num n => cases y <;> simp [isJsonPrefix, continues_num]
  | str s => cases y <;> simp [isJsonPrefix, continues_str]

instance (x y : Json) : Decidable (Continues x y) := decidable_of_iff _ isJsonPrefix_iff

/-- The longer of two texts, and of two of one length the second. -/
def longer (s t : Str) : Str := if t.length < s.length then s else t

section

variable (parseStreamingJson : Str → Json)

/-- Parsed deltas have come to the arguments at a start: they are written as these are, or go on from what
the written ones are read back as. -/
def Reached (arguments value : Json) : Prop :=
  stringify value = stringify arguments ∨ Continues (parseStreamingJson (stringify arguments)) value

instance (arguments value : Json) : Decidable (Reached parseStreamingJson arguments value) :=
  inferInstanceAs (Decidable (_ ∨ _))

/-- The start had seen nothing, or some first deltas have come to what it had seen. -/
def CaughtUp (arguments : Json) (deltas : List Str) : Prop :=
  stringify arguments = stringify (parseStreamingJson []) ∨
    ∃ j < deltas.length, Reached parseStreamingJson arguments (parseStreamingJson (deltas.take (j + 1)).flatten)

instance (arguments : Json) (deltas : List Str) : Decidable (CaughtUp parseStreamingJson arguments deltas) :=
  inferInstanceAs (Decidable (_ ∨ ∃ j, j < _ ∧ _))

/-- The arguments at a tool call's start, and its deltas, parsed, as soon as they have come to these. -/
def toolArguments (arguments : Json) (deltas : List Str) : Json :=
  if CaughtUp parseStreamingJson arguments deltas ∧ deltas.flatten ≠ [] then
    parseStreamingJson deltas.flatten
  else arguments

/-- The block as it can be shown now: its final content, or the longer of what its start had and of what
its deltas add up to. -/
def Progress.shown (progress : Progress) : Block :=
  match progress.finished, progress.start with
  | some block, _ => block
  | none, .text content => .text { content with text := longer content.text progress.deltas.flatten }
  | none, .thinking content =>
    .thinking { content with thinking := longer content.thinking progress.deltas.flatten }
  | none, .toolCall call =>
    .toolCall { call with arguments := toolArguments parseStreamingJson call.arguments progress.deltas }

/-- The message as it can be shown now. -/
def Phase.shown (ph : Phase) : Option AssistantMessage :=
  ph.message.map fun message =>
    { cloneStartMessage message with content := ph.blocks.map (Progress.shown parseStreamingJson) }

end

/-! ## Runs -/

/-- Blocks stay, and their deltas only grow. -/
def Extends (ph ph' : Phase) : Prop :=
  ∀ (i : Nat) (progress : Progress), ph.blocks[i]? = some progress → ∃ progress',
    ph'.blocks[i]? = some progress' ∧ progress.deltas <+: progress'.deltas

theorem Extends.refl (ph : Phase) : Extends ph ph := fun _ progress h => ⟨progress, h, List.prefix_rfl⟩

theorem Extends.trans {ph ph' ph'' : Phase} (h : Extends ph ph') (h' : Extends ph' ph'') :
    Extends ph ph'' := by
  intro i progress hprogress
  obtain ⟨progress', hprogress', hdeltas⟩ := h i progress hprogress
  obtain ⟨progress'', hprogress'', hdeltas'⟩ := h' i progress' hprogress'
  exact ⟨progress'', hprogress'', hdeltas.trans hdeltas'⟩

section

variable {ph ph' : Phase} {i : Nat}

theorem begin_eq_some {block : Block} (h : ph.begin i block = some ph') :
    i = ph.blocks.length ∧ ph' = { ph with blocks := ph.blocks ++ [⟨block, [], none⟩] } := by
  unfold Phase.begin at h
  split at h
  · rename_i hi
    exact ⟨hi, (Option.some.inj h).symm⟩
  · cases h

theorem change_eq_some {kind : Kind} {f : Progress → Progress} (h : ph.change i kind f = some ph') :
    ∃ progress, ph.blocks[i]? = some progress ∧ progress.start.kind = kind ∧ progress.finished = none ∧
      ph' = { ph with blocks := ph.blocks.set i (f progress) } := by
  obtain ⟨progress, hprogress, h⟩ := Option.bind_eq_some_iff.mp h
  split at h
  · rename_i hopen
    exact ⟨progress, hprogress, hopen.1, Option.isNone_iff_eq_none.mp hopen.2, (Option.some.inj h).symm⟩
  · cases h

theorem Extends.begin {block : Block} (h : ph.begin i block = some ph') : Extends ph ph' := by
  obtain ⟨-, rfl⟩ := begin_eq_some h
  intro k progress hprogress
  refine ⟨progress, ?_, List.prefix_rfl⟩
  rw [List.getElem?_append_left (List.getElem?_eq_some_iff.mp hprogress).1]
  exact hprogress

theorem Extends.change {kind : Kind} {f : Progress → Progress} (h : ph.change i kind f = some ph')
    (hf : ∀ progress, progress.deltas <+: (f progress).deltas) : Extends ph ph' := by
  obtain ⟨changed, hchanged, -, -, rfl⟩ := change_eq_some h
  intro k progress hprogress
  by_cases hk : i = k
  · subst hk
    obtain rfl := Option.some.inj (hchanged.symm.trans hprogress)
    refine ⟨f changed, ?_, hf changed⟩
    rw [List.getElem?_set_self (List.getElem?_eq_some_iff.mp hchanged).1]
  · exact ⟨progress, by rw [List.getElem?_set_ne hk]; exact hprogress, List.prefix_rfl⟩

theorem Extends.advanceBlock {event : Event} (h : ph.advanceBlock event = some ph') : Extends ph ph' := by
  cases event with
  | start | done | error => cases h
  | textDelta | thinkingDelta | toolcallDelta =>
    exact .change h fun progress => List.prefix_append _ _
  | textStart | thinkingStart | toolcallStart =>
    rw [Phase.advanceBlock] at h
    split at h
    · exact .begin h
    · cases h
  | textEnd | thinkingEnd | toolcallEnd =>
    rw [Phase.advanceBlock] at h
    split at h
    · exact .change h fun progress => List.prefix_rfl
    · cases h

theorem Extends.advance {event : Event} (h : ph.advance event = some ph') : Extends ph ph' := by
  unfold Phase.advance at h
  split at h
  · cases h
  · split at h
    · exact Option.some.inj h ▸ .refl ph
    · exact Option.some.inj h ▸ .refl ph
    · cases h
    · exact Option.some.inj h ▸ .refl ph
    · exact .advanceBlock h

theorem Extends.run {events : List Event} (h : ph.run events = some ph') : Extends ph ph' := by
  induction events generalizing ph with
  | nil => exact Option.some.inj h ▸ .refl ph
  | cons event events ih =>
    obtain ⟨ph₁, h₁, h⟩ := Option.bind_eq_some_iff.mp h
    exact (Extends.advance h₁).trans (ih h)

theorem run_append (events events' : List Event) :
    ph.run (events ++ events') = (ph.run events).bind (·.run events') := by
  induction events generalizing ph with
  | nil => rfl
  | cons event events ih =>
    simp only [List.cons_append, Phase.run, Option.bind_eq_bind, Option.bind_assoc]
    congr 1
    funext ph₁
    exact ih

end

end Frames
