import ContextCompaction.Frames.Stream
import ContextCompaction.Js.JsonOrder

/-!
# Replayed frames rebuild the message

* `Coupled`: where the encoder and the reducer stand when some events have been encoded and their frames
  reduced.
* `replay_rebuilds`: the frames of any first part of a stream are reduced to what that part shows.
-/

namespace Frames

open Js AssistantMessageFrameEncoder

variable {parse : Str → Json}

/-! ## Texts -/

theorem longer_nil (s : Str) : longer s [] = s := by
  unfold longer
  split
  · rfl
  · rename_i h
    exact (List.length_eq_zero_iff.mp (by simpa using h)).symm

/-- The text at a start and the deltas are parts of one text: what a delta adds to the longer of the two. -/
theorem longer_append {s t d full : Str} (hs : s <+: full) (htd : t ++ d <+: full) :
    longer s t ++ (uncovered s.length t.length d).getD [] = longer s (t ++ d) := by
  have ht : t <+: full := (List.prefix_append t d).trans htd
  unfold uncovered longer
  dsimp only
  by_cases hcovered : s.length - t.length ≥ d.length
  · rw [if_pos hcovered, Option.getD_none, List.append_nil, List.length_append]
    by_cases hlong : t.length < s.length
    · rw [if_pos hlong]
      by_cases heq : s.length = t.length + d.length
      · have : s = t ++ d :=
          (List.prefix_of_prefix_length_le hs htd (by simp [heq])).eq_of_length (by simp [heq])
        rw [if_neg (by omega), this]
      · rw [if_pos (by omega)]
    · have hnil : d = [] := List.length_eq_zero_iff.mp (by omega)
      rw [if_neg hlong, if_neg (by omega), hnil, List.append_nil]
  · have hshort : ¬t.length + d.length < s.length := by omega
    rw [if_neg hcovered, Option.getD_some, List.length_append, if_neg hshort]
    by_cases hlong : t.length < s.length
    · have hsd : s <+: t ++ d := List.prefix_of_prefix_length_le hs htd (by simp; omega)
      have htake : s = t ++ d.take (s.length - t.length) := by
        have := List.prefix_iff_eq_take.mp hsd
        rwa [List.take_append, List.take_of_length_le hlong.le] at this
      rw [if_pos hlong]
      calc s ++ d.drop (s.length - t.length)
          = t ++ d.take (s.length - t.length) ++ d.drop (s.length - t.length) := by rw [← htake]
        _ = t ++ d := by rw [List.append_assoc, List.take_append_drop]
    · rw [if_neg hlong, Nat.sub_eq_zero_of_le (by omega), List.drop_zero]

/-! ## Arguments -/

/-- What the encoder asks of parsed deltas is that they have come to the arguments at the start. -/
theorem reaches_iff {arguments : Json} {json : Str} :
    reaches parse (stringify arguments) json = true ↔ Reached parse arguments (parse json) := by
  unfold reaches Reached
  rw [Bool.or_eq_true, beq_iff_eq, isJsonPrefix_iff]

theorem caughtUp_nil {arguments : Json} :
    CaughtUp parse arguments [] ↔ stringify arguments = stringify (parse []) := by
  simp [CaughtUp]

/-- The arguments have caught up by now, or one more delta makes them. -/
theorem caughtUp_append {arguments : Json} {deltas : List Str} {d : Str} :
    CaughtUp parse arguments (deltas ++ [d]) ↔ CaughtUp parse arguments deltas ∨
      Reached parse arguments (parse (deltas.flatten ++ d)) := by
  have hlast : ((deltas ++ [d]).take (deltas.length + 1)).flatten = deltas.flatten ++ d := by
    rw [List.take_of_length_le (by simp)]
    simp
  have hfirst : ∀ j < deltas.length, (deltas ++ [d]).take (j + 1) = deltas.take (j + 1) :=
    fun j hj => List.take_append_of_le_length hj
  unfold CaughtUp
  rw [or_assoc, List.length_append, List.length_singleton]
  refine or_congr_right ⟨?_, ?_⟩
  · rintro ⟨j, hj, h⟩
    rcases Nat.lt_succ_iff_lt_or_eq.mp hj with hj | rfl
    · exact .inl ⟨j, hj, hfirst j hj ▸ h⟩
    · exact .inr (hlast ▸ h)
  · rintro (⟨j, hj, h⟩ | h)
    · exact ⟨j, Nat.lt_succ_of_lt hj, (hfirst j hj).symm ▸ h⟩
    · exact ⟨deltas.length, Nat.lt_succ_self _, hlast.symm ▸ h⟩

theorem CaughtUp.exists_reached {arguments : Json} {deltas : List Str} (h : CaughtUp parse arguments deltas) :
    ∃ j, Reached parse arguments (parse (deltas.take j).flatten) := by
  obtain hempty | ⟨j, -, h⟩ := h
  · exact ⟨0, .inl hempty.symm⟩
  · exact ⟨j + 1, h⟩

/-- The arguments at the start are kept until some first deltas have come to them. -/
theorem toolArguments_eq_or (arguments : Json) (deltas : List Str) :
    toolArguments parse arguments deltas = arguments ∨
      toolArguments parse arguments deltas = parse deltas.flatten ∧
        ∃ j, Reached parse arguments (parse (deltas.take j).flatten) := by
  unfold toolArguments
  split
  · rename_i h
    exact .inr ⟨rfl, h.1.exists_reached⟩
  · exact .inl rfl

/-- Deltas that parse to the arguments at the start, or that have, have come to them. -/
theorem toolArguments_of_parse {arguments : Json} {deltas : List Str} {j : Nat}
    (h : parse (deltas.take j).flatten = arguments) :
    toolArguments parse arguments deltas = parse deltas.flatten := by
  unfold toolArguments
  by_cases hnil : deltas.flatten = []
  · have htake : (deltas.take j).flatten = [] := by
      rw [List.flatten_eq_nil_iff] at hnil ⊢
      exact fun l hl => hnil l (List.mem_of_mem_take hl)
    rw [if_neg (by simp [hnil]), ← h, htake, hnil]
  · refine if_pos ⟨?_, hnil⟩
    cases j with
    | zero => exact .inl (by rw [← h]; rfl)
    | succ j =>
      by_cases hj : j < deltas.length
      · exact .inr ⟨j, hj, .inl (by rw [h])⟩
      · have hlast : deltas.length ≠ 0 := fun h0 => hnil (by rw [List.length_eq_zero_iff.mp h0]; rfl)
        refine .inr ⟨deltas.length - 1, by omega, .inl ?_⟩
        rw [List.take_of_length_le (by omega)] at h ⊢
        rw [h]

/-! ## Blocks -/

section

variable (parse)

/-- What the encoder holds of a block. -/
def encoderState (progress : Progress) : Option EncoderBlockState :=
  match progress.finished, progress.start with
  | some _, _ => none
  | none, .text content => some (.text content.text.length progress.deltas.flatten.length)
  | none, .thinking content => some (.thinking content.thinking.length progress.deltas.flatten.length)
  | none, .toolCall call =>
    some (if CaughtUp parse call.arguments progress.deltas then .toolCall true [] []
      else .toolCall false progress.deltas.flatten (stringify call.arguments))

/-- What the reducer holds of a block. The arguments of a tool call are settled later, if it has JSON. -/
def Replayed (progress : Progress) (block : Block) (state : ReducerBlockState) : Prop :=
  state.kind = progress.start.kind ∧ state.ended = progress.finished.isSome ∧
    match progress.finished, progress.start with
    | none, .toolCall call =>
      state.json = (if CaughtUp parse call.arguments progress.deltas then progress.deltas.flatten else []) ∧
        ∃ arguments, block = .toolCall { call with arguments } ∧
          (state.json = [] → arguments = call.arguments)
    | _, _ => block = progress.shown parse

end

/-! ## Encoder and reducer -/

/-- The encoder and the reducer behind a start event and some blocks' events. -/
structure Coupled (parse : Str → Json) (last ph : Phase) (message : AssistantMessage)
    (e : AssistantMessageFrameEncoder) (r : Reducer) (content : List Block) : Prop where
  first : ph.message = some message
  started : e.started = true
  terminal : e.terminal = ph.terminal
  encoder : ∀ i : Nat, mapGet e.blocks i = ph.blocks[i]?.bind (encoderState parse)
  reduced : r.message = some { cloneStartMessage message with content }
  length : content.length = ph.blocks.length
  keys : r.states.map Prod.fst = List.range ph.blocks.length
  blocks : ∀ (i : Nat) (progress : Progress), ph.blocks[i]? = some progress → ∃ block state,
    content[i]? = some block ∧ mapGet r.states i = some state ∧ Replayed parse progress block state
  bound : ph.blocks.length ≤ 2 ^ 32
  /-- The text at a start is a part of what the stream sends. -/
  seen : ∀ (i : Nat) (progress : Progress), ph.blocks[i]? = some progress →
    ∀ text ∈ progress.start.text?, ∃ progress', last.blocks[i]? = some progress' ∧
      text <+: progress'.deltas.flatten

section

variable {last ph ph' : Phase} {message : AssistantMessage} {e : AssistantMessageFrameEncoder} {r : Reducer}
  {content : List Block} {i : Nat}

theorem set_same {block : Block} (h : content[i]? = some block) : content.set i block = content := by
  obtain ⟨hlt, rfl⟩ := List.getElem?_eq_some_iff.mp h
  exact List.set_getElem_self hlt

theorem assertContentIndex_ok (hi : i < 2 ^ 32) : assertContentIndex i = .ok () :=
  if_pos (by unfold MAX_SAFE_INTEGER; omega)

theorem Coupled.index (h : Coupled parse last ph message e r content) {progress : Progress}
    (hprogress : ph.blocks[i]? = some progress) : assertContentIndex i = .ok () :=
  assertContentIndex_ok ((List.getElem?_eq_some_iff.mp hprogress).1.trans_le h.bound)

/-- A block that starts. -/
theorem Coupled.begin (h : Coupled parse last ph message e r content) {block : Block}
    (hbegin : ph.begin i block = some ph') (hi : i < 2 ^ 32)
    (hseen : ∀ text ∈ block.text?, ∃ progress', last.blocks[i]? = some progress' ∧
      text <+: progress'.deltas.flatten)
    {state : EncoderBlockState} (hstate : encoderState parse ⟨block, [], none⟩ = some state)
    (hreplayed : Replayed parse ⟨block, [], none⟩ block ⟨block.kind, false, []⟩) :
    ∃ e' r', e.startBlock i state = .ok e' ∧
      r.appendBlock { cloneStartMessage message with content } i block = .ok r' ∧
      Coupled parse last ph' message e' r' (content ++ [block]) := by
  obtain ⟨rfl, rfl⟩ := begin_eq_some hbegin
  have hnew : mapGet e.blocks ph.blocks.length = none := by
    rw [h.encoder, List.getElem?_eq_none le_rfl]
    rfl
  refine ⟨{ e with blocks := mapSet e.blocks ph.blocks.length state },
    { r with
      message := some { cloneStartMessage message with content := content ++ [block] }
      states := mapSet r.states ph.blocks.length ⟨block.kind, false, []⟩ }, ?_, ?_, ?_⟩
  · rw [startBlock, assertContentIndex_ok hi, hnew]
    rfl
  · rw [Reducer.appendBlock, assertContentIndex_ok hi]
    exact if_neg (not_not.mpr h.length.symm)
  · have hfresh : ph.blocks.length ∉ r.states.map Prod.fst := by
      rw [h.keys, List.mem_range]
      exact lt_irrefl _
    have hcases : ∀ {k : Nat} {progress : Progress},
        (ph.blocks ++ [⟨block, [], none⟩])[k]? = some progress →
          ph.blocks[k]? = some progress ∨ k = ph.blocks.length ∧ progress = ⟨block, [], none⟩ := by
      intro k progress hk
      rw [List.getElem?_append] at hk
      split at hk
      · exact .inl hk
      · obtain ⟨hlt, hget⟩ := List.getElem?_eq_some_iff.mp hk
        rw [List.length_singleton] at hlt
        exact .inr ⟨by omega, by simpa using hget.symm⟩
    refine ⟨h.first, h.started, h.terminal, fun k => ?_, rfl, by simp [h.length], ?_, ?_, ?_, ?_⟩
    · rw [mapGet_mapSet, h.encoder, List.getElem?_append]
      rcases lt_trichotomy ph.blocks.length k with hk | rfl | hk
      · rw [if_neg (by omega), if_neg (by omega), List.getElem?_eq_none (by omega),
          List.getElem?_eq_none (by simp; omega)]
      · rw [if_pos rfl, if_neg (lt_irrefl _), Nat.sub_self]
        exact hstate.symm
      · rw [if_neg (by omega), if_pos hk]
    · rw [mapSet_of_notMem _ hfresh, List.map_append, h.keys, List.length_append, List.length_singleton,
        List.range_succ]
      rfl
    · intro k progress hk
      rcases hcases hk with hold | ⟨rfl, rfl⟩
      · obtain ⟨block', state', hblock, hstate', hreplayed'⟩ := h.blocks k progress hold
        have hlt := (List.getElem?_eq_some_iff.mp hold).1
        refine ⟨block', state', ?_, ?_, hreplayed'⟩
        · rw [List.getElem?_append_left (h.length ▸ hlt)]
          exact hblock
        · rw [mapGet_mapSet, if_neg (by omega)]
          exact hstate'
      · refine ⟨block, _, ?_, mapGet_mapSet_self _ _ _, hreplayed⟩
        rw [← h.length, List.getElem?_concat_length]
    · rw [List.length_append, List.length_singleton]
      omega
    · intro k progress hk
      rcases hcases hk with hold | ⟨rfl, rfl⟩
      · exact h.seen k progress hold
      · exact hseen

/-- A block that changes, in the encoder and in the reducer. -/
theorem Coupled.update (h : Coupled parse last ph message e r content) {progress progress' : Progress}
    (hprogress : ph.blocks[i]? = some progress) (hstart : progress'.start = progress.start)
    {e' : AssistantMessageFrameEncoder} (hstarted : e'.started = e.started)
    (hterminal : e'.terminal = e.terminal)
    (hencoder : ∀ k, mapGet e'.blocks k = if i = k then encoderState parse progress' else mapGet e.blocks k)
    {block : Block} {state : ReducerBlockState} (hreplayed : Replayed parse progress' block state) :
    Coupled parse last { ph with blocks := ph.blocks.set i progress' } message e'
      (r.withBlock { cloneStartMessage message with content } i block state) (content.set i block) := by
  have hlt := (List.getElem?_eq_some_iff.mp hprogress).1
  obtain ⟨block₀, state₀, hblock₀, hstate₀, -⟩ := h.blocks i progress hprogress
  refine ⟨h.first, hstarted.trans h.started, hterminal.trans h.terminal, fun k => ?_, rfl, by simp [h.length],
    ?_, ?_, by simpa using h.bound, ?_⟩
  · rw [hencoder, h.encoder, List.getElem?_set]
    by_cases hk : i = k
    · rw [if_pos hk, if_pos hk, if_pos hlt]
      rfl
    · rw [if_neg hk, if_neg hk]
  · rw [Reducer.withBlock, keys_mapSet hstate₀, h.keys, List.length_set]
  · intro k progress'' hk
    rw [List.getElem?_set] at hk
    simp only [Reducer.withBlock, mapGet_mapSet, List.getElem?_set]
    by_cases hik : i = k
    · rw [if_pos hik, if_pos hlt] at hk
      obtain rfl := Option.some.inj hk
      rw [if_pos hik, if_pos hik, if_pos (h.length ▸ hlt)]
      exact ⟨block, state, rfl, rfl, hreplayed⟩
    · rw [if_neg hik] at hk
      rw [if_neg hik, if_neg hik]
      exact h.blocks k progress'' hk
  · intro k progress'' hk
    rw [List.getElem?_set] at hk
    by_cases hik : i = k
    · rw [if_pos hik, if_pos hlt] at hk
      obtain rfl := Option.some.inj hk
      subst hik
      rw [hstart]
      exact h.seen i progress hprogress
    · rw [if_neg hik] at hk
      exact h.seen k progress'' hk

theorem Replayed.kind {progress : Progress} {block : Block} {state : ReducerBlockState}
    (h : Replayed parse progress block state) (hopen : progress.finished = none) :
    block.kind = progress.start.kind := by
  obtain ⟨start, deltas, finished⟩ := progress
  obtain rfl : finished = none := hopen
  obtain ⟨-, -, h⟩ := h
  cases start with
  | text content => exact h ▸ rfl
  | thinking content => exact h ▸ rfl
  | toolCall call =>
    obtain ⟨-, arguments, rfl, -⟩ := h
    rfl

theorem Coupled.block (h : Coupled parse last ph message e r content) {progress : Progress}
    (hprogress : ph.blocks[i]? = some progress) {state : EncoderBlockState}
    (hstate : encoderState parse progress = some state) : e.block i state.kind = .ok state := by
  have hget : mapGet e.blocks i = some state := by rw [h.encoder, hprogress]; exact hstate
  rw [AssistantMessageFrameEncoder.block, h.index hprogress, hget]
  exact if_neg (not_not.mpr rfl)

theorem reduceFrame_block {f : Frame} (hr : r.message = some message) (hf : ∀ m, f ≠ .start m) :
    r.reduceFrame parse f = r.reduceBlock parse message f := by
  unfold Reducer.reduceFrame
  split
  · exact absurd rfl (hf _)
  · exact absurd rfl (hf _)
  · rename_i hnone
    rw [hr] at hnone
    cases hnone
  · rename_i hsome
    rw [hr] at hsome
    rw [Option.some.inj hsome]

/-- What an encoder's step and the reduction of its frame lead to. -/
def Steps (parse : Str → Json) (last ph' : Phase) (message : AssistantMessage) (r : Reducer)
    (result : Except Str (Option Frame × AssistantMessageFrameEncoder)) : Prop :=
  ∃ frame e' r' content', result = .ok (frame, e') ∧
    frame.toList.foldlM (Reducer.reduceFrame parse) r = .ok r' ∧
      Coupled parse last ph' message e' r' content'

/-- A block that changes, in the encoder; its frame, if there is one, changes it in the reducer. -/
theorem Coupled.frame (h : Coupled parse last ph message e r content) {progress : Progress}
    (hprogress : ph.blocks[i]? = some progress) (hopen : progress.finished = none)
    (progress' : Progress) (e' : AssistantMessageFrameEncoder) (frame : Option Frame)
    {result : Except Str (Option Frame × AssistantMessageFrameEncoder)} (hresult : result = .ok (frame, e'))
    (hstart : progress'.start = progress.start) (hstarted : e'.started = e.started)
    (hterminal : e'.terminal = e.terminal)
    (hencoder : ∀ k, mapGet e'.blocks k = if i = k then encoderState parse progress' else mapGet e.blocks k)
    (hsilent : frame = none → ∀ block state, Replayed parse progress block state →
      Replayed parse progress' block state)
    (hframe : ∀ f ∈ frame, (∀ m, f ≠ .start m) ∧
      (∀ (r : Reducer) m, r.reduceBlock parse m f = r.change parse m i progress.start.kind f) ∧
      ∀ block state, Replayed parse progress block state → ∃ block' state',
        Reducer.changeBlock parse f block state = .ok (block', state') ∧
          Replayed parse progress' block' state') :
    Steps parse last { ph with blocks := ph.blocks.set i progress' } message r result := by
  obtain ⟨block, state, hblock, hstate, hreplayed⟩ := h.blocks i progress hprogress
  cases frame with
  | none =>
    have hupdate := h.update hprogress hstart hstarted hterminal hencoder (hsilent rfl block state hreplayed)
    have hcontent := set_same hblock
    have hr : r.withBlock { cloneStartMessage message with content } i block state = r := by
      obtain ⟨m, before, states⟩ := r
      rw [Reducer.withBlock, mapSet_eq_self hstate, hcontent, ← h.reduced]
    rw [hcontent, hr] at hupdate
    exact ⟨none, e', r, content, hresult, rfl, hupdate⟩
  | some f =>
    obtain ⟨hstartless, hreduce, hchange⟩ := hframe f rfl
    obtain ⟨block', state', hblock', hreplayed'⟩ := hchange block state hreplayed
    refine ⟨some f, e', _, _, hresult, ?_,
      h.update hprogress hstart hstarted hterminal hencoder hreplayed'⟩
    have hactive : r.activeBlock { cloneStartMessage message with content } i progress.start.kind f.type =
        .ok (block, state) := by
      rw [Reducer.activeBlock, h.index hprogress]
      simp only [hstate, hblock]
      have hkind : ¬(state.kind ≠ progress.start.kind ∨ block.kind ≠ progress.start.kind) := by
        rw [hreplayed.1, hreplayed.kind hopen]
        simp
      have hended : ¬state.ended = true := by
        rw [hreplayed.2.1, hopen]
        simp
      exact (if_neg hkind).trans (if_neg hended)
    simp only [Option.toList, List.foldlM_cons, List.foldlM_nil, bind_pure]
    rw [reduceFrame_block h.reduced hstartless, hreduce, Reducer.change]
    exact bind_ok.mpr ⟨_, hactive, bind_ok.mpr ⟨_, hblock', rfl⟩⟩

theorem mapGet_set (e : AssistantMessageFrameEncoder) (i : Nat) (state : EncoderBlockState) (k : Nat) :
    mapGet (e.set i state).blocks k = if i = k then some state else mapGet e.blocks k :=
  mapGet_mapSet _ _ _ _

/-- The text at a start and the deltas so far are parts of one text. -/
theorem Coupled.parts (h : Coupled parse last ph message e r content) {progress : Progress}
    (hprogress : ph.blocks[i]? = some progress) {text : Str} (htext : progress.start.text? = some text)
    {deltas : List Str} (hext : ∃ progress', last.blocks[i]? = some progress' ∧ deltas <+: progress'.deltas) :
    ∃ full, text <+: full ∧ deltas.flatten <+: full := by
  obtain ⟨progress₁, hprogress₁, hprefix⟩ := h.seen i progress hprogress text htext
  obtain ⟨progress₂, hprogress₂, rest, hdeltas⟩ := hext
  obtain rfl := Option.some.inj (hprogress₁.symm.trans hprogress₂)
  refine ⟨_, hprefix, ?_⟩
  rw [← hdeltas, List.flatten_append]
  exact List.prefix_append _ _

theorem delta_extends {kind : Kind} {d : Str} (hdelta : ph.delta i kind d = some ph')
    (hext : Extends ph' last) : ∃ progress, ph.blocks[i]? = some progress ∧ progress.start.kind = kind ∧
      progress.finished = none ∧
      ph' = { ph with blocks := ph.blocks.set i { progress with deltas := progress.deltas ++ [d] } } ∧
      ∃ progress', last.blocks[i]? = some progress' ∧ progress.deltas ++ [d] <+: progress'.deltas := by
  obtain ⟨progress, hprogress, hkind, hopen, rfl⟩ := change_eq_some hdelta
  refine ⟨progress, hprogress, hkind, hopen, rfl, hext i { progress with deltas := progress.deltas ++ [d] } ?_⟩
  exact List.getElem?_set_self (List.getElem?_eq_some_iff.mp hprogress).1

/-- Encoder and reducer stay coupled over a text delta. -/
theorem Coupled.textDelta (h : Coupled parse last ph message e r content) {d : Str}
    (hdelta : ph.delta i .text d = some ph') (hext : Extends ph' last) :
    Steps parse last ph' message r (e.encodeTextDelta i d .text) := by
  obtain ⟨⟨start, deltas, finished⟩, hprogress, hkind, hopen, rfl, hlast⟩ := delta_extends hdelta hext
  obtain rfl : finished = none := hopen
  cases start with
  | thinking | toolCall => cases hkind
  | text c =>
    obtain ⟨full, hs, ht⟩ := h.parts hprogress rfl hlast
    rw [List.flatten_append, List.flatten_cons, List.flatten_nil, List.append_nil] at ht
    have hlonger := longer_append hs ht
    have hblock := h.block hprogress rfl
    refine h.frame hprogress rfl ⟨.text c, deltas ++ [d], none⟩
      (e.set i (.text c.text.length (deltas ++ [d]).flatten.length))
      ((uncovered c.text.length deltas.flatten.length d).map (.textDelta i))
      (bind_ok.mpr ⟨_, hblock, by simp⟩) rfl rfl rfl (mapGet_set e i _) ?_ ?_
    · intro hnone block state hreplayed
      obtain ⟨hstate, hended, hblock⟩ := hreplayed
      refine ⟨hstate, hended, ?_⟩
      rw [Option.map_eq_none_iff.mp hnone, Option.getD_none, List.append_nil] at hlonger
      simpa [Progress.shown, hlonger] using hblock
    · intro f hf
      obtain ⟨u, hu, rfl⟩ := Option.map_eq_some_iff.mp hf
      refine ⟨(fun _ h => nomatch h), fun _ _ => rfl, fun block state hreplayed => ?_⟩
      obtain ⟨hstate, hended, hblock⟩ := hreplayed
      rw [hu, Option.getD_some] at hlonger
      refine ⟨_, state, by rw [hblock]; rfl, hstate, hended, ?_⟩
      simp [Progress.shown, hlonger]

/-- Encoder and reducer stay coupled over a thinking delta. -/
theorem Coupled.thinkingDelta (h : Coupled parse last ph message e r content) {d : Str}
    (hdelta : ph.delta i .thinking d = some ph') (hext : Extends ph' last) :
    Steps parse last ph' message r (e.encodeTextDelta i d .thinking) := by
  obtain ⟨⟨start, deltas, finished⟩, hprogress, hkind, hopen, rfl, hlast⟩ := delta_extends hdelta hext
  obtain rfl : finished = none := hopen
  cases start with
  | text | toolCall => cases hkind
  | thinking c =>
    obtain ⟨full, hs, ht⟩ := h.parts hprogress rfl hlast
    rw [List.flatten_append, List.flatten_cons, List.flatten_nil, List.append_nil] at ht
    have hlonger := longer_append hs ht
    have hblock := h.block hprogress rfl
    refine h.frame hprogress rfl ⟨.thinking c, deltas ++ [d], none⟩
      (e.set i (.thinking c.thinking.length (deltas ++ [d]).flatten.length))
      ((uncovered c.thinking.length deltas.flatten.length d).map (.thinkingDelta i))
      (bind_ok.mpr ⟨_, hblock, by simp⟩) rfl rfl rfl (mapGet_set e i _) ?_ ?_
    · intro hnone block state hreplayed
      obtain ⟨hstate, hended, hblock⟩ := hreplayed
      refine ⟨hstate, hended, ?_⟩
      rw [Option.map_eq_none_iff.mp hnone, Option.getD_none, List.append_nil] at hlonger
      simpa [Progress.shown, hlonger] using hblock
    · intro f hf
      obtain ⟨u, hu, rfl⟩ := Option.map_eq_some_iff.mp hf
      refine ⟨(fun _ h => nomatch h), fun _ _ => rfl, fun block state hreplayed => ?_⟩
      obtain ⟨hstate, hended, hblock⟩ := hreplayed
      rw [hu, Option.getD_some] at hlonger
      refine ⟨_, state, by rw [hblock]; rfl, hstate, hended, ?_⟩
      simp [Progress.shown, hlonger]

theorem replayed_toolCall {call : ToolCall} {deltas : List Str} {block : Block} {state : ReducerBlockState} :
    Replayed parse ⟨.toolCall call, deltas, none⟩ block state ↔
      state.kind = .toolCall ∧ state.ended = false ∧
        state.json = (if CaughtUp parse call.arguments deltas then deltas.flatten else []) ∧
          ∃ arguments, block = .toolCall { call with arguments } ∧
            (state.json = [] → arguments = call.arguments) :=
  Iff.rfl

theorem encoderState_toolCall {call : ToolCall} {deltas : List Str} :
    encoderState parse ⟨.toolCall call, deltas, none⟩ =
      some (if CaughtUp parse call.arguments deltas then .toolCall true [] []
        else .toolCall false deltas.flatten (stringify call.arguments)) :=
  rfl

theorem some_of_ite {c : Prop} [Decidable c] {f g : Frame}
    (h : f ∈ (if c then none else some g : Option Frame)) : ¬c ∧ f = g := by
  split at h
  · cases h
  · rename_i hc
    exact ⟨hc, (Option.some.inj h).symm⟩

theorem nil_of_ite {c : Prop} [Decidable c] {g : Frame}
    (h : (if c then none else some g : Option Frame) = none) : c := by
  by_contra hc
  rw [if_neg hc] at h
  cases h

section

variable {call : ToolCall} {deltas : List Str}
  (h : Coupled parse last ph message e r content)
  (hprogress : ph.blocks[i]? = some ⟨.toolCall call, deltas, none⟩) (d : Str)

include h hprogress

/-- Every delta is a frame. -/
theorem Coupled.toolcallNext (hbefore : CaughtUp parse call.arguments deltas) :
    Steps parse last { ph with blocks := ph.blocks.set i ⟨.toolCall call, deltas ++ [d], none⟩ } message r
      (e.encodeToolcallDelta parse i d) := by
  have hflatten : (deltas ++ [d]).flatten = deltas.flatten ++ d := by simp
  have hafter : CaughtUp parse call.arguments (deltas ++ [d]) := caughtUp_append.mpr (.inl hbefore)
  have hstate : encoderState parse ⟨.toolCall call, deltas, none⟩ = some (.toolCall true [] []) := by
    rw [encoderState_toolCall, if_pos hbefore]
  have hget : mapGet e.blocks i = some (.toolCall true [] []) := by
    rw [h.encoder, hprogress]
    exact hstate
  have hblock := h.block hprogress hstate
  rw [EncoderBlockState.kind] at hblock
  have hresult : e.encodeToolcallDelta parse i d =
      .ok (if d.length = 0 then none else some (.toolcallDelta i d), e) := by
    rw [encodeToolcallDelta, hblock]
    rfl
  refine h.frame hprogress rfl ⟨.toolCall call, deltas ++ [d], none⟩ e _ hresult rfl rfl rfl ?_ ?_ ?_
  · intro k
    rw [encoderState_toolCall, if_pos hafter]
    split
    · rename_i hk
      rw [← hk, hget]
    · rfl
  · intro hnone block state hreplayed
    have hnil : d = [] := List.length_eq_zero_iff.mp (nil_of_ite hnone)
    rw [replayed_toolCall, if_pos hbefore] at hreplayed
    rwa [replayed_toolCall, if_pos hafter, hflatten, hnil, List.append_nil]
  · intro f hf
    obtain ⟨-, rfl⟩ := some_of_ite hf
    refine ⟨(fun _ h => nomatch h), fun _ _ => rfl, fun block state hreplayed => ?_⟩
    obtain ⟨hkind, hended, hjson, arguments, rfl, hargs⟩ := replayed_toolCall.mp hreplayed
    refine ⟨_, { state with json := state.json ++ d }, rfl, replayed_toolCall.mpr
      ⟨hkind, hended, ?_, arguments, rfl, fun hnil => hargs (List.append_eq_nil_iff.mp hnil).1⟩⟩
    rw [hjson, if_pos hbefore, if_pos hafter, hflatten]

/-- The delta with which the deltas come to the arguments: one frame has them all. -/
theorem Coupled.toolcallCatchup (hbefore : ¬CaughtUp parse call.arguments deltas)
    (hreaches : reaches parse (stringify call.arguments) (deltas.flatten ++ d) = true) :
    Steps parse last { ph with blocks := ph.blocks.set i ⟨.toolCall call, deltas ++ [d], none⟩ } message r
      (e.encodeToolcallDelta parse i d) := by
  have hflatten : (deltas ++ [d]).flatten = deltas.flatten ++ d := by simp
  have hafter : CaughtUp parse call.arguments (deltas ++ [d]) :=
    caughtUp_append.mpr (.inr (reaches_iff.mp hreaches))
  have hstate : encoderState parse ⟨.toolCall call, deltas, none⟩ =
      some (.toolCall false deltas.flatten (stringify call.arguments)) := by
    rw [encoderState_toolCall, if_neg hbefore]
  have hblock := h.block hprogress hstate
  rw [EncoderBlockState.kind] at hblock
  have hresult : e.encodeToolcallDelta parse i d =
      .ok (if (deltas.flatten ++ d).length = 0 then none
        else some (.toolcallCheckpoint i (deltas.flatten ++ d)), e.set i (.toolCall true [] [])) := by
    rw [encodeToolcallDelta, hblock]
    simp only [bind, Except.bind, hreaches]
    rfl
  refine h.frame hprogress rfl ⟨.toolCall call, deltas ++ [d], none⟩ _ _ hresult rfl rfl rfl ?_ ?_ ?_
  · intro k
    rw [mapGet_set, encoderState_toolCall, if_pos hafter]
  · intro hnone block state hreplayed
    have hnil : deltas.flatten ++ d = [] := List.length_eq_zero_iff.mp (nil_of_ite hnone)
    obtain ⟨hkind, hended, hjson, hargs⟩ := replayed_toolCall.mp hreplayed
    refine replayed_toolCall.mpr ⟨hkind, hended, ?_, hargs⟩
    rw [hjson, if_neg hbefore, if_pos hafter, hflatten, hnil]
  · intro f hf
    obtain ⟨hne, rfl⟩ := some_of_ite hf
    refine ⟨(fun _ h => nomatch h), fun _ _ => rfl, fun block state hreplayed => ?_⟩
    obtain ⟨hkind, hended, hjson, arguments, rfl, hargs⟩ := replayed_toolCall.mp hreplayed
    refine ⟨_, { state with json := deltas.flatten ++ d }, rfl, replayed_toolCall.mpr
      ⟨hkind, hended, ?_, _, rfl, fun hnil => absurd (List.length_eq_zero_iff.mpr hnil) hne⟩⟩
    rw [if_pos hafter, hflatten]

/-- Deltas behind the arguments have no frame. -/
theorem Coupled.toolcallBehind (hbefore : ¬CaughtUp parse call.arguments deltas)
    (hreaches : reaches parse (stringify call.arguments) (deltas.flatten ++ d) = false) :
    Steps parse last { ph with blocks := ph.blocks.set i ⟨.toolCall call, deltas ++ [d], none⟩ } message r
      (e.encodeToolcallDelta parse i d) := by
  have hflatten : (deltas ++ [d]).flatten = deltas.flatten ++ d := by simp
  have hafter : ¬CaughtUp parse call.arguments (deltas ++ [d]) := by
    rw [caughtUp_append, ← reaches_iff, hreaches]
    simp [hbefore]
  have hstate : encoderState parse ⟨.toolCall call, deltas, none⟩ =
      some (.toolCall false deltas.flatten (stringify call.arguments)) := by
    rw [encoderState_toolCall, if_neg hbefore]
  have hblock := h.block hprogress hstate
  rw [EncoderBlockState.kind] at hblock
  have hresult : e.encodeToolcallDelta parse i d =
      .ok (none, e.set i (.toolCall false (deltas.flatten ++ d) (stringify call.arguments))) := by
    rw [encodeToolcallDelta, hblock]
    simp only [bind, Except.bind, hreaches]
    rfl
  refine h.frame hprogress rfl ⟨.toolCall call, deltas ++ [d], none⟩ _ _ hresult rfl rfl rfl ?_ ?_ ?_
  · intro k
    rw [mapGet_set, encoderState_toolCall, if_neg hafter, hflatten]
  · intro _ block state hreplayed
    obtain ⟨hkind, hended, hjson, hargs⟩ := replayed_toolCall.mp hreplayed
    refine replayed_toolCall.mpr ⟨hkind, hended, ?_, hargs⟩
    rw [hjson, if_neg hbefore, if_neg hafter]
  · intro f hf
    cases hf

end

theorem Coupled.toolcallDelta (h : Coupled parse last ph message e r content) {d : Str}
    (hdelta : ph.delta i .toolCall d = some ph') :
    Steps parse last ph' message r (e.encodeToolcallDelta parse i d) := by
  obtain ⟨⟨start, deltas, finished⟩, hprogress, hkind, hopen, rfl⟩ := change_eq_some hdelta
  obtain rfl : finished = none := hopen
  cases start with
  | text | thinking => cases hkind
  | toolCall call =>
    by_cases hbefore : CaughtUp parse call.arguments deltas
    · exact h.toolcallNext hprogress d hbefore
    · cases hreaches : reaches parse (stringify call.arguments) (deltas.flatten ++ d) with
      | true => exact h.toolcallCatchup hprogress d hbefore hreaches
      | false => exact h.toolcallBehind hprogress d hbefore hreaches

/-- The end of a block. -/
theorem Coupled.finish (h : Coupled parse last ph message e r content) {block : Block}
    (hfinish : ph.finish i block = some ph') {f : Frame} (hstartless : ∀ m, f ≠ .start m)
    (hreduce : ∀ (r : Reducer) m, r.reduceBlock parse m f = r.change parse m i block.kind f)
    (hchange : ∀ b state, b.kind = block.kind →
      Reducer.changeBlock parse f b state = .ok (block, { state with ended := true })) :
    Steps parse last ph' message r (do
      let e ← e.endBlock i block.kind
      .ok (some f, e)) := by
  obtain ⟨⟨start, deltas, finished⟩, hprogress, hkind, hopen, rfl⟩ := change_eq_some hfinish
  obtain rfl : finished = none := hopen
  obtain ⟨state, hstate, hstateKind⟩ : ∃ state, encoderState parse ⟨start, deltas, none⟩ = some state ∧
      state.kind = block.kind := by
    rw [← hkind]
    cases start with
    | text | thinking => exact ⟨_, rfl, rfl⟩
    | toolCall call =>
      refine ⟨_, rfl, ?_⟩
      split <;> rfl
  have hblock := h.block hprogress hstate
  rw [hstateKind] at hblock
  refine h.frame hprogress rfl ⟨start, deltas, some block⟩ { e with blocks := mapDelete e.blocks i } (some f)
    (bind_ok.mpr ⟨_, bind_ok.mpr ⟨_, hblock, rfl⟩, rfl⟩) rfl rfl rfl (fun k => mapGet_mapDelete _ _ _) ?_ ?_
  · intro hnone
    cases hnone
  · rintro _ ⟨⟩
    refine ⟨hstartless, fun r m => by rw [hreduce, ← hkind], fun b state hreplayed => ?_⟩
    have hb : b.kind = block.kind := (hreplayed.kind rfl).trans hkind
    exact ⟨block, _, hchange b state hb, hreplayed.1, rfl, rfl⟩

/-- The start of a block. -/
theorem Coupled.start (h : Coupled parse last ph message e r content) {block : Block}
    (hbegin : ph.begin i block = some ph') {f : Frame} (hstartless : ∀ m, f ≠ .start m)
    (hreduce : ∀ (r : Reducer) m, r.reduceBlock parse m f = r.appendBlock m i block) (hi : i < 2 ^ 32)
    (hseen : ∀ text ∈ block.text?, ∃ progress', last.blocks[i]? = some progress' ∧
      text <+: progress'.deltas.flatten)
    {state : EncoderBlockState} (hstate : encoderState parse ⟨block, [], none⟩ = some state)
    (hreplayed : Replayed parse ⟨block, [], none⟩ block ⟨block.kind, false, []⟩) :
    Steps parse last ph' message r (do
      let e ← e.startBlock i state
      .ok (some f, e)) := by
  obtain ⟨e', r', hencode, happend, hcoupled⟩ := h.begin hbegin hi hseen hstate hreplayed
  refine ⟨some f, e', r', _, bind_ok.mpr ⟨e', hencode, rfl⟩, ?_, hcoupled⟩
  simp only [Option.toList, List.foldlM_cons, List.foldlM_nil, bind_pure]
  rw [reduceFrame_block h.reduced hstartless, hreduce]
  exact happend

end

/-! ## Events -/

def Event.begins? : Event → Option (Nat × AssistantMessage)
  | .textStart i live | .thinkingStart i live | .toolcallStart i live => some (i, live)
  | _ => none

/-- The text that a block has when its start is encoded is a part of what the stream sends. -/
def Starts (last : Phase) (event : Event) : Prop :=
  ∀ (i : Nat) (live : AssistantMessage), event.begins? = some (i, live) → live.content.length < 2 ^ 32 ∧
    ∀ block : Block, live.content[i]? = some block → ∀ text ∈ block.text?, ∃ progress',
      last.blocks[i]? = some progress' ∧ text <+: progress'.deltas.flatten

section

variable {last ph ph' : Phase} {message : AssistantMessage} {e : AssistantMessageFrameEncoder} {r : Reducer}
  {content : List Block} {i : Nat}

theorem eventBlock_ok {type : Str} {live : AssistantMessage} {block : Block} (hi : i < 2 ^ 32)
    (hblock : live.content[i]? = some block) : eventBlock type i live = .ok block := by
  rw [eventBlock, assertContentIndex_ok hi, hblock]
  rfl

theorem Coupled.inside (h : Coupled parse last ph message e r content) {block : Block}
    (hfinish : ph.finish i block = some ph') : i < 2 ^ 32 := by
  obtain ⟨progress, hprogress, -⟩ := change_eq_some hfinish
  exact (List.getElem?_eq_some_iff.mp hprogress).1.trans_le h.bound

/-- Every event of a stream is encoded, and its frame reduced. -/
theorem Coupled.step (h : Coupled parse last ph message e r content) {event : Event}
    (hadvance : ph.advanceBlock event = some ph') (hstarts : Starts last event)
    (hext : Extends ph' last) : Steps parse last ph' message r (e.encodeBlock parse event) := by
  cases event with
  | start | done | error => cases hadvance
  | textDelta i d => exact h.textDelta hadvance hext
  | thinkingDelta i d => exact h.thinkingDelta hadvance hext
  | toolcallDelta i d => exact h.toolcallDelta hadvance
  | textStart i live =>
    rw [Phase.advanceBlock] at hadvance
    split at hadvance
    · rename_i c hblock
      obtain ⟨hlen, hseen⟩ := hstarts i live rfl
      have hi := (List.getElem?_eq_some_iff.mp hblock).1.trans hlen
      have hencode : e.encodeBlock parse (.textStart i live) = (do
          let e ← e.startBlock i (.text c.text.length 0)
          .ok (some (.textStart i c), e)) := by
        rw [encodeBlock, eventBlock_ok hi hblock]
        rfl
      rw [hencode]
      exact h.start (f := .textStart i c) hadvance (fun _ h => by cases h) (fun _ _ => rfl) hi
        (hseen _ hblock) rfl ⟨rfl, rfl, by simp [Progress.shown, longer_nil]⟩
    · cases hadvance
  | thinkingStart i live =>
    rw [Phase.advanceBlock] at hadvance
    split at hadvance
    · rename_i c hblock
      obtain ⟨hlen, hseen⟩ := hstarts i live rfl
      have hi := (List.getElem?_eq_some_iff.mp hblock).1.trans hlen
      have hencode : e.encodeBlock parse (.thinkingStart i live) = (do
          let e ← e.startBlock i (.thinking c.thinking.length 0)
          .ok (some (.thinkingStart i c), e)) := by
        rw [encodeBlock, eventBlock_ok hi hblock]
        rfl
      rw [hencode]
      exact h.start (f := .thinkingStart i c) hadvance (fun _ h => by cases h) (fun _ _ => rfl) hi
        (hseen _ hblock) rfl ⟨rfl, rfl, by simp [Progress.shown, longer_nil]⟩
    · cases hadvance
  | toolcallStart i live =>
    rw [Phase.advanceBlock] at hadvance
    split at hadvance
    · rename_i call hblock
      obtain ⟨hlen, hseen⟩ := hstarts i live rfl
      have hi := (List.getElem?_eq_some_iff.mp hblock).1.trans hlen
      have hencode : e.encodeBlock parse (.toolcallStart i live) = (do
          let e ← e.startBlock i (toolCallState parse call.arguments)
          .ok (some (.toolcallStart i call), e)) := by
        rw [encodeBlock, eventBlock_ok hi hblock]
        rfl
      rw [hencode]
      refine h.start (f := .toolcallStart i call) hadvance (fun _ h => by cases h) (fun _ _ => rfl) hi
        (hseen _ hblock) ?_ (replayed_toolCall.mpr ⟨rfl, rfl, by simp, call.arguments, rfl, fun _ => rfl⟩)
      simp only [encoderState_toolCall, toolCallState, caughtUp_nil]
      split <;> rfl
    · cases hadvance
  | textEnd i text live =>
    rw [Phase.advanceBlock] at hadvance
    split at hadvance
    · rename_i c hblock
      have hencode : e.encodeBlock parse (.textEnd i text live) = (do
          let e ← e.endBlock i .text
          .ok (some (.textEnd i text c.textSignature), e)) := by
        rw [encodeBlock, eventBlock_ok (h.inside hadvance) hblock]
        rfl
      rw [hencode]
      refine h.finish (f := .textEnd i text c.textSignature) hadvance (fun _ h => by cases h)
        (fun _ _ => rfl) fun b state hb => ?_
      cases b with
      | text _ => rfl
      | thinking _ | toolCall _ => cases hb
    · cases hadvance
  | thinkingEnd i thinking live =>
    rw [Phase.advanceBlock] at hadvance
    split at hadvance
    · rename_i c hblock
      have hencode : e.encodeBlock parse (.thinkingEnd i thinking live) = (do
          let e ← e.endBlock i .thinking
          .ok (some (.thinkingEnd i thinking c.thinkingSignature c.redacted), e)) := by
        rw [encodeBlock, eventBlock_ok (h.inside hadvance) hblock]
        rfl
      rw [hencode]
      refine h.finish (f := .thinkingEnd i thinking c.thinkingSignature c.redacted) hadvance
        (fun _ h => by cases h) (fun _ _ => rfl) fun b state hb => ?_
      cases b with
      | thinking _ => rfl
      | text _ | toolCall _ => cases hb
    · cases hadvance
  | toolcallEnd i call live =>
    rw [Phase.advanceBlock] at hadvance
    split at hadvance
    · rename_i hblock
      have hencode : e.encodeBlock parse (.toolcallEnd i call live) = (do
          let e ← e.endBlock i .toolCall
          .ok (some (.toolcallEnd i call), e)) := by
        rw [encodeBlock, eventBlock_ok (h.inside hadvance) hblock]
        rfl
      rw [hencode]
      refine h.finish (f := .toolcallEnd i call) hadvance (fun _ h => by cases h) (fun _ _ => rfl)
        fun b state hb => ?_
      cases b with
      | toolCall _ => rfl
      | text _ | thinking _ => cases hb
    · cases hadvance

end

/-! ## Settling -/

section

variable {message : AssistantMessage} {content : List Block} {i : Nat}

/-- A block is settled to what its events show. -/
theorem settleCall_ok {progress : Progress} {block : Block} {state : ReducerBlockState}
    (hblock : content[i]? = some block) (h : Replayed parse progress block state) :
    Reducer.settleCall parse { message with content } (i, state) =
      .ok { message with content := content.set i (progress.shown parse) } := by
  obtain ⟨start, deltas, finished⟩ := progress
  have hstays : block = Progress.shown parse ⟨start, deltas, finished⟩ →
      (state.kind ≠ .toolCall ∨ state.ended = true ∨ state.json.length = 0) →
        Reducer.settleCall parse { message with content } (i, state) =
          .ok { message with content := content.set i (Progress.shown parse ⟨start, deltas, finished⟩) } := by
    intro heq hskip
    rw [← heq, set_same hblock, Reducer.settleCall, if_pos hskip]
  cases finished with
  | some final =>
    obtain ⟨-, hended, hshown⟩ := h
    exact hstays hshown (.inr (.inl hended))
  | none =>
    cases start with
    | text c =>
      obtain ⟨hkind, -, hshown⟩ := h
      exact hstays hshown (.inl (by rw [hkind]; exact nofun))
    | thinking c =>
      obtain ⟨hkind, -, hshown⟩ := h
      exact hstays hshown (.inl (by rw [hkind]; exact nofun))
    | toolCall call =>
      obtain ⟨hkind, hended, hjson, arguments, rfl, hargs⟩ := replayed_toolCall.mp h
      have hcall : Progress.shown parse ⟨.toolCall call, deltas, none⟩ =
          .toolCall { call with arguments := toolArguments parse call.arguments deltas } := rfl
      by_cases hnil : state.json = []
      · refine hstays ?_ (.inr (.inr (by rw [hnil]; rfl)))
        have hfirst : ¬(CaughtUp parse call.arguments deltas ∧ deltas.flatten ≠ []) := by
          rintro ⟨hcaught, hne⟩
          rw [if_pos hcaught] at hjson
          exact hne (hjson ▸ hnil)
        rw [hargs hnil, hcall, toolArguments, if_neg hfirst]
      · have hcaught : CaughtUp parse call.arguments deltas := by
          by_contra hbehind
          rw [if_neg hbehind] at hjson
          exact hnil hjson
        rw [if_pos hcaught] at hjson
        have hskip : ¬(state.kind ≠ .toolCall ∨ state.ended = true ∨ state.json.length = 0) := by
          rw [hkind, hended, List.length_eq_zero_iff]
          simp [hnil]
        rw [Reducer.settleCall, if_neg hskip]
        simp only [hblock]
        rw [hcall, toolArguments, if_pos ⟨hcaught, hjson ▸ hnil⟩, hjson]

/-- Settling calls replaces exactly the blocks that are still open by what they show. -/
theorem settle_ok (content : List Block) {blocks : List Progress} (states : List (Nat × ReducerBlockState))
    (hnodup : (states.map Prod.fst).Nodup)
    (h : ∀ s ∈ states, ∃ progress block, blocks[s.1]? = some progress ∧ content[s.1]? = some block ∧
      Replayed parse progress block s.2) :
    ∃ content', states.foldlM (Reducer.settleCall parse) { message with content } =
        .ok { message with content := content' } ∧
      ∀ k, content'[k]? = if k ∈ states.map Prod.fst then blocks[k]?.map (Progress.shown parse)
        else content[k]? := by
  induction states generalizing content with
  | nil => exact ⟨content, rfl, fun k => by simp⟩
  | cons s states ih =>
    obtain ⟨i, state⟩ := s
    rw [List.forall_mem_cons] at h
    obtain ⟨⟨progress, block, hprogress, hblock, hreplayed⟩, hrest⟩ := h
    rw [List.map_cons, List.nodup_cons] at hnodup
    have hothers : ∀ s ∈ states, (content.set i (progress.shown parse))[s.1]? = content[s.1]? := by
      intro s hs
      rw [List.getElem?_set_ne]
      rintro rfl
      exact hnodup.1 (List.mem_map.mpr ⟨s, hs, rfl⟩)
    obtain ⟨content', hfold, hcontent'⟩ := ih (content.set i (progress.shown parse)) hnodup.2
      fun s hs => by rw [hothers s hs]; exact hrest s hs
    refine ⟨content', ?_, fun k => ?_⟩
    · rw [List.foldlM_cons, settleCall_ok hblock hreplayed]
      exact hfold
    · rw [hcontent', List.map_cons]
      by_cases hk : i = k
      · subst hk
        rw [if_neg hnodup.1, if_pos List.mem_cons_self, hprogress,
          List.getElem?_set_self (List.getElem?_eq_some_iff.mp hblock).1]
        rfl
      · rw [List.getElem?_set_ne hk]
        simp only [List.mem_cons, Ne.symm hk, false_or]

end

section

variable {last ph ph' : Phase} {message : AssistantMessage} {e : AssistantMessageFrameEncoder} {r : Reducer}
  {content : List Block}

/-- Once its calls are settled, the reducer's message is what the stream shows. -/
theorem Coupled.settled (h : Coupled parse last ph message e r content) :
    r.states.foldlM (Reducer.settleCall parse) { cloneStartMessage message with content } =
      .ok { cloneStartMessage message with content := ph.blocks.map (Progress.shown parse) } := by
  have hnodup : (r.states.map Prod.fst).Nodup := by
    rw [h.keys]
    exact List.nodup_range
  have hstates : ∀ s ∈ r.states, ∃ progress block, ph.blocks[s.1]? = some progress ∧
      content[s.1]? = some block ∧ Replayed parse progress block s.2 := by
    intro s hs
    have hmem : s.1 ∈ r.states.map Prod.fst := List.mem_map.mpr ⟨s, hs, rfl⟩
    rw [h.keys, List.mem_range] at hmem
    obtain ⟨block, state, hblock, hstate, hreplayed⟩ := h.blocks s.1 _ (List.getElem?_eq_getElem hmem)
    obtain rfl := Option.some.inj (((mem_iff_mapGet hnodup).mp hs).symm.trans hstate)
    exact ⟨_, block, List.getElem?_eq_getElem hmem, hblock, hreplayed⟩
  obtain ⟨content', hfold, hcontent'⟩ := settle_ok content r.states hnodup hstates
  have hshown : content' = ph.blocks.map (Progress.shown parse) := by
    apply List.ext_getElem?
    intro k
    rw [hcontent', h.keys, List.getElem?_map]
    split
    · rfl
    · rename_i hk
      rw [List.mem_range, not_lt] at hk
      rw [List.getElem?_eq_none (h.length ▸ hk), List.getElem?_eq_none hk]
      rfl
  rw [hfold, hshown]

/-! ## Streams -/

/-- The encoder and the reducer, before the start as behind it. -/
inductive Ready (parse : Str → Json) (last : Phase) : Phase → AssistantMessageFrameEncoder → Reducer → Prop
  | before (terminal : Bool) : Ready parse last ⟨none, [], terminal⟩ ⟨false, terminal, []⟩ Reducer.initial
  | behind {ph : Phase} {message : AssistantMessage} {e : AssistantMessageFrameEncoder} {r : Reducer}
      {content : List Block} (h : Coupled parse last ph message e r content) : Ready parse last ph e r

/-- Every event that fits is encoded, its frame is accepted, and both sides stay ready. -/
theorem Ready.advance (h : Ready parse last ph e r) {event : Event} (hadvance : ph.advance event = some ph')
    (hstarts : Starts last event) (hext : Extends ph' last) :
    ∃ frame e' r', e.encode parse event = .ok (frame, e') ∧
      frame.toList.foldlM (Reducer.reduceFrame parse) r = .ok r' ∧ Ready parse last ph' e' r' := by
  unfold Phase.advance at hadvance
  split at hadvance
  · cases hadvance
  · rename_i hopen
    rw [Bool.not_eq_true] at hopen
    cases h with
    | before terminal =>
      obtain rfl : terminal = false := hopen
      cases event with
      | start live =>
        obtain rfl := Option.some.inj hadvance
        have hcoupled : Coupled parse last ⟨some live, [], false⟩ live ⟨true, false, []⟩
            ⟨some (cloneStartMessage live), none, []⟩ [] :=
          ⟨rfl, rfl, rfl, fun i => by simp, rfl, rfl, rfl, by simp, by simp, by simp⟩
        exact ⟨some (.start (cloneStartMessage live)), _, _, rfl, rfl, .behind hcoupled⟩
      | error =>
        obtain rfl := Option.some.inj hadvance
        exact ⟨none, ⟨false, true, []⟩, Reducer.initial, rfl, rfl, .before true⟩
      | _ => cases hadvance
    | @behind _ message _ _ content h =>
      have hterminal := h.terminal.trans hopen
      rw [h.first] at hadvance
      have hend : ∀ {ph'' : Phase}, ph'' = { ph with message := some message, terminal := true } →
          Ready parse last ph'' { e with terminal := true } r := by
        rintro _ rfl
        rw [← h.first]
        exact .behind ⟨h.first, h.started, rfl, h.encoder, h.reduced, h.length, h.keys, h.blocks, h.bound,
          h.seen⟩
      have hblock : ph.advanceBlock event = some ph' → e.encode parse event = e.encodeBlock parse event →
          ∃ frame e' r', e.encode parse event = .ok (frame, e') ∧
            frame.toList.foldlM (Reducer.reduceFrame parse) r = .ok r' ∧ Ready parse last ph' e' r' := by
        intro hadvance hencode
        obtain ⟨frame, e', r', content', hresult, hreduce, hcoupled⟩ := h.step hadvance hstarts hext
        exact ⟨frame, e', r', hencode.trans hresult, hreduce, .behind hcoupled⟩
      cases event with
      | start live => cases hadvance
      | done =>
        refine ⟨none, { e with terminal := true }, r, ?_, rfl, hend (Option.some.inj hadvance).symm⟩
        simp [encode, hterminal, h.started]
      | error =>
        refine ⟨none, { e with terminal := true }, r, ?_, rfl, hend (Option.some.inj hadvance).symm⟩
        simp [encode, hterminal]
      | _ => exact hblock hadvance (by simp [encode, hterminal, h.started])

/-- Every run of events that fit is encoded, its frames are accepted, and both sides stay ready. -/
theorem Ready.run (h : Ready parse last ph e r) {events : List Event} (hrun : ph.run events = some ph')
    (hstarts : ∀ event ∈ events, Starts last event) (hext : Extends ph' last) :
    ∃ frames e' r', e.encodeAll parse events = .ok (frames, e') ∧
      frames.foldlM (Reducer.reduceFrame parse) r = .ok r' ∧ Ready parse last ph' e' r' := by
  induction events generalizing ph e r with
  | nil =>
    obtain rfl := Option.some.inj hrun
    exact ⟨[], e, r, rfl, rfl, h⟩
  | cons event events ih =>
    obtain ⟨ph₁, hadvance, hrun⟩ := Option.bind_eq_some_iff.mp hrun
    rw [List.forall_mem_cons] at hstarts
    obtain ⟨frame, e₁, r₁, hencode, hreduce, h₁⟩ :=
      h.advance hadvance hstarts.1 ((Extends.run hrun).trans hext)
    obtain ⟨frames, e', r', hencode', hreduce', h'⟩ := ih h₁ hrun hstarts.2
    refine ⟨frame.toList ++ frames, e', r', ?_, ?_, h'⟩
    · refine bind_ok.mpr ⟨_, hencode, ?_⟩
      exact bind_ok.mpr ⟨_, hencode', rfl⟩
    · rw [List.foldlM_append, hreduce]
      exact hreduce'

theorem Ready.reduced (h : Ready parse last ph e r) :
    (match r.message with
      | none => (.ok none : Except Str (Option AssistantMessage))
      | some message => do
        let message ← r.states.foldlM (Reducer.settleCall parse) message
        .ok (some message)) = .ok (ph.shown parse) := by
  cases h with
  | before terminal => rfl
  | behind h =>
    simp only [h.reduced, h.settled, Phase.shown, h.first]
    rfl

/-- A start event begins the block that it shows. -/
theorem exists_begun {event : Event} {i : Nat} {live : AssistantMessage}
    (hbegins : event.begins? = some (i, live)) (hadvance : ph.advance event = some ph') :
    ∃ block, live.content[i]? = some block ∧ ph'.blocks[i]? = some ⟨block, [], none⟩ := by
  have hadd : ∀ {block : Block}, ph.begin i block = some ph' → ph'.blocks[i]? = some ⟨block, [], none⟩ := by
    intro block hbegin
    obtain ⟨rfl, rfl⟩ := begin_eq_some hbegin
    exact List.getElem?_concat_length
  have hblock : ph.advanceBlock event = some ph' := by
    unfold Phase.advance at hadvance
    split at hadvance
    · cases hadvance
    · cases event with
      | textStart | thinkingStart | toolcallStart =>
        cases hmessage : ph.message with
        | none =>
          rw [hmessage] at hadvance
          cases hadvance
        | some message =>
          rw [hmessage] at hadvance
          exact hadvance
      | _ => cases hbegins
  cases event with
  | textStart | thinkingStart | toolcallStart =>
    obtain ⟨rfl, rfl⟩ := Prod.mk.inj (Option.some.inj hbegins)
    rw [Phase.advanceBlock] at hblock
    split at hblock
    · rename_i hget
      exact ⟨_, hget, hadd hblock⟩
    · cases hblock
  | _ => cases hbegins

theorem run_take {events : List Event} (hrun : ph.run events = some ph') (n : Nat) :
    ∃ ph₁, ph.run (events.take n) = some ph₁ ∧ ph₁.run (events.drop n) = some ph' := by
  rw [← List.take_append_drop n events, run_append] at hrun
  exact Option.bind_eq_some_iff.mp hrun

/-- What a start shows is a part of what is sent, however late it is encoded. -/
theorem Scheduled.starts {events : List Event} (h : Scheduled events last) :
    ∀ event ∈ events, Starts last event := by
  intro event hevent i live hbegins
  obtain ⟨k, hk⟩ := List.mem_iff_getElem?.mp hevent
  have hlive : live ∈ event.live? := by
    cases event with
    | textStart | thinkingStart | toolcallStart =>
      obtain ⟨rfl, rfl⟩ := Prod.mk.inj (Option.some.inj hbegins)
      rfl
    | _ => cases hbegins
  obtain ⟨n, hn, hreflects⟩ := h.live k event hk live hlive
  obtain ⟨phₙ, hphₙ, hrest⟩ := run_take h.run n
  obtain ⟨hlen, hblocks⟩ := hreflects phₙ hphₙ
  refine ⟨hlen, fun block hblock text htext => ?_⟩
  -- The block has been begun by the event itself, which is among those reflected.
  obtain ⟨progress, hprogress⟩ : ∃ progress, phₙ.blocks[i]? = some progress := by
    have hsplit : events.take n = events.take k ++ event :: (events.take n).drop (k + 1) := by
      have hget : (events.take n)[k]? = some event := by rw [List.getElem?_take_of_lt hn]; exact hk
      obtain ⟨hlt, heq⟩ := List.getElem?_eq_some_iff.mp hget
      rw [← heq, ← List.drop_eq_getElem_cons hlt]
      conv_lhs => rw [← List.take_append_drop k (events.take n), List.take_take, min_eq_left hn.le]
    rw [hsplit, run_append] at hphₙ
    obtain ⟨ph₁, -, hrun⟩ := Option.bind_eq_some_iff.mp hphₙ
    obtain ⟨ph₂, hadvance, hrun⟩ := Option.bind_eq_some_iff.mp hrun
    obtain ⟨begun, -, hbegun⟩ := exists_begun hbegins hadvance
    obtain ⟨progress, hprogress, -⟩ := Extends.run hrun i _ hbegun
    exact ⟨progress, hprogress⟩
  obtain ⟨shown, hshown, -, htexts⟩ := hblocks i progress hprogress
  obtain rfl := Option.some.inj (hblock.symm.trans hshown)
  obtain ⟨progress', hprogress', rest, hdeltas⟩ := Extends.run hrest i progress hprogress
  refine ⟨progress', hprogress', ?_⟩
  rw [htexts text htext, ← hdeltas, List.flatten_append]
  exact List.prefix_append _ _

/-- However late the events of a stream are encoded, the frames of the first of them are reduced to what
they show: a finished block as its end event has it, a text as the longer of what its start saw and its
deltas, a tool call with the arguments at its start until its deltas have come to these, and with the parse
of all its deltas from then on. -/
theorem replay_rebuilds (parse : Str → Json) {events : List Event} {last : Phase}
    (h : Scheduled events last) (k : Nat) :
    (∃ ph frames e, Phase.initial.run (events.take k) = some ph ∧
      encodeAll parse initial (events.take k) = .ok (frames, e) ∧
        reduceAssistantMessageFrames parse frames = .ok (ph.shown parse)) ∧
      ∀ (arguments : Json) (deltas : List Str),
        (toolArguments parse arguments deltas = arguments ∨
          toolArguments parse arguments deltas = parse deltas.flatten ∧
            ∃ j, Reached parse arguments (parse (deltas.take j).flatten)) ∧
        ∀ j, parse (deltas.take j).flatten = arguments →
          toolArguments parse arguments deltas = parse deltas.flatten := by
  obtain ⟨ph, hrun, hrest⟩ := run_take h.run k
  have hstarts : ∀ event ∈ events.take k, Starts last event := fun event hevent =>
    h.starts event (List.mem_of_mem_take hevent)
  have hinitial : Ready parse last Phase.initial initial Reducer.initial := .before false
  obtain ⟨frames, e, r, hencode, hreduce, hready⟩ := hinitial.run hrun hstarts (Extends.run hrest)
  refine ⟨⟨ph, frames, e, hrun, hencode, bind_ok.mpr ⟨r, hreduce, hready.reduced⟩⟩, fun arguments deltas => ?_⟩
  exact ⟨toolArguments_eq_or arguments deltas, fun _ => toolArguments_of_parse⟩

end

/-! A text and a tool call: when their starts are encoded, the shared message has the text whole and the
arguments as they are behind the first of two deltas. -/

def sampleArguments (value : Str) : Json := .obj [(lit "value", .str value)]

def sampleDelta : Str := lit "\x7b\"value\":\"a"

/-- What the parser of streamed JSON makes of the two deltas, of the first, and of none. -/
def sampleParse (json : Str) : Json :=
  if json = [] then .obj []
  else if json = sampleDelta ++ lit "b" then sampleArguments (lit "ab")
  else sampleArguments (lit "a")

def sampleCall : ToolCall := ⟨lit "call", lit "bash", sampleArguments (lit "a"), none, none⟩

def sampleLive : AssistantMessage :=
  { content := [.text ⟨lit "ab", none⟩, .toolCall sampleCall], api := lit "test-api"
    provider := lit "test-provider", model := lit "test-model", responseModel := none, responseId := none
    providerThinkingLevel := none, diagnostics := none, usage := .null, stopReason := .pending
    timestamp := .nan }

def samples : List Event :=
  [.start sampleLive, .textStart 0 sampleLive, .textDelta 0 (lit "a"), .textDelta 0 (lit "b"),
    .toolcallStart 1 sampleLive, .toolcallDelta 1 sampleDelta, .toolcallDelta 1 (lit "b")]

/-- A text and a tool call that stream in turn. -/
theorem scheduled_samples :
    Scheduled samples ⟨some sampleLive, [⟨.text ⟨lit "ab", none⟩, [lit "a", lit "b"], none⟩,
      ⟨.toolCall sampleCall, [sampleDelta, lit "b"], none⟩], false⟩ where
  run := rfl
  live := by
    have hreflects : ∀ ph, Phase.initial.run (samples.take 6) = some ph → Reflects ph sampleLive := by
      rintro _ ⟨⟩
      refine ⟨by decide, fun i progress hprogress => ?_⟩
      rcases i with _ | _ | i
      · obtain rfl := Option.some.inj hprogress
        exact ⟨_, rfl, rfl, fun text htext => (Option.some.inj htext).symm⟩
      · obtain rfl := Option.some.inj hprogress
        exact ⟨_, rfl, rfl, fun text htext => by cases htext⟩
      · exact absurd hprogress (by simp [Phase.initial])
    intro k event hk live hlive
    have hlive' : k < 6 ∧ live = sampleLive := by
      rcases k with _ | _ | _ | _ | _ | _ | _ | k
      · exact ⟨by decide, Option.some.inj (Option.some.inj hk ▸ hlive).symm⟩
      · exact ⟨by decide, Option.some.inj (Option.some.inj hk ▸ hlive).symm⟩
      · exact absurd (Option.some.inj hk ▸ hlive) (by simp [Event.live?])
      · exact absurd (Option.some.inj hk ▸ hlive) (by simp [Event.live?])
      · exact ⟨by decide, Option.some.inj (Option.some.inj hk ▸ hlive).symm⟩
      · exact absurd (Option.some.inj hk ▸ hlive) (by simp [Event.live?])
      · exact absurd (Option.some.inj hk ▸ hlive) (by simp [Event.live?])
      · cases hk
    exact ⟨6, hlive'.1, hlive'.2 ▸ hreflects⟩

/-- Both deltas are encoded; the start of the tool call had seen the first. -/
theorem replay_rebuilds_sample : ∃ frames e, encodeAll sampleParse initial samples = .ok (frames, e) ∧
    reduceAssistantMessageFrames sampleParse frames = .ok (some
      { cloneStartMessage sampleLive with
        content := [.text ⟨lit "ab", none⟩,
          .toolCall { sampleCall with arguments := sampleArguments (lit "ab") }] }) := by
  obtain ⟨⟨ph, frames, e, hrun, hencode, hreduce⟩, -⟩ := replay_rebuilds sampleParse scheduled_samples 7
  obtain rfl := Option.some.inj (scheduled_samples.run.symm.trans hrun)
  exact ⟨frames, e, hencode, hreduce⟩

end Frames
