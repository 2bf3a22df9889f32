import Mathlib.Data.List.TakeWhile
import ContextCompaction.Context.Compaction
import ContextCompaction.Context.RangeLaws

/-!
# What a compaction replaces

* `orderToolResults_cut`: where no result of earlier calls follows, results are ordered apart.
* `deriveRange_cut`: under a head marker that names an entry of the context, the entries from that one on
  contribute as before.
* `selectCut_spec`: a compaction replaces a prefix of the context.
-/

namespace Context

open Js Sequences Store

/-! ## Results around the cut -/

/-- The calls of the last assistant message. -/
def lastCalls (messages : List Message) : List Str := (messages.reverse.findSome? Message.calls?).getD []

theorem precedingCalls_reverse (contributions : List (List Message)) :
    precedingCalls contributions.reverse = lastCalls contributions.flatten := by
  unfold precedingCalls lastCalls
  congr 1
  induction contributions with
  | nil => rfl
  | cons contribution rest ih =>
    rw [List.reverse_cons, List.findSome?_append, ih, List.flatten_cons, List.reverse_append,
      List.findSome?_append, List.findSome?_singleton]

theorem calls?_isSome (message : Message) : message.calls?.isSome = message.isAssistant := by
  cases message <;> rfl

/-- Without an assistant message there are no calls. -/
theorem findSome?_calls? {messages : List Message} (h : ∀ m ∈ messages, m.isAssistant = false) :
    messages.findSome? Message.calls? = none := by
  refine List.findSome?_eq_none_iff.mpr fun m hm => ?_
  rw [← Option.not_isSome_iff_eq_none, calls?_isSome, h m hm]
  exact Bool.false_ne_true

theorem lastCalls_cons (message : Message) (rest : List Message) :
    lastCalls (message :: rest) =
      ((rest.reverse.findSome? Message.calls?).or message.calls?).getD [] := by
  rw [lastCalls, List.reverse_cons, List.findSome?_append, List.findSome?_singleton]

/-- No result of the calls is among the messages before the next assistant message. -/
theorem find?_answers {calls : List Str} {messages : List Message} {call : ToolCall}
    (h : resultFollows calls messages = false) (hcall : call.id ∈ calls) :
    (messages.takeWhile (!·.isAssistant)).find? (·.answers call) = none := by
  induction messages with
  | nil => rfl
  | cons message rest ih =>
    cases message with
    | assistant message => rfl
    | toolResult result =>
      rw [resultFollows, Bool.or_eq_false_iff, decide_eq_false_iff_not] at h
      have hne : result.toolCallId ≠ call.id := fun heq => h.1 (heq ▸ hcall)
      rw [List.takeWhile_cons_of_pos rfl, List.find?_cons_of_neg (by simpa [Message.answers] using hne)]
      exact ih h.2
    | system message => exact ih h
    | user message => exact ih h

theorem resultFollows_nil (messages : List Message) : resultFollows [] messages = false := by
  induction messages with
  | nil => rfl
  | cons message rest ih =>
    cases message with
    | assistant message => rfl
    | toolResult result => rw [resultFollows, ih]; simp
    | system message => exact ih
    | user message => exact ih

/-- The result of a call is sought before the cut alone. -/
theorem resultOf_cut {message : AssistantMessage} {rest after : List Message} {call : ToolCall}
    (h : resultFollows (lastCalls (.assistant message :: rest)) after = false)
    (hcall : call ∈ message.content.filterMap Block.toolCall?) (timestamp : Number) :
    resultOf (rest ++ after) timestamp call = resultOf rest timestamp call := by
  unfold resultOf
  rw [List.takeWhile_append]
  split_ifs with hall
  · -- No assistant message follows in the first part, so the last calls are those of this one.
    have hself : rest.takeWhile (!·.isAssistant) = rest :=
      (List.takeWhile_sublist _).eq_of_length hall
    have hnone : ∀ m ∈ rest.reverse, m.isAssistant = false := by
      intro m hm
      simpa using List.takeWhile_eq_self_iff.mp hself m (List.mem_reverse.mp hm)
    rw [lastCalls_cons, findSome?_calls? hnone, Option.none_or] at h
    have hid : call.id ∈ ((message.content.filterMap Block.toolCall?).map ToolCall.id) :=
      List.mem_map_of_mem hcall
    rw [List.find?_append, find?_answers h hid, Option.or_none, hself]
  · rfl

/-- No result of the last calls follows: results are ordered apart. -/
theorem orderToolResults_cut {before after : List Message}
    (h : resultFollows (lastCalls before) after = false) :
    orderToolResults (before ++ after) = orderToolResults before ++ orderToolResults after := by
  induction before with
  | nil => rfl
  | cons message rest ih =>
    have hrest : resultFollows (lastCalls rest) after = false := by
      rw [lastCalls_cons] at h
      unfold lastCalls
      cases hlast : rest.reverse.findSome? Message.calls? with
      | some calls => rwa [hlast] at h
      | none => exact resultFollows_nil after
    cases message with
    | toolResult message => exact ih hrest
    | assistant message =>
      have hresults : (message.content.filterMap Block.toolCall?).map
          (resultOf (rest ++ after) message.timestamp) =
            (message.content.filterMap Block.toolCall?).map (resultOf rest message.timestamp) :=
        List.map_congr_left fun call hcall => resultOf_cut h hcall message.timestamp
      rw [List.cons_append, orderToolResults, orderToolResults, ih hrest, hresults]
      simp only [List.cons_append, List.append_assoc]
    | system message =>
      change Message.system message :: orderToolResults (rest ++ after) = _
      rw [ih hrest]
      rfl
    | user message =>
      change Message.user message :: orderToolResults (rest ++ after) = _
      rw [ih hrest]
      rfl

/-- At a candidate results are ordered apart. -/
theorem orderToolResults_candidate {contributions : List (List Message)} {index : Nat}
    (h : isCandidate contributions index = true) :
    orderToolResults (contributions.take index).flatten ++
        orderToolResults (contributions.drop index).flatten =
      orderToolResults contributions.flatten := by
  have hparts : contributions.flatten =
      (contributions.take index).flatten ++ (contributions.drop index).flatten := by
    rw [← List.flatten_append, List.take_append_drop]
  rw [hparts]
  obtain ⟨contribution, hcontribution⟩ : ∃ contribution, contributions[index]? = some contribution := by
    cases hget : contributions[index]? with
    | none => simp [isCandidate, hget] at h
    | some contribution => exact ⟨contribution, rfl⟩
  have hdrop : contributions.drop index = contribution :: contributions.drop (index + 1) := by
    obtain ⟨hlt, rfl⟩ := List.getElem?_eq_some_iff.mp hcontribution
    exact List.drop_eq_getElem_cons hlt
  unfold isCandidate at h
  rw [hcontribution, Option.bind_some] at h
  cases hfirst : contribution.head? with
  | none => simp [hfirst] at h
  | some first =>
    rw [hfirst] at h
    have hhead : (contributions.drop index).flatten.head? = some first := by
      rw [hdrop, List.flatten_cons, List.head?_append, hfirst, Option.some_or]
    cases first with
    | assistant message =>
      refine (segmented_orderToolResults _ _ fun y hy => ?_).symm
      rw [hhead] at hy
      exact Option.some.inj hy ▸ rfl
    | user message =>
      dsimp only at h
      rw [precedingCalls_reverse, Bool.or_eq_true, Bool.not_eq_true', List.isEmpty_iff] at h
      refine (orderToolResults_cut ?_).symm
      rcases h with hnone | hresults
      · rw [hnone]
        exact resultFollows_nil _
      · exact hresults
    | system message => cases h
    | toolResult message => cases h

/-! ## The cut -/

/-- A cut is a candidate behind the head marker, and there is something before it. -/
theorem selectCut_candidate {view : ContextView} {keepRecentTokens : Number} {cut : Nat}
    (h : selectCut view keepRecentTokens = some cut) :
    view.start ≤ cut ∧ cut < view.contributions.length ∧ isCandidate view.contributions cut = true ∧
      ∃ contribution ∈ (view.contributions.take cut).drop view.start, contribution ≠ [] := by
  unfold selectCut at h
  simp only [Option.bind_eq_bind, Option.bind_eq_some_iff] at h
  obtain ⟨index, hindex, candidate, hcandidate, hcut⟩ := h
  split_ifs at hcut with hany
  obtain rfl := Option.some.inj hcut
  have hmem : candidate ∈ (List.range' view.start (view.contributions.length - view.start)).filter
      (isCandidate view.contributions) := by
    rcases Option.or_eq_some_iff.mp hcandidate with hfind | ⟨-, hlast⟩
    · exact List.mem_of_find?_eq_some hfind
    · exact List.mem_of_getLast? hlast
  obtain ⟨hrange, hcandidate⟩ := List.mem_filter.mp hmem
  rw [List.mem_range'_1] at hrange
  obtain ⟨contribution, hin, hne⟩ := List.any_eq_true.mp hany
  exact ⟨hrange.1, by omega, hcandidate, contribution, hin, by simpa using hne⟩

/-! ## The next context -/

variable {s s' : Store} {conversationId : ConversationId}

/-- An ordered list from one of its entries on. -/
theorem drop_eq_filter {l : List EntryRecord} (h : l.Pairwise fun e e' => e.id < e'.id) {i : Nat}
    {e : EntryRecord} (he : l[i]? = some e) : l.drop i = l.filter fun e' => e.id ≤ e'.id := by
  induction l generalizing i with
  | nil => cases he
  | cons x l ih =>
    obtain ⟨hlater, h⟩ := List.pairwise_cons.mp h
    cases i with
    | zero =>
      obtain rfl := Option.some.inj he
      symm
      refine List.filter_eq_self.mpr fun y hy => decide_eq_true ?_
      rcases List.mem_cons.mp hy with rfl | hy
      · exact Nat.le_refl _
      · exact Nat.le_of_lt (hlater y hy)
    | succ i =>
      have hmem : e ∈ l := List.mem_of_getElem? he
      rw [List.drop_succ_cons, List.filter_cons_of_neg (by simpa using hlater e hmem)]
      exact ih h he

/-- The edit of an entry, among entries the first of which edit earlier ones. -/
theorem mapGet_editsOf_append {before after : List EntryRecord} {id : EntryId}
    (h : ∀ e ∈ before, ∀ edit ∈ e.edits.getD [], edit.target ≠ id) :
    mapGet (editsOf (before ++ after)) id = mapGet (editsOf after) id := by
  unfold editsOf
  rw [mapGet_mapOf, mapGet_mapOf, List.flatMap_append, List.map_append, List.reverse_append,
    mapGet_append]
  have hnone : mapGet ((before.flatMap fun e => e.edits.getD []).map fun edit =>
      (edit.target, edit)).reverse id = none := by
    rw [mapGet_eq_none]
    intro hmem
    simp only [List.map_reverse, List.map_map, List.mem_reverse, List.mem_map, List.mem_flatMap] at hmem
    obtain ⟨edit, ⟨e, he, hedit⟩, rfl⟩ := hmem
    exact h e he edit hedit rfl
  rw [hnone, Option.or_none]

/-- An entry that no edit is for. -/
theorem mapGet_editsOf_none {entries : List EntryRecord} {id : EntryId}
    (h : ∀ e ∈ entries, ∀ edit ∈ e.edits.getD [], edit.target ≠ id) : mapGet (editsOf entries) id = none := by
  have hnone := @mapGet_editsOf_append entries [] id h
  rwa [List.append_nil] at hnone

/-- Edits come after the entries that they are for. -/
def EditsBack (entries : List EntryRecord) : Prop :=
  ∀ e ∈ entries, ∀ edit ∈ e.edits.getD [], edit.target < e.id

/-- The entries that have no head. -/
def headless (entries : List EntryRecord) : List EntryRecord := entries.filter fun e => e.head.isNone

theorem selectActive_eq {head : Option EntryRecord} {range : List EntryRecord}
    (h : head = none → ∀ e ∈ range, e.head = none) :
    selectActive head range = head.toList ++ headless range := by
  cases head with
  | none => exact (List.filter_eq_self.mpr fun e he => by rw [h rfl e he]; rfl).symm
  | some marker => rfl

/-- The contributions of a range, as its edits have them. -/
def contributionsOf (range active : List EntryRecord) : List (List Message) :=
  active.map fun e => contribute e ((mapGet (editsOf range) e.id).map ContextEdit.action)

/-- From one of its entries on, a context is that of the range from the entry on. -/
theorem contributions_drop {head : Option EntryRecord} {range : List EntryRecord} {cut : Nat}
    {firstKept : EntryRecord} (hordered : range.Pairwise fun e e' => e.id < e'.id) (hedits : EditsBack range)
    (hhead : head = none → ∀ e ∈ range, e.head = none) (hcut : head.toList.length ≤ cut)
    (hentry : (selectActive head range)[cut]? = some firstKept) :
    (contributionsOf range (selectActive head range)).drop cut =
      contributionsOf (range.filter fun e => firstKept.id ≤ e.id)
        (headless (range.filter fun e => firstKept.id ≤ e.id)) := by
  rw [selectActive_eq hhead, List.getElem?_append_right hcut] at hentry
  have hheadless : (headless range).Pairwise fun e e' => e.id < e'.id := hordered.sublist List.filter_sublist
  have hdrop : (selectActive head range).drop cut = (headless range).filter fun e => firstKept.id ≤ e.id := by
    rw [selectActive_eq hhead, List.drop_append, List.drop_eq_nil_of_le hcut, List.nil_append,
      drop_eq_filter hheadless hentry]
  obtain ⟨i, hi⟩ := List.getElem?_of_mem (List.mem_of_mem_filter (List.mem_of_getElem? hentry))
  have hrange := List.take_append_drop i range
  rw [drop_eq_filter hordered hi] at hrange
  -- What comes before the entry edits nothing from the entry on.
  have hbefore : ∀ e ∈ range.take i, e.id < firstKept.id := by
    intro e he
    have hfirst : firstKept ∈ range.filter fun e => firstKept.id ≤ e.id :=
      List.mem_filter.mpr ⟨List.mem_of_getElem? hi, decide_eq_true (Nat.le_refl _)⟩
    exact (List.pairwise_append.mp (hrange.symm ▸ hordered)).2.2 e he firstKept hfirst
  have hedit : ∀ e : EntryRecord, firstKept.id ≤ e.id → mapGet (editsOf range) e.id =
      mapGet (editsOf (range.filter fun e => firstKept.id ≤ e.id)) e.id := by
    intro e hle
    conv_lhs => rw [← hrange]
    refine mapGet_editsOf_append fun e' he' edit hedit heq => ?_
    have htarget := hedits e' (List.mem_of_mem_take he') edit hedit
    exact Nat.ne_of_lt ((htarget.trans (hbefore e' he')).trans_le hle) heq
  have hsame : (headless range).filter (fun e => firstKept.id ≤ e.id) =
      headless (range.filter fun e => firstKept.id ≤ e.id) := by
    rw [headless, headless, List.filter_filter, List.filter_filter]
    exact List.filter_congr fun e _ => Bool.and_comm _ _
  rw [contributionsOf, ← List.map_drop, hdrop, contributionsOf, hsame]
  refine List.map_congr_left fun e he => ?_
  rw [hedit e (of_decide_eq_true (List.mem_filter.mp (List.mem_of_mem_filter he)).2)]

/-- Behind a head marker for an entry come the contributions from that entry on, and those of later
entries. -/
theorem contributions_marker {summary : EntryRecord} {range before after : List EntryRecord}
    (hedits : EditsBack range) (hlater : ∀ e ∈ range, ∀ e' ∈ before ++ summary :: after, e.id < e'.id)
    (hplain : ∀ e ∈ before ++ summary :: after, e.edits = none) (hhead : summary.head.isSome)
    (hafter : ∀ e ∈ after, e.head = none) :
    contributionsOf (range ++ (before ++ summary :: after))
        (selectActive (some summary) (range ++ (before ++ summary :: after))) =
      contribute summary none :: (contributionsOf range (headless range) ++
        (headless before ++ after).map fun e => contribute e none) := by
  have hsame : editsOf (range ++ (before ++ summary :: after)) = editsOf range := editsOf_append hplain
  -- No edit is for a later entry.
  have hnew : ∀ e ∈ before ++ summary :: after, mapGet (editsOf range) e.id = none := by
    intro e he
    refine mapGet_editsOf_none fun e' he' edit hedit heq => ?_
    exact Nat.ne_of_lt ((hedits e' he' edit hedit).trans (hlater e' he' e he)) heq
  have hactive : selectActive (some summary) (range ++ (before ++ summary :: after)) =
      summary :: (headless range ++ (headless before ++ after)) := by
    have hself : after.filter (fun e => e.head.isNone) = after :=
      List.filter_eq_self.mpr fun e he => by rw [hafter e he]; rfl
    rw [selectActive, List.filter_append, List.filter_append, List.filter_cons_of_neg (by simpa using Option.isSome_iff_ne_none.mp hhead),
      hself]
    rfl
  rw [contributionsOf, hactive, hsame, List.map_cons, List.map_append, contributionsOf,
    hnew summary (by simp)]
  refine congrArg₂ List.cons rfl (congrArg₂ _ rfl (List.map_congr_left fun e he => ?_))
  rw [hnew e]
  · rfl
  · rcases List.mem_append.mp he with he | he
    · exact List.mem_append_left _ (List.mem_of_mem_filter he)
    · exact List.mem_append_right _ (List.mem_cons_of_mem _ he)

/-- What a conversation sees up to a cut-off. -/
def Store.upTo (s : Store) (conversationId : ConversationId) (at_ : Option EntryId) : List EntryRecord :=
  (s.visible conversationId).filter (inRange none at_)

theorem le_newest {newest : EntryRecord} (h : (s.visible conversationId).getLast? = some newest) :
    ∀ e ∈ s.visible conversationId, e.id ≤ newest.id := by
  intro e he
  obtain ⟨rest, hrest⟩ := List.getLast?_eq_some_iff.mp h
  rw [hrest] at he
  rcases List.mem_append.mp he with he | he
  · exact Nat.le_of_lt ((List.pairwise_append.mp (hrest ▸ visible_ordered s conversationId)).2.2
      e he newest (List.mem_singleton_self _))
  · exact Nat.le_of_eq (congrArg EntryRecord.id (List.mem_singleton.mp he))

/-- A context that is not empty goes up to a visible entry. -/
theorem readContext_ok {at_ : Option EntryId} {view : ContextView}
    (h : readContext s conversationId at_ = .ok view) :
    view = emptyView ∨ ∃ e ∈ s.visible conversationId,
      s.upTo conversationId at_ = s.upTo conversationId (some e.id) ∧
        view = (deriveRange ⟨markerAt s conversationId e.id, e.id⟩
          (rangeOf s conversationId ⟨markerAt s conversationId e.id, e.id⟩)).view := by
  have hderive : ∀ e ∈ s.visible conversationId,
      captureContextBounds s conversationId at_ = .ok (some ⟨markerAt s conversationId e.id, e.id⟩) →
        view = (deriveRange ⟨markerAt s conversationId e.id, e.id⟩
          (rangeOf s conversationId ⟨markerAt s conversationId e.id, e.id⟩)).view := by
    intro e he hcapture
    have hscan : scanBounds s conversationId ⟨markerAt s conversationId e.id, e.id⟩ = .ok _ :=
      scanBounds_eq .refl (known_of_visible he) ⟨e, he, rfl⟩
    rw [readContext, hcapture] at h
    simp only [bind, Except.bind, hscan] at h
    exact (Except.ok.inj h).symm
  cases hknown : (s.conversation? conversationId).isSome with
  | false =>
    rw [readContext, captureContextBounds_unknown (by simpa using hknown)] at h
    cases h
  | true =>
    cases at_ with
    | none =>
      have hcapture := captureContextBounds_newest hknown
      cases hlast : (s.visible conversationId).getLast? with
      | none =>
        rw [readContext, hcapture, hlast] at h
        exact .inl (Except.ok.inj h).symm
      | some newest =>
        have hmem := List.mem_of_getLast? hlast
        rw [hlast] at hcapture
        refine .inr ⟨newest, hmem, ?_, hderive newest hmem hcapture⟩
        refine List.filter_congr fun e he => ?_
        simp [inRange, le_newest hlast e he]
    | some tail =>
      by_cases hvisible : ∃ e ∈ s.visible conversationId, e.id = tail
      · obtain ⟨e, he, rfl⟩ := hvisible
        exact .inr ⟨e, he, rfl, hderive e he (captureContextBounds_at he)⟩
      · obtain ⟨found, hentry, hnone⟩ := entry_eq tail hknown
        obtain rfl := hnone.mpr fun e he heq => hvisible ⟨e, he, heq⟩
        rw [readContext, captureContextBounds] at h
        simp only [hentry, bind, Except.bind] at h
        cases h

/-- The bounds of a range are those of its entries. -/
theorem rangeOf_eq (s : Store) (conversationId : ConversationId) (head : Option EntryRecord)
    (tail : EntryId) : rangeOf s conversationId ⟨head, tail⟩ =
      (s.upTo conversationId (some tail)).filter (inRange (head.bind EntryRecord.head) none) := by
  rw [rangeOf, Store.upTo, List.filter_filter]
  refine List.filter_congr fun e _ => ?_
  simp [inRange]

theorem headless_of_markerAt {tail : EntryId} (h : markerAt s conversationId tail = none) :
    ∀ e ∈ s.upTo conversationId (some tail), e.head = none := by
  intro e he
  obtain ⟨hvisible, hin⟩ := List.mem_filter.mp he
  have hnone := List.filter_eq_nil_iff.mp (List.getLast?_eq_none_iff.mp h) e hvisible
  simp only [inRange, Option.getD_none, Option.all_some, Bool.and_eq_true, decide_eq_true_eq] at hin
  simpa [hin.2] using hnone

/-- A read after a head marker for a visible entry, and entries around it. -/
theorem readContext_marker {at_ : Option EntryId} {summary firstKept : EntryRecord}
    {before after : List EntryRecord} (hedits : EditsBack (s'.visible conversationId))
    (hvisible : s'.visible conversationId = s.upTo conversationId at_ ++ (before ++ summary :: after))
    (hhead : summary.head = some firstKept.id) (hkept : firstKept ∈ s.upTo conversationId at_)
    (hplain : ∀ e ∈ before ++ summary :: after, e.edits = none) (hafter : ∀ e ∈ after, e.head = none) :
    ∃ view, readContext s' conversationId none = .ok view ∧ view.contributions =
      contribute summary none :: (contributionsOf
          ((s.upTo conversationId at_).filter fun e => firstKept.id ≤ e.id)
          (headless ((s.upTo conversationId at_).filter fun e => firstKept.id ≤ e.id)) ++
        (headless before ++ after).map fun e => contribute e none) := by
  have hordered := hvisible ▸ visible_ordered s' conversationId
  obtain ⟨-, hlaterOrdered, hlater⟩ := List.pairwise_append.mp hordered
  have hsummary : summary ∈ s'.visible conversationId := by simp [hvisible]
  have hknown := known_of_visible hsummary
  obtain ⟨newest, hnewest⟩ : ∃ newest, (s'.visible conversationId).getLast? = some newest := by
    rw [← Option.isSome_iff_exists, List.getLast?_isSome]
    exact List.ne_nil_of_mem hsummary
  have hmarker : markerAt s' conversationId newest.id = some summary := by
    refine markerAt_eq_some hsummary (le_newest hnewest summary hsummary) (by rw [hhead]; rfl)
      fun m hm hlt _ => ?_
    rw [hvisible] at hm
    rcases List.mem_append.mp hm with hm | hm
    · exact absurd hlt (Nat.lt_asymm (hlater m hm summary (by simp)))
    · rcases List.mem_append.mp hm with hm | hm
      · exact absurd hlt (Nat.lt_asymm ((List.pairwise_append.mp hlaterOrdered).2.2 m hm summary (by simp)))
      · rcases List.mem_cons.mp hm with rfl | hm
        · exact absurd hlt (Nat.lt_irrefl _)
        · exact hafter m hm
  have hrange : rangeOf s' conversationId ⟨some summary, newest.id⟩ =
      (s.upTo conversationId at_).filter (fun e => firstKept.id ≤ e.id) ++ (before ++ summary :: after) := by
    have hself : (before ++ summary :: after).filter (fun e => firstKept.id ≤ e.id) =
        before ++ summary :: after :=
      List.filter_eq_self.mpr fun e he => decide_eq_true (Nat.le_of_lt (hlater firstKept hkept e he))
    rw [rangeOf, ← hself, ← List.filter_append, ← hvisible]
    refine List.filter_congr fun e he => ?_
    simp [inRange, hhead, le_newest hnewest e he]
  have hcapture := captureContextBounds_newest hknown
  rw [hnewest, Option.map_some, hmarker] at hcapture
  have hscan : scanBounds s' conversationId ⟨some summary, newest.id⟩ = .ok _ :=
    scanBounds_eq .refl hknown ⟨newest, List.mem_of_getLast? hnewest, rfl⟩
  have hread : readContext s' conversationId none = .ok (deriveRange ⟨some summary, newest.id⟩
      ((s.upTo conversationId at_).filter (fun e => firstKept.id ≤ e.id) ++
        (before ++ summary :: after))).view := by
    rw [readContext, hcapture]
    simp only [bind, Except.bind, hscan, hrange]
    rfl
  refine ⟨_, hread, contributions_marker (fun e he => hedits e ?_)
    (fun e he => hlater e (List.mem_of_mem_filter he)) hplain (by rw [hhead]; rfl) hafter⟩
  rw [hvisible]
  exact List.mem_append_left _ (List.mem_of_mem_filter he)

theorem deriveRange_start (bounds : ContextBounds) (entries : List EntryRecord) :
    (deriveRange bounds entries).view.start = bounds.head.toList.length := by
  rw [ContextView.start]
  change (if bounds.head.isNone = true then 0 else 1) = _
  cases bounds.head <;> rfl

/-- A compaction replaces a prefix of the context. Results are ordered apart around the cut, something is
summarized, and with the summary the entries from the cut on contribute as before, in front of later
ones. -/
theorem selectCut_spec {at_ : Option EntryId} {view : ContextView} {keepRecentTokens : Number} {cut : Nat}
    (hview : readContext s conversationId at_ = .ok view) (hcut : selectCut view keepRecentTokens = some cut) :
    summarizedMessages view cut ++ orderToolResults (view.contributions.drop cut).flatten =
        orderToolResults view.contributions.flatten ∧
      (∃ contribution ∈ (view.contributions.take cut).drop view.start, contribution ≠ []) ∧
      ∃ firstKept, view.entries[cut]? = some firstKept ∧
        ∀ (s' : Store) (before after : List EntryRecord) (summary : EntryRecord),
          s'.visible conversationId = s.upTo conversationId at_ ++ (before ++ summary :: after) →
          EditsBack (s'.visible conversationId) → summary.head = some firstKept.id →
          (∀ e ∈ before ++ summary :: after, e.edits = none) → (∀ e ∈ after, e.head = none) →
          ∃ view', readContext s' conversationId none = .ok view' ∧ view'.contributions =
            contribute summary none :: (view.contributions.drop cut ++
              (headless before ++ after).map fun e => contribute e none) := by
  obtain ⟨hstart, hlength, hcandidate, hsummarized⟩ := selectCut_candidate hcut
  refine ⟨orderToolResults_candidate hcandidate, hsummarized, ?_⟩
  obtain rfl | ⟨e, he, hupTo, rfl⟩ := readContext_ok hview
  · exact absurd hlength (Nat.not_lt_zero _)
  generalize hmarker : markerAt s conversationId e.id = head at hstart hlength
  rw [deriveRange_start] at hstart
  generalize hrange : rangeOf s conversationId ⟨head, e.id⟩ = range at hstart hlength
  have hcontributions : (deriveRange ⟨head, e.id⟩ range).view.contributions =
      contributionsOf range (selectActive head range) := rfl
  rw [hcontributions] at hlength ⊢
  rw [contributionsOf, List.length_map] at hlength
  obtain ⟨firstKept, hentry⟩ : ∃ firstKept, (selectActive head range)[cut]? = some firstKept :=
    ⟨_, List.getElem?_eq_getElem hlength⟩
  refine ⟨firstKept, hentry, fun s' before after summary hvisible hedits hhead hplain hafter => ?_⟩
  rw [rangeOf_eq, ← hupTo] at hrange
  have hheadless : head = none → ∀ x ∈ range, x.head = none := by
    rintro rfl x hx
    rw [← hrange, hupTo] at hx
    exact headless_of_markerAt hmarker x (List.mem_of_mem_filter hx)
  have hordered : range.Pairwise fun e e' => e.id < e'.id := by
    rw [← hrange]
    exact ((visible_ordered s conversationId).sublist List.filter_sublist).sublist List.filter_sublist
  have hback : EditsBack range := by
    intro x hx
    rw [← hrange] at hx
    refine hedits x ?_
    rw [hvisible]
    exact List.mem_append_left _ (List.mem_of_mem_filter hx)
  have hkept : firstKept ∈ range := by
    rw [selectActive_eq hheadless, List.getElem?_append_right hstart] at hentry
    exact List.mem_of_mem_filter (List.mem_of_getElem? hentry)
  -- The range from the cut on is what the conversation sees from there.
  have hfrom : range.filter (fun x => firstKept.id ≤ x.id) =
      (s.upTo conversationId at_).filter fun x => firstKept.id ≤ x.id := by
    rw [← hrange, List.filter_filter]
    refine List.filter_congr fun x _ => ?_
    rw [← hrange] at hkept
    have hlow := (List.mem_filter.mp hkept).2
    simp only [inRange, Option.all_none, Bool.and_true, decide_eq_true_eq] at hlow
    rw [Bool.and_eq_left_iff_imp]
    intro hle
    simpa [inRange] using Nat.le_trans hlow (of_decide_eq_true hle)
  rw [contributions_drop hordered hback hheadless hstart hentry, hfrom]
  refine readContext_marker hedits hvisible hhead ?_ hplain hafter
  rw [← hrange] at hkept
  exact List.mem_of_mem_filter hkept

/-! ## A turn that is summarized -/

/-- An entry of conversation 1 with one message. -/
def EntryRecord.saying (id : EntryId) (message : Message) (head : Option EntryId) : EntryRecord :=
  ⟨id, 1, lit "note", some [message], none, head, none, none⟩

def userSays (text : Str) : Message := .user (.obj [(lit "content", .str text)])

def assistantSays (text : Str) : Message :=
  .assistant ⟨[.other (.obj [(lit "type", .str (lit "text")), (lit "text", .str text)])], .stop, Number.ofNat 0, .obj []⟩

/-- A question and its answer. -/
def turnStore : Store :=
  (newStore.commitEntry
    (.saying 2 (userSays (lit "hi")) none) (by decide) ⟨⟨1, none⟩, by decide, rfl⟩).commitEntry
    (.saying 3 (assistantSays (lit "hello")) none) (by decide) ⟨⟨1, none⟩, by decide, rfl⟩

/-- The summary of the question. -/
def turnSummary : EntryRecord := .saying 4 (userSays (lit "greeted")) (some 3)

def summarizedStore : Store :=
  turnStore.commitEntry turnSummary (by decide) ⟨⟨1, none⟩, by decide, rfl⟩

/-- A new context. -/
def turnReset : EntryRecord := .saying 5 (userSays (lit "over")) (some 5)

/-- A new context is started behind the summary. -/
def resetStore : Store :=
  summarizedStore.commitEntry turnReset (by decide) ⟨⟨1, none⟩, by decide, rfl⟩

theorem ok_of_toOption {ε α : Type} {x : Except ε α} {a : α} (h : x.toOption = some a) : x = .ok a := by
  cases x with
  | error e => cases h
  | ok b => exact congrArg Except.ok (Option.some.inj h)

/-- A cut before the second turn, which leaves the first one out. -/
theorem turnStore_cut : ∃ view firstKept, readContext turnStore 1 none = .ok view ∧
    selectCut view (Number.ofNat 1) = some 1 ∧ view.entries[1]? = some firstKept ∧ firstKept.id = 3 ∧
      view.contributions.length = 2 := by
  have hread : (readContext turnStore 1 none).toOption.isSome = true := by decide +kernel
  obtain ⟨view, hview⟩ := Option.isSome_iff_exists.mp hread
  have hcut : ((readContext turnStore 1 none).toOption.bind fun view =>
      selectCut view (Number.ofNat 1)) = some 1 := by decide +kernel
  have hentry : ((readContext turnStore 1 none).toOption.bind fun view =>
      view.entries[1]?.map EntryRecord.id) = some 3 := by decide +kernel
  have hlength : ((readContext turnStore 1 none).toOption.map fun view =>
      view.contributions.length) = some 2 := by decide +kernel
  rw [hview] at hcut hentry hlength
  obtain ⟨firstKept, hfirst, hid⟩ := Option.map_eq_some_iff.mp hentry
  exact ⟨view, firstKept, ok_of_toOption hview, hcut, hfirst, hid, Option.some.inj hlength⟩

theorem editsBack_of_none {entries : List EntryRecord} (h : entries.all fun e => e.edits.isNone) :
    EditsBack entries := by
  intro e he edit hedit
  have hnone := List.all_eq_true.mp h e he
  rw [Option.isNone_iff_eq_none.mp hnone] at hedit
  exact absurd hedit List.not_mem_nil

/-- The answer is kept behind the summary. -/
theorem selectCut_spec_turn : ∃ view view', readContext turnStore 1 none = .ok view ∧
    readContext summarizedStore 1 none = .ok view' ∧
      view'.contributions = [userSays (lit "greeted")] :: view.contributions.drop 1 := by
  obtain ⟨view, firstKept, hview, hcut, hentry, hid, -⟩ := turnStore_cut
  obtain ⟨-, -, firstKept', hentry', hlater⟩ := selectCut_spec hview hcut
  obtain rfl := Option.some.inj (hentry.symm.trans hentry')
  obtain ⟨view', hview', hcontributions⟩ := hlater summarizedStore [] [] turnSummary rfl
    (editsBack_of_none (by decide +kernel)) (by rw [hid]; rfl) (by simp [turnSummary, EntryRecord.saying])
    (by simp)
  refine ⟨view, view', hview, hview', ?_⟩
  rw [hcontributions, show headless [] ++ [] = ([] : List EntryRecord) from rfl, List.map_nil, List.append_nil]
  rfl

/-- Behind the summary of the question a new context is started, and neither the summary nor the answer
is derived. -/
theorem contributions_reset : ∃ view firstKept view', readContext turnStore 1 none = .ok view ∧
    selectCut view (Number.ofNat 1) = some 1 ∧ view.entries[1]? = some firstKept ∧
    resetStore.visible 1 = turnStore.upTo 1 none ++ ([] ++ turnSummary :: [turnReset]) ∧
    EditsBack (resetStore.visible 1) ∧ turnSummary.head = some firstKept.id ∧
    (∀ e ∈ [] ++ turnSummary :: [turnReset], e.edits = none) ∧
    readContext resetStore 1 none = .ok view' ∧ view'.contributions ≠
      contribute turnSummary none :: (view.contributions.drop 1 ++
        [turnReset].map fun e => contribute e none) := by
  obtain ⟨view, firstKept, hview, hcut, hentry, hid, hlength⟩ := turnStore_cut
  have hread : (readContext resetStore 1 none).toOption.isSome = true := by decide +kernel
  obtain ⟨view', hview'⟩ := Option.isSome_iff_exists.mp hread
  have hone : ((readContext resetStore 1 none).toOption.map fun view =>
      view.contributions.length) = some 1 := by decide +kernel
  rw [hview'] at hone
  have hone : view'.contributions.length = 1 := Option.some.inj hone
  refine ⟨view, firstKept, view', hview, hcut, hentry, rfl, editsBack_of_none (by decide +kernel),
    by rw [hid]; rfl, by simp [turnSummary, turnReset, EntryRecord.saying], ok_of_toOption hview', fun heq => ?_⟩
  have hthree := congrArg List.length heq
  rw [hone, List.length_cons, List.length_append, List.length_drop, hlength] at hthree
  simp at hthree

end Context
