import ContextCompaction.Context.Ranges

/-!
# Reused ranges

* `Derived`: a kept range is the one that a read of the store derives; it stays so as the store grows.
* `extendRange_derived`: an extended range is again, if later entries have reached the marker's head.
* `reads_fresh_iff`: when every read that reuses a range shows what a read of its own does.
-/

namespace Context

open Js Sequences Store

variable {s s' : Store} {conversationId : ConversationId}

/-! ## The newest head marker -/

/-- The newest visible head marker up to an entry. -/
def markerAt (s : Store) (conversationId : ConversationId) (tail : EntryId) : Option EntryRecord :=
  ((s.visible conversationId).filter fun e => decide (e.id ≤ tail) && e.head.isSome).getLast?

/-- The marker of a tail is the last entry with a head up to it. -/
theorem markerAt_spec {tail : EntryId} {m : EntryRecord} (h : markerAt s conversationId tail = some m) :
    m ∈ s.visible conversationId ∧ m.id ≤ tail ∧ m.head.isSome ∧
      ∀ m' ∈ s.visible conversationId, m.id < m'.id → m'.id ≤ tail → m'.head = none := by
  obtain ⟨before, hbefore⟩ := List.getLast?_eq_some_iff.mp h
  have hmem : m ∈ (s.visible conversationId).filter fun e => decide (e.id ≤ tail) && e.head.isSome := by
    simp [hbefore]
  obtain ⟨hvisible, hin⟩ := List.mem_filter.mp hmem
  rw [Bool.and_eq_true, decide_eq_true_eq] at hin
  refine ⟨hvisible, hin.1, hin.2, fun m' hm' hlt hle => ?_⟩
  by_contra hhead
  have hm' : m' ∈ before ++ [m] := by
    rw [← hbefore, List.mem_filter, Bool.and_eq_true, decide_eq_true_eq]
    exact ⟨hm', hle, Option.isSome_iff_ne_none.mpr hhead⟩
  have hordered : (before ++ [m]).Pairwise fun e e' => e.id < e'.id :=
    hbefore ▸ (visible_ordered s conversationId).sublist List.filter_sublist
  rcases List.mem_append.mp hm' with hm' | hm'
  · exact Nat.lt_asymm hlt ((List.pairwise_append.mp hordered).2.2 m' hm' m (by simp))
  · exact Nat.ne_of_gt hlt (congrArg EntryRecord.id (List.mem_singleton.mp hm'))

/-- An entry with a head and none behind it up to the tail is the tail's marker. -/
theorem markerAt_eq_some {tail : EntryId} {m : EntryRecord} (hm : m ∈ s.visible conversationId)
    (hle : m.id ≤ tail) (hhead : m.head.isSome)
    (hlast : ∀ m' ∈ s.visible conversationId, m.id < m'.id → m'.id ≤ tail → m'.head = none) :
    markerAt s conversationId tail = some m := by
  cases hmarker : markerAt s conversationId tail with
  | none =>
    have hnil := List.getLast?_eq_none_iff.mp hmarker
    rw [List.filter_eq_nil_iff] at hnil
    exact absurd (by simp [hle, hhead]) (hnil m hm)
  | some m' =>
    obtain ⟨hm', hle', hhead', hlast'⟩ := markerAt_spec hmarker
    rcases Nat.lt_trichotomy m.id m'.id with hlt | heq | hlt
    · simp [hlast m' hm' hlt hle'] at hhead'
    · exact congrArg some (visible_unique hm' hm heq.symm)
    · simp [hlast' m hm hlt hle] at hhead

/-! ## Bounds -/

theorem captureContextBounds_unknown {at_ : Option EntryId}
    (h : (s.conversation? conversationId).isNone) :
    captureContextBounds s conversationId at_ = .error (.unknownConversation conversationId) := by
  cases at_ <;>
    simp [captureContextBounds, scanEntries, Store.entry, visibleEntries, h, Except.map, bind, Except.bind]

theorem captureContextBounds_at {e : EntryRecord} (he : e ∈ s.visible conversationId) :
    captureContextBounds s conversationId (some e.id) =
      .ok (some ⟨markerAt s conversationId e.id, e.id⟩) := by
  have hknown := known_of_visible he
  obtain ⟨found, hentry, hnone⟩ := entry_eq e.id hknown
  rw [captureContextBounds]
  simp only [hentry, bind, Except.bind]
  cases found with
  | none => exact absurd rfl (hnone.mp rfl e he)
  | some found =>
    simp only [findLatestHeadMarker_eq e.id hknown]
    rfl

/-- Without a position the bounds end at the newest entry. -/
theorem captureContextBounds_newest (hknown : (s.conversation? conversationId).isSome) :
    captureContextBounds s conversationId none =
      .ok ((s.visible conversationId).getLast?.map fun e => ⟨markerAt s conversationId e.id, e.id⟩) := by
  have hscan := @scanEntries_eq s conversationId none none none 1 hknown
  have hall : ((s.visible conversationId).filter (inRange none none)).filter (below none) =
      s.visible conversationId := by
    rw [List.filter_filter, List.filter_eq_self]
    simp [inRange, below]
  have hitems : (page ((s.visible conversationId).reverse.take (1 + 1)) 1).items.head? =
      (s.visible conversationId).getLast? := by
    rw [page, List.take_take, List.head?_take, if_neg (by decide), List.head?_reverse]
  rw [hall] at hscan
  rw [captureContextBounds]
  simp only [hscan, bind, Except.bind, hitems]
  cases (s.visible conversationId).getLast? with
  | none => rfl
  | some newest =>
    simp only [findLatestHeadMarker_eq newest.id hknown]
    rfl

/-- Bounds end at a visible entry, and their head is the newest marker up to it. -/
theorem captureContextBounds_cases (s : Store) (conversationId : ConversationId) (at_ : Option EntryId) :
    (∃ e, captureContextBounds s conversationId at_ = .error e) ∨
    captureContextBounds s conversationId at_ = .ok none ∨
    ∃ e ∈ s.visible conversationId,
      captureContextBounds s conversationId at_ = .ok (some ⟨markerAt s conversationId e.id, e.id⟩) := by
  cases hknown : (s.conversation? conversationId).isSome with
  | false => exact .inl ⟨_, captureContextBounds_unknown (by simpa using hknown)⟩
  | true =>
    cases at_ with
    | none =>
      rw [captureContextBounds_newest hknown]
      cases hlast : (s.visible conversationId).getLast? with
      | none => exact .inr (.inl rfl)
      | some newest => exact .inr (.inr ⟨newest, List.mem_of_getLast? hlast, rfl⟩)
    | some tail =>
      by_cases hvisible : ∃ e ∈ s.visible conversationId, e.id = tail
      · obtain ⟨e, he, rfl⟩ := hvisible
        exact .inr (.inr ⟨e, he, captureContextBounds_at he⟩)
      · obtain ⟨found, hentry, hnone⟩ := entry_eq tail hknown
        obtain rfl := hnone.mpr fun e he heq => hvisible ⟨e, he, heq⟩
        rw [captureContextBounds]
        simp only [hentry, bind, Except.bind]
        exact .inl ⟨_, rfl⟩

/-! ## Derived ranges -/

/-- The visible entries that a read of these bounds scans. -/
def rangeOf (s : Store) (conversationId : ConversationId) (bounds : ContextBounds) : List EntryRecord :=
  (s.visible conversationId).filter (inRange (bounds.head.bind EntryRecord.head) (some bounds.tail))

structure Derived (s : Store) (conversationId : ConversationId) (range : ContextRange) : Prop where
  known : (s.conversation? conversationId).isSome
  tail : ∃ e ∈ s.visible conversationId, e.id = range.bounds.tail
  head : range.bounds.head = markerAt s conversationId range.bounds.tail
  entries : range.entries = rangeOf s conversationId range.bounds
  view : range.view = (deriveRange range.bounds range.entries).view
  edited : range.edited = (deriveRange range.bounds range.entries).edited
  settles : Settles orderToolResults Message.isAssistant range.view.contributions.flatten range.settled
    range.open_

/-- A range derived from a marker and a tail that are read together is a derived one. -/
theorem deriveRange_derived {bounds : ContextBounds} (hknown : (s.conversation? conversationId).isSome)
    (htail : ∃ e ∈ s.visible conversationId, e.id = bounds.tail)
    (hhead : bounds.head = markerAt s conversationId bounds.tail) :
    Derived s conversationId (deriveRange bounds (rangeOf s conversationId bounds)) where
  known := hknown
  tail := htail
  head := hhead
  entries := rfl
  view := rfl
  edited := rfl
  settles := by
    have hnil := (Settles.nil segmented_orderToolResults).append
      (deriveRange bounds (rangeOf s conversationId bounds)).view.contributions.flatten
    exact hnil.settle segmented_orderToolResults

/-- The messages of a derived view are those of its contributions. -/
theorem deriveRange_messages (bounds : ContextBounds) (entries : List EntryRecord) :
    (deriveRange bounds entries).view.messages =
      leadWithSystem (orderToolResults (deriveRange bounds entries).view.contributions.flatten) := by
  have hnil := (Settles.nil segmented_orderToolResults).append
    (deriveRange bounds entries).view.contributions.flatten
  have htotal := (hnil.settle segmented_orderToolResults).total segmented_orderToolResults
  rw [List.nil_append] at htotal
  exact congrArg leadWithSystem htotal

/-- What is visible up to an entry stays so as the store grows. -/
theorem visible_upTo {tail : EntryId} (h : s.Commits s') (hknown : (s.conversation? conversationId).isSome)
    (htail : ∃ e ∈ s.visible conversationId, e.id = tail) (p : EntryRecord → Bool)
    (hp : ∀ e, p e = true → e.id ≤ tail) :
    (s'.visible conversationId).filter p = (s.visible conversationId).filter p := by
  obtain ⟨new, hnew, hminted⟩ := h.visible hknown
  obtain ⟨e, he, rfl⟩ := htail
  have hnone : new.filter p = [] := by
    refine List.filter_eq_nil_iff.mpr fun x hx hin => ?_
    exact absurd (Nat.lt_of_lt_of_le (s.mintedEntries e (mem_visible he)) (hminted x hx))
      (Nat.not_lt.mpr (hp x hin))
  rw [hnew, List.filter_append, hnone, List.append_nil]

theorem Store.Commits.known (h : s.Commits s') (hknown : (s.conversation? conversationId).isSome) :
    (s'.conversation? conversationId).isSome := by
  obtain ⟨c, hc⟩ := Option.isSome_iff_exists.mp hknown
  have hid := s.mintedConversations c (List.mem_of_find?_eq_some hc)
  rw [show c.id = conversationId by simpa using List.find?_some hc] at hid
  rwa [h.conversation? hid]

theorem Store.Commits.mem_visible {e : EntryRecord} (h : s.Commits s')
    (hknown : (s.conversation? conversationId).isSome) (he : e ∈ s.visible conversationId) :
    e ∈ s'.visible conversationId := by
  obtain ⟨new, hnew, -⟩ := h.visible hknown
  exact hnew ▸ List.mem_append_left _ he

theorem Store.Commits.markerAt {tail : EntryId} (h : s.Commits s')
    (hknown : (s.conversation? conversationId).isSome)
    (htail : ∃ e ∈ s.visible conversationId, e.id = tail) :
    markerAt s' conversationId tail = Context.markerAt s conversationId tail := by
  rw [Context.markerAt, visible_upTo h hknown htail _ fun e he => by simp_all]
  rfl

theorem Store.Commits.rangeOf {bounds : ContextBounds} (h : s.Commits s')
    (hknown : (s.conversation? conversationId).isSome)
    (htail : ∃ e ∈ s.visible conversationId, e.id = bounds.tail) :
    rangeOf s' conversationId bounds = Context.rangeOf s conversationId bounds :=
  visible_upTo h hknown htail _ fun e he => by simp_all [inRange]

/-- A derived range stays so as the store grows. -/
theorem Derived.commits {range : ContextRange} (h : s.Commits s') (hrange : Derived s conversationId range) :
    Derived s' conversationId range where
  known := h.known hrange.known
  tail := by
    obtain ⟨e, he, heq⟩ := hrange.tail
    exact ⟨e, h.mem_visible hrange.known he, heq⟩
  head := by rw [hrange.head, h.markerAt hrange.known hrange.tail]
  entries := by rw [hrange.entries, h.rangeOf hrange.known hrange.tail]
  view := hrange.view
  edited := hrange.edited
  settles := hrange.settles

/-! ## Extended ranges -/

/-- A list in the order of its IDs is parted by an ID. -/
theorem filter_parts {l : List EntryRecord} (h : l.Pairwise fun e e' => e.id < e'.id) (t : EntryId) :
    l.filter (fun e => e.id ≤ t) ++ l.filter (fun e => t < e.id) = l := by
  induction l with
  | nil => rfl
  | cons e l ih =>
    obtain ⟨hlater, h⟩ := List.pairwise_cons.mp h
    by_cases hle : e.id ≤ t
    · rw [List.filter_cons_of_pos (by simpa using hle), List.filter_cons_of_neg (by simpa using hle),
        List.cons_append, ih h]
    · have hlt : t < e.id := Nat.lt_of_not_le hle
      have hall : ∀ x ∈ l, t < x.id := fun x hx => Nat.lt_trans hlt (hlater x hx)
      have hnone : l.filter (fun e => e.id ≤ t) = [] :=
        List.filter_eq_nil_iff.mpr fun x hx => by simpa using hall x hx
      have hself : l.filter (fun e => t < e.id) = l :=
        List.filter_eq_self.mpr fun x hx => by simpa using hall x hx
      rw [List.filter_cons_of_neg (by simpa using hlt), List.filter_cons_of_pos (by simpa using hlt), hnone,
        hself, List.nil_append]

/-- One marker up to two entries is the same record. -/
theorem markerAt_id {t t' : EntryId}
    (h : (markerAt s conversationId t).map EntryRecord.id = (markerAt s conversationId t').map EntryRecord.id) :
    markerAt s conversationId t = markerAt s conversationId t' := by
  cases hm : markerAt s conversationId t with
  | none =>
    rw [hm] at h
    exact (Option.map_eq_none_iff.mp h.symm).symm
  | some m =>
    rw [hm] at h
    obtain ⟨m', hm', hid⟩ := Option.map_eq_some_iff.mp h.symm
    rw [hm', visible_unique (markerAt_spec hm').1 (markerAt_spec hm).1 hid]

/-- The entries after a range, scanned up to a later tail under the same marker. -/
def addedTo (s : Store) (conversationId : ConversationId) (tail tail' : EntryId) : List EntryRecord :=
  (s.visible conversationId).filter (inRange (some (tail + 1)) (some tail'))

/-- Where later entries have reached the marker's head, those after a range complete it. -/
theorem rangeOf_extend {bounds bounds' : ContextBounds} (hreached : s.HeadsReached conversationId)
    (hhead : bounds.head = markerAt s conversationId bounds.tail) (hsame : bounds'.head = bounds.head)
    (hhead' : bounds'.head = markerAt s conversationId bounds'.tail) (hlt : bounds.tail < bounds'.tail) :
    rangeOf s conversationId bounds ++ addedTo s conversationId bounds.tail bounds'.tail =
      rangeOf s conversationId bounds' := by
  have hparts := filter_parts ((visible_ordered s conversationId).sublist
    (List.filter_sublist (p := inRange (bounds'.head.bind EntryRecord.head) (some bounds'.tail)))) bounds.tail
  rw [rangeOf, rangeOf, addedTo, ← hparts, List.filter_filter, List.filter_filter, hsame]
  congr 1
  · refine List.filter_congr fun e _ => ?_
    rw [Bool.eq_iff_iff]
    simp only [inRange, Option.all_some, Bool.and_eq_true, decide_eq_true_eq]
    exact ⟨fun hin => ⟨hin.2, hin.1, Nat.le_trans hin.2 (Nat.le_of_lt hlt)⟩, fun hin => ⟨hin.2.1, hin.1⟩⟩
  · refine List.filter_congr fun e he => ?_
    rw [Bool.eq_iff_iff]
    simp only [inRange, Option.all_some, Option.getD_some, Bool.and_eq_true, decide_eq_true_eq]
    refine ⟨fun hin => ⟨hin.1, ?_, hin.2⟩, fun hin => ⟨hin.1, hin.2.2⟩⟩
    cases hm : bounds.head with
    | none => exact Nat.zero_le _
    | some m =>
      obtain ⟨hvisible, hle, hsome, -⟩ := markerAt_spec (hhead.symm.trans hm)
      obtain ⟨-, -, -, hlast⟩ := markerAt_spec ((hsame.symm.trans hhead').symm.trans hm)
      obtain ⟨h, hh⟩ := Option.isSome_iff_exists.mp hsome
      rw [Option.bind_some, hh]
      exact hreached m hvisible h hh e he (Nat.lt_of_le_of_lt hle hin.1) fun m' hm' hlt' hle' =>
        hlast m' hm' hlt' (Nat.le_trans hle' hin.2)

/-- Entries without edits leave the edits of a range as they are. -/
theorem editsOf_append {entries added : List EntryRecord} (h : ∀ e ∈ added, e.edits = none) :
    editsOf (entries ++ added) = editsOf entries := by
  have hnone : added.flatMap (fun e => e.edits.getD []) = [] :=
    List.flatMap_eq_nil_iff.mpr fun e he => by rw [h e he]; rfl
  rw [editsOf, editsOf, List.flatMap_append, hnone, List.append_nil]

/-- Entries without heads are active behind the others. -/
theorem selectActive_append {head : Option EntryRecord} {entries added : List EntryRecord}
    (h : ∀ e ∈ added, e.head = none) :
    selectActive head (entries ++ added) = selectActive head entries ++ added := by
  cases head with
  | none => rfl
  | some marker =>
    have hself : added.filter (fun e => e.head.isNone) = added :=
      List.filter_eq_self.mpr fun e he => by rw [h e he]; rfl
    rw [selectActive, selectActive, List.filter_append, hself, List.cons_append]

/-- An extended range is the one that a read of its own derives. -/
theorem extendRange_derived {previous : ContextRange} {bounds : ContextBounds}
    (hprevious : Derived s conversationId previous) (hreached : s.HeadsReached conversationId)
    (hsame : bounds.head = previous.bounds.head)
    (hhead : bounds.head = markerAt s conversationId bounds.tail)
    (htail : ∃ e ∈ s.visible conversationId, e.id = bounds.tail) (hlt : previous.bounds.tail < bounds.tail) :
    Derived s conversationId
        (extendRange previous bounds (addedTo s conversationId previous.bounds.tail bounds.tail)) ∧
      (extendRange previous bounds (addedTo s conversationId previous.bounds.tail bounds.tail)).view =
        (deriveRange bounds (rangeOf s conversationId bounds)).view := by
  generalize hadded : addedTo s conversationId previous.bounds.tail bounds.tail = added
  have hentries : previous.entries ++ added = rangeOf s conversationId bounds := by
    rw [hprevious.entries, ← hadded]
    exact rangeOf_extend hreached hprevious.head hsame hhead hlt
  have hderived := deriveRange_derived hprevious.known htail hhead
  rw [extendRange]
  split_ifs with hany
  · rw [hentries]
    exact ⟨hderived, rfl⟩
  · rw [List.any_eq_true] at hany
    have hplain : ∀ e ∈ added, e.edits = none ∧ e.head = none ∧ e.id ∉ previous.edited := by
      intro e he
      have := fun h => hany ⟨e, he, h⟩
      simpa [and_assoc] using this
    have hedits := @editsOf_append previous.entries added fun e he => (hplain e he).1
    have hactive := @selectActive_append bounds.head previous.entries added fun e he =>
      (hplain e he).2.1
    have hviewEntries := congrArg ContextView.entries hprevious.view
    have hviewContributions := congrArg ContextView.contributions hprevious.view
    -- No edit of the range is one of a new entry.
    have hcontribute : (added.map fun e => contribute e ((mapGet (editsOf previous.entries) e.id).map
        ContextEdit.action)) = added.map fun e => contribute e none := by
      refine List.map_congr_left fun e he => ?_
      have hnot := hprevious.edited ▸ (hplain e he).2.2
      rw [mapGet_eq_none.mpr hnot]
      rfl
    have hcontributions : previous.view.contributions ++ (added.map fun e => contribute e none) =
        (deriveRange bounds (rangeOf s conversationId bounds)).view.contributions := by
      rw [hviewContributions, ← hentries, ← hcontribute]
      change _ = (selectActive bounds.head (previous.entries ++ added)).map _
      rw [hactive, List.map_append, hedits, hsame]
      rfl
    have hsettles := (hprevious.settles.append (added.map fun e => contribute e none).flatten).settle
      segmented_orderToolResults
    rw [← List.flatten_append, hcontributions] at hsettles
    have hview : (ContextView.mk bounds.head (previous.view.entries ++ added)
        (previous.view.contributions ++ (added.map fun e => contribute e none))
        (leadWithSystem ((settleMessages previous.settled
            (previous.open_ ++ (added.map fun e => contribute e none).flatten)).1 ++
          orderToolResults (settleMessages previous.settled
            (previous.open_ ++ (added.map fun e => contribute e none).flatten)).2))) =
        (deriveRange bounds (rangeOf s conversationId bounds)).view := by
      have hmessages := deriveRange_messages bounds (rangeOf s conversationId bounds)
      rw [← hsettles.total segmented_orderToolResults] at hmessages
      have hactive' : previous.view.entries ++ added =
          (deriveRange bounds (rangeOf s conversationId bounds)).view.entries := by
        rw [hviewEntries, ← hentries]
        change selectActive previous.bounds.head previous.entries ++ added = _
        rw [← hsame, ← hactive]
        rfl
      rw [hactive', hcontributions]
      exact congrArg (ContextView.mk _ _ _) hmessages.symm
    refine ⟨⟨hprevious.known, htail, hhead, hentries, ?_, ?_, ?_⟩, hview⟩
    · rw [hentries]
      exact hview
    · rw [hprevious.edited]
      exact congrArg (List.map Prod.fst) hedits.symm
    · dsimp only
      rw [hcontributions]
      exact hsettles

/-! ## Reads -/

theorem scanBounds_eq {bounds : ContextBounds} (h : s.Commits s')
    (hknown : (s.conversation? conversationId).isSome)
    (htail : ∃ e ∈ s.visible conversationId, e.id = bounds.tail) :
    scanBounds s' conversationId bounds = .ok (rangeOf s conversationId bounds) := by
  rw [scanBounds, scanRange_eq _ _ (h.known hknown)]
  exact congrArg Except.ok (h.rangeOf hknown htail)

/-- The range that a read leaves, if any, is derived. -/
def Kept (s : Store) (conversationId : ConversationId) (range : Option ContextRange) : Prop :=
  ∀ r ∈ range, Derived s conversationId r

theorem Kept.commits {range : Option ContextRange} (h : s.Commits s') (hrange : Kept s conversationId range) :
    Kept s' conversationId range :=
  fun r hr => (hrange r hr).commits h

/-- The range that a read leaves shows the derived view, whichever way it got there. -/
theorem readContextFrom_cases {at_ : Option EntryId} {previous : Option ContextRange} (hscanned : s.Commits s')
    (hreached : s.HeadsReached conversationId) (hprevious : Kept s conversationId previous) :
    (∃ e, readContextFrom s s' conversationId at_ previous = .error e ∧
      readContext s conversationId at_ = .error e) ∨
    ∃ view range, readContextFrom s s' conversationId at_ previous = .ok (view, range) ∧
      readContext s conversationId at_ = .ok view ∧ Kept s' conversationId range := by
  rw [readContextFrom, readContext]
  obtain ⟨e, hcapture⟩ | hcapture | ⟨e, he, hcapture⟩ :=
    captureContextBounds_cases s conversationId at_
  · rw [hcapture]
    exact .inl ⟨e, rfl, rfl⟩
  · rw [hcapture]
    exact .inr ⟨_, none, rfl, rfl, by simp [Kept]⟩
  · rw [hcapture]
    have hknown := known_of_visible he
    generalize hbounds : (⟨markerAt s conversationId e.id, e.id⟩ : ContextBounds) = bounds
    have htail : ∃ e ∈ s.visible conversationId, e.id = bounds.tail := ⟨e, he, by rw [← hbounds]⟩
    have hhead : bounds.head = markerAt s conversationId bounds.tail := by rw [← hbounds]
    have hderived := deriveRange_derived hknown htail hhead
    have hfresh := scanBounds_eq .refl hknown htail
    simp only [bind, Except.bind, hfresh, pure, Except.pure]
    refine .inr ?_
    -- It is enough to say what range the read leaves.
    have hleave : ∀ range : ContextRange, Derived s conversationId range →
        range.view = (deriveRange bounds (rangeOf s conversationId bounds)).view →
        ∃ view kept, (.ok (range.view, some range) : Except ReadError _) = .ok (view, kept) ∧
          (.ok (deriveRange bounds (rangeOf s conversationId bounds)).view : Except ReadError _) = .ok view ∧
            Kept s' conversationId kept := fun range hrange hview =>
      ⟨_, _, rfl, congrArg Except.ok hview.symm, Kept.commits hscanned fun r hr => by
        obtain rfl := Option.some.inj hr
        exact hrange⟩
    cases hfilter : previous.filter fun p => p.bounds.head.map EntryRecord.id =
        bounds.head.map EntryRecord.id with
    | none =>
      simp only [scanBounds_eq hscanned hknown htail]
      exact hleave _ hderived rfl
    | some previous =>
      obtain ⟨hmem, hid⟩ := Option.filter_eq_some_iff.mp hfilter
      have hprevious := hprevious previous hmem
      have hsame : bounds.head = previous.bounds.head := by
        rw [hhead, hprevious.head]
        refine markerAt_id ?_
        rw [← hhead, ← hprevious.head]
        exact (of_decide_eq_true hid).symm
      dsimp only
      split_ifs with heq hlt
      · refine hleave _ hprevious ?_
        have hboundsEq : previous.bounds = bounds := by
          obtain ⟨head, tail⟩ := bounds
          obtain rfl : tail = previous.bounds.tail := heq
          obtain rfl : head = previous.bounds.head := hsame
          rfl
        rw [hprevious.view, hprevious.entries, hboundsEq]
      · have hentries : previous.entries.filter (fun e => e.id ≤ bounds.tail) =
            rangeOf s conversationId bounds := by
          rw [hprevious.entries, rangeOf, rangeOf, List.filter_filter, hsame]
          refine List.filter_congr fun e _ => ?_
          rw [Bool.eq_iff_iff]
          simp only [inRange, Option.all_some, Bool.and_eq_true, decide_eq_true_eq]
          exact ⟨fun hin => ⟨hin.2.1, hin.1⟩, fun hin =>
            ⟨hin.2, hin.1, Nat.le_trans hin.2 (Nat.le_of_lt hlt)⟩⟩
        rw [hentries]
        exact hleave _ hderived rfl
      · have hlt : previous.bounds.tail < bounds.tail :=
          Nat.lt_of_le_of_ne (Nat.not_lt.mp hlt) (Ne.symm heq)
        have hadded : s'.scanRange conversationId (some (previous.bounds.tail + 1)) (some bounds.tail) =
            .ok (addedTo s conversationId previous.bounds.tail bounds.tail) := by
          rw [scanRange_eq _ _ (hscanned.known hknown)]
          exact congrArg Except.ok (visible_upTo hscanned hknown htail _ fun e he => by
            simp_all [inRange])
        simp only [hadded]
        obtain ⟨hextended, hview⟩ := extendRange_derived hprevious hreached hsame hhead htail hlt
        exact hleave _ hextended hview

theorem Store.HeadsReached.of_commits (h : s.Commits s') (hreached : s'.HeadsReached conversationId) :
    s.HeadsReached conversationId := by
  intro m hm head hhead e he hlt hlast
  have hknown := known_of_visible hm
  obtain ⟨new, hnew, hminted⟩ := h.visible hknown
  refine hreached m (h.mem_visible hknown hm) head hhead e (h.mem_visible hknown he) hlt ?_
  intro m' hm' hlt' hle'
  rw [hnew] at hm'
  rcases List.mem_append.mp hm' with hm' | hm'
  · exact hlast m' hm' hlt' hle'
  · exact absurd (Nat.lt_of_lt_of_le (s.mintedEntries e (Store.mem_visible he)) (hminted m' hm'))
      (Nat.not_lt.mpr hle')

theorem Store.Commits.trans {s'' : Store} (h : s.Commits s') (h' : s'.Commits s'') : s.Commits s'' := by
  induction h' with
  | refl => exact h
  | entry _ e hid hconversation ih => exact .entry ih e hid hconversation
  | conversation _ c hid hfork ih => exact .conversation ih c hid hfork

theorem Grows.commits {calls : List Read} (h : Grows s calls s') : s.Commits s' := by
  induction h with
  | nil h => exact h
  | cons hcaptured hscanned _ ih => exact (hcaptured.trans hscanned).trans ih

/-- From a derived range on, each read shows what a read of its own does. -/
theorem reads_of_kept {calls : List Read} {previous : Option ContextRange} (hgrows : Grows s calls s')
    (hreached : s'.HeadsReached conversationId) (hprevious : Kept s conversationId previous) :
    reads conversationId previous calls =
      calls.map fun r => readContext r.captured conversationId r.at_ := by
  induction hgrows generalizing previous with
  | nil => rfl
  | @cons s s' r rest hcaptured hscanned hrest ih =>
    have hprevious := hprevious.commits hcaptured
    have hlater := hscanned.trans hrest.commits
    rw [reads, List.map_cons]
    obtain ⟨e, hread, hfresh⟩ | ⟨view, range, hread, hfresh, hkept⟩ :=
      @readContextFrom_cases r.captured r.scanned conversationId r.at_ previous hscanned
        (hreached.of_commits hlater) hprevious
    · rw [hread, hfresh]
      exact congrArg (Except.error e :: ·) (ih hreached (hprevious.commits hscanned))
    · rw [hread, hfresh]
      exact congrArg (Except.ok view :: ·) (ih hreached hkept)

/-! ## Heads that are not reached -/

/-- An entry that an extended range adds is shown. -/
theorem mem_extendRange {previous : ContextRange} {bounds : ContextBounds} {added : List EntryRecord}
    {e : EntryRecord} (he : e ∈ added) (hhead : e.head = none) :
    e ∈ (extendRange previous bounds added).view.entries := by
  rw [extendRange]
  split_ifs
  · change e ∈ selectActive bounds.head (previous.entries ++ added)
    cases bounds.head with
    | none => exact List.mem_append_right _ he
    | some marker =>
      refine List.mem_cons_of_mem _ (List.mem_filter.mpr ⟨List.mem_append_right _ he, ?_⟩)
      rw [hhead]
      rfl
  · exact List.mem_append_right _ he

/-- A cut-off before the marker's head shows the marker alone. -/
theorem notMem_deriveRange {m e : EntryRecord} {head : EntryId} (hhead : m.head = some head)
    (hlt : m.id < e.id) (hbeyond : e.id < head) :
    e ∉ (deriveRange ⟨some m, e.id⟩ (rangeOf s conversationId ⟨some m, e.id⟩)).view.entries := by
  intro hmem
  rcases List.mem_cons.mp hmem with rfl | hmem
  · exact Nat.lt_irrefl _ hlt
  · obtain ⟨-, hin⟩ := List.mem_filter.mp (List.mem_of_mem_filter hmem)
    rw [inRange, Bool.and_eq_true, decide_eq_true_eq, Option.bind_some, hhead] at hin
    exact Nat.not_lt.mpr hin.1 hbeyond

/-- A range cut off at a marker, and extended to an entry before its head. -/
theorem reads_beyond {m e : EntryRecord} (hm : m ∈ s.visible conversationId) (hhead : m.head.isSome)
    (he : e ∈ s.visible conversationId) (hlt : m.id < e.id)
    (hlast : ∀ m' ∈ s.visible conversationId, m.id < m'.id → m'.id ≤ e.id → m'.head = none) :
    ∃ view view', reads conversationId none [⟨s, s, some m.id⟩, ⟨s, s, some e.id⟩] = [.ok view, .ok view'] ∧
      e ∈ view'.entries := by
  have hmarker : markerAt s conversationId m.id = some m :=
    markerAt_eq_some hm (Nat.le_refl _) hhead fun m' _ hlt hle => absurd hlt (Nat.not_lt.mpr hle)
  have hmarker' : markerAt s conversationId e.id = some m :=
    markerAt_eq_some hm (Nat.le_of_lt hlt) hhead hlast
  have hknown := known_of_visible hm
  have hscan : scanBounds s conversationId ⟨some m, m.id⟩ =
      .ok (rangeOf s conversationId ⟨some m, m.id⟩) := scanBounds_eq .refl hknown ⟨m, hm, rfl⟩
  have hadded : s.scanRange conversationId (some (m.id + 1)) (some e.id) =
      .ok (addedTo s conversationId m.id e.id) := scanRange_eq _ _ hknown
  have hfirst : readContextFrom s s conversationId (some m.id) none =
      .ok ((deriveRange ⟨some m, m.id⟩ (rangeOf s conversationId ⟨some m, m.id⟩)).view,
        some (deriveRange ⟨some m, m.id⟩ (rangeOf s conversationId ⟨some m, m.id⟩))) := by
    rw [readContextFrom, captureContextBounds_at hm, hmarker]
    simp only [bind, Except.bind, Option.filter_none, hscan]
    rfl
  have hbounds : (deriveRange ⟨some m, m.id⟩ (rangeOf s conversationId ⟨some m, m.id⟩)).bounds =
      ⟨some m, m.id⟩ := rfl
  generalize deriveRange ⟨some m, m.id⟩ (rangeOf s conversationId ⟨some m, m.id⟩) = previous at hfirst hbounds
  have hsecond : readContextFrom s s conversationId (some e.id) (some previous) =
      .ok ((extendRange previous ⟨some m, e.id⟩ (addedTo s conversationId m.id e.id)).view,
        some (extendRange previous ⟨some m, e.id⟩ (addedTo s conversationId m.id e.id))) := by
    rw [readContextFrom, captureContextBounds_at he, hmarker']
    simp only [bind, Except.bind, Option.filter_some, hbounds, decide_true, ↓reduceIte,
      Nat.ne_of_gt hlt, Nat.lt_asymm hlt, hadded, pure, Except.pure]
  have hmem : e ∈ addedTo s conversationId m.id e.id :=
    List.mem_filter.mpr ⟨he, by simp [inRange, Nat.succ_le_of_lt hlt]⟩
  refine ⟨previous.view,
    (extendRange previous ⟨some m, e.id⟩ (addedTo s conversationId m.id e.id)).view, ?_,
    mem_extendRange hmem (hlast e he hlt (Nat.le_refl _))⟩
  simp only [reads, hfirst, hsecond]

/-- Every run of reads that reuse ranges shows what reads of their own do, just if no head marker names a
head that an entry behind it has not reached. -/
theorem reads_fresh_iff (s' : Store) (conversationId : ConversationId) :
    (∀ s calls, Grows s calls s' →
      reads conversationId none calls = calls.map fun r => readContext r.captured conversationId r.at_) ↔
    s'.HeadsReached conversationId := by
  refine ⟨fun hreads m hm head hhead e he hlt hlast => ?_, fun hreached s calls hgrows =>
    reads_of_kept hgrows hreached (by simp [Kept])⟩
  by_contra hbeyond
  have hhead : m.head = some head := hhead
  obtain ⟨view, view', hcalls, hshown⟩ := reads_beyond hm (by simp [hhead]) he hlt hlast
  have hfresh : readContext s' conversationId (some e.id) =
      .ok (deriveRange ⟨some m, e.id⟩ (rangeOf s' conversationId ⟨some m, e.id⟩)).view := by
    rw [readContext, captureContextBounds_at he,
      markerAt_eq_some hm (Nat.le_of_lt hlt) (by simp [hhead]) hlast]
    simp only [bind, Except.bind,
      show scanBounds s' conversationId ⟨some m, e.id⟩ = .ok (rangeOf s' conversationId ⟨some m, e.id⟩) from
        scanBounds_eq .refl (known_of_visible hm) ⟨e, he, rfl⟩]
    rfl
  have hsame := hreads s' _ (.cons (r := ⟨s', s', some m.id⟩) .refl .refl
    (.cons (r := ⟨s', s', some e.id⟩) .refl .refl (.nil .refl)))
  rw [hcalls, List.map_cons, List.map_cons, hfresh] at hsame
  obtain rfl := Except.ok.inj (List.cons.inj (List.cons.inj hsame).2).1
  exact notMem_deriveRange hhead hlt (Nat.lt_of_not_le hbeyond) hshown

/-- An entry without messages. -/
def EntryRecord.plain (id : EntryId) (conversationId : ConversationId) (head : Option EntryId) :
    EntryRecord :=
  ⟨id, conversationId, lit "note", none, none, head, none, none⟩

/-- A conversation without entries. -/
def newStore : Store := Store.empty.commitConversation ⟨1, none⟩ (Nat.le_refl _) (by simp)

/-- A conversation whose only entry is a head marker for an entry that is not there yet. -/
def markedStore : Store :=
  newStore.commitEntry
    (EntryRecord.plain 5 1 (some 10)) (by decide) ⟨⟨1, none⟩, by decide, rfl⟩

/-- Two more entries. -/
def markedLater : Store :=
  (markedStore.commitEntry (EntryRecord.plain 6 1 none) (by decide) ⟨⟨1, none⟩, by decide, rfl⟩).commitEntry
    (EntryRecord.plain 7 1 none) (by decide) ⟨⟨1, none⟩, by decide, rfl⟩

def markedReads : List Read := [⟨markedStore, markedStore, none⟩, ⟨markedLater, markedLater, none⟩]

/-- The second read shows the two entries behind the marker, and a read of its own the marker alone. -/
theorem reads_marked : Grows markedStore markedReads markedLater ∧
    reads 1 none markedReads ≠ markedReads.map fun r => readContext r.captured 1 r.at_ := by
  have hlater : markedStore.Commits markedLater :=
    .entry (.entry .refl (EntryRecord.plain 6 1 none) (by decide) ⟨⟨1, none⟩, by decide, rfl⟩)
      (EntryRecord.plain 7 1 none) (by decide) ⟨⟨1, none⟩, by decide, rfl⟩
  refine ⟨.cons .refl .refl (.cons hlater .refl (.nil .refl)), fun h => ?_⟩
  have hids := congrArg (List.map fun r => r.toOption.map fun view => view.entries.map EntryRecord.id) h
  revert hids
  decide +kernel

end Context
