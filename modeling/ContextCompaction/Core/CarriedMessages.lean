import ContextCompaction.Core.WorkNotes
import ContextCompaction.Js.SameText
import ContextCompaction.Sequences.Sections

/-!
# Sections of a summary

A checkpoint renders the user messages that it carries, or the requests it was taken in, as the last
section of its summary: one JSON line for each message, behind a title.

* `renderUserMessages_unique`, `renderContinuation_unique`: a summary ends with one rendering at
  most.
* `carried_tamperEvident`: so the summary of a checkpoint that passes determines the IDs that it
  carries and the texts of their messages.
-/

namespace Compaction

open Js Sequences

/-- `renderContinuation`. -/
def renderContinuation (requests : List SessionRecord) : Str :=
  renderContinuationWithText requests sourceText

/-- The line of a message. -/
def entryLine (key : String) (entry : SessionRecord) : Str :=
  stringify (.obj [(lit "entryId", .str entry.id), (lit key, .str (sourceText entry))])

theorem isLine_entryLine (key : String) (entry : SessionRecord) : IsLine 0x0A (entryLine key entry) :=
  ⟨by simp [entryLine, stringify], lf_notMem_stringify _⟩

/-- The ID of a record, and its text. -/
def idAndText (entry : SessionRecord) : Str × Str := (entry.id, sourceText entry)

theorem entryLine_inj {key : String} {a b : SessionRecord} (h : entryLine key a = entryLine key b) :
    idAndText a = idAndText b := by
  obtain ⟨gs, heq, hs⟩ := sameText_obj h
  cases heq
  cases hs with
  | cons hid hs =>
    cases hs with
    | cons htext _ =>
      rw [idAndText, ← Json.str.inj (sameText_str hid.2), ← Json.str.inj (sameText_str htext.2)]
      rfl

theorem entryLines_inj {key : String} {as bs : List SessionRecord}
    (h : as.map (entryLine key) = bs.map (entryLine key)) : as.map idAndText = bs.map idAndText := by
  rw [← List.forall₂_eq_eq_eq, List.forall₂_map_left_iff, List.forall₂_map_right_iff] at h ⊢
  exact h.imp fun _ _ => entryLine_inj

/-! ## One rendering -/

/-- A rendering is a section, where its header starts with the one blank line. -/
theorem section_of_header {render : List SessionRecord → Str} {header : Str} {key : String}
    (hrender : ∀ entries, render entries = header ++ join "\n" (entries.map (entryLine key)))
    (h : header = 0x0A :: 0x0A :: header.drop 2 ∧ NoBlank 0x0A (0x0A :: header.drop 2)) :
    ∃ title, NoBlank 0x0A (0x0A :: title) ∧
      ∀ entries, render entries = sectionText 0x0A title (entries.map (entryLine key)) := by
  refine ⟨header.drop 2, h.2, fun entries => ?_⟩
  rw [hrender]
  conv_lhs => rw [h.1]
  rfl

theorem section_renderUserMessages : ∃ title, NoBlank 0x0A (0x0A :: title) ∧ ∀ users,
    renderUserMessages users = sectionText 0x0A title (users.map (entryLine "text")) := by
  apply section_of_header (fun _ => rfl)
  rw [lit_ofList]
  unfold NoBlank
  decide +kernel

theorem section_renderContinuation : ∃ title, NoBlank 0x0A (0x0A :: title) ∧ ∀ requests,
    renderContinuation requests = sectionText 0x0A title (requests.map (entryLine "request")) := by
  apply section_of_header (fun _ => rfl)
  rw [lit_ofList]
  unfold NoBlank
  decide +kernel

theorem section_entries_unique {key : String} {title summary : Str}
    (ht : NoBlank 0x0A (0x0A :: title)) {as bs : List SessionRecord}
    (ha : sectionText 0x0A title (as.map (entryLine key)) <:+ summary)
    (hb : sectionText 0x0A title (bs.map (entryLine key)) <:+ summary) :
    as.map idAndText = bs.map idAndText := by
  have hlines : ∀ cs : List SessionRecord, ∀ l ∈ cs.map (entryLine key), IsLine 0x0A l := by
    intro cs l hl
    obtain ⟨entry, -, rfl⟩ := List.mem_map.mp hl
    exact isLine_entryLine key entry
  exact entryLines_inj (section_unique ht (hlines as) (hlines bs) ha hb)

/-- A summary ends with the rendering of one list of messages at most. -/
theorem renderUserMessages_unique {summary : Str} {users users' : List SessionRecord}
    (h : renderUserMessages users <:+ summary) (h' : renderUserMessages users' <:+ summary) :
    users.map idAndText = users'.map idAndText := by
  obtain ⟨title, ht, hsection⟩ := section_renderUserMessages
  rw [hsection] at h h'
  exact section_entries_unique ht h h'

theorem renderContinuation_unique {summary : Str} {requests requests' : List SessionRecord}
    (h : renderContinuation requests <:+ summary) (h' : renderContinuation requests' <:+ summary) :
    requests.map idAndText = requests'.map idAndText := by
  obtain ⟨title, ht, hsection⟩ := section_renderContinuation
  rw [hsection] at h h'
  exact section_entries_unique ht h h'

/-! ## Tampering -/

/-- The text of the message that an ID names on a branch. -/
def textNamed (branch : List SessionRecord) (id : Str) : Option Str :=
  (branch.find? fun entry => entry.id = id).map sourceText

/-- The IDs that a checkpoint carries. -/
def carriedIds (entry : SessionRecord) : Option (List Json) :=
  (carriedList entry).bind fun p => p.2.arr?

/-- A full list names each of its messages, by the first record with the ID. -/
theorem listedUsers_named {branch : List SessionRecord} {last previous : Int} {ids : List Json}
    (h : (listedUsers branch (firstPositions branch) last previous ids).length = ids.length) :
    List.Forall₂ (fun id user => id = .str user.id ∧ textNamed branch user.id = some (sourceText user))
      ids (listedUsers branch (firstPositions branch) last previous ids) := by
  induction ids generalizing previous with
  | nil => exact .nil
  | cons id ids ih =>
    obtain ⟨s, at_, user, rfl, hpos, hget, -, -, -, heq, hrest⟩ := listedUsers_cons h
    rw [heq]
    refine .cons ?_ (ih hrest)
    rw [mapGet_firstPositions, List.findIdx?_eq_some_iff_getElem] at hpos
    obtain ⟨hlt, hid, hbefore⟩ := hpos
    obtain rfl : branch[at_] = user := (List.getElem?_eq_some_iff.mp hget).2
    obtain rfl : branch[at_].id = s := of_decide_eq_true hid
    refine ⟨rfl, ?_⟩
    have hfind : branch.find? (fun entry => entry.id = branch[at_].id) = some branch[at_] :=
      List.find?_eq_some_iff_getElem.mpr ⟨by simp, at_, hlt, rfl, fun j hj => by simpa using hbefore j hj⟩
    rw [textNamed, hfind]
    rfl

/-- A checkpoint that passes renders the messages that its IDs name. -/
theorem assertUserMessages_named {branch : List SessionRecord}
    (h : assertUserMessages branch = .ok ()) {entry : SessionRecord} (he : entry ∈ branch)
    {ids : List Json} (hids : carriedIds entry = some ids) :
    ∃ users, renderUserMessages users <:+ entry.summary ∧
      List.Forall₂ (fun id user => id = .str user.id ∧ textNamed branch user.id = some (sourceText user))
        ids users := by
  obtain ⟨⟨details, listed⟩, hlist, harr⟩ := Option.bind_eq_some_iff.mp hids
  obtain ⟨ids', last, rfl, hcarries⟩ :=
    assertUserMessagesOf_ok.mp (assertUserMessages_ok.mp h entry he) details listed hlist
  obtain rfl : ids' = ids := by simpa using harr
  exact ⟨_, hcarries.rendered, listedUsers_named hcarries.full⟩

/-- Lists that name the same IDs and texts are the same, and the branches agree on each ID. -/
theorem named_unique {branch branch' : List SessionRecord} {ids ids' : List Json}
    {users users' : List SessionRecord} (hsame : users.map idAndText = users'.map idAndText)
    (h : List.Forall₂ (fun id user => id = .str user.id ∧
      textNamed branch user.id = some (sourceText user)) ids users)
    (h' : List.Forall₂ (fun id user => id = .str user.id ∧
      textNamed branch' user.id = some (sourceText user)) ids' users') :
    ids = ids' ∧ ∀ id, .str id ∈ ids → textNamed branch id = textNamed branch' id := by
  induction h generalizing ids' users' with
  | nil =>
    obtain rfl := List.map_eq_nil_iff.mp hsame.symm
    cases h'
    exact ⟨rfl, fun _ hid => nomatch hid⟩
  | @cons id user ids users hr _ ih =>
    obtain ⟨user', users', rfl, huser, hrest⟩ := List.map_eq_cons_iff.mp hsame.symm
    cases h' with
    | cons hr' h' =>
      obtain ⟨hid, htext⟩ := Prod.mk.inj huser
      obtain ⟨rfl, hall⟩ := ih hrest.symm h'
      refine ⟨by rw [hr.1, hr'.1, hid], fun id hmem => ?_⟩
      rcases List.mem_cons.mp hmem with hmem | hmem
      · obtain rfl : id = user.id := Json.str.inj (hmem.trans hr.1)
        rw [hr.2, ← hid, hr'.2, htext]
      · exact hall id hmem

/-- A summary ends with one rendering of either kind at most. So where a branch passes, no branch
passes that has the summary of one of its checkpoints behind other IDs, or behind the same IDs with
another text of one of their messages. -/
theorem carried_tamperEvident :
    (∀ summary users users', renderUserMessages users <:+ summary →
      renderUserMessages users' <:+ summary → users.map idAndText = users'.map idAndText) ∧
    (∀ summary requests requests', renderContinuation requests <:+ summary →
      renderContinuation requests' <:+ summary →
        requests.map idAndText = requests'.map idAndText) ∧
    ∀ branch entry ids, assertUserMessages branch = .ok () → entry ∈ branch →
      carriedIds entry = some ids → ∀ branch' entry' ids', entry' ∈ branch' →
        entry'.summary = entry.summary → carriedIds entry' = some ids' →
          (ids' ≠ ids ∨ ∃ id, .str id ∈ ids ∧ textNamed branch' id ≠ textNamed branch id) →
            assertUserMessages branch' ≠ .ok () := by
  refine ⟨fun _ _ _ h h' => renderUserMessages_unique h h',
    fun _ _ _ h h' => renderContinuation_unique h h', ?_⟩
  intro branch entry ids hok he hids branch' entry' ids' he' hsummary hids' hchanged hok'
  obtain ⟨users, hrender, hnamed⟩ := assertUserMessages_named hok he hids
  obtain ⟨users', hrender', hnamed'⟩ := assertUserMessages_named hok' he' hids'
  rw [hsummary] at hrender'
  obtain ⟨rfl, htexts⟩ := named_unique (renderUserMessages_unique hrender hrender') hnamed hnamed'
  rcases hchanged with hne | ⟨id, hid, hne⟩
  · exact hne rfl
  · exact hne (htexts id hid).symm

/-- A checkpoint that carries the message `u`. -/
def carrier (summary : Str) : SessionRecord where
  fields := [(lit "type", .str (lit "compaction")), (lit "id", .str (lit "c")),
    (lit "parentId", .str (lit "u")), (lit "timestamp", .str []), (lit "summary", .str summary),
    (lit "firstKeptEntryId", .str (lit "u")), (lit "tokensBefore", .num (.ofNat 0)),
    (lit "details", .obj [(lit "coveredThrough", .str (lit "u")),
      (lit "userMessages", .arr [.str (lit "u")])])]
  typed := by
    simp [recordTyped, hasStr, strField, strField?, field, RecordType.ofName, isStr]

def request (text : String) : SessionRecord := messageRecord (lit "u") [] [] (lit "user") (lit text)

theorem carriedList_carrier (summary : Str) : carriedList (carrier summary) =
    some ([(lit "coveredThrough", .str (lit "u")), (lit "userMessages", .arr [.str (lit "u")])],
      .arr [.str (lit "u")]) := by
  simp [carriedList, compactionDetails, SessionRecord.type, SessionRecord.details, carrier, strField,
    strField?, field, RecordType.ofName]

/-- A checkpoint that carries a request under its own rendering passes. -/
theorem assertUserMessages_carrier (text : String) :
    assertUserMessages [request text, carrier (renderUserMessages [request text])] = .ok () := by
  refine assertUserMessages_ok.mpr fun r hr => ?_
  rcases List.mem_cons.mp hr with rfl | hr
  · exact assertUserMessagesOf_of_type (by simp [request])
  · obtain rfl := List.mem_singleton.mp hr
    have hcovered : ∀ entry, [request text, entry].findIdx? (fun r => r.id = lit "u") = some 0 := by
      simp [request, List.findIdx?_cons]
    have hlisted : ∀ entry, listedUsers [request text, entry] (firstPositions [request text, entry])
        0 (-1) [.str (lit "u")] = [request text] := by
      intro entry
      refine listedUsers_of_pairwise _ 0 (-1) [(request text, 0)] (fun e he => ?_) (by simp) (by simp)
      obtain rfl := List.mem_singleton.mp he
      refine ⟨rfl, ?_, by simp [SessionRecord.isUser, request], Int.le_refl 0⟩
      rw [mapGet_firstPositions]
      simp [request, List.findIdx?_cons]
    refine assertUserMessagesOf_ok.mpr fun details listed hl => ?_
    rw [carriedList_carrier] at hl
    cases hl
    refine ⟨_, 0, rfl, by simp, hcovered _, ?_, ?_⟩
    · exact congrArg List.length (hlisted _)
    · rw [show ((0 : Nat) : Int) = 0 from rfl, hlisted]
      have hsummary : ∀ summary, (carrier summary).summary = summary := fun summary => by
        simp [SessionRecord.summary, carrier, strField, strField?, field]
      rw [hsummary]

/-- An edited message behind an unchanged summary. -/
theorem carried_tamperEvident_sample :
    assertUserMessages [request "Stop.", carrier (renderUserMessages [request "Go."])] ≠ .ok () :=
  carried_tamperEvident.2.2 [request "Go.", carrier (renderUserMessages [request "Go."])]
    (carrier (renderUserMessages [request "Go."])) [.str (lit "u")] (assertUserMessages_carrier "Go.")
    (by simp) (by rw [carriedIds, carriedList_carrier]; rfl)
    _ (carrier (renderUserMessages [request "Go."])) [.str (lit "u")] (by simp) rfl
    (by rw [carriedIds, carriedList_carrier]; rfl)
    (.inr ⟨lit "u", by simp, by
      simp only [textNamed, request, List.find?_cons, id_messageRecord]
      decide +kernel⟩)

end Compaction
