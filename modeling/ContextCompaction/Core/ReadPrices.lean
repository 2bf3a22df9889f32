import ContextCompaction.Core.HistoryListing
import ContextCompaction.Js.QuotedWidth

/-!
# Read prices

The price that a list states for a record, against the pages that a read of the record returns. The
price is computed on a copy of the snapshot that holds the record alone.

* `readAsk_single`: a request on the copy is answered like the request on the snapshot, up to the
  position of the record.
* `readPages_outcome`: the pages of the copy, and those of the snapshot, from a place on.
* `readTokens_eq_read`: the price is the sum over the pages of the read, and a read that the schema
  refuses has no price.
-/

namespace Compaction

open Js Paging

section Copy

variable {t : TextTables} {sha256 : Sha256} {snapshot : HistorySnapshot} {entry : SessionRecord}

/-- What a page costs as the text of a tool result. -/
def pageCost (page : HistoryPage) : Nat := textTokens (stringify page.json)

/-- The request of a page of a read, with the budget that a host gives by default. -/
def readAsk (t : TextTables) (sha256 : Sha256) (snapshot : HistorySnapshot) (id : Str) (_ : Nat)
    (cursor : Option Str) : Except Failure HistoryPage :=
  queryHistory t sha256 snapshot (readRequest id cursor).json 4000

/-- The snapshot with one of its records alone. -/
def HistorySnapshot.single (snapshot : HistorySnapshot) (entry : SessionRecord) : HistorySnapshot :=
  { snapshot with entries := [entry] }

/-- The page with its record at a position. -/
def HistoryPage.place (page : HistoryPage) (position : Nat) : HistoryPage :=
  { page with entries := page.entries.map fun hit => { hit with position } }

/-- The record with an ID, at its position. -/
structure OnlyRecord (snapshot : HistorySnapshot) (entry : SessionRecord) (position : Nat) : Prop where
  here : snapshot.entries[position]? = some entry
  only : ∀ i other, snapshot.entries[i]? = some other → other.id = entry.id → i = position

/-- A read of a unique ID has one candidate. -/
theorem readCandidates_only {position : Nat} (h : OnlyRecord snapshot entry position)
    (htext : sourceText entry ≠ []) :
    readCandidates t entry.id snapshot.entries = [⟨entry, sourceText entry, 1, 0, position⟩] := by
  have hmem : ∀ c, c ∈ readCandidates t entry.id snapshot.entries ↔
      c = ⟨entry, sourceText entry, 1, 0, position⟩ := by
    intro c
    rw [mem_readCandidates]
    constructor
    · rintro ⟨other, i, hother, -, hid, rfl⟩
      obtain rfl := h.only i other hother hid
      obtain rfl := Option.some.inj (hother.symm.trans h.here)
      rfl
    · rintro rfl
      exact ⟨entry, position, h.here, htext, rfl, rfl⟩
  have hnodup : (readCandidates t entry.id snapshot.entries).Nodup :=
    List.Nodup.of_map _ candidates_positions
  exact (List.perm_singleton.mp ((List.perm_ext_iff_of_nodup hnodup (List.nodup_singleton _)).mpr
    fun c => by rw [hmem, List.mem_singleton]))

/-- The position of a candidate is shown and nothing else. -/
theorem fillPage_position (terms : List Str) (text : Str) (score weight position position' index offset
    remaining : Nat) :
    fillPage t .read terms [⟨entry, text, score, weight, position'⟩] index offset remaining =
      ((fillPage t .read terms [⟨entry, text, score, weight, position⟩] index offset remaining).1.map
          fun hit => { hit with position := position' },
        (fillPage t .read terms [⟨entry, text, score, weight, position⟩] index offset
          remaining).2) := by
  simp only [fillPage, HistoryCandidate.excerpt]
  split_ifs <;> rfl

/-- A request at a place of the read, within its bound, is answered on the copy as on the snapshot. -/
theorem readAsk_single {position : Nat} (h : OnlyRecord snapshot entry position)
    (htext : sourceText entry ≠ []) (hlimit : (sourceText entry).length < 2 ^ 53)
    (hid : entry.id ≠ [] ∧ t.len entry.id ≤ 64) {cursor : Option Str} {offset : Nat}
    (hplace : PricePlace sha256 snapshot entry.id cursor offset)
    (hcursor : ∀ c ∈ cursor, t.len c ≤ 2000) (hoffset : offset < (sourceText entry).length) (k : Nat) :
    ∃ page, readAsk t sha256 (snapshot.single entry) entry.id k cursor = .ok page ∧
      readAsk t sha256 snapshot entry.id k cursor = .ok (page.place position) := by
  have hsmall := hoffset.trans hlimit
  have hsingle : readCandidates t entry.id (snapshot.single entry).entries =
      [⟨entry, sourceText entry, 1, 0, 0⟩] := readCandidates_single htext
  have hwhole := readCandidates_only (t := t) h htext
  refine ⟨_, queryHistory_read_at hid hcursor
    (@openCursor_place sha256 (snapshot.single entry) _ _ _ hplace hsmall) (by rw [hsingle]; simp) 4000,
    ?_⟩
  rw [readAsk, queryHistory_read_at hid hcursor (openCursor_place hplace hsmall) (by rw [hwhole]; simp),
    hsingle, hwhole]
  simp only [historyPage, readRequest, List.drop_zero, HistoryPage.place, Except.ok.injEq]
  rw [fillPage_position (searchTerms t []) (sourceText entry) 1 0 0 position]
  simp only [List.map_eq_nil_iff]
  rfl

/-- A request with a longer cursor is refused. -/
theorem readAsk_refused {id : Str} {cursor : Str} (hcursor : 2000 < t.len cursor) (k : Nat) :
    readAsk t sha256 snapshot id k (some cursor) = .error (.ofText "HISTORY_QUERY_INVALID") := by
  refine if_neg fun h => ?_
  have hbound := (check_json.mp h).cursor cursor rfl
  omega

/-- A cursor of the read is longer than its schema admits. -/
def CursorTooLong (t : TextTables) (sha256 : Sha256) (snapshot : HistorySnapshot)
    (entry : SessionRecord) : Prop :=
  ∃ offset, 0 < offset ∧ offset < (sourceText entry).length ∧
    2000 < t.len (cursorText (historyCursor snapshot (querySignature sha256 (readRequest entry.id none))
      0 offset))

theorem readPages_last {single : HistorySnapshot} {id : Str} {position fuel k tokens : Nat}
    {cursor : Option Str} {page : HistoryPage} (hask : readAsk t sha256 single id k cursor = .ok page)
    (hcursor : page.cursor = none) :
    readPages t sha256 single id position (fuel + 1) cursor tokens =
      .ok (tokens + pageCost (page.place position)) := by
  obtain ⟨sessionId, leafId, scopeHash, entries, _, message⟩ := page
  obtain rfl := hcursor
  unfold readPages
  exact bind_ok.mpr ⟨_, hask, rfl⟩

theorem readPages_more {single : HistorySnapshot} {id : Str} {position fuel k tokens : Nat}
    {cursor : Option Str} {page : HistoryPage} (hask : readAsk t sha256 single id k cursor = .ok page)
    {u : UInt16} {text : Str} (hcursor : page.cursor = some (u :: text)) :
    readPages t sha256 single id position (fuel + 1) cursor tokens =
      readPages t sha256 single id position fuel (some (u :: text))
        (tokens + pageCost (page.place position)) := by
  obtain ⟨sessionId, leafId, scopeHash, entries, _, message⟩ := page
  obtain rfl := hcursor
  conv_lhs => unfold readPages
  rw [show queryHistory t sha256 single (HistoryQuery.json ⟨.read, none, some id, cursor, none⟩) 4000 =
    .ok _ from hask]
  rfl

/-- From a place on, the pages of the copy cost what the read of the snapshot returns. -/
theorem readPages_outcome {position : Nat} (h : OnlyRecord snapshot entry position)
    (htext : sourceText entry ≠ []) (hlimit : (sourceText entry).length < 2 ^ 53)
    (hid : entry.id ≠ [] ∧ t.len entry.id ≤ 64) (fuel : Nat) {k : Nat} {cursor : Option Str}
    {offset : Nat} (tokens : Nat) (hplace : PricePlace sha256 snapshot entry.id cursor offset)
    (hoffset : offset < (sourceText entry).length) (hfuel : (sourceText entry).length - offset ≤ fuel) :
    ∃ result, Outcome (readAsk t sha256 snapshot entry.id) HistoryPage.cursor k cursor result ∧
      readPages t sha256 (snapshot.single entry) entry.id position fuel cursor tokens =
        result.map (fun pages => tokens + (pages.map pageCost).sum) ∧
      ∀ failure, result = .error failure →
        failure = .ofText "HISTORY_QUERY_INVALID" ∧ CursorTooLong t sha256 snapshot entry := by
  induction fuel generalizing k cursor offset tokens with
  | zero => omega
  | succ fuel ih =>
    by_cases hcursor : ∀ c ∈ cursor, t.len c ≤ 2000
    · obtain ⟨page, hcopy, hask⟩ := readAsk_single h htext hlimit hid hplace hcursor hoffset k
      obtain ⟨page', hpage', hnext⟩ := @pricePage_at t sha256 (snapshot.single entry) entry rfl
        htext hlimit hid _ _ hplace hcursor hoffset 4000
      obtain rfl := Except.ok.inj (hpage'.symm.trans hcopy)
      rcases hnext with hnone | ⟨offset', hlt, hoffset', hsome⟩
      · refine ⟨_, .last hask hnone, ?_, fun failure hfailure => nomatch hfailure⟩
        rw [readPages_last hcopy hnone]
        rfl
      · obtain ⟨u, text, htexts⟩ := List.exists_cons_of_ne_nil (cursorText_ne_nil (historyCursor snapshot
          (querySignature sha256 (readRequest entry.id none)) 0 offset'))
        have hplace' : PricePlace sha256 snapshot entry.id (some (u :: text)) offset' :=
          .inr ⟨by omega, by rw [htexts]⟩
        have hsome' : page'.cursor = some (u :: text) := by rw [hsome, ← htexts]; rfl
        obtain ⟨result, hrest, hprice, hfailure⟩ := ih (k := k + 1)
          (tokens + pageCost (page'.place position)) hplace' hoffset' (by omega)
        refine ⟨_, .more hask hsome' hrest, ?_, fun failure hresult => ?_⟩
        · rw [readPages_more hcopy hsome', hprice]
          cases result with
          | error failure => rfl
          | ok pages => simp [Except.map, Nat.add_assoc]
        · cases result with
          | error e => exact hfailure failure hresult
          | ok pages => cases hresult
    · -- The schema refuses the cursor on the copy and on the snapshot.
      rcases hplace with ⟨rfl, rfl⟩ | ⟨hpos, rfl⟩
      · exact absurd (by simp) hcursor
      · have hlong : 2000 < t.len (cursorText (historyCursor snapshot
            (querySignature sha256 (readRequest entry.id none)) 0 offset)) := by
          simpa using hcursor
        refine ⟨_, .fail (readAsk_refused hlong k), ?_, fun failure hresult => ?_⟩
        · unfold readPages
          rw [show queryHistory t sha256 (snapshot.single entry) (HistoryQuery.json ⟨.read, none,
            some entry.id, _, none⟩) 4000 = _ from readAsk_refused hlong k]
          rfl
        · exact ⟨(Except.error.inj hresult).symm, offset, hpos, hoffset, hlong⟩

/-- The price of a record of a unique ID is what a read of it returns, page by page; it fails like the
read, at a cursor that is longer than the schema admits. -/
theorem readTokens_eq_read (hlen : ∀ s, t.len s ≤ s.length) {position : Nat}
    (h : OnlyRecord snapshot entry position) (hid : entry.id ≠ [] ∧ entry.id.length ≤ 64)
    (htext : sourceText entry ≠ []) (hlimit : (sourceText entry).length < 2 ^ 53) :
    ∃ result, Outcome (readAsk t sha256 snapshot entry.id) HistoryPage.cursor 0 none result ∧
      readTokens t sha256 snapshot entry position =
        result.map (fun pages => (pages.map pageCost).sum) ∧
      ∀ failure, result = .error failure →
        failure = .ofText "HISTORY_QUERY_INVALID" ∧ CursorTooLong t sha256 snapshot entry := by
  obtain ⟨result, hrun, hprice, hfailure⟩ := readPages_outcome (k := 0) h htext hlimit
    ⟨hid.1, (hlen _).trans hid.2⟩ _ 0 (.inl ⟨rfl, rfl⟩) (List.length_pos_iff.mpr htext) (Nat.le_refl _)
  refine ⟨result, hrun, ?_, hfailure⟩
  rw [readTokens, if_neg (not_or.mpr ⟨htext, Nat.not_lt.mpr hid.2⟩)]
  refine hprice.trans ?_
  simp only [Nat.zero_add]

end Copy

example : (readTokens plainTables sizeHash (freezeBranch sizeHash (lit "s") [userRecord (lit "a") (lit "hi")])
    (userRecord (lit "a") (lit "hi")) 0).toOption = some 46 := by decide +kernel

/-! ### Two prices -/

/-- A text of control characters, which takes two pages. -/
def pagedText : Str := List.replicate 1800 0x01

def pagedRecord : SessionRecord := userRecord (lit "a") pagedText

/-- A digest that tells nothing apart. -/
def oneHash : Sha256 := fun _ => lit "d"

/-- The snapshot of a session with the record alone. -/
def pagedSnapshot (sessionId : Str) : HistorySnapshot :=
  freezeBranch oneHash sessionId [pagedRecord]

theorem pagedRecord_only (sessionId : Str) :
    OnlyRecord (pagedSnapshot sessionId) pagedRecord 0 where
  here := rfl
  only i other hother _ := by
    cases i with
    | zero => rfl
    | succ i => cases hother

theorem sourceText_pagedRecord : sourceText pagedRecord = pagedText := by
  simp [pagedRecord, userRecord]

theorem pagedText_ne_nil : pagedText ≠ [] := List.cons_ne_nil _ _

theorem pagedRecord_id : pagedRecord.id ≠ [] ∧ pagedRecord.id.length ≤ 64 := by
  rw [pagedRecord, userRecord, id_messageRecord]
  decide

theorem quoteUnits_controls (n : Nat) :
    quoteUnits (List.replicate n 0x01) = (List.replicate n (quoteUnit 0x01)).flatten := by
  induction n with
  | zero => rfl
  | succ n ih =>
    cases n with
    | zero => rfl
    | succ n =>
      rw [List.replicate_succ, List.replicate_succ, quoteUnits, if_neg (by decide), ← List.replicate_succ, ih]
      rfl

/-- A control character takes six bytes. -/
theorem excerptCost_controls (n : Nat) : excerptCost (List.replicate n 0x01) = (6 * n + 4) / 3 + 100 := by
  have hascii : ∀ u ∈ quote (List.replicate n 0x01), u < 0x80 := by
    rw [quote, quoteUnits_controls]
    intro u hu
    simp only [List.mem_cons, List.mem_append, List.mem_flatten, List.mem_replicate, List.not_mem_nil, or_false] at hu
    have hunit : ∀ u ∈ quoteUnit 0x01, u < 0x80 := by
      intro u hu
      have hall : (quoteUnit 0x01).all (· < 0x80) = true := rfl
      simpa using List.all_eq_true.mp hall u hu
    rcases hu with rfl | ⟨l, ⟨-, rfl⟩, hu⟩ | rfl
    · decide
    · exact hunit u hu
    · decide
  have hlength : (quoteUnit 0x01).length = 6 := by decide
  rw [excerptCost, textTokens, byteLength_of_ascii hascii, quote, quoteUnits_controls, List.length_cons,
    List.length_append, List.length_flatten, List.map_replicate, List.sum_replicate_nat, hlength]
  simp only [List.length_singleton]
  omega

theorem overflows_controls (remaining n : Nat) : overflows remaining (List.replicate n 0x01) =
    (decide (remaining < (6 * n + 4) / 3 + 100) && decide (n ≠ 0)) := by
  rw [overflows, excerptCost_controls]
  congr 1
  exact decide_eq_decide.mpr (not_congr (List.replicate_eq_nil_iff _))

/-- The first page holds 1440 of the 1800 characters. -/
theorem fillPage_pagedText (terms : List Str) :
    fillPage plainTables .read terms [⟨pagedRecord, pagedText, 1, 0, 0⟩] 0 0 3650 =
      ([HistoryCandidate.excerpt ⟨pagedRecord, pagedText, 1, 0, 0⟩ 0 (pagedText.take 1440)], 0,
        1440) := by
  have hfit : fitExcerpt pagedText 0 7300 3650 = pagedText.take 1440 := by
    have hslice : slice pagedText 0 (0 + 7300) = List.replicate (1798 + 1 + 1) 0x01 := by
      rw [slice, List.drop_zero, pagedText, List.take_replicate]
      exact congrArg (List.replicate · 0x01) (by decide)
    rw [fitExcerpt, hslice, shrink, List.length_replicate, shrinkRounds, if_pos (by rw [overflows_controls]; decide),
      List.length_replicate, List.take_replicate, shrinkRounds, if_neg (by rw [overflows_controls]; decide), pagedText,
      List.take_replicate]
  have hshort : ¬ pagedText.take 1440 = [] ∧ (pagedText.take 1440).length = 1440 ∧
      1440 < pagedText.length := by
    have hlength : pagedText.length = 1800 := List.length_replicate
    have htake : (pagedText.take 1440).length = 1440 := by rw [List.length_take, hlength]; rfl
    exact ⟨List.ne_nil_of_length_pos (by omega), htake, by omega⟩
  simp only [fillPage, hfit, hshort, ↓reduceIte, Nat.zero_add, and_self]

/-- Where the session's ID takes the cursor over its bound, the price fails, as the read does. -/
theorem not_readTokens_longSession :
    OnlyRecord (pagedSnapshot (List.replicate 1500 0x61)) pagedRecord 0 ∧
      (pagedRecord.id ≠ [] ∧ pagedRecord.id.length ≤ 64) ∧ sourceText pagedRecord ≠ [] ∧
      (readTokens plainTables oneHash (pagedSnapshot (List.replicate 1500 0x61)) pagedRecord
        0).isOk = false := by
  refine ⟨pagedRecord_only _, pagedRecord_id, sourceText_pagedRecord ▸ pagedText_ne_nil, ?_⟩
  have hlong : 2000 < (cursorText (historyCursor (pagedSnapshot (List.replicate 1500 0x61))
      (querySignature oneHash (readRequest pagedRecord.id none)) 0 1440)).length := by decide +kernel
  generalize pagedSnapshot (List.replicate 1500 0x61) = snapshot at *
  obtain ⟨u, text, hcursor⟩ := List.exists_cons_of_ne_nil (cursorText_ne_nil (historyCursor snapshot
    (querySignature oneHash (readRequest pagedRecord.id none)) 0 1440))
  have hranked : readCandidates plainTables pagedRecord.id (snapshot.single pagedRecord).entries =
      [⟨pagedRecord, pagedText, 1, 0, 0⟩] := by
    rw [← sourceText_pagedRecord]
    exact readCandidates_single (sourceText_pagedRecord ▸ pagedText_ne_nil)
  have hask := @queryHistory_read_at plainTables oneHash (snapshot.single pagedRecord) _ _ none _ _
    pagedRecord_id (by simp) rfl (by rw [hranked]; simp) 4000
  rw [hranked] at hask
  obtain ⟨page, hask, hpage⟩ : ∃ page, readAsk plainTables oneHash (snapshot.single pagedRecord)
      pagedRecord.id 0 none = .ok page ∧ page.cursor = some (u :: text) := by
    refine ⟨_, hask, ?_⟩
    simp only [historyPage, List.drop_zero]
    rw [show (readRequest pagedRecord.id none).operation = .read from rfl,
      show pageTokens 4000 = 3650 from rfl, fillPage_pagedText]
    exact congrArg some hcursor
  rw [hcursor] at hlong
  rw [readTokens, sourceText_pagedRecord,
    if_neg (not_or.mpr ⟨pagedText_ne_nil, Nat.not_lt.mpr pagedRecord_id.2⟩),
    show pagedText.length = 1799 + 1 from List.length_replicate,
    show ({ snapshot with entries := [pagedRecord] } : HistorySnapshot) = snapshot.single pagedRecord
      from rfl, readPages_more hask hpage]
  unfold readPages
  rw [show queryHistory plainTables oneHash (snapshot.single pagedRecord) (HistoryQuery.json
    ⟨.read, none, some pagedRecord.id, some (u :: text), none⟩) 4000 = _ from
      readAsk_refused (show 2000 < plainTables.len (u :: text) from hlong) 1]
  rfl

/-- The price of a record that takes two pages. -/
theorem readTokens_eq_read_sample :
    ∃ result, Outcome (readAsk plainTables oneHash (pagedSnapshot (lit "s")) pagedRecord.id)
        HistoryPage.cursor 0 none result ∧
      readTokens plainTables oneHash (pagedSnapshot (lit "s")) pagedRecord 0 =
        result.map (fun pages => (pages.map pageCost).sum) ∧
      ∀ failure, result = .error failure → failure = .ofText "HISTORY_QUERY_INVALID" ∧
        CursorTooLong plainTables oneHash (pagedSnapshot (lit "s")) pagedRecord :=
  readTokens_eq_read (fun _ => Nat.le_refl _) (pagedRecord_only _) pagedRecord_id
    (sourceText_pagedRecord ▸ pagedText_ne_nil)
    (by rw [sourceText_pagedRecord]; decide +kernel)

end Compaction
