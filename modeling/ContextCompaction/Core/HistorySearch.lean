import ContextCompaction.Core.HistoryReads

/-!
# Searches

The pages of a search that a client gets by following cursors. Where an excerpt starts is found in
the text in lower case, which may be longer than the text itself, so a candidate can have an excerpt
that starts behind its text: its page is empty, and so is every page after it.

* `fillPage_search`: a page whose candidates start inside their texts.
* `givesEveryHit_of_inside`, `inside_of_givesEveryHit`: the two directions of
  `queryHistory_search_iff`.
-/

namespace Compaction

open Js Paging

/-- The request of a search. -/
def searchRequest (query : Str) (cursor : Option Str) : HistoryQuery :=
  ⟨.search, some query, none, cursor, none⟩

section

variable (t : TextTables) (sha256 : Sha256)

/-- The candidates of a search, in rank order. -/
def rankedHits (query : Str) (snapshot : HistorySnapshot) : List HistoryCandidate :=
  candidates t (searchRequest query none) (searchTerms t query) snapshot.entries

/-- The `k`-th request of a search. -/
def askSearch (snapshot : HistorySnapshot) (query : Str) (budgets : Nat → Nat) (k : Nat)
    (cursor : Option Str) : Except Failure HistoryPage :=
  queryHistory t sha256 snapshot (searchRequest query cursor).json (budgets k)

/-- The cursor that stands before a candidate. -/
def searchCursor (snapshot : HistorySnapshot) (query : Str) (index : Nat) : Str :=
  cursorText (historyCursor snapshot (querySignature sha256 (searchRequest query none)) index 0)

/-- The candidate that an excerpt shows. -/
def HistoryExcerpt.source (x : HistoryExcerpt) : Str × Option Str × Str × Nat :=
  (x.entryId, x.parentId, x.role, x.position)

def HistoryCandidate.source (c : HistoryCandidate) : Str × Option Str × Str × Nat :=
  (c.entry.id, c.entry.parentId, sourceRole c.entry, c.position)

/-- The pages of a search end, give every candidate once and in rank order with an excerpt that is
not empty, and none with a cursor is empty. -/
def GivesEveryHit (snapshot : HistorySnapshot) (query : Str) (budgets : Nat → Nat) : Prop :=
  ∃ pages, Follow (askSearch t sha256 snapshot query budgets) HistoryPage.cursor 0 none pages ∧
    (pages.flatMap HistoryPage.entries).map HistoryExcerpt.source =
      (rankedHits t query snapshot).map HistoryCandidate.source ∧
    (∀ x ∈ pages.flatMap HistoryPage.entries, x.text ≠ []) ∧
    ∀ page ∈ pages, page.cursor ≠ none → page.entries ≠ []

/-- The excerpt of a candidate starts inside its text. -/
def StartsInside (query : Str) (c : HistoryCandidate) : Prop :=
  excerptStart (t.lower c.text) (searchTerms t query) < c.text.length

instance (query : Str) (c : HistoryCandidate) : Decidable (StartsInside t query c) :=
  inferInstanceAs (Decidable (_ < _))

end

variable {t : TextTables} {sha256 : Sha256}

/-! ## Pages -/

/-- A page of a search: the next candidates, each with an excerpt. -/
theorem fillPage_search {query : Str} {cs : List HistoryCandidate}
    (hinside : ∀ c ∈ cs, StartsInside t query c) (index : Nat) {remaining : Nat}
    (hremaining : leastRemaining ≤ remaining) :
    ∃ consumed, consumed ≤ cs.length ∧ (cs ≠ [] → 0 < consumed) ∧
      (fillPage t .search (searchTerms t query) cs index 0 remaining).2 = (index + consumed, 0) ∧
      (fillPage t .search (searchTerms t query) cs index 0 remaining).1.map HistoryExcerpt.source =
        (cs.take consumed).map HistoryCandidate.source ∧
      ∀ x ∈ (fillPage t .search (searchTerms t query) cs index 0 remaining).1, x.text ≠ [] := by
  induction cs generalizing index remaining with
  | nil => exact ⟨0, Nat.le_refl _, fun h => absurd rfl h, rfl, rfl, by simp [fillPage]⟩
  | cons c rest ih =>
    obtain ⟨hne, -, -⟩ := fitExcerpt_spec 1400 (hinside c List.mem_cons_self) (by omega) hremaining
    unfold fillPage
    dsimp only
    rw [if_neg hne, if_neg fun h => by cases h.1]
    generalize fitExcerpt c.text (excerptStart (t.lower c.text) (searchTerms t query)) 1400
      remaining = text at *
    by_cases hfull : remaining - excerptCost text < 250
    · rw [if_pos hfull]
      exact ⟨1, by simp, by simp, rfl, rfl, by simpa [HistoryCandidate.excerpt] using hne⟩
    · rw [if_neg hfull]
      obtain ⟨consumed, hbound, -, hplace, hsources, htexts⟩ :=
        ih (fun c hc => hinside c (List.mem_cons_of_mem _ hc)) (index + 1)
          (show leastRemaining ≤ remaining - excerptCost text by unfold leastRemaining; omega)
      refine ⟨consumed + 1, by simpa using hbound, by simp, ?_, ?_, ?_⟩
      · rw [hplace, Nat.add_right_comm, Nat.add_assoc]
      · rw [List.map_cons, hsources]
        rfl
      · exact List.forall_mem_cons.mpr ⟨hne, htexts⟩

/-- With the least budget a page shows one candidate, or none if its excerpt starts behind its
text. -/
theorem fillPage_search_least (query : Str) (c : HistoryCandidate) (rest : List HistoryCandidate)
    (index : Nat) :
    (StartsInside t query c → ∃ x,
      fillPage t .search (searchTerms t query) (c :: rest) index 0 (pageTokens 0) =
        ([x], index + 1, 0)) ∧
    (¬ StartsInside t query c →
      fillPage t .search (searchTerms t query) (c :: rest) index 0 (pageTokens 0) =
        ([], index, 0)) := by
  unfold fillPage
  dsimp only
  constructor
  · intro h
    obtain ⟨hne, -, -⟩ := fitExcerpt_spec 1400 h (by omega) (pageTokens_ge 0)
    have hfull : pageTokens 0 - excerptCost (fitExcerpt c.text
        (excerptStart (t.lower c.text) (searchTerms t query)) 1400 (pageTokens 0)) < 250 :=
      Nat.lt_of_le_of_lt (Nat.sub_le _ _) (by decide)
    rw [if_neg hne, if_neg fun h => by cases h.1]
    exact ⟨_, if_pos hfull⟩
  · intro h
    rw [if_pos (fitExcerpt_nil (Nat.not_lt.mp h))]

/-! ## Requests -/

/-- The request that stands before the candidate at `index`. -/
def SearchPlace (sha256 : Sha256) (snapshot : HistorySnapshot) (query : Str) (cursor : Option Str)
    (index : Nat) : Prop :=
  (cursor = none ∧ index = 0) ∨ cursor = some (searchCursor sha256 snapshot query index)

section Run

variable {snapshot : HistorySnapshot} {query : Str}

theorem rankedHits_length (t : TextTables) (query : Str) (snapshot : HistorySnapshot) :
    (rankedHits t query snapshot).length ≤ snapshot.entries.length := by
  rw [rankedHits, candidates, List.length_insertionSort]
  exact (List.length_filterMap_le _ _).trans (Nat.le_of_eq List.length_zipIdx)

/-- The page at a place, if its cursor is admitted. -/
theorem askSearch_place (hquery : t.len query ≤ 1000) (hterms : searchTerms t query ≠ [])
    (hlimits : WithinLimits snapshot.entries) {cursor : Option Str} {index : Nat}
    (hplace : SearchPlace sha256 snapshot query cursor index)
    (hindex : index ≤ (rankedHits t query snapshot).length) (hfit : ∀ c ∈ cursor, t.len c ≤ 2000)
    (budgets : Nat → Nat) (k : Nat) :
    askSearch t sha256 snapshot query budgets k cursor =
      .ok (historyPage t snapshot (searchRequest query cursor)
        (querySignature sha256 (searchRequest query none)) (searchTerms t query)
        (rankedHits t query snapshot) index 0 (budgets k)) := by
  have hbounded : (searchRequest query cursor).Bounded t.len :=
    ⟨by simpa [searchRequest] using hquery, by simp [searchRequest],
      by simpa [searchRequest] using hfit, by simp [searchRequest]⟩
  have hsmall : index < 2 ^ 53 := by
    have := rankedHits_length t query snapshot
    have := hlimits.count
    omega
  have hopen : openCursor sha256 snapshot (querySignature sha256 (searchRequest query none)) cursor =
      .ok (snapshot, index, 0) := by
    rcases hplace with ⟨rfl, rfl⟩ | rfl
    · rfl
    · obtain ⟨-, -, hscope, -⟩ := read_historyCursor snapshot
        (querySignature sha256 (searchRequest query none)) hsmall (by omega : 0 < 2 ^ 53)
      exact openCursor_historyCursor _ hsmall (by omega) (if_pos hscope) rfl
  have hsignature : querySignature sha256 (searchRequest query cursor) =
      querySignature sha256 (searchRequest query none) := rfl
  have hranked : candidates t (searchRequest query cursor) (searchTerms t query) snapshot.entries =
      rankedHits t query snapshot := rfl
  rw [askSearch, queryHistory_json hbounded, runQuery, hsignature]
  refine bind_ok.mpr ⟨_, hopen, ?_⟩
  have hget : (searchRequest query cursor).query.getD [] = query := rfl
  have hread : ∀ p : Prop, ¬ ((searchRequest query cursor).operation = .read ∧ p) :=
    fun p h => by cases h.1
  dsimp only
  rw [hget, hranked, if_neg fun h => hterms h.2, if_neg (hread _), if_neg (hread _)]

/-- A cursor that the schema does not admit is refused. -/
theorem askSearch_refused {cursor : Str} (hlong : ¬ t.len cursor ≤ 2000) (budgets : Nat → Nat)
    (k : Nat) : askSearch t sha256 snapshot query budgets k (some cursor) =
      .error (.ofText "HISTORY_QUERY_INVALID") := by
  have hcheck : ¬ check t.len historyQuerySchema (searchRequest query (some cursor)).json = true :=
    fun h => hlong ((check_json.mp h).cursor cursor rfl)
  rw [askSearch, queryHistory, if_neg hcheck]

/-! ## Runs -/

/-- The pages of a search from a place on. -/
structure SearchPages (t : TextTables) (snapshot : HistorySnapshot) (query : Str) (_k index : Nat)
    (pages : List HistoryPage) : Prop where
  sources : (pages.flatMap HistoryPage.entries).map HistoryExcerpt.source =
    ((rankedHits t query snapshot).drop index).map HistoryCandidate.source
  texts : ∀ x ∈ pages.flatMap HistoryPage.entries, x.text ≠ []
  nonempty : ∀ page ∈ pages, page.cursor ≠ none → page.entries ≠ []

/-- Where every excerpt starts inside its text and every cursor is admitted, the pages give every
hit. -/
theorem givesEveryHit_of_inside (hquery : t.len query ≤ 1000) (hterms : searchTerms t query ≠ [])
    (hlimits : WithinLimits snapshot.entries)
    (hinside : ∀ c ∈ rankedHits t query snapshot, StartsInside t query c)
    (hfit : ∀ index, 0 < index → index < (rankedHits t query snapshot).length →
      t.len (searchCursor sha256 snapshot query index) ≤ 2000) (budgets : Nat → Nat) :
    GivesEveryHit t sha256 snapshot query budgets := by
  have hstart : ∃ pages, Follow (askSearch t sha256 snapshot query budgets) HistoryPage.cursor 0 none
      pages ∧ SearchPages t snapshot query 0 0 pages := by
    refine Follow.of_measure
      (fun _ cursor index => SearchPlace sha256 snapshot query cursor index ∧
        index ≤ (rankedHits t query snapshot).length ∧ ∀ c ∈ cursor, t.len c ≤ 2000)
      (SearchPages t snapshot query) (fun index => (rankedHits t query snapshot).length - index) ?_
      ⟨.inl ⟨rfl, rfl⟩, Nat.zero_le _, by simp⟩
    rintro k cursor index ⟨hplace, hindex, hlen⟩
    have hrest : ∀ c ∈ (rankedHits t query snapshot).drop index, StartsInside t query c :=
      fun c hc => hinside c (List.mem_of_mem_drop hc)
    obtain ⟨consumed, hbound, hprogress, hfilled, hsources, htexts⟩ :=
      fillPage_search hrest index (pageTokens_ge (budgets k))
    rw [List.length_drop] at hbound
    refine ⟨_, askSearch_place hquery hterms hlimits hplace hindex hlen budgets k, ?_⟩
    have hcut : ((rankedHits t query snapshot).drop index).take consumed ++
        (rankedHits t query snapshot).drop (index + consumed) =
          (rankedHits t query snapshot).drop index := by
      rw [← List.drop_drop, List.take_append_drop]
    by_cases hmore : index + consumed < (rankedHits t query snapshot).length
    · have hpos : 0 < consumed := hprogress (by rw [ne_eq, List.drop_eq_nil_iff]; omega)
      have hcursor : (historyPage t snapshot (searchRequest query cursor)
          (querySignature sha256 (searchRequest query none)) (searchTerms t query)
          (rankedHits t query snapshot) index 0 (budgets k)).cursor =
            some (searchCursor sha256 snapshot query (index + consumed)) := by
        simp only [historyPage, searchRequest, hfilled, if_pos hmore]
        rfl
      refine .inr ⟨_, index + consumed, hcursor, ⟨.inr rfl, Nat.le_of_lt hmore, ?_⟩, by omega, ?_⟩
      · intro c hc
        obtain rfl := Option.some.inj hc
        exact hfit _ (by omega) hmore
      · intro pages hpages
        refine ⟨?_, ?_, List.forall_mem_cons.mpr ⟨fun _ => ?_, hpages.nonempty⟩⟩
        · rw [List.flatMap_cons, List.map_append, hpages.sources, ← hcut, List.map_append]
          exact congrArg (· ++ _) hsources
        · rw [List.flatMap_cons]
          intro x hx
          exact (List.mem_append.mp hx).elim (htexts x) (hpages.texts x)
        · intro hnil
          have hlen := congrArg List.length hsources
          rw [List.length_map, List.length_map, List.length_take, List.length_drop] at hlen
          have hzero := congrArg List.length hnil
          simp only [historyPage, searchRequest, List.length_nil] at hzero
          omega
    · have hcursor : (historyPage t snapshot (searchRequest query cursor)
          (querySignature sha256 (searchRequest query none)) (searchTerms t query)
          (rankedHits t query snapshot) index 0 (budgets k)).cursor = none := by
        simp only [historyPage, searchRequest, hfilled, if_neg hmore]
      refine .inl ⟨hcursor, ?_, ?_, by simp [hcursor]⟩
      · rw [List.flatMap_singleton, ← hcut, List.drop_of_length_le (Nat.not_lt.mp hmore),
          List.append_nil]
        exact hsources
      · rw [List.flatMap_singleton]
        exact htexts
  obtain ⟨pages, hfollow, hpages⟩ := hstart
  exact ⟨pages, hfollow, hpages.sources, hpages.texts, hpages.nonempty⟩

/-- A page under the least budget, if it is empty only without a cursor: it shows the candidate at its
place. -/
theorem askSearch_least (hquery : t.len query ≤ 1000) (hterms : searchTerms t query ≠ [])
    (hlimits : WithinLimits snapshot.entries) {k : Nat} {cursor : Option Str} {page : HistoryPage}
    (hask : askSearch t sha256 snapshot query (fun _ => 0) k cursor = .ok page)
    (hnonempty : page.cursor ≠ none → page.entries ≠ []) {index : Nat}
    (hplace : SearchPlace sha256 snapshot query cursor index)
    (hindex : index ≤ (rankedHits t query snapshot).length) :
    (∀ c ∈ cursor, t.len c ≤ 2000) ∧
      (∀ c ∈ (rankedHits t query snapshot)[index]?, StartsInside t query c) ∧
      page.cursor = if index + 1 < (rankedHits t query snapshot).length then
        some (searchCursor sha256 snapshot query (index + 1)) else none := by
  have hfit : ∀ c ∈ cursor, t.len c ≤ 2000 := by
    rintro c rfl
    by_contra hlong
    rw [askSearch_refused hlong] at hask
    cases hask
  rw [askSearch_place hquery hterms hlimits hplace hindex hfit] at hask
  obtain rfl := Except.ok.inj hask
  refine ⟨hfit, ?_⟩
  cases hdrop : (rankedHits t query snapshot).drop index with
  | nil =>
    have hend := List.drop_eq_nil_iff.mp hdrop
    refine ⟨by simp [List.getElem?_eq_none hend], ?_⟩
    have hsame : index = (rankedHits t query snapshot).length := Nat.le_antisymm hindex hend
    simp only [historyPage, searchRequest, hdrop, fillPage]
    rw [if_neg (by omega), if_neg (by omega)]
  | cons c rest =>
    have hlt : index < (rankedHits t query snapshot).length := by
      by_contra hge
      rw [List.drop_of_length_le (Nat.not_lt.mp hge)] at hdrop
      cases hdrop
    have hc : (rankedHits t query snapshot)[index]? = some c := by
      rw [← List.head?_drop, hdrop, List.head?_cons]
    obtain ⟨hshown, hempty⟩ := fillPage_search_least (t := t) query c rest index
    by_cases hinside : StartsInside t query c
    · obtain ⟨x, hx⟩ := hshown hinside
      refine ⟨by simpa [hc] using hinside, ?_⟩
      simp only [historyPage, searchRequest, hdrop, hx]
      rfl
    · -- An empty page that carries a cursor.
      have hfilled := hempty hinside
      refine absurd ?_ (hnonempty ?_)
      · simp only [historyPage, searchRequest, hdrop, hfilled]
      · simp only [historyPage, searchRequest, hdrop, hfilled, if_pos hlt]
        simp

/-- A run under the least budget shows one candidate on each page, so it meets every start and every
cursor. -/
theorem inside_of_follow (hquery : t.len query ≤ 1000) (hterms : searchTerms t query ≠ [])
    (hlimits : WithinLimits snapshot.entries) {k : Nat} {cursor : Option Str}
    {pages : List HistoryPage}
    (hfollow : Follow (askSearch t sha256 snapshot query fun _ => 0) HistoryPage.cursor k cursor pages)
    (hnonempty : ∀ page ∈ pages, page.cursor ≠ none → page.entries ≠ []) {index : Nat}
    (hplace : SearchPlace sha256 snapshot query cursor index)
    (hindex : index ≤ (rankedHits t query snapshot).length) :
    (∀ c ∈ cursor, t.len c ≤ 2000) ∧
      ∀ j, index ≤ j → (∀ c ∈ (rankedHits t query snapshot)[j]?, StartsInside t query c) ∧
        (index < j → j < (rankedHits t query snapshot).length →
          t.len (searchCursor sha256 snapshot query j) ≤ 2000) := by
  induction hfollow generalizing index with
  | last hask hnone =>
    obtain ⟨hfit, hinside, hcursor⟩ := askSearch_least hquery hterms hlimits hask
      (hnonempty _ List.mem_cons_self) hplace hindex
    have hend : ¬ index + 1 < (rankedHits t query snapshot).length := by
      intro hmore
      rw [if_pos hmore, hnone] at hcursor
      cases hcursor
    refine ⟨hfit, fun j hj => ⟨?_, by omega⟩⟩
    rcases Nat.eq_or_lt_of_le hj with rfl | hlt
    · exact hinside
    · simp [List.getElem?_eq_none (show (rankedHits t query snapshot).length ≤ j by omega)]
  | more hask hsome hrest ih =>
    obtain ⟨hfit, hinside, hcursor⟩ := askSearch_least hquery hterms hlimits hask
      (hnonempty _ List.mem_cons_self) hplace hindex
    have hmore : index + 1 < (rankedHits t query snapshot).length := by
      by_contra hend
      rw [if_neg hend, hsome] at hcursor
      cases hcursor
    rw [if_pos hmore, hsome] at hcursor
    obtain ⟨hnext, hall⟩ := ih (fun page hpage => hnonempty page (List.mem_cons_of_mem _ hpage))
      (.inr hcursor) (Nat.le_of_lt hmore)
    refine ⟨hfit, fun j hj => ?_⟩
    rcases Nat.eq_or_lt_of_le hj with rfl | hlt
    · exact ⟨hinside, fun h => absurd h (Nat.lt_irrefl _)⟩
    · refine ⟨(hall j hlt).1, fun _ hj' => ?_⟩
      rcases Nat.eq_or_lt_of_le hlt with rfl | hlt'
      · exact hnext _ hcursor
      · exact (hall j hlt).2 hlt' hj'

/-- The pages of a search give every hit under all budgets exactly if each hit's excerpt starts
inside its text and each cursor between two hits is admitted. -/
theorem queryHistory_search_iff (hquery : t.len query ≤ 1000) (hterms : searchTerms t query ≠ [])
    (hlimits : WithinLimits snapshot.entries) :
    (∀ budgets, GivesEveryHit t sha256 snapshot query budgets) ↔
      (∀ c ∈ rankedHits t query snapshot, StartsInside t query c) ∧
        ∀ index, 0 < index → index < (rankedHits t query snapshot).length →
          t.len (searchCursor sha256 snapshot query index) ≤ 2000 := by
  constructor
  · intro h
    obtain ⟨pages, hfollow, -, -, hnonempty⟩ := h fun _ => 0
    obtain ⟨-, hall⟩ := inside_of_follow hquery hterms hlimits hfollow hnonempty (.inl ⟨rfl, rfl⟩)
      (Nat.zero_le _)
    refine ⟨fun c hc => ?_, fun index hpos hlt => (hall index (Nat.zero_le _)).2 hpos hlt⟩
    obtain ⟨j, hj⟩ := List.mem_iff_getElem?.mp hc
    exact (hall j (Nat.zero_le _)).1 c hj
  · rintro ⟨hinside, hfit⟩ budgets
    exact givesEveryHit_of_inside hquery hterms hlimits hinside hfit budgets

end Run

/-! ### Two searches -/

/-- Lower case for one letter, which becomes two units. -/
def dottedLower (s : Str) : Str := s.flatMap fun u => if u = 0x130 then [0x69, 0x307] else [u]

def dottedTables : TextTables :=
  ⟨List.length, dottedLower, fun point => decide (point ≠ [0x20]), fun _ => false⟩

/-- A hit behind many such letters. -/
def dottedHistory : HistorySnapshot :=
  freezeBranch sizeHash (lit "s") [userRecord (lit "a") (List.replicate 121 0x130 ++ lit "x")]

/-- The only hit is never shown. -/
theorem not_givesEveryHit_dotted :
    searchTerms dottedTables (lit "x") ≠ [] ∧
      (rankedHits dottedTables (lit "x") dottedHistory).length = 1 ∧
      ¬ GivesEveryHit dottedTables sizeHash dottedHistory (lit "x") fun _ => 0 := by
  refine ⟨by decide +kernel, by decide +kernel, ?_⟩
  rintro ⟨pages, hfollow, -, -, hnonempty⟩
  obtain ⟨-, hall⟩ := inside_of_follow (by decide) (by decide +kernel)
    ⟨by simp [dottedHistory, freezeBranch], by
      simp [dottedHistory, freezeBranch, userRecord]; decide⟩
    hfollow hnonempty (.inl ⟨rfl, rfl⟩) (Nat.zero_le _)
  have hstart := (hall 0 (Nat.le_refl _)).1
  revert hstart
  decide +kernel

/-- Two records that hold a word. -/
def twoHits : HistorySnapshot :=
  freezeBranch sizeHash (lit "s")
    [userRecord (lit "a") (lit "red fox"), userRecord (lit "b") (lit "a fox")]

theorem queryHistory_search_iff_twoHits :
    GivesEveryHit plainTables sizeHash twoHits (lit "fox") fun _ => 4000 := by
  refine (queryHistory_search_iff (by decide) (by decide +kernel) ?_).mpr ⟨?_, ?_⟩ _
  · exact ⟨by simp [twoHits, freezeBranch], by
      simp [twoHits, freezeBranch, userRecord]; decide⟩
  · decide +kernel
  · have hlen : (rankedHits plainTables (lit "fox") twoHits).length = 2 := by decide +kernel
    intro index hpos hlt
    obtain rfl : index = 1 := by omega
    decide +kernel

-- The newer of two equal hits comes first.
example : (rankedHits plainTables (lit "fox") twoHits).map (fun c => c.entry.id) = [lit "b", lit "a"] := by
  decide +kernel

end Compaction
