import ContextCompaction.Core.HistoryReads
import ContextCompaction.Core.HistoryView
import ContextCompaction.Js.QuotedWidth

/-!
# Lists

The pages of a typed list that a client gets by following cursors, while records are appended to the
branch.

* `readTokens_ok`: the price of a record whose read continues.
* `fillView_ok`: a page returns its first item at any size.
* `listHistory_pages`: the pages give the items of the original branch, each once.
-/

namespace Compaction

open Js Paging

variable {t : TextTables} {sha256 : Sha256}

/-! ## Prices -/

/-- A record whose price can be computed: nothing is read of it, or every page of its read is
answered. -/
def Priceable (t : TextTables) (sha256 : Sha256) (snapshot : HistorySnapshot) (entry : SessionRecord) :
    Prop :=
  sourceText entry ≠ [] → entry.id.length ≤ 64 → entry.id ≠ [] ∧
    ∀ offset, 0 < offset → offset < (sourceText entry).length →
      t.len (cursorText (historyCursor snapshot (querySignature sha256 (readRequest entry.id none)) 0
        offset)) ≤ 2000

/-- The request of a price that stands before an offset. -/
def PricePlace (sha256 : Sha256) (snapshot : HistorySnapshot) (id : Str) (cursor : Option Str)
    (offset : Nat) : Prop :=
  (cursor = none ∧ offset = 0) ∨ (0 < offset ∧ cursor =
    some (cursorText (historyCursor snapshot (querySignature sha256 (readRequest id none)) 0 offset)))

/-- A read of the only record has one candidate. -/
theorem readCandidates_single {entry : SessionRecord} (h : sourceText entry ≠ []) :
    readCandidates t entry.id [entry] = [⟨entry, sourceText entry, 1, 0, 0⟩] := by
  simp [readCandidates, candidates, candidateOf_read, h]

section Price

variable {snapshot : HistorySnapshot} {entry : SessionRecord}

/-- The request of a place opens the snapshot there. -/
theorem openCursor_place {id : Str} {cursor : Option Str} {offset : Nat}
    (hplace : PricePlace sha256 snapshot id cursor offset) (hsmall : offset < 2 ^ 53) :
    openCursor sha256 snapshot (querySignature sha256 (readRequest id none)) cursor =
      .ok (snapshot, 0, offset) := by
  rcases hplace with ⟨rfl, rfl⟩ | ⟨-, rfl⟩
  · rfl
  · obtain ⟨-, -, hscope, -⟩ := read_historyCursor snapshot
      (querySignature sha256 (readRequest id none)) (show 0 < 2 ^ 53 by omega) hsmall
    exact openCursor_historyCursor _ (by omega) hsmall (if_pos hscope) rfl

/-- One page of a price, at a cursor within its bound: it reads on. -/
theorem pricePage_at (hentries : snapshot.entries = [entry]) (htext : sourceText entry ≠ [])
    (hlimit : (sourceText entry).length < 2 ^ 53) (hid : entry.id ≠ [] ∧ t.len entry.id ≤ 64)
    {cursor : Option Str} {offset : Nat} (hplace : PricePlace sha256 snapshot entry.id cursor offset)
    (hcursor : ∀ c ∈ cursor, t.len c ≤ 2000) (hoffset : offset < (sourceText entry).length)
    (budget : Nat) :
    ∃ page, queryHistory t sha256 snapshot (readRequest entry.id cursor).json budget = .ok page ∧
      (page.cursor = none ∨ ∃ offset', offset < offset' ∧ offset' < (sourceText entry).length ∧
        page.cursor = some (cursorText (historyCursor snapshot
          (querySignature sha256 (readRequest entry.id none)) 0 offset'))) := by
  have hopen := openCursor_place hplace (hoffset.trans hlimit)
  have hranked : readCandidates t entry.id snapshot.entries =
      [⟨entry, sourceText entry, 1, 0, 0⟩] := by
    rw [hentries]
    exact readCandidates_single htext
  refine ⟨_, queryHistory_read_at hid hcursor hopen (by rw [hranked]; simp) budget, ?_⟩
  rw [hranked]
  have htexts : ∀ c ∈ [(⟨entry, sourceText entry, 1, 0, 0⟩ : HistoryCandidate)], c.text ≠ [] := by
    simpa using htext
  obtain ⟨consumed, hindex, hbound, hadvance, hstart, -, hprogress⟩ :=
    fillPage_read (t := t) (searchTerms t []) htexts 0 (pageTokens_ge budget) hoffset
  simp only [historyPage, readRequest, List.drop_zero, List.length_singleton] at *
  by_cases hmore : 0 + consumed < 1
  · -- The page ends inside the text, behind what it shows.
    obtain rfl : consumed = 0 := by omega
    rw [List.drop_zero] at hadvance hstart
    have hunits := hadvance.units
    obtain ⟨x, xs, hx⟩ := List.exists_cons_of_ne_nil (hprogress (by simp))
    have hpos := List.length_pos_iff.mpr (hadvance.texts x (hx ▸ List.mem_cons_self))
    rw [hx, List.map_cons, List.sum_cons] at hunits
    refine .inr ⟨_, ?_, hstart, ?_⟩
    · omega
    · rw [hindex, if_pos hmore]
  · exact .inl (by rw [hindex, if_neg hmore])

/-- One page of a price: it reads on. -/
theorem pricePage_ok (hentries : snapshot.entries = [entry]) (htext : sourceText entry ≠ [])
    (hlimit : (sourceText entry).length < 2 ^ 53) (hid : entry.id ≠ [] ∧ t.len entry.id ≤ 64)
    (hfit : ∀ offset, 0 < offset → offset < (sourceText entry).length →
      t.len (cursorText (historyCursor snapshot (querySignature sha256 (readRequest entry.id none)) 0
        offset)) ≤ 2000)
    {cursor : Option Str} {offset : Nat} (hplace : PricePlace sha256 snapshot entry.id cursor offset)
    (hoffset : offset < (sourceText entry).length) (budget : Nat) :
    ∃ page, queryHistory t sha256 snapshot (readRequest entry.id cursor).json budget = .ok page ∧
      (page.cursor = none ∨ ∃ offset', offset < offset' ∧ offset' < (sourceText entry).length ∧
        page.cursor = some (cursorText (historyCursor snapshot
          (querySignature sha256 (readRequest entry.id none)) 0 offset'))) := by
  refine pricePage_at hentries htext hlimit hid hplace ?_ hoffset budget
  rcases hplace with ⟨rfl, -⟩ | ⟨hpos, rfl⟩
  · simp
  · intro c hc
    obtain rfl := Option.some.inj hc
    exact hfit offset hpos hoffset

/-- The pages of a price end. -/
theorem readPages_ok (hentries : snapshot.entries = [entry]) (htext : sourceText entry ≠ [])
    (hlimit : (sourceText entry).length < 2 ^ 53) (hid : entry.id ≠ [] ∧ t.len entry.id ≤ 64)
    (hfit : ∀ offset, 0 < offset → offset < (sourceText entry).length →
      t.len (cursorText (historyCursor snapshot (querySignature sha256 (readRequest entry.id none)) 0
        offset)) ≤ 2000) (position fuel : Nat) {cursor : Option Str} {offset : Nat} (tokens : Nat)
    (hplace : PricePlace sha256 snapshot entry.id cursor offset)
    (hoffset : offset < (sourceText entry).length) (hfuel : (sourceText entry).length - offset ≤ fuel) :
    ∃ n, readPages t sha256 snapshot entry.id position fuel cursor tokens = .ok n := by
  induction fuel generalizing cursor offset tokens with
  | zero => omega
  | succ fuel ih =>
    obtain ⟨page, hask, hnext⟩ := pricePage_ok hentries htext hlimit hid hfit hplace hoffset 4000
    unfold readPages
    rw [show (⟨.read, none, some entry.id, cursor, none⟩ : HistoryQuery) = readRequest entry.id cursor
      from rfl, hask]
    rcases hnext with hnone | ⟨offset', hlt, hoffset', hsome⟩
    · simp only [bind, Except.bind, hnone]
      exact ⟨_, rfl⟩
    · obtain ⟨u, text, hcursor⟩ := List.exists_cons_of_ne_nil (cursorText_ne_nil (historyCursor snapshot
        (querySignature sha256 (readRequest entry.id none)) 0 offset'))
      have hplace' : PricePlace sha256 snapshot entry.id (some (u :: text)) offset' :=
        .inr ⟨by omega, by rw [hcursor]⟩
      rw [hcursor] at hsome
      simp only [bind, Except.bind, hsome]
      exact ih _ hplace' hoffset' (by omega)

/-- The price of a record that can be priced. -/
theorem readTokens_ok (hlen : ∀ s, t.len s ≤ s.length) (hlimit : (sourceText entry).length < 2 ^ 53)
    (hprice : Priceable t sha256 snapshot entry) (position : Nat) :
    ∃ n, readTokens t sha256 snapshot entry position = .ok n := by
  unfold readTokens
  by_cases hnone : sourceText entry = [] ∨ 64 < entry.id.length
  · rw [if_pos hnone]
    exact ⟨0, rfl⟩
  · rw [if_neg hnone]
    obtain ⟨htext, hshort⟩ := not_or.mp hnone
    obtain ⟨hid, hfit⟩ := hprice htext (Nat.not_lt.mp hshort)
    have hentries : ({ snapshot with entries := [entry] } : HistorySnapshot).entries = [entry] := rfl
    exact readPages_ok hentries htext hlimit ⟨hid, (hlen _).trans (Nat.not_lt.mp hshort)⟩ hfit position
      _ 0 (.inl ⟨rfl, rfl⟩) (List.length_pos_iff.mpr htext) (Nat.le_refl _)

end Price

/-- An item whose records can be priced. -/
theorem priceItem_ok {snapshot : HistorySnapshot} (hlen : ∀ s, t.len s ≤ s.length)
    (hlimits : ∀ entry ∈ snapshot.entries, (sourceText entry).length < 2 ^ 53) {draft : ViewDraft}
    (hprice : ∀ source ∈ draft.priced, ∀ entry, snapshot.entries[source.2]? = some entry →
      Priceable t sha256 snapshot entry) (inContext : Str → Bool) :
    ∃ item, priceItem t sha256 snapshot inContext draft = .ok item ∧ item.draft = draft := by
  have hcost : ∀ source ∈ draft.priced, ∃ n, costAt t sha256 snapshot source.2 = .ok n := by
    intro source hsource
    unfold costAt
    cases hentry : snapshot.entries[source.2]? with
    | none => exact ⟨0, rfl⟩
    | some entry =>
      exact readTokens_ok hlen (hlimits entry (List.mem_of_getElem? hentry))
        (hprice source hsource entry hentry) source.2
  have hcosts : ∀ sources : List (Str × Nat),
      (∀ source ∈ sources, ∃ n, costAt t sha256 snapshot source.2 = .ok n) →
      ∃ costs, sources.mapM (fun source => costAt t sha256 snapshot source.2) = .ok costs := by
    intro sources h
    induction sources with
    | nil => exact ⟨[], rfl⟩
    | cons source sources ih =>
      obtain ⟨n, hn⟩ := h source List.mem_cons_self
      obtain ⟨costs, hrest⟩ := ih fun s hs => h s (List.mem_cons_of_mem _ hs)
      exact ⟨n :: costs, by rw [List.mapM_cons, hn, hrest]; rfl⟩
  obtain ⟨costs, hsum⟩ := hcosts draft.priced hcost
  exact ⟨_, by rw [priceItem, hsum]; rfl, rfl⟩

/-! ## Pages -/

/-- A page of priced items: the next ones, at least one if there are any. -/
theorem fillView_ok {price : ViewDraft → Except Failure HistoryViewItem} {drafts : List ViewDraft}
    (hprice : ∀ draft ∈ drafts, ∃ item, price draft = .ok item ∧ item.draft = draft) (started : Bool)
    (index : Nat) (remaining : Int) :
    ∃ filled consumed, fillView price started drafts index remaining = .ok (filled, index + consumed) ∧
      consumed ≤ drafts.length ∧ filled.map HistoryViewItem.draft = drafts.take consumed ∧
      (started = false → drafts ≠ [] → 0 < consumed) := by
  induction drafts generalizing started index remaining with
  | nil => exact ⟨[], 0, rfl, Nat.le_refl _, rfl, fun _ h => absurd rfl h⟩
  | cons draft drafts ih =>
    obtain ⟨item, hitem, hdraft⟩ := hprice draft List.mem_cons_self
    rw [fillView, hitem]
    simp only [bind, Except.bind]
    by_cases hstop : remaining < textTokens (stringify item.json) ∧ started = true
    · rw [if_pos hstop]
      exact ⟨[], 0, rfl, Nat.zero_le _, rfl, fun h => by rw [hstop.2] at h; cases h⟩
    · rw [if_neg hstop]
      obtain ⟨filled, consumed, hfill, hbound, hdrafts, -⟩ :=
        ih (fun d hd => hprice d (List.mem_cons_of_mem _ hd)) true (index + 1)
          (remaining - textTokens (stringify item.json))
      rw [hfill]
      refine ⟨item :: filled, consumed + 1, ?_, by simpa using hbound, ?_, fun _ _ => Nat.succ_pos _⟩
      · rw [Nat.add_right_comm, Nat.add_assoc]
      · rw [List.map_cons, hdraft, hdrafts, List.take_succ_cons]

/-! ## Cursors -/

/-- A cursor of a list is read back as it was written. -/
theorem read_listCursor (snapshot : HistorySnapshot) (signature : Str) {index : Nat}
    (hindex : index < 2 ^ 53) :
    (listCursor snapshot signature index).normal = listCursor snapshot signature index ∧
      cursorStr? (listCursor snapshot signature index) "sessionId" = some snapshot.sessionId ∧
      cursorStr? (listCursor snapshot signature index) "leafId" = snapshot.leafId ∧
      cursorStr? (listCursor snapshot signature index) "scope" = some snapshot.scopeHash ∧
      cursorStr? (listCursor snapshot signature index) "signature" = some signature ∧
      cursorIndex? (listCursor snapshot signature index) "index" = some index := by
  have hkeys : ∀ k ∈ [lit "sessionId", lit "leafId", lit "scope", lit "signature", lit "index"],
      indexKey k = none := by decide +kernel
  have hleaf : (orNull snapshot.leafId).str? = snapshot.leafId := by cases snapshot.leafId <;> rfl
  have hsafe : isSafe index = true := by simpa [isSafe] using hindex
  refine ⟨Json.normal_obj (by simp) (by simpa using hkeys) ?_, ?_⟩
  · simp only [List.forall_mem_cons, List.not_mem_nil, false_implies, implies_true, normal_orNull,
      Json.normal_ofNat hindex, Json.normal_str, and_self]
  · simp [cursorStr?, cursorIndex?, listCursor, hleaf, count?_ofNat hindex, Option.filter, hsafe]

/-- An issued cursor opens at its index over the snapshot it pins. -/
theorem openListCursor_listCursor {issued snapshot pinned : HistorySnapshot} (signature : Str)
    {index : Nat} (hindex : index < 2 ^ 53)
    (hpin : pinSnapshot sha256 snapshot (listCursor issued signature index) = .ok pinned)
    (hsession : issued.sessionId = snapshot.sessionId) :
    openListCursor sha256 snapshot signature (some (cursorText (listCursor issued signature index))) =
      .ok (pinned, index) := by
  obtain ⟨hnormal, hs, -, -, hsig, hi⟩ := read_listCursor issued signature hindex
  have hdecode := decodeCursor_cursorText (listCursor issued signature index)
  rw [hnormal] at hdecode
  obtain ⟨u, text, htext⟩ := List.exists_cons_of_ne_nil
    (cursorText_ne_nil (listCursor issued signature index))
  rw [htext] at hdecode ⊢
  simp only [openListCursor, hdecode, hi, hs, hsession, hsig, and_self, ↓reduceIte, hpin]
  rfl

/-! ## Runs -/

theorem viewItems_nil (kind : HistoryViewKind) (terms : List Str) : viewItems t kind terms [] = [] := by
  have hall : allItems t kind terms [] = [] := by cases kind <;> rfl
  rw [viewItems, hall]
  rfl

theorem viewItems_sorted (kind : HistoryViewKind) (terms : List Str) (entries : List SessionRecord) :
    (viewItems t kind terms entries).Pairwise fun a b => newest b ≤ newest a := by
  have : Std.Total fun a b : ViewDraft => newest b ≤ newest a := ⟨fun a b => Nat.le_total _ _⟩
  have : IsTrans ViewDraft fun a b => newest b ≤ newest a := ⟨fun a b c hab hbc => hbc.trans hab⟩
  exact List.pairwise_insertionSort _ _

/-- The `k`-th request of a list. -/
def askList (t : TextTables) (sha256 : Sha256) (sessionId : Str) (branch : List SessionRecord)
    (appended : Nat → List SessionRecord) (kind : HistoryViewKind) (query : Option Str)
    (budgets : Nat → Nat) (inContext : Nat → Str → Bool) (k : Nat) (cursor : Option Str) :
    Except Failure HistoryViewPage :=
  listHistory t sha256 (freezeBranch sha256 sessionId (grownBranch branch appended k)) (some kind) query
    cursor (budgets k) (inContext k)

section Run

variable {sessionId : Str} {branch : List SessionRecord} {appended : Nat → List SessionRecord}
  {kind : HistoryViewKind} {query : Option Str}

/-- The request that stands before an item of the original branch. -/
def ListPlace (sha256 : Sha256) (sessionId : Str) (branch : List SessionRecord)
    (kind : HistoryViewKind) (query : Option Str) (k : Nat) (cursor : Option Str) (index : Nat) : Prop :=
  (k = 0 ∧ cursor = none ∧ index = 0) ∨ (branch ≠ [] ∧ cursor = some (cursorText (listCursor
    (freezeBranch sha256 sessionId branch) (listSignature sha256 kind query) index)))

/-- Whatever has been appended, a request opens the original branch. -/
theorem ListPlace.opens {k : Nat} {cursor : Option Str} {index : Nat}
    (h : ListPlace sha256 sessionId branch kind query k cursor index) (hlast : LastIdOnce branch)
    (hcollision : ∀ k, hashEntries sha256 (grownBranch branch appended k) = hashEntries sha256 branch →
      grownBranch branch appended k = branch) (hindex : index < 2 ^ 53) :
    openListCursor sha256 (freezeBranch sha256 sessionId (grownBranch branch appended k))
      (listSignature sha256 kind query) cursor = .ok (freezeBranch sha256 sessionId branch, index) := by
  rcases h with ⟨rfl, rfl, rfl⟩ | ⟨hne, rfl⟩
  · rfl
  · obtain ⟨-, -, hleaf, hscope, -⟩ := read_listCursor (freezeBranch sha256 sessionId branch)
      (listSignature sha256 kind query) hindex
    have hpin := pinSnapshot_of_longer sessionId hne hlast
      (prefix_grownBranch branch appended (Nat.zero_le k)) hscope hleaf
    have hsame : (if hashEntries sha256 branch = hashEntries sha256 (grownBranch branch appended k) then
        freezeBranch sha256 sessionId (grownBranch branch appended k)
      else freezeBranch sha256 sessionId branch) = freezeBranch sha256 sessionId branch := by
      by_cases hhash : hashEntries sha256 branch = hashEntries sha256 (grownBranch branch appended k)
      · rw [if_pos hhash, hcollision k hhash.symm]
      · rw [if_neg hhash]
    rw [hsame] at hpin
    exact openListCursor_listCursor _ hindex hpin rfl

/-- The page of a request that opens the original branch. -/
theorem listHistory_page {snapshot pinned : HistorySnapshot} {cursor : Option Str} {index : Nat}
    (hopen : openListCursor sha256 snapshot (listSignature sha256 kind query) cursor =
      .ok (pinned, index)) {items : List ViewDraft}
    (hitems : viewItems t kind (viewTerms t (query.getD [])) pinned.entries = items) {budget : Nat}
    {inContext : Str → Bool} {filled : List HistoryViewItem × Nat}
    (hfill : fillView (priceItem t sha256 pinned inContext) false (items.drop index) index
      (pageTokens budget) = .ok filled) :
    listHistory t sha256 snapshot (some kind) query cursor budget inContext =
      .ok ⟨pinned.sessionId, pinned.leafId, pinned.scopeHash, kind, filled.1,
        if filled.2 < items.length then some (cursorText (listCursor pinned
          (listSignature sha256 kind query) filled.2)) else none,
        if filled.1 = [] then some (lit "No items of this kind on this branch. The list comes from earlier checkpoints and tool records and can miss what a writer left out; search before concluding the history lacks it.")
        else none⟩ := by
  unfold listHistory
  refine bind_ok.mpr ⟨_, hopen, ?_⟩
  dsimp only
  rw [hitems, viewPage, hfill]
  rfl

/-- The pages of a list from a place on. -/
structure ListPages (drafts : List ViewDraft) (_k index : Nat) (pages : List HistoryViewPage) : Prop where
  drafts : (pages.flatMap HistoryViewPage.items).map HistoryViewItem.draft = drafts.drop index
  nonempty : ∀ page ∈ pages, page.cursor ≠ none → page.items ≠ []

/-- A typed list pages exactly once over the items of the original branch, if its last ID occurs once
and its items can be priced. -/
theorem listHistory_pages (hlen : ∀ s, t.len s ≤ s.length) (hlast : LastIdOnce branch)
    (hlimits : (∀ entry ∈ branch, (sourceText entry).length < 2 ^ 53) ∧
      (viewItems t kind (viewTerms t (query.getD [])) branch).length < 2 ^ 32)
    (hcollision : ∀ k, hashEntries sha256 (grownBranch branch appended k) = hashEntries sha256 branch →
      grownBranch branch appended k = branch)
    (hprice : ∀ item ∈ viewItems t kind (viewTerms t (query.getD [])) branch, ∀ source ∈ item.priced,
      ∀ entry, branch[source.2]? = some entry →
        Priceable t sha256 (freezeBranch sha256 sessionId branch) entry)
    (budgets : Nat → Nat) (inContext : Nat → Str → Bool) :
    ∃ pages, Follow (askList t sha256 sessionId branch appended kind query budgets inContext)
        HistoryViewPage.cursor 0 none pages ∧
      (∀ page ∈ pages, page.cursor ≠ none → page.items ≠ []) ∧
      (pages.flatMap HistoryViewPage.items).map HistoryViewItem.draft =
        viewItems t kind (viewTerms t (query.getD [])) branch ∧
      (viewItems t kind (viewTerms t (query.getD [])) branch).Pairwise fun a b =>
        newest b ≤ newest a := by
  generalize hitems : viewItems t kind (viewTerms t (query.getD [])) branch = items at *
  have hrun : ∃ pages, Follow (askList t sha256 sessionId branch appended kind query budgets inContext)
      HistoryViewPage.cursor 0 none pages ∧ ListPages items 0 0 pages := by
    refine Follow.of_measure
      (fun k cursor index => ListPlace sha256 sessionId branch kind query k cursor index ∧
        index ≤ items.length) (ListPages items) (fun index => items.length - index) ?_
      ⟨.inl ⟨rfl, rfl, rfl⟩, Nat.zero_le _⟩
    rintro k cursor index ⟨hplace, hindex⟩
    have hopen := hplace.opens hlast hcollision (by omega)
    have hrest : ∀ draft ∈ items.drop index, ∃ item, priceItem t sha256
        (freezeBranch sha256 sessionId branch) (inContext k) draft = .ok item ∧ item.draft = draft :=
      fun draft hdraft => priceItem_ok hlen hlimits.1
        (hprice draft (List.mem_of_mem_drop hdraft)) (inContext k)
    obtain ⟨filled, consumed, hfill, hbound, hdrafts, hprogress⟩ :=
      fillView_ok hrest false index (pageTokens (budgets k))
    have hpage := listHistory_page hopen hitems hfill
    rw [List.length_drop] at hbound
    have hcut : (items.drop index).take consumed ++ items.drop (index + consumed) =
        items.drop index := by
      rw [← List.drop_drop, List.take_append_drop]
    refine ⟨_, hpage, ?_⟩
    by_cases hmore : index + consumed < items.length
    · have hpos : 0 < consumed := hprogress rfl (by rw [ne_eq, List.drop_eq_nil_iff]; omega)
      have hne : branch ≠ [] := by
        rintro rfl
        rw [viewItems_nil] at hitems
        rw [← hitems] at hmore
        simp at hmore
      refine .inr ⟨_, index + consumed, if_pos hmore, ⟨.inr ⟨hne, rfl⟩, Nat.le_of_lt hmore⟩, by omega,
        fun pages hpages => ⟨?_, List.forall_mem_cons.mpr ⟨fun _ hnil => ?_, hpages.nonempty⟩⟩⟩
      · rw [List.flatMap_cons, List.map_append, hpages.drafts, ← hcut]
        exact congrArg (· ++ _) hdrafts
      · have hlength := congrArg List.length hdrafts
        rw [List.length_map, List.length_take, List.length_drop] at hlength
        have hzero : filled.length = 0 := by simpa using hnil
        omega
    · refine .inl ⟨if_neg hmore, ?_, by simp [hmore]⟩
      rw [List.flatMap_singleton, ← hcut, List.drop_of_length_le (Nat.not_lt.mp hmore),
        List.append_nil]
      exact hdrafts
  obtain ⟨pages, hfollow, hpages⟩ := hrun
  exact ⟨pages, hfollow, hpages.nonempty, by simpa using hpages.drafts, hitems ▸ viewItems_sorted _ _ _⟩

end Run

/-! ### Three runs that fail -/

/-- A failed tool result. -/
def failedResult (id text : Str) : SessionRecord where
  fields := [(lit "type", .str (lit "message")), (lit "id", .str id), (lit "parentId", .null),
    (lit "timestamp", .str []), (lit "message", .obj [(lit "role", .str (lit "toolResult")),
      (lit "toolCallId", .str (lit "c")), (lit "isError", .bool true), (lit "content", .str text)])]
  typed := by
    simp [recordTyped, hasStr, strField, strField?, field, RecordType.ofName, messageTyped,
      contentTyped, optional, isStr, isNull, isBool]

@[simp] theorem failedResult_id (id text : Str) : (failedResult id text).id = id := by
  simp [SessionRecord.id, failedResult, strField, strField?, field]

@[simp] theorem sourceText_failedResult (id text : Str) : sourceText (failedResult id text) = text := by
  have htype : (failedResult id text).type = .message := by
    simp [SessionRecord.type, failedResult, strField, strField?, field, RecordType.ofName]
  have hrole : (failedResult id text).role = lit "toolResult" := by
    simp [SessionRecord.role, SessionRecord.message, failedResult, strField, strField?, field]
  rw [sourceText, htype, hrole]
  simp [SessionRecord.message, failedResult, field]

/-- The errors of a branch, with the least budget. -/
abbrev askErrors (sessionId : Str) (branch : List SessionRecord) (appended : Nat → List SessionRecord) :=
  askList plainTables sizeHash sessionId branch appended .errors none (fun _ => 0) fun _ _ => false

/-- The first or the second page of a list is refused. -/
def refusedEarly (sessionId : Str) (branch : List SessionRecord)
    (appended : Nat → List SessionRecord) : Bool :=
  match askErrors sessionId branch appended 0 none with
  | .error _ => true
  | .ok page => page.cursor.any fun cursor =>
      (askErrors sessionId branch appended 1 (some cursor)).isOk == false

/-- A listing that is refused at once cannot be followed to its end. -/
theorem not_follow_of_refusedEarly {sessionId : Str} {branch : List SessionRecord}
    {appended : Nat → List SessionRecord} (h : refusedEarly sessionId branch appended = true) :
    ¬ ∃ pages, Follow (askErrors sessionId branch appended) HistoryViewPage.cursor 0 none pages := by
  rintro ⟨pages, hfollow⟩
  unfold refusedEarly at h
  cases hfollow with
  | last hask hnone =>
    rw [hask] at h
    simp [hnone] at h
  | more hask hsome hrest =>
    rw [hask] at h
    simp only [hsome, Option.any_some, beq_iff_eq] at h
    cases hrest with
    | last hask' _ =>
      rw [hask'] at h
      cases h
    | more hask' _ _ =>
      rw [hask'] at h
      cases h

/-- Two failures with the last ID: each shows on a page of its own. -/
def repeatedFailure : List SessionRecord :=
  [failedResult (lit "a") (List.replicate 100 1), failedResult (lit "a") (lit "y")]

example : (viewItems plainTables .errors (viewTerms plainTables []) repeatedFailure).map ViewDraft.priced =
    [[(lit "a", 1)], [(lit "a", 0)]] := by decide +kernel

/-- The tokens of an item are more than a third of its excerpt's quotation. -/
theorem quote_le_tokens {e : ErrorDraft} (readTokens : Nat) (inContext : Bool) :
    (quote e.excerpt.text).length ≤
      textTokens (stringify (HistoryViewItem.json ⟨.error e, readTokens, inContext⟩)) * 3 := by
  have htext : (quote e.excerpt.text).length ≤ (stringify e.excerpt.json).length :=
    length_stringify_obj (k := lit "text") (v := .str e.excerpt.text) (by simp)
  have hitem : (stringify e.excerpt.json).length ≤
      (stringify (HistoryViewItem.json ⟨.error e, readTokens, inContext⟩)).length :=
    length_stringify_obj (k := lit "excerpt") (by simp [present, ViewDraft.fields])
  have hbytes := length_le_byteLength
    (stringify (HistoryViewItem.json ⟨.error e, readTokens, inContext⟩))
  unfold textTokens
  omega

/-- A page ends before an item that is too large for it. -/
theorem fillView_large {price : ViewDraft → Except Failure HistoryViewItem} {first : ViewDraft}
    {e : ErrorDraft} {index remaining : Nat} {filled : List HistoryViewItem × Nat}
    (hprice : ∀ item, price (.error e) = .ok item → item.draft = .error e)
    (hlarge : remaining * 3 < (quote e.excerpt.text).length)
    (h : fillView price false [first, .error e] index remaining = .ok filled) :
    filled.2 = index + 1 := by
  unfold fillView at h
  obtain ⟨item, -, h⟩ := bind_ok.mp h
  rw [if_neg (by simp)] at h
  obtain ⟨rest, hrest, h⟩ := bind_ok.mp h
  unfold fillView at hrest
  obtain ⟨⟨_, readTokens, inContext⟩, hsecond, hrest⟩ := bind_ok.mp hrest
  obtain rfl := hprice _ hsecond
  have htokens := quote_le_tokens (e := e) readTokens inContext
  rw [if_pos ⟨by omega, rfl⟩] at hrest
  obtain rfl := Except.ok.inj hrest
  rw [← Except.ok.inj h]

/-- The second of two errors is too large for the first page, and its cursor is refused. -/
theorem refusedEarly_of_large {sessionId : Str} {branch : List SessionRecord}
    {appended : Nat → List SessionRecord} {first : ViewDraft} {e : ErrorDraft}
    (hitems : viewItems plainTables .errors (viewTerms plainTables []) branch = [first, .error e])
    (hlarge : pageTokens 0 * 3 < (quote e.excerpt.text).length)
    (hrefused : (askErrors sessionId branch appended 1
      (some (cursorText (listCursor (freezeBranch sizeHash sessionId branch)
        (listSignature sizeHash .errors none) 1)))).isOk = false) :
    refusedEarly sessionId branch appended = true := by
  unfold refusedEarly
  cases hask : askErrors sessionId branch appended 0 none with
  | error e => rfl
  | ok page =>
    have hentries : (freezeBranch sizeHash sessionId branch).entries = branch := rfl
    have hpage : viewPage plainTables sizeHash (freezeBranch sizeHash sessionId branch) .errors
        (listSignature sizeHash .errors none) [first, .error e] 0 0 (fun _ => false) = .ok page := by
      rw [← hitems]
      simpa only [hentries, askErrors, askList, listHistory, openListCursor, grownBranch, bind,
        Except.bind, Option.getD_none] using hask
    obtain ⟨filled, hfill, hpage⟩ := bind_ok.mp hpage
    have hnext := fillView_large (fun item hitem => ?_) hlarge hfill
    · obtain rfl := Except.ok.inj hpage
      simp [hnext, hrefused]
    · obtain ⟨costs, -, hitem⟩ := bind_ok.mp hitem
      obtain rfl := Except.ok.inj hitem
      rfl

/-- A failure whose ID is repeated with another text refuses the listing. -/
theorem refusedEarly_repeatedFailure : refusedEarly (lit "s") repeatedFailure
    (appendOnce (failedResult (lit "b") (lit "z"))) = true := by
  have hshape : (viewItems plainTables .errors (viewTerms plainTables []) repeatedFailure).map
      (fun draft => match draft with
        | .error e => some e.excerpt.text
        | _ => none) = [some (lit "y"), some (List.replicate 100 1)] := by decide +kernel
  have hquote : pageTokens 0 * 3 < (quote (List.replicate 100 1)).length := by decide +kernel
  match hitems : viewItems plainTables .errors (viewTerms plainTables []) repeatedFailure with
  | [first, .error e] =>
    rw [hitems] at hshape
    have htext : e.excerpt.text = List.replicate 100 1 := by
      simpa using (List.cons.inj (List.cons.inj hshape).2).1
    exact refusedEarly_of_large hitems (htext ▸ hquote) (by decide +kernel)
  | [] | [_] | [_, .note _] | [_, .edit _] | _ :: _ :: _ :: _ =>
    rw [hitems] at hshape
    simp at hshape

/-- A list stops at its first page at a record without an ID, which no read names, and at its second
if the branch has grown and its last ID was repeated. -/
theorem not_listHistory_samples :
    (¬ ∃ pages, Follow (askErrors (lit "s") [failedResult [] (lit "x")] fun _ => [])
      HistoryViewPage.cursor 0 none pages) ∧
    ¬ LastIdOnce repeatedFailure ∧
    (∀ k, FreshIds (grownBranch repeatedFailure (appendOnce (failedResult (lit "b") (lit "z"))) k)
      (appendOnce (failedResult (lit "b") (lit "z")) k)) ∧
    ¬ ∃ pages, Follow (askErrors (lit "s") repeatedFailure
      (appendOnce (failedResult (lit "b") (lit "z")))) HistoryViewPage.cursor 0 none pages := by
  refine ⟨not_follow_of_refusedEarly (by decide +kernel), fun h => ?_, freshIds_appendOnce ?_,
    not_follow_of_refusedEarly refusedEarly_repeatedFailure⟩
  · exact h [_] _ rfl _ List.mem_cons_self (by simp)
  · simp [repeatedFailure]

/-- Two failures, and a third behind the first page. -/
def twoFailures : List SessionRecord :=
  [failedResult (lit "a") (lit "x"), failedResult (lit "b") (lit "y")]

/-- The third failure is on no page. -/
theorem listHistory_pages_sample :
    ∃ pages, Follow (askErrors (lit "s") twoFailures (appendOnce (failedResult (lit "c") (lit "z"))))
        HistoryViewPage.cursor 0 none pages ∧
      (∀ page ∈ pages, page.cursor ≠ none → page.items ≠ []) ∧
      (pages.flatMap HistoryViewPage.items).map HistoryViewItem.draft =
        viewItems plainTables .errors (viewTerms plainTables []) twoFailures ∧
      (viewItems plainTables .errors (viewTerms plainTables []) twoFailures).Pairwise fun a b =>
        newest b ≤ newest a := by
  have htexts : ∀ entry ∈ twoFailures, (sourceText entry).length = 1 ∧ entry.id ≠ [] := by
    simpa [twoFailures] using (by decide : ((lit "x").length = 1 ∧ lit "a" ≠ []) ∧
      (lit "y").length = 1 ∧ lit "b" ≠ [])
  have hgrown : ∀ k, grownBranch twoFailures (appendOnce (failedResult (lit "c") (lit "z"))) (k + 1) =
      twoFailures ++ [failedResult (lit "c") (lit "z")] := by
    intro k
    induction k with
    | zero => rfl
    | succ k ih => rw [grownBranch, ih]; rfl
  refine listHistory_pages (fun s => Nat.le_refl _) ?_ ⟨?_, by decide +kernel⟩ ?_ ?_
    (fun _ => 0) fun _ _ => false
  · intro before last heq entry hentry
    obtain ⟨hbefore, hlast⟩ := List.append_inj' (show [failedResult (lit "a") (lit "x")] ++
      [failedResult (lit "b") (lit "y")] = before ++ [last] from heq) rfl
    obtain rfl := (List.singleton_inj.mp hlast)
    rw [← hbefore, List.mem_singleton] at hentry
    rw [hentry]
    simp
  · intro entry hentry
    rw [(htexts entry hentry).1]
    decide
  · intro k hk
    cases k with
    | zero => rfl
    | succ k =>
      rw [hgrown] at hk
      exact absurd hk (by decide +kernel)
  · intro item _ source _ entry hentry htext hid
    obtain ⟨hlength, hne⟩ := htexts entry (List.mem_of_getElem? hentry)
    exact ⟨hne, fun offset hpos hlt => by omega⟩

end Compaction
