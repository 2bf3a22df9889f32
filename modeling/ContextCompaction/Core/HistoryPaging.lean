import ContextCompaction.Core.Evidence
import ContextCompaction.Core.History

/-!
# Pages of the history

What the pages of a search and of a read have in common.

* `queryHistory_json`: a request within the bounds of its schema is answered by `runQuery`.
* `openCursor_historyCursor`: a cursor opens the place that it was issued for.
* `pinSnapshot_of_longer`: after records with fresh IDs, a cursor still finds the branch that it was
  issued for.
* `fitExcerpt_spec`: inside a text an excerpt is not empty, and it fits its page.
-/

namespace Compaction

open Js

/-- What ECMAScript lets a value hold: an array has fewer than `2 ^ 32` elements, and a string fewer
than `2 ^ 53` units. -/
structure WithinLimits (entries : List SessionRecord) : Prop where
  count : entries.length < 2 ^ 32
  texts : ∀ entry ∈ entries, (sourceText entry).length < 2 ^ 53

/-! ## Requests -/

section Requests

variable {t : TextTables} {sha256 : Sha256}

private theorem get_fields (request : HistoryQuery) :
    mapGet (present request.fields) (lit "operation") = some (.str request.operation.name) ∧
      mapGet (present request.fields) (lit "query") = request.query.map .str ∧
      mapGet (present request.fields) (lit "entryId") = request.entryId.map .str ∧
      mapGet (present request.fields) (lit "cursor") = request.cursor.map .str ∧
      mapGet (present request.fields) (lit "grantId") = request.grantId.map .str := by
  have hget : ∀ key v, (key, v) ∈ request.fields → mapGet (present request.fields) (lit key) = v :=
    fun key v h => mapGet_present_of_mem (by simp [HistoryQuery.fields]) h
  exact ⟨hget _ _ (by simp [HistoryQuery.fields]), hget _ _ (by simp [HistoryQuery.fields]),
    hget _ _ (by simp [HistoryQuery.fields]), hget _ _ (by simp [HistoryQuery.fields]),
    hget _ _ (by simp [HistoryQuery.fields])⟩

private theorem bind_map_str (s : Option Str) : (s.map Json.str).bind Json.str? = s := by
  cases s <;> rfl

@[simp] theorem readQuery_json (request : HistoryQuery) : readQuery request.json = request := by
  obtain ⟨hop, hquery, hentry, hcursor, hgrant⟩ := get_fields request
  simp only [readQuery, HistoryQuery.json, Json.get?_obj, hop, hquery, hentry, hcursor, hgrant,
    bind_map_str, Option.bind_some, Json.str?_str, Option.some.injEq]
  obtain ⟨operation, query, entryId, cursor, grantId⟩ := request
  cases operation <;> simp [HistoryOperation.name]

/-- The bounds of the schema. -/
structure HistoryQuery.Bounded (len : Str → Nat) (request : HistoryQuery) : Prop where
  query : ∀ s ∈ request.query, len s ≤ 1000
  entryId : ∀ s ∈ request.entryId, len s ≤ 64
  cursor : ∀ s ∈ request.cursor, len s ≤ 2000
  grantId : ∀ s ∈ request.grantId, len s ≤ 128

private theorem check_optional {len : Str → Nat} {hi : Nat} {s : Option Str} :
    (match s.map Json.str with
      | none => True
      | some x => check len (.string 0 hi) x = true) ↔ ∀ u ∈ s, len u ≤ hi := by
  cases s <;> simp [check_string]

/-- A request passes the schema when it keeps the bounds. -/
theorem check_json {len : Str → Nat} {request : HistoryQuery} :
    check len historyQuerySchema request.json = true ↔ request.Bounded len := by
  obtain ⟨hop, hquery, hentry, hcursor, hgrant⟩ := get_fields request
  rw [historyQuerySchema, check_object]
  constructor
  · rintro ⟨fields, hfields, -, hall⟩
    obtain rfl := Json.obj.inj hfields
    simp only [List.forall_mem_cons, hop, hquery, hentry, hcursor, hgrant] at hall
    obtain ⟨-, h1, h2, h3, h4, -⟩ := hall
    exact ⟨check_optional.mp h1, check_optional.mp h2, check_optional.mp h3, check_optional.mp h4⟩
  · rintro ⟨h1, h2, h3, h4⟩
    refine ⟨_, rfl, ?_, ?_⟩
    · intro f hf
      obtain ⟨p, hp, heq⟩ := List.mem_filterMap.mp hf
      obtain ⟨v, -, rfl⟩ := Option.map_eq_some_iff.mp heq
      simp only [HistoryQuery.fields, List.mem_cons, List.not_mem_nil, or_false] at hp
      rcases hp with rfl | rfl | rfl | rfl | rfl <;> simp
    · simp only [List.forall_mem_cons, hop, hquery, hentry, hcursor, hgrant]
      refine ⟨?_, check_optional.mpr h1, check_optional.mpr h2, check_optional.mpr h3,
        check_optional.mpr h4, by simp⟩
      cases request.operation <;> simp [check, checkAny, HistoryOperation.name]

/-- A request within the bounds is answered by `runQuery`. -/
theorem queryHistory_json {snapshot : HistorySnapshot} {request : HistoryQuery} {budget : Nat}
    (h : request.Bounded t.len) :
    queryHistory t sha256 snapshot request.json budget = runQuery t sha256 snapshot request budget := by
  rw [queryHistory, if_pos (check_json.mpr h), readQuery_json]

end Requests

/-! ## Cursors -/

section Cursors

variable {sha256 : Sha256}

theorem decodeCursor_cursorText (v : Json) : decodeCursor (cursorText v) = some v.normal := by
  rw [decodeCursor, cursorText, fromBase64url_toBase64url,
    decodeUtf8_utf8 (printable_stringify v).1, parse_stringify]

theorem cursorText_ne_nil (v : Json) : cursorText v ≠ [] := by
  intro h
  have hdecode := decodeCursor_cursorText v
  rw [h] at hdecode
  exact absurd hdecode (by simp [show decodeCursor [] = none by decide])

theorem normal_orNull (s : Option Str) : (orNull s).normal = orNull s := by
  cases s <;> simp [orNull, Json.normal]

/-- A cursor is read back as it was written. -/
theorem normal_historyCursor {snapshot : HistorySnapshot} {signature : Str} {index offset : Nat}
    (hindex : index < 2 ^ 53) (hoffset : offset < 2 ^ 53) :
    (historyCursor snapshot signature index offset).normal =
      historyCursor snapshot signature index offset := by
  have hkeys : ∀ k ∈ [lit "sessionId", lit "leafId", lit "scope", lit "signature", lit "index",
      lit "offset"], indexKey k = none := by decide +kernel
  refine Json.normal_obj (by simp) (by simpa using hkeys) ?_
  simp only [List.forall_mem_cons, List.not_mem_nil, false_implies, implies_true,
    normal_orNull, Json.normal_ofNat hindex, Json.normal_ofNat hoffset, Json.normal_str, and_self]

/-- What is read of a cursor. -/
theorem read_historyCursor (snapshot : HistorySnapshot) (signature : Str) {index offset : Nat}
    (hindex : index < 2 ^ 53) (hoffset : offset < 2 ^ 53) :
    let cursor := historyCursor snapshot signature index offset
    cursorStr? cursor "sessionId" = some snapshot.sessionId ∧
      cursorStr? cursor "leafId" = snapshot.leafId ∧
      cursorStr? cursor "scope" = some snapshot.scopeHash ∧
      cursorStr? cursor "signature" = some signature ∧
      cursorIndex? cursor "index" = some index ∧ cursorIndex? cursor "offset" = some offset := by
  have hleaf : (orNull snapshot.leafId).str? = snapshot.leafId := by cases snapshot.leafId <;> rfl
  have hsafe : ∀ n, n < 2 ^ 53 → isSafe n = true := fun n hn => by simpa [isSafe] using hn
  simp [cursorStr?, cursorIndex?, historyCursor, hleaf, count?_ofNat hindex, count?_ofNat hoffset,
    Option.filter, hsafe index hindex, hsafe offset hoffset]

/-- A cursor opens what it was issued for, once the branch is found. -/
theorem openCursor_historyCursor {issued snapshot pinned : HistorySnapshot} (signature : Str)
    {index offset : Nat} (hindex : index < 2 ^ 53) (hoffset : offset < 2 ^ 53)
    (hpin : pinSnapshot sha256 snapshot (historyCursor issued signature index offset) = .ok pinned)
    (hsession : issued.sessionId = snapshot.sessionId) :
    openCursor sha256 snapshot signature
      (some (cursorText (historyCursor issued signature index offset))) =
        .ok (pinned, index, offset) := by
  obtain ⟨hs, -, -, hsig, hi, ho⟩ := read_historyCursor issued signature
    hindex hoffset
  have hdecode := decodeCursor_cursorText (historyCursor issued signature index offset)
  rw [normal_historyCursor hindex hoffset] at hdecode
  obtain ⟨u, text, htext⟩ := List.exists_cons_of_ne_nil
    (cursorText_ne_nil (historyCursor issued signature index offset))
  rw [htext] at hdecode ⊢
  simp only [openCursor, hdecode, hi, ho, hs, hsession, hsig, and_self, ↓reduceIte, hpin]
  rfl

end Cursors

/-! ## A branch that grows -/

section Growth

variable (sha256 : Sha256)

/-- The snapshot that a host freezes of a branch. -/
def freezeBranch (sessionId : Str) (entries : List SessionRecord) : HistorySnapshot :=
  ⟨sessionId, entries.getLast?.map SessionRecord.id, hashEntries sha256 entries, entries⟩

/-- The branch at the `k`-th request: `appended k` follows the answer to it. -/
def grownBranch (branch : List SessionRecord) (appended : Nat → List SessionRecord) :
    Nat → List SessionRecord
  | 0 => branch
  | k + 1 => grownBranch branch appended k ++ appended k

/-- Records whose IDs the branch does not have, each its own. -/
def FreshIds (branch more : List SessionRecord) : Prop :=
  (∀ entry ∈ more, ∀ old ∈ branch, old.id ≠ entry.id) ∧ (more.map SessionRecord.id).Nodup

/-- The last record is the only one of its ID. -/
def LastIdOnce (branch : List SessionRecord) : Prop :=
  ∀ before last, branch = before ++ [last] → ∀ entry ∈ before, entry.id ≠ last.id

variable {sha256}

theorem LastIdOnce.append {branch more : List SessionRecord} (h : LastIdOnce branch)
    (hfresh : FreshIds branch more) : LastIdOnce (branch ++ more) := by
  intro before last heq entry hentry
  rcases List.eq_nil_or_concat more with rfl | ⟨init, x, rfl⟩
  · exact h before last (by simpa using heq) entry hentry
  · rw [List.concat_eq_append, ← List.append_assoc] at heq
    obtain ⟨hbefore, hx⟩ := List.append_inj' heq rfl
    obtain rfl := List.singleton_inj.mp hx
    rcases List.mem_append.mp (hbefore ▸ hentry) with hold | hnew
    · exact hfresh.1 x (by simp) entry hold
    · have hnodup := hfresh.2
      rw [List.concat_eq_append, List.map_append, List.nodup_append] at hnodup
      exact hnodup.2.2 _ (List.mem_map_of_mem hnew) _ (by simp)

theorem grownBranch_grow {branch : List SessionRecord} {appended : Nat → List SessionRecord}
    (hfresh : ∀ k, FreshIds (grownBranch branch appended k) (appended k)) (hlast : LastIdOnce branch)
    (k : Nat) : LastIdOnce (grownBranch branch appended k) := by
  induction k with
  | zero => exact hlast
  | succ k ih => exact ih.append (hfresh k)

theorem prefix_grownBranch (branch : List SessionRecord) (appended : Nat → List SessionRecord)
    {j k : Nat} (h : j ≤ k) :
    grownBranch branch appended j <+: grownBranch branch appended k := by
  induction k, h using Nat.le_induction with
  | base => exact List.prefix_rfl
  | succ k _ ih => exact ih.trans (List.prefix_append _ _)

/-- The branch that a cursor was issued for is found again in a longer one, unless the longer one
has the same hash. -/
theorem pinSnapshot_of_longer (sessionId : Str) {branch longer : List SessionRecord}
    (hbranch : branch ≠ []) (hlast : LastIdOnce branch) (hlonger : branch <+: longer) {cursor : Json}
    (hscope : cursorStr? cursor "scope" = some (freezeBranch sha256 sessionId branch).scopeHash)
    (hleaf : cursorStr? cursor "leafId" = (freezeBranch sha256 sessionId branch).leafId) :
    pinSnapshot sha256 (freezeBranch sha256 sessionId longer) cursor =
      .ok (if hashEntries sha256 branch = hashEntries sha256 longer then
        freezeBranch sha256 sessionId longer else freezeBranch sha256 sessionId branch) := by
  obtain ⟨more, rfl⟩ := hlonger
  simp only [freezeBranch] at hscope hleaf
  by_cases hhash : hashEntries sha256 branch = hashEntries sha256 (branch ++ more)
  · rw [if_pos hhash, pinSnapshot, if_pos (by rw [hscope, hhash]; rfl)]
  · have hne : ¬ cursorStr? cursor "scope" =
        some (freezeBranch sha256 sessionId (branch ++ more)).scopeHash := by
      rw [hscope]
      simpa [freezeBranch] using hhash
    obtain ⟨before, last, rfl⟩ := (List.eq_nil_or_concat branch).resolve_left hbranch
    rw [List.concat_eq_append] at *
    rw [List.getLast?_concat, Option.map_some] at hleaf
    have hfind : (before ++ [last] ++ more).findIdx?
        (fun entry => some entry.id = cursorStr? cursor "leafId") = some before.length := by
      rw [hleaf, List.append_assoc, List.findIdx?_append,
        List.findIdx?_eq_none_iff.mpr fun entry he => by
          simpa using hlast before last rfl entry he]
      simp [List.findIdx?_cons]
    have htake : (before ++ [last] ++ more).take (before.length + 1) = before ++ [last] := by
      rw [List.take_append_of_le_length (by simp)]
      exact List.take_of_length_le (by simp)
    rw [if_neg hhash, pinSnapshot, if_neg hne]
    simp only [freezeBranch, hfind, htake, hscope, ↓reduceIte]

end Growth

/-! ## Excerpts -/

section Excerpts

/-- The least that a page has left before an excerpt. -/
def leastRemaining : Nat := 162

theorem pageTokens_ge (budget : Nat) : leastRemaining ≤ pageTokens budget := by
  unfold leastRemaining pageTokens
  omega

/-- A single unit always fits. -/
theorem excerptCost_unit (u : UInt16) : excerptCost [u] ≤ 108 := by
  have hunits : (quoteUnits [u]).length ≤ 6 := by
    simp only [quoteUnits, quoteUnit]
    split_ifs <;> simp [unicodeEscape]
  have hbytes := byteLength_le (quote [u])
  have hquote : (quote [u]).length = (quoteUnits [u]).length + 2 := by simp [quote]
  unfold excerptCost textTokens
  omega

/-- Inside the text an excerpt is not empty, and it fits. -/
theorem fitExcerpt_spec {text : Str} {start remaining : Nat} (charLimit : Nat)
    (hstart : start < text.length) (hlimit : 0 < charLimit) (hremaining : leastRemaining ≤ remaining) :
    fitExcerpt text start charLimit remaining ≠ [] ∧
      fitExcerpt text start charLimit remaining <+: text.drop start ∧
      excerptCost (fitExcerpt text start charLimit remaining) ≤ remaining := by
  have hslice : slice text start (start + charLimit) ≠ [] := by
    rw [slice, ne_eq, List.take_eq_nil_iff, List.drop_eq_nil_iff]
    omega
  have hne : fitExcerpt text start charLimit remaining ≠ [] := by
    refine shrink_ne_nil (fun u => ?_) hslice
    have := excerptCost_unit u
    unfold leastRemaining at hremaining
    simp only [overflows, Bool.and_eq_false_iff, decide_eq_false_iff_not]
    exact .inl (by omega)
  refine ⟨hne, (prefix_shrink _ _).trans (List.take_prefix _ _), ?_⟩
  have hsmall : overflows remaining (fitExcerpt text start charLimit remaining) = false :=
    big_shrink (by simp [overflows]) _
  simp only [overflows, Bool.and_eq_false_iff, decide_eq_false_iff_not, not_lt] at hsmall
  exact hsmall.resolve_right fun h => h hne

/-- Behind the text nothing is left to excerpt. -/
theorem fitExcerpt_nil {text : Str} {start charLimit remaining : Nat} (hstart : text.length ≤ start) :
    fitExcerpt text start charLimit remaining = [] := by
  have hslice : slice text start (start + charLimit) = [] := by
    rw [slice, List.drop_eq_nil_of_le hstart, List.take_nil]
  rw [fitExcerpt, hslice]
  rfl

end Excerpts

/-! ## Candidates -/

section Candidates

variable {t : TextTables}

theorem mem_candidates {request : HistoryQuery} {terms : List Str} {entries : List SessionRecord}
    {c : HistoryCandidate} : c ∈ candidates t request terms entries ↔
      ∃ entry position, entries[position]? = some entry ∧
        candidateOf t request terms entry position = some c := by
  rw [candidates, List.mem_insertionSort, List.mem_filterMap]
  constructor
  · rintro ⟨⟨entry, position⟩, he, hc⟩
    exact ⟨entry, position, List.mem_zipIdx_iff_getElem?.mp he, hc⟩
  · rintro ⟨entry, position, he, hc⟩
    exact ⟨(entry, position), List.mem_zipIdx_iff_getElem?.mpr he, hc⟩

/-- A candidate is its record, at its position. -/
theorem candidateOf_some {request : HistoryQuery} {terms : List Str} {entry : SessionRecord}
    {position : Nat} {c : HistoryCandidate} (h : candidateOf t request terms entry position = some c) :
    c.entry = entry ∧ c.text = sourceText entry ∧ c.position = position ∧ c.text ≠ [] := by
  unfold candidateOf at h
  dsimp only at h
  by_cases htext : sourceText entry = []
  · rw [if_pos htext] at h
    cases h
  · rw [if_neg htext] at h
    cases hop : request.operation <;> simp only [hop] at h <;> split_ifs at h <;>
      obtain rfl := Option.some.inj h <;> exact ⟨rfl, rfl, rfl, htext⟩

theorem candidates_texts {request : HistoryQuery} {terms : List Str} {entries : List SessionRecord} :
    ∀ c ∈ candidates t request terms entries, c.text ≠ [] := by
  intro c hc
  obtain ⟨entry, position, -, h⟩ := mem_candidates.mp hc
  exact (candidateOf_some h).2.2.2

/-- No two candidates stand at one position. -/
theorem candidates_positions {request : HistoryQuery} {terms : List Str}
    {entries : List SessionRecord} :
    ((candidates t request terms entries).map HistoryCandidate.position).Nodup := by
  have hsub : ∀ l : List (SessionRecord × Nat),
      ((l.filterMap fun e => candidateOf t request terms e.1 e.2).map
        HistoryCandidate.position).Sublist (l.map Prod.snd) := by
    intro l
    induction l with
    | nil => exact List.Sublist.refl _
    | cons e l ih =>
      cases h : candidateOf t request terms e.1 e.2 with
      | none =>
        simp only [List.filterMap_cons, h]
        exact ih.trans (List.sublist_cons_self _ _)
      | some c =>
        simp only [List.filterMap_cons, h, List.map_cons, (candidateOf_some h).2.2.1]
        exact ih.cons_cons _
  have hperm := (List.perm_insertionSort HistoryCandidate.Before
    (entries.zipIdx.filterMap fun e => candidateOf t request terms e.1 e.2)).map
      HistoryCandidate.position
  refine hperm.nodup_iff.mpr ((hsub _).nodup ?_)
  rw [List.zipIdx_map_snd]
  exact List.nodup_range'

instance : Std.Total HistoryCandidate.Before where
  total a b := by unfold HistoryCandidate.Before; omega

instance : IsTrans HistoryCandidate HistoryCandidate.Before where
  trans a b c := by unfold HistoryCandidate.Before; omega

theorem candidates_ranked {request : HistoryQuery} {terms : List Str} {entries : List SessionRecord} :
    (candidates t request terms entries).Pairwise HistoryCandidate.Before :=
  List.pairwise_insertionSort _ _

end Candidates

end Compaction
