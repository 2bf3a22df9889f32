import ContextCompaction.Core.HistoryPaging
import ContextCompaction.Paging.Follow

/-!
# Reads

The pages of a read that a client gets by following cursors, each request with a budget of its own,
while records are appended to the branch.

* `Advance`: what the excerpts of a read cover. `fillPage_read`: a page covers something.
* `ReadsInFull`: excerpts that spell out the records of an ID, newest first.
* `ReadPlace.page`: a page, and the place from which the next one continues.
* `queryHistory_read`: the pages of a read give its records in full.
-/

namespace Compaction

open Js Paging

/-! ## What a read covers -/

/-- Excerpts lead from one place in the candidates to another: each continues its candidate's text,
and behind the end of a text the next candidate begins. -/
inductive Advance : List HistoryCandidate → Nat → List HistoryExcerpt → List HistoryCandidate → Nat →
    Prop
  | refl {cs offset} : Advance cs offset [] cs offset
  | part {c rest offset text xs cs' offset'} : text ≠ [] → text <+: c.text.drop offset →
      offset + text.length < c.text.length →
      Advance (c :: rest) (offset + text.length) xs cs' offset' →
      Advance (c :: rest) offset (c.excerpt offset text :: xs) cs' offset'
  | whole {c rest offset text xs cs' offset'} : text ≠ [] → text = c.text.drop offset →
      Advance rest 0 xs cs' offset' →
      Advance (c :: rest) offset (c.excerpt offset text :: xs) cs' offset'

section Reads

variable {t : TextTables}

theorem Advance.trans {cs cs' cs'' : List HistoryCandidate} {o o' o'' : Nat}
    {xs ys : List HistoryExcerpt} (h : Advance cs o xs cs' o') (h' : Advance cs' o' ys cs'' o'') :
    Advance cs o (xs ++ ys) cs'' o'' := by
  induction h with
  | refl => exact h'
  | part hne hprefix hlt _ ih => exact .part hne hprefix hlt (ih h')
  | whole hne heq _ ih => exact .whole hne heq (ih h')

theorem Advance.texts {cs cs' : List HistoryCandidate} {o o' : Nat} {xs : List HistoryExcerpt}
    (h : Advance cs o xs cs' o') : ∀ x ∈ xs, x.text ≠ [] := by
  induction h with
  | refl => simp
  | part hne _ _ _ ih => exact List.forall_mem_cons.mpr ⟨hne, ih⟩
  | whole hne _ _ ih => exact List.forall_mem_cons.mpr ⟨hne, ih⟩

/-- The units of the candidates' texts. -/
def textUnits (cs : List HistoryCandidate) : Nat := (cs.map fun c => c.text.length).sum

/-- What the excerpts hold is what the candidates have less. -/
theorem Advance.units {cs cs' : List HistoryCandidate} {o o' : Nat} {xs : List HistoryExcerpt}
    (h : Advance cs o xs cs' o') :
    (xs.map fun x => x.text.length).sum + textUnits cs' + o = textUnits cs + o' := by
  induction h with
  | refl => simp
  | part hne _ _ _ ih =>
    simp only [textUnits, List.map_cons, List.sum_cons, HistoryCandidate.excerpt] at ih ⊢
    omega
  | whole hne heq _ ih =>
    have hpos := List.length_pos_iff.mpr hne
    rw [heq, List.length_drop] at hpos
    simp only [textUnits, List.map_cons, List.sum_cons, HistoryCandidate.excerpt] at ih ⊢
    rw [heq, List.length_drop]
    omega

/-- A place from which a read continues: inside the text of the next candidate. -/
def Startable : List HistoryCandidate → Nat → Prop
  | [], offset => offset = 0
  | c :: _, offset => offset < c.text.length

theorem Startable.zero {cs : List HistoryCandidate} (h : ∀ c ∈ cs, c.text ≠ []) : Startable cs 0 := by
  cases cs with
  | nil => rfl
  | cons c cs => exact List.length_pos_iff.mpr (h c List.mem_cons_self)

theorem Startable.le {cs : List HistoryCandidate} {offset : Nat} (h : Startable cs offset) :
    offset ≤ textUnits cs := by
  cases cs with
  | nil => exact Nat.le_of_eq h
  | cons c cs =>
    have hlt : offset < c.text.length := h
    simp only [textUnits, List.map_cons, List.sum_cons]
    omega

theorem startable_drop {cs : List HistoryCandidate} {index offset : Nat} (h : index < cs.length) :
    Startable (cs.drop index) offset ↔ ∃ c, cs[index]? = some c ∧ offset < c.text.length := by
  rw [List.drop_eq_getElem_cons h, List.getElem?_eq_getElem h]
  simp [Startable]

/-- A page of a read: it covers something, within the budget, and ends where a read continues. -/
structure ReadFills (cs : List HistoryCandidate) (index offset remaining : Nat)
    (filled : List HistoryExcerpt × Nat × Nat) (consumed : Nat) : Prop where
  index : filled.2.1 = index + consumed
  bound : consumed ≤ cs.length
  advance : Advance cs offset filled.1 (cs.drop consumed) filled.2.2
  start : Startable (cs.drop consumed) filled.2.2
  cost : (filled.1.map fun x => excerptCost x.text).sum ≤ remaining
  progress : cs ≠ [] → filled.1 ≠ []

/-- A page with room for the least excerpt fills, from a place where a read can start. -/
theorem fillPage_read (terms : List Str) {cs : List HistoryCandidate} (htexts : ∀ c ∈ cs, c.text ≠ [])
    (index : Nat) {offset remaining : Nat} (hremaining : leastRemaining ≤ remaining)
    (hstart : Startable cs offset) :
    ∃ consumed, ReadFills cs index offset remaining
      (fillPage t .read terms cs index offset remaining) consumed := by
  induction cs generalizing index offset remaining with
  | nil => exact ⟨0, rfl, Nat.le_refl _, .refl, hstart, Nat.zero_le _, fun h => absurd rfl h⟩
  | cons c rest ih =>
    obtain ⟨hne, hprefix, hcost⟩ := fitExcerpt_spec (remaining * 2) hstart
      (by unfold leastRemaining at hremaining; omega) hremaining
    have hrest : ∀ c ∈ rest, c.text ≠ [] := fun c hc => htexts c (List.mem_cons_of_mem _ hc)
    have hlen := hprefix.length_le
    rw [List.length_drop] at hlen
    unfold fillPage
    dsimp only
    rw [if_neg hne]
    generalize fitExcerpt c.text offset (remaining * 2) remaining = text at *
    by_cases hpart : offset + text.length < c.text.length
    · rw [if_pos ⟨rfl, hpart⟩]
      exact ⟨0, rfl, Nat.zero_le _, .part hne hprefix hpart .refl, hpart, by simpa [HistoryCandidate.excerpt] using hcost,
        fun _ => by simp⟩
    · rw [if_neg fun h => hpart h.2]
      have hwhole : text = c.text.drop offset := hprefix.eq_of_length (by rw [List.length_drop]; omega)
      by_cases hfull : remaining - excerptCost text < 250
      · rw [if_pos hfull]
        exact ⟨1, rfl, by simp, .whole hne hwhole .refl, .zero hrest, by simpa [HistoryCandidate.excerpt] using hcost,
          fun _ => by simp⟩
      · rw [if_neg hfull]
        obtain ⟨consumed, hindex, hbound, hadvance, hnext, hsum, -⟩ :=
          ih hrest (index + 1) (show leastRemaining ≤ remaining - excerptCost text by
            unfold leastRemaining; omega) (.zero hrest)
        refine ⟨consumed + 1, ?_, by simpa using hbound, .whole hne hwhole hadvance, hnext, ?_,
          fun _ => by simp⟩
        · dsimp only
          omega
        · simp only [List.map_cons, List.sum_cons, HistoryCandidate.excerpt]
          omega

/-! ## Reads of one record -/

/-- The request of a read. -/
def readRequest (id : Str) (cursor : Option Str) : HistoryQuery := ⟨.read, none, some id, cursor, none⟩

theorem candidateOf_read {id : Str} {cursor : Option Str} {terms : List Str} {entry : SessionRecord}
    {position : Nat} : candidateOf t (readRequest id cursor) terms entry position =
      if sourceText entry ≠ [] ∧ entry.id = id then
        some ⟨entry, sourceText entry, 1, 0, position⟩ else none := by
  unfold candidateOf readRequest
  by_cases htext : sourceText entry = [] <;> by_cases hid : entry.id = id <;> simp [htext, hid]

/-- Records with other IDs are no candidates. -/
theorem candidates_read_append {id : Str} {cursor : Option Str} {terms : List Str}
    {entries more : List SessionRecord} (h : ∀ entry ∈ more, entry.id ≠ id) :
    candidates t (readRequest id cursor) terms (entries ++ more) =
      candidates t (readRequest id cursor) terms entries := by
  have hnone : ((more.zipIdx entries.length).filterMap fun e =>
      candidateOf t (readRequest id cursor) terms e.1 e.2) = [] := by
    refine List.filterMap_eq_nil_iff.mpr fun e he => ?_
    rw [candidateOf_read, if_neg fun hc => h e.1 (List.fst_mem_of_mem_zipIdx he) hc.2]
  rw [candidates, candidates, List.zipIdx_append, List.filterMap_append, Nat.zero_add, hnone,
    List.append_nil]

/-- The records that a read of an ID pages through. -/
def readCandidates (t : TextTables) (id : Str) (branch : List SessionRecord) : List HistoryCandidate :=
  candidates t (readRequest id none) (searchTerms t []) branch

/-- The candidates of a read are the records of that ID with text. -/
theorem mem_readCandidates {id : Str} {branch : List SessionRecord} {c : HistoryCandidate} :
    c ∈ readCandidates t id branch ↔ ∃ entry position, branch[position]? = some entry ∧
      sourceText entry ≠ [] ∧ entry.id = id ∧ c = ⟨entry, sourceText entry, 1, 0, position⟩ := by
  rw [readCandidates, mem_candidates]
  constructor
  · rintro ⟨entry, position, he, hc⟩
    rw [candidateOf_read] at hc
    by_cases h : sourceText entry ≠ [] ∧ entry.id = id
    · rw [if_pos h] at hc
      exact ⟨entry, position, he, h.1, h.2, (Option.some.inj hc).symm⟩
    · rw [if_neg h] at hc
      cases hc
  · rintro ⟨entry, position, he, htext, hid, rfl⟩
    exact ⟨entry, position, he, by rw [candidateOf_read, if_pos ⟨htext, hid⟩]⟩

theorem readCandidates_length (t : TextTables) (id : Str) (branch : List SessionRecord) :
    (readCandidates t id branch).length ≤ branch.length := by
  rw [readCandidates, candidates, List.length_insertionSort]
  exact (List.length_filterMap_le _ _).trans (Nat.le_of_eq List.length_zipIdx)

/-- Newest first. -/
theorem readCandidates_sorted {id : Str} {branch : List SessionRecord} :
    (readCandidates t id branch).Pairwise fun a b => b.position < a.position := by
  have hdistinct : (readCandidates t id branch).Pairwise fun a b => a.position ≠ b.position :=
    List.pairwise_map.mp (List.nodup_iff_pairwise_ne.mp candidates_positions)
  refine (candidates_ranked.and hdistinct).imp_of_mem fun {a b} ha hb h => ?_
  obtain ⟨_, _, -, -, -, rfl⟩ := mem_readCandidates.mp ha
  obtain ⟨_, _, -, -, -, rfl⟩ := mem_readCandidates.mp hb
  have hbefore := h.1
  have hne := h.2
  simp only [HistoryCandidate.Before] at hbefore hne ⊢
  omega

example : (readCandidates ⟨List.length, id, fun _ => true, fun _ => false⟩ (lit "a")
    [messageRecord (lit "a") [] [] (lit "user") (lit "old"),
      messageRecord (lit "b") [] [] (lit "user") (lit "other"),
      messageRecord (lit "a") [] [] (lit "user") (lit "new")]).map (fun c => (c.text, c.position)) =
    [(lit "new", 2), (lit "old", 0)] := by decide +kernel

/-- The text that the excerpts of one position hold. -/
def textAt (position : Nat) (xs : List HistoryExcerpt) : Str :=
  (xs.filter fun x => x.position = position).flatMap HistoryExcerpt.text

/-- The excerpts of a read: of the records with its ID, newest first, each record's text from its
start to its end. -/
structure ReadsInFull (branch : List SessionRecord) (id : Str) (xs : List HistoryExcerpt) : Prop where
  own : ∀ x ∈ xs, ∃ entry, branch[x.position]? = some entry ∧ entry.id = id ∧ x.entryId = id ∧
    x.parentId = entry.parentId ∧ x.role = sourceRole entry
  newestFirst : xs.Pairwise fun a b => b.position ≤ a.position
  contiguous : ∀ before x after, xs = before ++ x :: after →
    x.offset = (textAt x.position before).length
  complete : ∀ position entry, branch[position]? = some entry → entry.id = id →
    textAt position xs = sourceText entry

theorem textAt_cons (position : Nat) (x : HistoryExcerpt) (xs : List HistoryExcerpt) :
    textAt position (x :: xs) = (if x.position = position then x.text else []) ++ textAt position xs := by
  by_cases h : x.position = position <;> simp [textAt, h]

theorem textAt_eq_nil {position : Nat} {xs : List HistoryExcerpt}
    (h : ∀ x ∈ xs, x.position ≠ position) : textAt position xs = [] := by
  rw [textAt, List.filter_eq_nil_iff.mpr (by simpa using h), List.flatMap_nil]

/-- Where the text at a position starts: the first candidate is read from `offset` on. -/
def startAt (cs : List HistoryCandidate) (offset position : Nat) : Nat :=
  if cs.head?.any fun c => c.position = position then offset else 0

/-- Each excerpt is one of a candidate. -/
theorem Advance.mem {cs cs' : List HistoryCandidate} {o o' : Nat} {xs : List HistoryExcerpt}
    (h : Advance cs o xs cs' o') : ∀ x ∈ xs, ∃ c ∈ cs, x = c.excerpt x.offset x.text := by
  induction h with
  | refl => simp
  | part _ _ _ _ ih => exact List.forall_mem_cons.mpr ⟨⟨_, List.mem_cons_self, rfl⟩, ih⟩
  | whole _ _ _ ih =>
    refine List.forall_mem_cons.mpr ⟨⟨_, List.mem_cons_self, rfl⟩, fun x hx => ?_⟩
    obtain ⟨c, hc, heq⟩ := ih x hx
    exact ⟨c, List.mem_cons_of_mem _ hc, heq⟩

private theorem position_le_head {c : HistoryCandidate} {rest : List HistoryCandidate}
    {xs : List HistoryExcerpt} (hsorted : (c :: rest).Pairwise fun a b => b.position < a.position)
    (hmem : ∀ x ∈ xs, ∃ c' ∈ c :: rest, x = c'.excerpt x.offset x.text) :
    ∀ x ∈ xs, x.position ≤ c.position := by
  intro x hx
  obtain ⟨c', hc', heq⟩ := hmem x hx
  rw [heq]
  rcases List.mem_cons.mp hc' with rfl | hc'
  · exact Nat.le_refl _
  · exact Nat.le_of_lt ((List.pairwise_cons.mp hsorted).1 c' hc')

theorem Advance.newestFirst {cs cs' : List HistoryCandidate} {o o' : Nat} {xs : List HistoryExcerpt}
    (h : Advance cs o xs cs' o') (hsorted : cs.Pairwise fun a b => b.position < a.position) :
    xs.Pairwise fun a b => b.position ≤ a.position := by
  induction h with
  | refl => exact List.Pairwise.nil
  | part _ _ _ hrest ih =>
    exact List.pairwise_cons.mpr ⟨position_le_head hsorted hrest.mem, ih hsorted⟩
  | whole _ _ hrest ih =>
    refine List.pairwise_cons.mpr
      ⟨position_le_head hsorted fun x hx => ?_, ih (List.pairwise_cons.mp hsorted).2⟩
    obtain ⟨c', hc', heq⟩ := hrest.mem x hx
    exact ⟨c', List.mem_cons_of_mem _ hc', heq⟩

/-- The excerpts up to the end hold each candidate's text, and each starts where those before it
end. -/
theorem Advance.spells {cs cs' : List HistoryCandidate} {o o' : Nat} {xs : List HistoryExcerpt}
    (h : Advance cs o xs cs' o') (hend : cs' = [])
    (hsorted : cs.Pairwise fun a b => b.position < a.position) :
    (∀ c ∈ cs, textAt c.position xs = c.text.drop (startAt cs o c.position)) ∧
      ∀ before x after, xs = before ++ x :: after →
        x.offset = startAt cs o x.position + (textAt x.position before).length := by
  induction h with
  | refl =>
    subst hend
    simp
  | @part c rest offset text xs cs' offset' hne hprefix hlt hrest ih =>
    obtain ⟨hcomplete, hcontiguous⟩ := ih hend hsorted
    obtain ⟨tail, htail⟩ := hprefix
    refine ⟨?_, ?_⟩
    · intro c' hc'
      have := hcomplete c' hc'
      rw [textAt_cons, this]
      by_cases hp : c.position = c'.position
      · have hc : c' = c := by
          rcases List.mem_cons.mp hc' with rfl | hc'
          · rfl
          · have := (List.pairwise_cons.mp hsorted).1 c' hc'
            omega
        subst hc
        simp only [HistoryCandidate.excerpt, startAt, List.head?_cons, Option.any_some, decide_true,
          ↓reduceIte]
        rw [← List.drop_drop, ← htail, List.drop_left]
      · simp [HistoryCandidate.excerpt, startAt, hp]
    · intro before x after heq
      rcases List.cons_eq_append_iff.mp heq with ⟨rfl, hx⟩ | ⟨before', rfl, hx⟩
      · obtain rfl := (List.cons.inj hx).1
        simp [HistoryCandidate.excerpt, startAt, textAt]
      · rw [hcontiguous before' x after hx, textAt_cons]
        by_cases hp : c.position = x.position <;>
          simp [HistoryCandidate.excerpt, startAt, hp, Nat.add_assoc]
  | @whole c rest offset text xs cs' offset' hne htext hrest ih =>
    obtain ⟨hhead, htail⟩ := List.pairwise_cons.mp hsorted
    obtain ⟨hcomplete, hcontiguous⟩ := ih hend htail
    have hother : ∀ x ∈ xs, x.position ≠ c.position := by
      intro x hx
      obtain ⟨c', hc', heq⟩ := hrest.mem x hx
      have := hhead c' hc'
      rw [heq]
      exact Nat.ne_of_lt this
    have hzero : ∀ position, startAt rest 0 position = 0 := fun position => by simp [startAt]
    refine ⟨?_, ?_⟩
    · intro c' hc'
      rw [textAt_cons]
      rcases List.mem_cons.mp hc' with rfl | hc'
      · rw [textAt_eq_nil hother, htext]
        simp [HistoryCandidate.excerpt, startAt]
      · have hp : c.position ≠ c'.position := Nat.ne_of_gt (hhead c' hc')
        rw [hcomplete c' hc', hzero]
        simp [HistoryCandidate.excerpt, startAt, hp]
    · intro before x after heq
      rcases List.cons_eq_append_iff.mp heq with ⟨rfl, hx⟩ | ⟨before', rfl, hx⟩
      · obtain rfl := (List.cons.inj hx).1
        simp [HistoryCandidate.excerpt, startAt, textAt]
      · have hp : c.position ≠ x.position := (hother x (by rw [hx]; simp)).symm
        rw [hcontiguous before' x after hx, textAt_cons, hzero]
        simp [HistoryCandidate.excerpt, startAt, hp]

/-- Excerpts that cover every candidate of a read give its records in full. -/
theorem readsInFull_of_advance {id : Str} {branch : List SessionRecord} {xs : List HistoryExcerpt}
    (h : Advance (readCandidates t id branch) 0 xs [] 0) : ReadsInFull branch id xs := by
  obtain ⟨hcomplete, hcontiguous⟩ := h.spells rfl readCandidates_sorted
  have hzero : ∀ cs position, startAt cs 0 position = 0 := fun cs position => by simp [startAt]
  have hmem : ∀ x ∈ xs, ∃ entry, branch[x.position]? = some entry ∧ entry.id = id ∧ x.entryId = id ∧
      x.parentId = entry.parentId ∧ x.role = sourceRole entry := by
    intro x hx
    obtain ⟨c, hc, heq⟩ := h.mem x hx
    obtain ⟨entry, position, he, -, hid, rfl⟩ := mem_readCandidates.mp hc
    exact ⟨entry, by rw [heq]; exact he, hid, by rw [heq]; exact hid, by rw [heq]; rfl, by rw [heq]; rfl⟩
  refine ⟨hmem, h.newestFirst readCandidates_sorted, ?_, ?_⟩
  · intro before x after heq
    rw [hcontiguous before x after heq, hzero, Nat.zero_add]
  · intro position entry he hid
    by_cases htext : sourceText entry = []
    · -- A record without text has no excerpts.
      rw [htext, textAt_eq_nil]
      rintro x hx rfl
      obtain ⟨c, hc, heq⟩ := h.mem x hx
      obtain ⟨entry', position', he', htext', -, rfl⟩ := mem_readCandidates.mp hc
      have hposition : x.position = position' := by rw [heq]; rfl
      rw [hposition, he'] at he
      exact htext' (Option.some.inj he ▸ htext)
    · have hc := (mem_readCandidates (t := t)).mpr ⟨entry, position, he, htext, hid, rfl⟩
      have := hcomplete _ hc
      rw [hzero, List.drop_zero] at this
      exact this

/-! ## Runs of a read -/

variable {sha256 : Sha256}

/-- The cursors of a read stay within their bound. -/
def CursorsFit (t : TextTables) (sha256 : Sha256) (snapshot : HistorySnapshot) (id : Str)
    (ranked : List HistoryCandidate) : Prop :=
  ∀ index c, ranked[index]? = some c → ∀ offset < c.text.length,
    t.len (cursorText (historyCursor snapshot (querySignature sha256 (readRequest id none)) index
      offset)) ≤ 2000

theorem querySignature_read (id : Str) (cursor : Option Str) :
    querySignature sha256 (readRequest id cursor) = querySignature sha256 (readRequest id none) := rfl

/-- A read from a place inside a candidate's text. -/
theorem queryHistory_read_at {snapshot pinned : HistorySnapshot} {id : Str} {cursor : Option Str}
    {index offset : Nat} (hid : id ≠ [] ∧ t.len id ≤ 64) (hcursor : ∀ c ∈ cursor, t.len c ≤ 2000)
    (hopen : openCursor sha256 snapshot (querySignature sha256 (readRequest id none)) cursor =
      .ok (pinned, index, offset)) (hranked : readCandidates t id pinned.entries ≠ []) (budget : Nat) :
    queryHistory t sha256 snapshot (readRequest id cursor).json budget =
      .ok (historyPage t pinned (readRequest id cursor) (querySignature sha256 (readRequest id none))
        (searchTerms t []) (readCandidates t id pinned.entries) index offset budget) := by
  have hbounded : (readRequest id cursor).Bounded t.len :=
    ⟨by simp [readRequest], by simpa [readRequest] using hid.2, by simpa [readRequest] using hcursor,
      by simp [readRequest]⟩
  have hsame : candidates t (readRequest id cursor) (searchTerms t []) pinned.entries =
      readCandidates t id pinned.entries := by
    unfold readCandidates candidates
    simp only [candidateOf_read]
  rw [queryHistory_json hbounded, runQuery, querySignature_read]
  refine bind_ok.mpr ⟨_, hopen, ?_⟩
  have hquery : (readRequest id cursor).query.getD [] = [] := rfl
  have hentry : ¬ ((readRequest id cursor).operation = .read ∧
      (readRequest id cursor).entryId.getD [] = []) := fun h => hid.1 h.2
  have hop : ¬ ((readRequest id cursor).operation = .search ∧ searchTerms t [] = []) :=
    fun h => nomatch h.1
  dsimp only
  rw [hquery, hsame, if_neg hop, if_neg hentry, if_neg fun h => hranked h.2]

/-- Appended records with fresh IDs are not read. -/
theorem readCandidates_grown {id : Str} {branch : List SessionRecord}
    {appended : Nat → List SessionRecord}
    (hfresh : ∀ k, FreshIds (grownBranch branch appended k) (appended k))
    (hid : ∃ entry ∈ branch, entry.id = id) (k : Nat) :
    readCandidates t id (grownBranch branch appended k) = readCandidates t id branch := by
  obtain ⟨old, hold, rfl⟩ := hid
  induction k with
  | zero => rfl
  | succ k ih =>
    have hmem := (prefix_grownBranch branch appended (Nat.zero_le k)).subset hold
    rw [← ih]
    exact candidates_read_append fun entry he => ((hfresh k).1 entry he old hmem).symm

/-- The `k`-th request of a read. -/
def askRead (t : TextTables) (sha256 : Sha256) (sessionId : Str) (branch : List SessionRecord)
    (appended : Nat → List SessionRecord) (id : Str) (budgets : Nat → Nat) (k : Nat)
    (cursor : Option Str) : Except Failure HistoryPage :=
  queryHistory t sha256 (freezeBranch sha256 sessionId (grownBranch branch appended k))
    (readRequest id cursor).json (budgets k)

/-- The pages of a read from the `k`-th request on, at a place in the candidates. -/
structure ReadPages (ranked : List HistoryCandidate) (budgets : Nat → Nat) (k : Nat)
    (place : Nat × Nat) (pages : List HistoryPage) : Prop where
  advance : Advance (ranked.drop place.1) place.2 (pages.flatMap HistoryPage.entries) [] 0
  nonempty : ∀ page ∈ pages, page.entries ≠ []
  cost : ∀ i page, pages[i]? = some page →
    (page.entries.map fun x => excerptCost x.text).sum ≤ pageTokens (budgets (k + i))

/-- The request before which a place of a read stands: the first one, or one whose cursor was issued
for a branch that has the original's hash. -/
structure ReadPlace (t : TextTables) (sha256 : Sha256) (sessionId : Str) (branch : List SessionRecord)
    (appended : Nat → List SessionRecord) (id : Str) (k : Nat) (cursor : Option Str)
    (place : Nat × Nat) : Prop where
  inside : ∃ c, (readCandidates t id branch)[place.1]? = some c ∧ place.2 < c.text.length
  issued : (k = 0 ∧ cursor = none ∧ place = (0, 0)) ∨ ∃ j ≤ k,
    hashEntries sha256 (grownBranch branch appended j) = hashEntries sha256 branch ∧
    cursor = some (cursorText (historyCursor
      (freezeBranch sha256 sessionId (grownBranch branch appended j))
      (querySignature sha256 (readRequest id none)) place.1 place.2))

section Run

variable {sessionId id : Str} {branch : List SessionRecord} {appended : Nat → List SessionRecord}

/-- The request of a place opens a branch with the same candidates at that place. -/
theorem ReadPlace.opens {k : Nat} {cursor : Option Str} {place : Nat × Nat}
    (h : ReadPlace t sha256 sessionId branch appended id k cursor place) (hlast : LastIdOnce branch)
    (hlimits : WithinLimits branch)
    (hfresh : ∀ k, FreshIds (grownBranch branch appended k) (appended k))
    (hfit : ∀ k, hashEntries sha256 (grownBranch branch appended k) = hashEntries sha256 branch →
      CursorsFit t sha256 (freezeBranch sha256 sessionId (grownBranch branch appended k)) id
        (readCandidates t id branch)) :
    (∀ c ∈ cursor, t.len c ≤ 2000) ∧ ∃ j ≤ k,
      hashEntries sha256 (grownBranch branch appended j) = hashEntries sha256 branch ∧
      openCursor sha256 (freezeBranch sha256 sessionId (grownBranch branch appended k))
        (querySignature sha256 (readRequest id none)) cursor =
          .ok (freezeBranch sha256 sessionId (grownBranch branch appended j), place.1, place.2) := by
  obtain ⟨c, hc, hoffset⟩ := h.inside
  obtain ⟨entry, position, he, -, -, rfl⟩ := mem_readCandidates.mp (List.mem_of_getElem? hc)
  have hsmall : place.2 < 2 ^ 53 :=
    Nat.lt_trans hoffset (hlimits.texts entry (List.mem_of_getElem? he))
  rcases h.issued with ⟨rfl, rfl, hplace⟩ | ⟨j, hj, hhash, rfl⟩
  · exact ⟨by simp, 0, Nat.le_refl _, rfl, by rw [hplace]; rfl⟩
  · refine ⟨?_, ?_⟩
    · intro cursor hcursor
      obtain rfl := Option.some.inj hcursor
      exact hfit j hhash place.1 _ hc place.2 hoffset
    · have hindex : place.1 < 2 ^ 53 := by
        have hlt := (List.getElem?_eq_some_iff.mp hc).1
        have hle := readCandidates_length t id branch
        have := hlimits.count
        omega
      obtain ⟨-, hleaf, hscope, -⟩ := read_historyCursor
        (freezeBranch sha256 sessionId (grownBranch branch appended j))
        (querySignature sha256 (readRequest id none)) hindex hsmall
      have hne : grownBranch branch appended j ≠ [] := by
        intro hnil
        have := (prefix_grownBranch branch appended (Nat.zero_le j)).length_le
        have hlt := (List.getElem?_eq_some_iff.mp he).1
        rw [hnil] at this
        exact absurd (Nat.le_zero.mp this) (Nat.ne_of_gt (Nat.zero_lt_of_lt hlt))
      have hpin := pinSnapshot_of_longer sessionId hne
        (grownBranch_grow hfresh hlast j) (prefix_grownBranch branch appended hj) hscope hleaf
      have hopen := openCursor_historyCursor _ hindex hsmall hpin rfl
      by_cases hsame : hashEntries sha256 (grownBranch branch appended j) =
          hashEntries sha256 (grownBranch branch appended k)
      · exact ⟨k, Nat.le_refl _, hsame ▸ hhash, by rw [hopen, if_pos hsame]⟩
      · exact ⟨j, hj, hhash, by rw [hopen, if_neg hsame]⟩

/-- A page of a read, and the place from which the next one continues. -/
theorem ReadPlace.page {k : Nat} {cursor : Option Str} {place : Nat × Nat}
    (h : ReadPlace t sha256 sessionId branch appended id k cursor place) (hid : id ≠ [] ∧ t.len id ≤ 64)
    (hlast : LastIdOnce branch) (hlimits : WithinLimits branch)
    (hfresh : ∀ k, FreshIds (grownBranch branch appended k) (appended k))
    (hfit : ∀ k, hashEntries sha256 (grownBranch branch appended k) = hashEntries sha256 branch →
      CursorsFit t sha256 (freezeBranch sha256 sessionId (grownBranch branch appended k)) id
        (readCandidates t id branch)) (budgets : Nat → Nat) :
    ∃ page, askRead t sha256 sessionId branch appended id budgets k cursor = .ok page ∧
      page.entries ≠ [] ∧
      (page.entries.map fun x => excerptCost x.text).sum ≤ pageTokens (budgets k) ∧
      ∃ place', Advance ((readCandidates t id branch).drop place.1) place.2 page.entries
          ((readCandidates t id branch).drop place'.1) place'.2 ∧
        Startable ((readCandidates t id branch).drop place'.1) place'.2 ∧
        ((page.cursor = none ∧ (readCandidates t id branch).length ≤ place'.1) ∨
          ∃ cursor', page.cursor = some cursor' ∧
            ReadPlace t sha256 sessionId branch appended id (k + 1) (some cursor') place') := by
  obtain ⟨c, hc, hoffset⟩ := h.inside
  have hlt := (List.getElem?_eq_some_iff.mp hc).1
  obtain ⟨entry, position, he, -, hentry, -⟩ := mem_readCandidates.mp (List.mem_of_getElem? hc)
  obtain ⟨hcursor, j, hj, hhash, hopen⟩ := h.opens hlast hlimits hfresh hfit
  have hsame := readCandidates_grown (t := t) hfresh ⟨entry, List.mem_of_getElem? he, hentry⟩ j
  have hask := queryHistory_read_at hid hcursor hopen
    (by rw [show (freezeBranch sha256 sessionId (grownBranch branch appended j)).entries =
      grownBranch branch appended j from rfl, hsame]; exact List.ne_nil_of_mem (List.mem_of_getElem? hc))
    (budgets k)
  rw [show (freezeBranch sha256 sessionId (grownBranch branch appended j)).entries =
      grownBranch branch appended j from rfl, hsame] at hask
  have htexts : ∀ c ∈ (readCandidates t id branch).drop place.1, c.text ≠ [] :=
    fun c hc => candidates_texts c (List.mem_of_mem_drop hc)
  obtain ⟨consumed, hfill⟩ := fillPage_read (t := t) (searchTerms t []) htexts place.1 (pageTokens_ge (budgets k))
    ((startable_drop hlt).mpr ⟨c, hc, hoffset⟩)
  have hdrop : ((readCandidates t id branch).drop place.1).drop consumed =
      (readCandidates t id branch).drop (place.1 + consumed) := List.drop_drop
  have hadvance := hfill.advance
  have hstart := hfill.start
  rw [hdrop, ← hfill.index] at hadvance hstart
  refine ⟨_, hask, hfill.progress ?_, hfill.cost, (_, _), hadvance, hstart, ?_⟩
  · rw [ne_eq, List.drop_eq_nil_iff]
    omega
  · by_cases hmore : (fillPage t .read (searchTerms t [])
        ((readCandidates t id branch).drop place.1) place.1 place.2 (pageTokens (budgets k))).2.1 <
        (readCandidates t id branch).length
    · refine .inr ⟨_, if_pos hmore, (startable_drop hmore).mp hstart, .inr ⟨j, ?_, hhash, rfl⟩⟩
      omega
    · exact .inl ⟨if_neg hmore, Nat.not_lt.mp hmore⟩

/-- The run from a place: its pages cover what the place leaves. -/
theorem ReadPlace.follow {k : Nat} {cursor : Option Str} {place : Nat × Nat}
    (h : ReadPlace t sha256 sessionId branch appended id k cursor place) (hid : id ≠ [] ∧ t.len id ≤ 64)
    (hlast : LastIdOnce branch) (hlimits : WithinLimits branch)
    (hfresh : ∀ k, FreshIds (grownBranch branch appended k) (appended k))
    (hfit : ∀ k, hashEntries sha256 (grownBranch branch appended k) = hashEntries sha256 branch →
      CursorsFit t sha256 (freezeBranch sha256 sessionId (grownBranch branch appended k)) id
        (readCandidates t id branch)) (budgets : Nat → Nat) :
    ∃ pages, Follow (askRead t sha256 sessionId branch appended id budgets) HistoryPage.cursor k cursor
        pages ∧ ReadPages (readCandidates t id branch) budgets k place pages := by
  refine Follow.of_measure (ReadPlace t sha256 sessionId branch appended id)
    (ReadPages (readCandidates t id branch) budgets)
    (fun place => textUnits ((readCandidates t id branch).drop place.1) - place.2) ?_ h
  intro k cursor place h
  obtain ⟨page, hask, hne, hcost, place', hadvance, hstart, hnext⟩ :=
    h.page hid hlast hlimits hfresh hfit budgets
  refine ⟨page, hask, ?_⟩
  rcases hnext with ⟨hnone, hend⟩ | ⟨cursor', hsome, hat⟩
  · -- Nothing is left.
    rw [List.drop_of_length_le hend] at hadvance hstart
    have hzero : place'.2 = 0 := hstart
    rw [hzero] at hadvance
    refine .inl ⟨hnone, by simpa using hadvance, by simpa using hne, ?_⟩
    intro i page' hi
    obtain ⟨rfl, rfl⟩ : i = 0 ∧ page = page' := by simpa [List.getElem?_singleton] using hi
    exact hcost
  · refine .inr ⟨cursor', place', hsome, hat, ?_, ?_⟩
    · have hunits := hadvance.units
      have hle := hstart.le
      obtain ⟨x, xs, hx⟩ := List.exists_cons_of_ne_nil hne
      have hpos := List.length_pos_iff.mpr (hadvance.texts x (hx ▸ List.mem_cons_self))
      rw [hx, List.map_cons, List.sum_cons] at hunits
      omega
    · intro pages hpages
      refine ⟨?_, List.forall_mem_cons.mpr ⟨hne, hpages.nonempty⟩, ?_⟩
      · rw [List.flatMap_cons]
        exact hadvance.trans hpages.advance
      · intro i page' hi
        cases i with
        | zero =>
          obtain rfl := Option.some.inj hi
          exact hcost
        | succ i =>
          have := hpages.cost i page' hi
          rwa [Nat.add_right_comm, Nat.add_assoc] at this

/-- A paged read returns its records in full while the branch grows, if the branch's last ID occurs
once and the cursors stay within their bound. -/
theorem queryHistory_read (hlast : LastIdOnce branch) (hlimits : WithinLimits branch)
    (hfresh : ∀ k, FreshIds (grownBranch branch appended k) (appended k))
    (hreadable : id ≠ [] ∧ t.len id ≤ 64 ∧ ∃ entry ∈ branch, entry.id = id ∧ sourceText entry ≠ [])
    (hfit : ∀ k, hashEntries sha256 (grownBranch branch appended k) = hashEntries sha256 branch →
      CursorsFit t sha256 (freezeBranch sha256 sessionId (grownBranch branch appended k)) id
        (readCandidates t id branch)) (budgets : Nat → Nat) :
    ∃ pages, Follow (askRead t sha256 sessionId branch appended id budgets) HistoryPage.cursor 0 none
        pages ∧
      (∀ page ∈ pages, page.entries ≠ [] ∧ ∀ x ∈ page.entries, x.text ≠ []) ∧
      ReadsInFull branch id (pages.flatMap HistoryPage.entries) ∧
      ∀ k page, pages[k]? = some page →
        (page.entries.map fun x => excerptCost x.text).sum ≤ pageTokens (budgets k) := by
  obtain ⟨hne, hlen, entry, hentry, hid, htext⟩ := hreadable
  obtain ⟨position, he⟩ := List.mem_iff_getElem?.mp hentry
  have hc := (mem_readCandidates (t := t)).mpr ⟨entry, position, he, htext, hid, rfl⟩
  have hinside : ∃ c, (readCandidates t id branch)[0]? = some c ∧ 0 < c.text.length := by
    refine ⟨_, List.getElem?_eq_getElem (List.length_pos_of_mem hc), ?_⟩
    exact List.length_pos_iff.mpr (candidates_texts _ (List.getElem_mem _))
  obtain ⟨pages, hfollow, hpages⟩ := ReadPlace.follow
    ⟨hinside, .inl ⟨rfl, rfl, rfl⟩⟩ ⟨hne, hlen⟩ hlast hlimits hfresh hfit budgets
  refine ⟨pages, hfollow, fun page hpage => ⟨hpages.nonempty page hpage, fun x hx => ?_⟩,
    readsInFull_of_advance hpages.advance, fun k page hk => by simpa using hpages.cost k page hk⟩
  exact hpages.advance.texts x (List.mem_flatMap.mpr ⟨page, hpage, hx⟩)

end Run

/-! ### Two runs that fail -/

/-- Tables for records without Han text, in lower case. -/
def plainTables : TextTables := ⟨List.length, id, fun point => decide (point ≠ [0x20]), fun _ => false⟩

/-- A digest that tells branches of different sizes apart. -/
def sizeHash : Sha256 := fun bytes => [bytes.length.toUInt16]

/-- A message of the user. -/
def userRecord (id text : Str) : SessionRecord := messageRecord id [] [] (lit "user") text

/-- The second page of a read is refused. -/
def refusedSecond (sessionId : Str) (branch : List SessionRecord)
    (appended : Nat → List SessionRecord) (id : Str) : Bool :=
  match askRead plainTables sizeHash sessionId branch appended id (fun _ => 0) 0 none with
  | .error _ => false
  | .ok page => page.cursor.any fun cursor =>
      (askRead plainTables sizeHash sessionId branch appended id (fun _ => 0) 1 (some cursor)).isOk ==
        false

/-- A read whose second page is refused cannot be followed to its end. -/
theorem not_follow_of_refusedSecond {sessionId : Str} {branch : List SessionRecord}
    {appended : Nat → List SessionRecord} {id : Str}
    (h : refusedSecond sessionId branch appended id = true) :
    ¬ ∃ pages, Follow (askRead plainTables sizeHash sessionId branch appended id fun _ => 0)
      HistoryPage.cursor 0 none pages := by
  rintro ⟨pages, hfollow⟩
  unfold refusedSecond at h
  cases hfollow with
  | last hask hnone =>
    rw [hask] at h
    simp [hnone] at h
  | more hask hsome hrest =>
    rw [hask] at h
    simp only [hsome, Option.any_some, beq_iff_eq] at h
    cases hrest with
    | last hask' _ =>
      rw [hask'] at h
      cases h
    | more hask' _ _ =>
      rw [hask'] at h
      cases h

/-- One record, appended after the first page. -/
def appendOnce (entry : SessionRecord) (k : Nat) : List SessionRecord := if k = 0 then [entry] else []

theorem freshIds_appendOnce {branch : List SessionRecord} {entry : SessionRecord}
    (h : ∀ old ∈ branch, old.id ≠ entry.id) (k : Nat) :
    FreshIds (grownBranch branch (appendOnce entry) k) (appendOnce entry k) := by
  cases k with
  | zero => simpa [FreshIds, appendOnce, grownBranch] using h
  | succ k => simp [FreshIds, appendOnce]

/-- Two records with the last ID, and a record behind them. -/
def repeatedLeaf : List SessionRecord :=
  [userRecord (lit "a") (List.replicate 200 0x61), userRecord (lit "a") (lit "hi")]

/-- A read of a repeated last ID stops when the branch grows, and one whose cursor is longer than the
schema admits stops after its first page. -/
theorem not_queryHistory_read_samples :
    (¬ LastIdOnce repeatedLeaf ∧
      (∀ k, FreshIds (grownBranch repeatedLeaf (appendOnce (userRecord (lit "b") (lit "more"))) k)
        (appendOnce (userRecord (lit "b") (lit "more")) k)) ∧
      ¬ ∃ pages, Follow (askRead plainTables sizeHash (lit "s") repeatedLeaf
        (appendOnce (userRecord (lit "b") (lit "more"))) (lit "a") fun _ => 0)
        HistoryPage.cursor 0 none pages) ∧
    ¬ ∃ pages, Follow (askRead plainTables sizeHash (List.replicate 1500 0x61)
      [userRecord (lit "a") (List.replicate 200 0x61)] (fun _ => []) (lit "a") fun _ => 0)
      HistoryPage.cursor 0 none pages := by
  refine ⟨⟨fun h => ?_, freshIds_appendOnce ?_, not_follow_of_refusedSecond (by decide +kernel)⟩,
    not_follow_of_refusedSecond (by decide +kernel)⟩
  · exact h [_] _ rfl _ List.mem_cons_self (by simp [userRecord])
  · simp [repeatedLeaf, userRecord]

/-- A record that takes two pages. -/
def escapedRecord : SessionRecord := userRecord (lit "a") (List.replicate 33 0x01)

/-- While the hash is that of the first record alone, nothing was appended. -/
private theorem sizeHash_appendOnce {entry : SessionRecord} (k : Nat)
    (h : hashEntries sizeHash (grownBranch [escapedRecord] (appendOnce entry) k) =
      hashEntries sizeHash [escapedRecord])
    (hentry : hashEntries sizeHash [escapedRecord, entry] ≠ hashEntries sizeHash [escapedRecord]) :
    k = 0 := by
  have hgrown : ∀ k, grownBranch [escapedRecord] (appendOnce entry) (k + 1) =
      [escapedRecord, entry] := by
    intro k
    induction k with
    | zero => rfl
    | succ k ih => rw [grownBranch, ih]; rfl
  cases k with
  | zero => rfl
  | succ k =>
    rw [hgrown] at h
    exact absurd h hentry

/-- A record is appended behind the first page. -/
theorem queryHistory_read_sample :
    ∃ pages, Follow (askRead plainTables sizeHash (lit "s") [escapedRecord]
        (appendOnce (userRecord (lit "b") (lit "more"))) (lit "a") fun _ => 0)
        HistoryPage.cursor 0 none pages ∧
      (∀ page ∈ pages, page.entries ≠ [] ∧ ∀ x ∈ page.entries, x.text ≠ []) ∧
      ReadsInFull [escapedRecord] (lit "a") (pages.flatMap HistoryPage.entries) ∧
      ∀ (k : Nat) (page : HistoryPage), pages[k]? = some page →
        (page.entries.map fun x => excerptCost x.text).sum ≤ pageTokens 0 := by
  refine queryHistory_read ?_ ?_ (freshIds_appendOnce ?_) ?_ ?_ fun _ => 0
  · intro before last heq entry hentry
    have hlen := congrArg List.length heq
    have hpos := List.length_pos_of_mem hentry
    simp only [List.length_singleton, List.length_append] at hlen
    omega
  · exact ⟨by simp, by simp [escapedRecord, userRecord]⟩
  · simp [escapedRecord, userRecord]
  · exact ⟨by decide, by decide, _, List.mem_cons_self, by simp [escapedRecord, userRecord],
      by simp [escapedRecord, userRecord]⟩
  · intro k hk
    obtain rfl := sizeHash_appendOnce k hk (by decide +kernel)
    have hlengths : ∀ offset < 33, (cursorText (historyCursor
        (freezeBranch sizeHash (lit "s") [escapedRecord])
        (querySignature sizeHash (readRequest (lit "a") none)) 0 offset)).length ≤ 2000 := by
      decide +kernel
    have hranked : readCandidates plainTables (lit "a") [escapedRecord] =
        [⟨escapedRecord, sourceText escapedRecord, 1, 0, 0⟩] := by
      simp [readCandidates, candidates, candidateOf_read, escapedRecord, userRecord]
    intro index c hc offset hoffset
    rw [hranked] at hc
    obtain ⟨rfl, rfl⟩ : index = 0 ∧ _ = c := by simpa [List.getElem?_singleton] using hc
    exact hlengths offset (by simpa [escapedRecord, userRecord] using hoffset)

end Reads

end Compaction
