import Mathlib.Data.List.Dedup
import Mathlib.Data.List.TakeWhile
import ContextCompaction.Core.History
import ContextCompaction.Sequences.Windows

/-!
# The window of an excerpt

* `Tally`: a map from terms to how often they occur in a list.
* `bestWindow_eq`: the sweep finds the first suffix of the hits whose window has the most terms.
* `mem_termHits`: the hits are the places of the terms, where no term occurs too often.
* `excerptStart_spec`: the excerpt starts before the earliest place where the most terms meet.
-/

namespace Compaction

open Js Sequences

/-! ## Tallies -/

/-- How often each term occurs. -/
structure Tally (inWindow : List (Nat × Nat)) (terms : List Nat) : Prop where
  nodup : (inWindow.map Prod.fst).Nodup
  get : ∀ t, mapGet inWindow t = if terms.count t = 0 then none else some (terms.count t)

section Tallies

variable {inWindow : List (Nat × Nat)} {terms : List Nat} {term : Nat}

theorem tally_nil : Tally [] [] := ⟨List.nodup_nil, fun _ => rfl⟩

theorem Tally.mem (h : Tally inWindow terms) {t : Nat} : t ∈ inWindow.map Prod.fst ↔ t ∈ terms := by
  rw [← not_iff_not, ← mapGet_eq_none, h.get t, ← List.count_eq_zero]
  split
  · next hzero => exact iff_of_true rfl hzero
  · next hpos => exact iff_of_false (Option.some_ne_none _) hpos

/-- The map has one entry for each term. -/
theorem Tally.length (h : Tally inWindow terms) : inWindow.length = terms.dedup.length := by
  rw [← List.length_map Prod.fst]
  refine ((List.perm_ext_iff_of_nodup h.nodup (List.nodup_dedup terms)).mpr fun t => ?_).length_eq
  rw [h.mem, List.mem_dedup]

theorem Tally.getD (h : Tally inWindow terms) {n : Nat} (hn : n = 0 ∨ 0 < terms.count term) :
    (mapGet inWindow term).getD n = terms.count term := by
  rw [h.get]
  split
  · next hzero =>
    rw [hzero] at hn ⊢
    exact hn.resolve_right (Nat.lt_irrefl 0)
  · rfl

theorem Tally.enter (h : Tally inWindow terms) :
    Tally (mapSet inWindow term ((mapGet inWindow term).getD 0 + 1)) (terms ++ [term]) := by
  refine ⟨nodup_mapSet h.nodup _ _, fun t => ?_⟩
  rw [mapGet_mapSet, h.getD (.inl rfl), List.count_append]
  by_cases ht : term = t
  · subst ht
    rw [if_pos rfl, List.count_singleton_self, if_neg (Nat.succ_ne_zero _)]
  · rw [if_neg ht, List.count_singleton, beq_false_of_ne ht, if_neg Bool.false_ne_true, Nat.add_zero, h.get]

/-- A term that leaves the window is counted once less. -/
theorem Tally.leave (h : Tally inWindow (term :: terms)) : Tally (leaveWindow inWindow term) terms := by
  have hleft : (mapGet inWindow term).getD 1 - 1 = terms.count term := by
    rw [h.getD (.inr (by simp)), List.count_cons_self, Nat.add_sub_cancel]
  unfold leaveWindow
  dsimp only
  rw [hleft]
  split
  · next hzero =>
    refine ⟨nodup_mapDelete h.nodup _, fun t => ?_⟩
    rw [mapGet_mapDelete]
    by_cases ht : term = t
    · subst ht
      rw [if_pos rfl, if_pos hzero]
    · rw [if_neg ht, h.get, List.count_cons_of_ne ht]
  · next hpos =>
    refine ⟨nodup_mapSet h.nodup _ _, fun t => ?_⟩
    rw [mapGet_mapSet]
    by_cases ht : term = t
    · subst ht
      rw [if_pos rfl, if_neg hpos]
    · rw [if_neg ht, h.get, List.count_cons_of_ne ht]

end Tallies

/-! ## The sweep -/

/-- The window that the first of some hits opens. -/
def windowOf : List Hit → List Hit
  | [] => []
  | first :: hits => (first :: hits).takeWhile fun hit => decide (hit.at_ - first.at_ ≤ HIT_WINDOW)

/-- In ordered hits a window holds all that are close enough. -/
theorem mem_windowOf {first hit : Hit} {hits : List Hit}
    (hsorted : (first :: hits).Pairwise fun a b => a.at_ ≤ b.at_) :
    hit ∈ windowOf (first :: hits) ↔ hit ∈ first :: hits ∧ hit.at_ ≤ first.at_ + HIT_WINDOW := by
  have hfilter := @takeWhile_eq_filter _ (fun hit : Hit => decide (hit.at_ - first.at_ ≤ HIT_WINDOW)) _
    (hsorted.imp fun {a b} hab hb => by
      rw [decide_eq_true_iff] at hb ⊢
      omega)
  rw [windowOf, hfilter, List.mem_filter, decide_eq_true_iff, Nat.sub_le_iff_le_add, Nat.add_comm HIT_WINDOW]

/-- How many terms the window has. -/
def windowTerms (hits : List Hit) : Nat := ((windowOf hits).map Hit.term).dedup.length

/-- The hits that enter the window are those within its span, and all of them are counted. -/
theorem enterWindow_tally {first : Nat} {ahead : List Hit} {inWindow : List (Nat × Nat)} {seen : List Hit}
    (h : Tally inWindow (seen.map Hit.term)) :
    (enterWindow first ahead inWindow).1 = ahead.dropWhile (fun hit => decide (hit.at_ - first ≤ HIT_WINDOW)) ∧
      Tally (enterWindow first ahead inWindow).2
        ((seen ++ ahead.takeWhile fun hit => decide (hit.at_ - first ≤ HIT_WINDOW)).map Hit.term) := by
  induction ahead generalizing inWindow seen with
  | nil => exact ⟨rfl, by simpa [enterWindow] using h⟩
  | cons hit ahead ih =>
    rw [enterWindow]
    by_cases hin : hit.at_ - first ≤ HIT_WINDOW
    · have hseen : Tally (mapSet inWindow hit.term ((mapGet inWindow hit.term).getD 0 + 1))
          ((seen ++ [hit]).map Hit.term) := by
        rw [List.map_append]
        exact h.enter
      have hrest := ih hseen
      rw [List.append_assoc, List.singleton_append] at hrest
      rw [if_pos hin, List.dropWhile_cons_of_pos (by simpa using hin), List.takeWhile_cons_of_pos (by simpa using hin)]
      exact hrest
    · rw [if_neg hin, List.dropWhile_cons_of_neg (by simpa using hin), List.takeWhile_cons_of_neg (by simpa using hin),
        List.append_nil]
      exact ⟨rfl, h⟩

/-- The sweep scores each suffix of the hits by its window. -/
theorem bestWindow_eq {hits seen ahead : List Hit} {inWindow : List (Nat × Nat)} {best most : Nat}
    (hsorted : hits.Pairwise fun a b => a.at_ ≤ b.at_) (hsplit : hits = seen ++ ahead)
    (hseen : ∀ first ∈ hits.head?, ∀ hit ∈ seen, hit.at_ - first.at_ ≤ HIT_WINDOW)
    (h : Tally inWindow (seen.map Hit.term)) :
    bestWindow hits ahead inWindow best most = firstMost windowTerms Hit.at_ hits best most := by
  induction hits generalizing seen ahead inWindow best most with
  | nil => rfl
  | cons first hits ih =>
    have hordered := hsorted
    obtain ⟨hle, hsorted⟩ := List.pairwise_cons.mp hsorted
    obtain ⟨hahead, htally⟩ := @enterWindow_tally first.at_ ahead _ _ h
    have hwindow : seen ++ ahead.takeWhile (fun hit => decide (hit.at_ - first.at_ ≤ HIT_WINDOW)) =
        windowOf (first :: hits) := by
      rw [windowOf, hsplit, List.takeWhile_append_of_pos]
      intro hit hhit
      exact decide_eq_true (hseen first rfl hit hhit)
    rw [hwindow] at htally
    have hlength : (enterWindow first.at_ ahead inWindow).2.length = windowTerms (first :: hits) := htally.length
    -- the first hit is in its own window, and leaves it
    obtain ⟨rest, hrest⟩ : ∃ rest, windowOf (first :: hits) = first :: rest := by
      rw [windowOf, List.takeWhile_cons_of_pos (by simp)]
      exact ⟨_, rfl⟩
    have hnext : hits = rest ++ ahead.dropWhile (fun hit => decide (hit.at_ - first.at_ ≤ HIT_WINDOW)) := by
      have hall : first :: hits = windowOf (first :: hits) ++
          ahead.dropWhile (fun hit => decide (hit.at_ - first.at_ ≤ HIT_WINDOW)) := by
        rw [← hwindow, List.append_assoc, List.takeWhile_append_dropWhile, hsplit]
      rw [hrest] at hall
      exact (List.cons.inj hall).2
    have hkept : ∀ next ∈ hits.head?, ∀ hit ∈ rest, hit.at_ - next.at_ ≤ HIT_WINDOW := by
      intro next hnext hit hhit
      have hin : hit ∈ windowOf (first :: hits) := hrest ▸ List.mem_cons_of_mem _ hhit
      have hclose := ((mem_windowOf hordered).mp hin).2
      have := hle next (List.mem_of_mem_head? hnext)
      omega
    rw [hrest, List.map_cons] at htally
    rw [bestWindow, firstMost, hlength, hahead]
    by_cases hmore : most < windowTerms (first :: hits)
    · rw [if_pos hmore, if_pos hmore]
      exact ih hsorted hnext hkept htally.leave
    · rw [if_neg hmore, if_neg hmore]
      exact ih hsorted hnext hkept htally.leave

/-! ## The hits -/

/-- The places of a word. -/
def occurrences (text word : Str) : List Nat :=
  (List.range (text.length + 1)).filter fun i => word.isPrefixOf (text.drop i)

section Hits

variable {text word : Str} {terms : List Str}

/-- What is left of an ordered list from a bound on, behind its first element. -/
theorem filter_le_cons {l rest : List Nat} {start a : Nat} (hl : l.Pairwise (· < ·))
    (h : l.filter (fun i => decide (start ≤ i)) = a :: rest) :
    rest = l.filter fun i => decide (a + 1 ≤ i) := by
  have hsorted : (a :: rest).Pairwise (· < ·) := h ▸ hl.filter _
  have hlater := (List.pairwise_cons.mp hsorted).1
  have hle : start ≤ a := by
    have ha : a ∈ l.filter fun i => decide (start ≤ i) := h ▸ List.mem_cons_self
    exact of_decide_eq_true (List.mem_filter.mp ha).2
  have htwice : (l.filter fun i => decide (start ≤ i)).filter (fun i => decide (a + 1 ≤ i)) =
      l.filter fun i => decide (a + 1 ≤ i) := by
    rw [List.filter_filter]
    refine List.filter_congr fun i _ => ?_
    by_cases hi : a + 1 ≤ i
    · rw [decide_eq_true hi, decide_eq_true (by omega : start ≤ i)]
      rfl
    · rw [decide_eq_false hi, Bool.false_and]
  rw [← htwice, h, List.filter_cons_of_neg (by simp)]
  exact (List.filter_eq_self.mpr fun i hi => decide_eq_true (hlater i hi)).symm

theorem indexFrom_eq_head? (text word : Str) (start : Nat) :
    indexFrom text word start = ((occurrences text word).filter fun i => decide (start ≤ i)).head? := by
  rw [occurrences, List.filter_filter, List.head?_filter]
  rfl

/-- The search finds the first places. -/
theorem hitsFrom_eq (limit start : Nat) :
    hitsFrom text word limit start = ((occurrences text word).filter fun i => decide (start ≤ i)).take limit := by
  induction limit generalizing start with
  | zero => rfl
  | succ limit ih =>
    rw [hitsFrom, indexFrom_eq_head?]
    cases h : (occurrences text word).filter fun i => decide (start ≤ i) with
    | nil => rfl
    | cons a rest =>
      have hrest : rest = (occurrences text word).filter fun i => decide (a + 1 ≤ i) :=
        filter_le_cons (List.pairwise_lt_range.filter _) h
      show a :: hitsFrom text word limit (a + 1) = _
      rw [List.take_succ_cons, ih, hrest]

/-- The hits are the places of the terms. -/
theorem mem_termHits (hlimit : ∀ word ∈ terms, (occurrences text word).length ≤ HIT_LIMIT) {hit : Hit} :
    hit ∈ termHits text terms ↔ ∃ word, terms[hit.term]? = some word ∧ hit.at_ ∈ occurrences text word := by
  rw [termHits, List.mem_insertionSort, List.mem_flatMap]
  have hall : ∀ word ∈ terms, hitsFrom text word HIT_LIMIT 0 = occurrences text word := by
    intro word hword
    rw [hitsFrom_eq, List.filter_eq_self.mpr fun i _ => decide_eq_true (Nat.zero_le i),
      List.take_of_length_le (hlimit word hword)]
  constructor
  · rintro ⟨⟨word, term⟩, hmem, hhit⟩
    have hword := List.mem_zipIdx_iff_getElem?.mp hmem
    obtain ⟨at_, hat, rfl⟩ := List.mem_map.mp hhit
    rw [hall word (List.mem_of_getElem? hword)] at hat
    exact ⟨word, hword, hat⟩
  · rintro ⟨word, hword, hat⟩
    refine ⟨(word, hit.term), List.mem_zipIdx_iff_getElem?.mpr hword, List.mem_map.mpr ⟨hit.at_, ?_, rfl⟩⟩
    rwa [hall word (List.mem_of_getElem? hword)]

theorem termHits_sorted (text : Str) (terms : List Str) :
    (termHits text terms).Pairwise fun a b => a.at_ ≤ b.at_ := by
  let before : Hit → Hit → Prop := fun a b => a.at_ < b.at_ ∨ (a.at_ = b.at_ ∧ a.term ≤ b.term)
  have htotal : Std.Total before := ⟨fun a b => by simp only [before]; omega⟩
  have htrans : IsTrans Hit before := ⟨fun a b c => by simp only [before]; omega⟩
  have hsorted := List.pairwise_insertionSort before
    (terms.zipIdx.flatMap fun e => (hitsFrom text e.1 HIT_LIMIT 0).map fun at_ => ⟨at_, e.2⟩)
  refine hsorted.imp fun {a b} h => ?_
  simp only [before] at h
  omega

end Hits

/-! ## The densest window -/

/-- How many of the terms occur from a place on, within the reach of a window. -/
def meeting (text : Str) (terms : List Str) (start : Nat) : Nat :=
  (terms.filter fun word => (occurrences text word).any fun i =>
    decide (start ≤ i ∧ i ≤ start + HIT_WINDOW)).length

/-- Some term occurs at the place. -/
def IsPlace (text : Str) (terms : List Str) (i : Nat) : Prop := ∃ word ∈ terms, i ∈ occurrences text word

section Densest

variable {text : Str} {terms : List Str} {hits before : List Hit} {first : Hit}

/-- The terms that meet in a window, by their places in the list. -/
theorem meeting_eq (text : Str) (terms : List Str) (start : Nat) : ∃ met : List Nat, met.Nodup ∧
    met.length = meeting text terms start ∧ ∀ t, t ∈ met ↔
      ∃ word, terms[t]? = some word ∧ ∃ i ∈ occurrences text word, start ≤ i ∧ i ≤ start + HIT_WINDOW := by
  refine ⟨(terms.zipIdx.filter fun e => (occurrences text e.1).any fun i =>
    decide (start ≤ i ∧ i ≤ start + HIT_WINDOW)).map Prod.snd, ?_, ?_, fun t => ?_⟩
  · have hnodup : (terms.zipIdx.map Prod.snd).Nodup := by
      rw [List.zipIdx_map_snd]
      exact List.nodup_range'
    exact hnodup.sublist (List.filter_sublist.map _)
  · have hmap := List.filter_map (f := Prod.fst) (l := terms.zipIdx) (p := fun word =>
      (occurrences text word).any fun i => decide (start ≤ i ∧ i ≤ start + HIT_WINDOW))
    rw [List.zipIdx_map_fst] at hmap
    rw [List.length_map, meeting, hmap, List.length_map]
    rfl
  · simp only [List.mem_map, List.mem_filter, List.mem_zipIdx_iff_getElem?, List.any_eq_true,
      decide_eq_true_iff, Prod.exists, exists_eq_right]

/-- A window has terms that meet from its start on. -/
theorem windowTerms_le (hsplit : termHits text terms = before ++ first :: hits)
    (hlimit : ∀ word ∈ terms, (occurrences text word).length ≤ HIT_LIMIT) :
    windowTerms (first :: hits) ≤ meeting text terms first.at_ ∧
      ((∀ hit ∈ before, hit.at_ < first.at_) → windowTerms (first :: hits) = meeting text terms first.at_) := by
  obtain ⟨met, hnodup, hlength, hmet⟩ := meeting_eq text terms first.at_
  have hsorted := hsplit ▸ termHits_sorted text terms
  have hsuffix := (List.pairwise_append.mp hsorted).2.1
  have hlow := (List.pairwise_cons.mp hsuffix).1
  have hwindow : ∀ t ∈ ((windowOf (first :: hits)).map Hit.term).dedup, t ∈ met := by
    intro t ht
    obtain ⟨hit, hhit, rfl⟩ := List.mem_map.mp (List.mem_dedup.mp ht)
    obtain ⟨hin, hclose⟩ := (mem_windowOf hsuffix).mp hhit
    have hmem : hit ∈ termHits text terms := hsplit ▸ List.mem_append_right _ hin
    obtain ⟨word, hword, hat⟩ := (mem_termHits hlimit).mp hmem
    refine (hmet _).mpr ⟨word, hword, hit.at_, hat, ?_, hclose⟩
    obtain rfl | hin := List.mem_cons.mp hin
    · exact Nat.le_refl _
    · exact hlow hit hin
  refine ⟨?_, fun hbefore => ?_⟩
  · rw [← hlength]
    exact ((List.nodup_dedup _).subperm hwindow).length_le
  · rw [← hlength]
    refine ((List.perm_ext_iff_of_nodup (List.nodup_dedup _) hnodup).mpr fun t => ⟨hwindow t, fun ht => ?_⟩).length_eq
    obtain ⟨word, hword, i, hi, hstart, hclose⟩ := (hmet t).mp ht
    have hmem : (⟨i, t⟩ : Hit) ∈ termHits text terms := (mem_termHits hlimit).mpr ⟨word, hword, hi⟩
    rw [hsplit] at hmem
    rw [List.mem_dedup]
    refine List.mem_map.mpr ⟨⟨i, t⟩, (mem_windowOf hsuffix).mpr ⟨?_, hclose⟩, rfl⟩
    exact (List.mem_append.mp hmem).resolve_left fun hin => absurd (hbefore _ hin) (Nat.not_lt.mpr hstart)

/-- At each place some window starts with all hits of the place. -/
theorem exists_window {i : Nat} (hplace : IsPlace text terms i)
    (hlimit : ∀ word ∈ terms, (occurrences text word).length ≤ HIT_LIMIT) :
    ∃ before first hits, termHits text terms = before ++ first :: hits ∧ first.at_ = i ∧
      ∀ hit ∈ before, hit.at_ < i := by
  obtain ⟨word, hword, hi⟩ := hplace
  obtain ⟨t, ht⟩ := List.getElem?_of_mem hword
  have hmem : (⟨i, t⟩ : Hit) ∈ termHits text terms := (mem_termHits hlimit).mpr ⟨word, ht, hi⟩
  have hsorted := termHits_sorted text terms
  obtain ⟨before, first, hits, hsplit, hfirst, hbefore⟩ :
      ∃ before first hits, termHits text terms = before ++ first :: hits ∧ i ≤ first.at_ ∧
        ∀ hit ∈ before, hit.at_ < i := by
    generalize termHits text terms = all at hmem
    induction all with
    | nil => cases hmem
    | cons hit all ih =>
      by_cases hle : i ≤ hit.at_
      · exact ⟨[], hit, all, rfl, hle, fun _ h => absurd h List.not_mem_nil⟩
      · obtain rfl | hmem := List.mem_cons.mp hmem
        · exact absurd (Nat.le_refl i) hle
        · obtain ⟨before, first, hits, rfl, hfirst, hbefore⟩ := ih hmem
          refine ⟨hit :: before, first, hits, rfl, hfirst, fun x hx => ?_⟩
          obtain rfl | hx := List.mem_cons.mp hx
          · exact Nat.not_le.mp hle
          · exact hbefore x hx
  refine ⟨before, first, hits, hsplit, Nat.le_antisymm ?_ hfirst, hbefore⟩
  rw [hsplit] at hmem hsorted
  have hin := (List.mem_append.mp hmem).resolve_left fun hin => absurd (hbefore _ hin) (Nat.lt_irrefl i)
  obtain heq | hin := List.mem_cons.mp hin
  · rw [← heq]
  · exact (List.pairwise_cons.mp (List.pairwise_append.mp hsorted).2.1).1 _ hin

theorem windowTerms_pos (hits : List Hit) (first : Hit) : 0 < windowTerms (first :: hits) := by
  rw [windowTerms, windowOf, List.takeWhile_cons_of_pos (by simp), List.length_pos_iff]
  exact List.ne_nil_of_mem (List.mem_dedup.mpr List.mem_cons_self)

/-- An excerpt starts 120 units before the first of the places from which on most terms occur within the reach of a
window, or with the text if no term occurs. -/
theorem excerptStart_spec (hlimit : ∀ word ∈ terms, (occurrences text word).length ≤ 4096) :
    ((¬ ∃ i, IsPlace text terms i) → excerptStart text terms = 0) ∧
      ((∃ i, IsPlace text terms i) → ∃ best, IsPlace text terms best ∧
        (∀ i, IsPlace text terms i → meeting text terms i ≤ meeting text terms best) ∧
        (∀ i, IsPlace text terms i → meeting text terms i = meeting text terms best → best ≤ i) ∧
        excerptStart text terms = best - 120) := by
  have hplaces : ∀ hit ∈ termHits text terms, IsPlace text terms hit.at_ := by
    intro hit hhit
    obtain ⟨word, hword, hat⟩ := (mem_termHits hlimit).mp hhit
    exact ⟨word, List.mem_of_getElem? hword, hat⟩
  refine ⟨fun hnone => ?_, fun ⟨i, hi⟩ => ?_⟩
  · rw [excerptStart]
    cases hhits : termHits text terms with
    | nil => rfl
    | cons hit hits => exact absurd ⟨hit.at_, hplaces hit (hhits ▸ List.mem_cons_self)⟩ hnone
  · obtain ⟨before, first, hits, hsplit, -, -⟩ := exists_window hi hlimit
    have hne : termHits text terms ≠ [] := by
      rw [hsplit]
      simp
    obtain ⟨front, found, rest, hfound, hvalue⟩ :=
      @firstMost_spec _ _ windowTerms Hit.at_ _ hne (fun y ys => windowTerms_pos ys y)
        ((termHits text terms).head hne).at_
    have hstart : excerptStart text terms = found.at_ - 120 := by
      rw [excerptStart]
      obtain ⟨x, xs, hcons⟩ := List.exists_cons_of_ne_nil hne
      have hsorted := termHits_sorted text terms
      rw [hcons] at hsorted
      simp only [hcons, List.head_cons] at hvalue ⊢
      rw [@bestWindow_eq _ [] _ _ _ _ hsorted rfl (fun _ _ _ h => absurd h List.not_mem_nil) tally_nil, hvalue]
    have hreach := (windowTerms_le hfound.split hlimit).1
    refine ⟨found.at_, hplaces found (by rw [hfound.split]; simp), fun i hi => ?_, fun i hi heq => ?_, hstart⟩
    · obtain ⟨before, first, hits, hsplit, rfl, hbefore⟩ := exists_window hi hlimit
      rw [← (windowTerms_le hsplit hlimit).2 hbefore]
      exact Nat.le_trans (hfound.most before first hits hsplit) hreach
    · obtain ⟨before, first, hits, hsplit, rfl, hbefore⟩ := exists_window hi hlimit
      have hequal := (windowTerms_le hsplit hlimit).2 hbefore
      -- a window with as many terms is not before the one that is found
      have hlength : front.length ≤ before.length := by
        by_contra hlt
        have hless := hfound.first before first hits hsplit (Nat.not_le.mp hlt)
        omega
      have hsorted := List.pairwise_iff_getElem.mp (termHits_sorted text terms)
      have hget : (termHits text terms)[front.length]? = some found := by rw [hfound.split]; simp
      have hget' : (termHits text terms)[before.length]? = some first := by rw [hsplit]; simp
      obtain ⟨hlt, hget⟩ := List.getElem?_eq_some_iff.mp hget
      obtain ⟨hlt', hget'⟩ := List.getElem?_eq_some_iff.mp hget'
      obtain heq | hless := Nat.eq_or_lt_of_le hlength
      · have hsame : found = first := by
          rw [← hget, ← hget']
          congr 1
        rw [hsame]
      · rw [← hget, ← hget']
        exact hsorted _ _ hlt hlt' hless

/-- Two terms that meet at once. -/
theorem excerptStart_spec_meeting : ∃ best, IsPlace (lit "a, b") [lit "b", lit "a"] best ∧
    (∀ i, IsPlace (lit "a, b") [lit "b", lit "a"] i →
      meeting (lit "a, b") [lit "b", lit "a"] i ≤ meeting (lit "a, b") [lit "b", lit "a"] best) ∧
    (∀ i, IsPlace (lit "a, b") [lit "b", lit "a"] i →
      meeting (lit "a, b") [lit "b", lit "a"] i = meeting (lit "a, b") [lit "b", lit "a"] best → best ≤ i) ∧
    excerptStart (lit "a, b") [lit "b", lit "a"] = best - 120 :=
  (excerptStart_spec (by decide +kernel)).2 ⟨0, lit "a", by decide, by decide +kernel⟩

end Densest

end Compaction
