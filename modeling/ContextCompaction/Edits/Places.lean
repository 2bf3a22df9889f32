import ContextCompaction.Edits.Fuzzy
import ContextCompaction.Edits.Grouping

/-!
# Where edits are made

An edit is looked for in a base: the content itself if every old text occurs there, else its fuzzy form.

* `placed`: the range of an edit, the first place of its text in the base.
* `applyEdits_replaced`: what a successful call returns is the content with the ranges of the edits replaced.
* `one_lt_countOccurrences`: in a base in fuzzy form, a text that occurs at two places apart is counted twice.
* `KeptApart`: two places of a text that normalization neither joins nor drops.
* `applyEdits_onePlace_iff`: when each edit has one place only.
-/

namespace Edits

open Js Sequences

/-- The text starts at this position. -/
def OccursAt (t s : Str) (i : Nat) : Prop := i ≤ s.length ∧ t <+: s.drop i

instance (t s : Str) (i : Nat) : Decidable (OccursAt t s i) := inferInstanceAs (Decidable (_ ∧ _))

/-- Every old text occurs as it is. -/
def AllExact (content : Str) (edits : List Edit) : Prop :=
  ∀ edit ∈ edits, includes content edit.oldText = true

instance (content : Str) (edits : List Edit) : Decidable (AllExact content edits) :=
  inferInstanceAs (Decidable (∀ edit ∈ edits, _))

section Places

variable (nfkc : Str → Str)

/-- The old text, if it occurs in the base, else its fuzzy form. -/
def soughtText (base oldText : Str) : Str :=
  if includes base oldText then oldText else normalizeForFuzzyMatch nfkc oldText

def baseOf (content : Str) (edits : List Edit) : Str :=
  if AllExact content edits then content else normalizeForFuzzyMatch nfkc content

/-- The first place of an edit's text. -/
def placed (base : Str) (edit : Edit) : TextReplacement where
  start := (indexFrom base (soughtText nfkc base edit.oldText) 0).getD 0
  length := (soughtText nfkc base edit.oldText).length
  text := edit.newText

/-- The ranges in order, which are those of the edits, lie apart, and are what is replaced: in the content, or in
the groups of lines of the base that they touch. -/
structure Replaced (content : Str) (edits : List Edit) (new : Str) (rs : List TextReplacement) : Prop where
  perm : rs.Perm (edits.map (placed nfkc (baseOf nfkc content edits)))
  fits : Fits 0 (baseOf nfkc content edits).length rs
  exact : AllExact content edits → new = splice 0 content rs
  fuzzy : ¬ AllExact content edits →
    (lines lf content).length = (lines lf (baseOf nfkc content edits)).length ∧
      ∃ groups, Grouped (lines lf (baseOf nfkc content edits)) groups rs ∧
        new = overlay (lines lf content) (lines lf (baseOf nfkc content edits)) groups

/-- Each edit is made at the one place of its text. -/
structure OnePlace (content : Str) (edits : List Edit) (new : Str) : Prop where
  nonempty : ∀ edit ∈ edits, soughtText nfkc (baseOf nfkc content edits) edit.oldText ≠ []
  once : ∀ edit ∈ edits,
    ∃! i, OccursAt (soughtText nfkc (baseOf nfkc content edits) edit.oldText) (baseOf nfkc content edits) i
  replaced : ∃ rs, Replaced nfkc content edits new rs

/-- Normalization neither joins nor drops two places of a text: the text is more than white space, and NFKC leaves
the ends of both places alone. -/
structure KeptApart (content t : Str) (i j : Nat) : Prop where
  visible : normalizeForFuzzyMatch nfkc t ≠ []
  parts : nfkc content = nfkc (content.take i) ++ nfkc t ++ nfkc (slice content (i + t.length) j) ++ nfkc t ++
    nfkc (content.drop (j + t.length))

/-- No text that is looked for is empty or overlaps itself; and when all occur as they are, normalization keeps two
places of one apart. -/
def RepeatsKept (content : Str) (edits : List Edit) : Prop :=
  ∀ edit ∈ edits,
    soughtText nfkc (baseOf nfkc content edits) edit.oldText ≠ [] ∧
      ∀ i j, OccursAt (soughtText nfkc (baseOf nfkc content edits) edit.oldText) (baseOf nfkc content edits) i →
        OccursAt (soughtText nfkc (baseOf nfkc content edits) edit.oldText) (baseOf nfkc content edits) j → i < j →
        i + (soughtText nfkc (baseOf nfkc content edits) edit.oldText).length ≤ j ∧
          (AllExact content edits → KeptApart nfkc content edit.oldText i j)

end Places

/-! ## Searches -/

section Searches

variable {nfkc : Str → Str} {content base path t s : Str} {edit : Edit} {i : Nat}

theorem indexFrom_isSome : (indexFrom s t 0).isSome = true ↔ includes s t = true := by
  rw [includes, decide_eq_true_iff, Option.isSome_iff_exists]
  constructor
  · rintro ⟨i, hi⟩
    exact (indexFrom_some hi).2.2.isInfix.trans (List.drop_suffix _ _).isInfix
  · rintro ⟨a, b, rfl⟩
    cases hi : indexFrom (a ++ t ++ b) t 0 with
    | some i => exact ⟨i, rfl⟩
    | none =>
      refine absurd ?_ (indexFrom_eq_none.mp hi a.length (Nat.zero_le _) ?_)
      · rw [List.append_assoc, List.drop_left]
        exact List.prefix_append _ _
      · rw [List.length_append, List.length_append]
        omega

theorem occursAt_of_indexFrom (h : indexFrom s t 0 = some i) : OccursAt t s i :=
  (indexFrom_some h).2

theorem OccursAt.le (h : OccursAt t s i) : i + t.length ≤ s.length := by
  have hle := h.2.length_le
  rw [List.length_drop] at hle
  have := h.1
  omega

theorem OccursAt.isInfix (h : OccursAt t s i) : t <:+: s :=
  h.2.isInfix.trans (List.drop_suffix _ _).isInfix

theorem OccursAt.starts {t' : Str} (h : OccursAt t s i) (ht : t' <+: t) : OccursAt t' s i :=
  ⟨h.1, ht.trans h.2⟩

/-- What the search finds. In a base that is not in fuzzy form only the old text itself is found. -/
theorem fuzzyFindText_eq {m : FuzzyMatch} (h : fuzzyFindText nfkc base edit.oldText = some m)
    (hbase : normalizeForFuzzyMatch nfkc base = base ∨ includes base edit.oldText = true) :
    (⟨m.index, m.matchLength, edit.newText⟩ : TextReplacement) = placed nfkc base edit ∧
      OccursAt (soughtText nfkc base edit.oldText) base m.index := by
  unfold fuzzyFindText at h
  unfold placed soughtText
  cases hexact : indexFrom base edit.oldText 0 with
  | some i =>
    rw [hexact] at h
    obtain rfl := Option.some_inj.mp h
    rw [if_pos (indexFrom_isSome.mp (hexact ▸ rfl)), hexact]
    exact ⟨rfl, occursAt_of_indexFrom hexact⟩
  | none =>
    have hnot : ¬ includes base edit.oldText = true := fun hin => by
      rw [← indexFrom_isSome, hexact] at hin
      cases hin
    rw [hexact] at h
    dsimp only at h
    rw [hbase.resolve_right hnot] at h
    split at h
    · cases h
    · next i hi =>
      obtain rfl := Option.some_inj.mp h
      rw [if_neg hnot, hi]
      exact ⟨rfl, occursAt_of_indexFrom hi⟩

theorem usedFuzzyMatch_iff :
    (fuzzyFindText nfkc content edit.oldText).any (·.usedFuzzyMatch) = true ↔
      includes content edit.oldText = false ∧ (fuzzyFindText nfkc content edit.oldText).isSome = true := by
  rw [← Bool.not_eq_true, ← indexFrom_isSome]
  unfold fuzzyFindText
  cases indexFrom content edit.oldText 0 with
  | some i => simp
  | none =>
    dsimp only
    cases indexFrom (normalizeForFuzzyMatch nfkc content) (normalizeForFuzzyMatch nfkc edit.oldText) 0 with
    | some i => simp
    | none => simp

/-- An edit that is matched is matched at its place, and its text is counted once at most. -/
theorem matchEdit_ok {totalEdits n : Nat} {m : MatchedEdit} (h : matchEdit nfkc base path totalEdits edit n = .ok m)
    (hbase : normalizeForFuzzyMatch nfkc base = base ∨ includes base edit.oldText = true) :
    m.toSplice = placed nfkc base edit ∧
      OccursAt (soughtText nfkc base edit.oldText) base (placed nfkc base edit).start ∧
      ¬ 1 < countOccurrences nfkc base edit.oldText := by
  unfold matchEdit at h
  split at h
  · cases h
  · next found hfound =>
    dsimp only at h
    split at h
    · cases h
    · next hcount =>
      obtain rfl := Except.ok.inj h
      obtain ⟨hplaced, hoccurs⟩ := fuzzyFindText_eq hfound hbase
      rw [← hplaced]
      exact ⟨rfl, hoccurs, hcount⟩

end Searches

/-! ## Order -/

section Order

variable {path : Str} {ms : List MatchedEdit} {low high : Nat}

/-- Matches that do not overlap fit behind one another. -/
theorem fits_of_overlaps (h : checkOverlaps path ms = .ok ()) (hlow : ∀ m ∈ ms.head?, low ≤ m.start)
    (hle : low ≤ high) (hhigh : ∀ m ∈ ms, m.stop ≤ high) : Fits low high (ms.map (·.toSplice)) := by
  induction ms generalizing low with
  | nil => exact hle
  | cons m ms ih =>
    obtain ⟨hm, hhigh⟩ := List.forall_mem_cons.mp hhigh
    refine ⟨hlow m rfl, ?_⟩
    cases ms with
    | nil => exact hm
    | cons m' ms =>
      rw [checkOverlaps] at h
      split at h
      · cases h
      · next hoverlap =>
        refine ih h (fun m'' hm'' => ?_) hm hhigh
        obtain rfl := Option.some_inj.mp hm''
        exact Nat.not_lt.mp hoverlap

end Order

/-! ## A successful call -/

section Apply

variable {nfkc : Str → Str} {content path : Str} {edits : List Edit} {out : AppliedEditsResult}

theorem map_of_mapM {ε α β γ : Type} {f : α → Except ε β} {g : β → γ} {k : α → γ} {xs : List α}
    {ys : List β} (h : xs.mapM f = .ok ys) (hfg : ∀ x ∈ xs, ∀ y, f x = .ok y → g y = k x) : ys.map g = xs.map k := by
  induction xs generalizing ys with
  | nil => cases h; rfl
  | cons x xs ih =>
    rw [List.mapM_cons] at h
    obtain ⟨y, hy, h⟩ := bind_ok.mp h
    obtain ⟨ys, hys, h⟩ := bind_ok.mp h
    cases h
    obtain ⟨hx, hxs⟩ := List.forall_mem_cons.mp hfg
    rw [List.map_cons, List.map_cons, hx y hy, ih hys hxs]

theorem ok_of_mapM {ε α β : Type} {f : α → Except ε β} {xs : List α} {ys : List β}
    (h : xs.mapM f = .ok ys) {x : α} (hx : x ∈ xs) : ∃ y, f x = .ok y := by
  induction xs generalizing ys with
  | nil => cases hx
  | cons x' xs ih =>
    rw [List.mapM_cons] at h
    obtain ⟨y, hy, h⟩ := bind_ok.mp h
    obtain ⟨ys, hys, -⟩ := bind_ok.mp h
    obtain rfl | hx := List.mem_cons.mp hx
    · exact ⟨y, hy⟩
    · exact ih hys hx

/-- A call that returns has changed the content. -/
private theorem returned {new error : Str}
    (h : (do
      if content = new then throw error
      return (⟨content, new⟩ : AppliedEditsResult) : Except Str AppliedEditsResult) = .ok out) :
    out = ⟨content, new⟩ := by
  dsimp only at h
  split at h
  · cases h
  · exact (Except.ok.inj h).symm

/-- The steps of a call that succeeds. -/
theorem applyEdits_ok (h : applyEditsToNormalizedContent nfkc content edits path = .ok out) :
    let normalized := edits.map Edit.normalized
    let base := if usesFuzzyMatch nfkc content normalized then normalizeForFuzzyMatch nfkc content else content
    ∃ ms, (normalized.zipIdx.mapM fun p => matchEdit nfkc base path normalized.length p.1 p.2) = .ok ms ∧
      checkOverlaps path (ms.insertionSort fun a b => a.start ≤ b.start) = .ok () ∧
      (if usesFuzzyMatch nfkc content normalized then
          applyReplacementsPreservingUnchangedLines content base
            ((ms.insertionSort fun a b => a.start ≤ b.start).map (·.toSplice))
        else .ok (applyReplacements base ((ms.insertionSort fun a b => a.start ≤ b.start).map (·.toSplice)) 0)) =
        .ok out.newContent ∧
      out.baseContent = content ∧ ∀ edit ∈ normalized, edit.oldText ≠ [] := by
  intro normalized base
  unfold applyEditsToNormalizedContent at h
  dsimp only at h
  split at h
  · cases h
  · next hempty =>
    obtain ⟨ms, hms, h⟩ := bind_ok.mp h
    obtain ⟨⟨⟩, hoverlaps, h⟩ := bind_ok.mp h
    have hne : ∀ edit ∈ normalized, edit.oldText ≠ [] := by
      intro edit hedit hnil
      have hnone := List.findIdx?_eq_none_iff.mp (Option.eq_none_iff_forall_ne_some.mpr hempty) edit hedit
      rw [hnil] at hnone
      cases hnone
    split at h
    · next hfuzzy =>
      obtain ⟨new, hnew, h⟩ := bind_ok.mp h
      obtain rfl := returned h
      have hbase : base = normalizeForFuzzyMatch nfkc content := if_pos hfuzzy
      refine ⟨ms, hms, hoverlaps, ?_, rfl, hne⟩
      rw [if_pos hfuzzy, hbase]
      exact hnew
    · next hexact =>
      obtain ⟨new, hnew, h⟩ := bind_ok.mp h
      obtain rfl := returned h
      have hbase : base = content := if_neg hexact
      refine ⟨ms, hms, hoverlaps, ?_, rfl, hne⟩
      rw [if_neg hexact, hbase]
      exact hnew

/-- A fuzzy match is used just when some old text does not occur as it is. -/
theorem usesFuzzyMatch_iff (h : applyEditsToNormalizedContent nfkc content edits path = .ok out) :
    usesFuzzyMatch nfkc content (edits.map Edit.normalized) = true ↔
      ¬ AllExact content (edits.map Edit.normalized) := by
  obtain ⟨ms, hms, -⟩ := applyEdits_ok h
  unfold AllExact
  rw [usesFuzzyMatch, List.any_eq_true]
  constructor
  · rintro ⟨edit, hedit, hused⟩ hall
    have := (usedFuzzyMatch_iff.mp hused).1
    rw [hall edit hedit] at this
    cases this
  · intro hsome
    by_contra hnone
    refine hsome fun edit hedit => ?_
    -- without a fuzzy match the base is the content, in which every edit is found
    have hexact : usesFuzzyMatch nfkc content (edits.map Edit.normalized) = false := by
      rw [usesFuzzyMatch, ← Bool.not_eq_true, List.any_eq_true]
      exact hnone
    rw [hexact, if_neg Bool.false_ne_true] at hms
    obtain ⟨n, hn, rfl⟩ := List.getElem_of_mem hedit
    have hmem : ((edits.map Edit.normalized)[n], n) ∈ (edits.map Edit.normalized).zipIdx :=
      List.mem_zipIdx_iff_getElem?.mpr (List.getElem?_eq_getElem hn)
    obtain ⟨m, hm⟩ := ok_of_mapM hms hmem
    by_contra hnot
    refine hnone ⟨_, hedit, usedFuzzyMatch_iff.mpr ⟨Bool.not_eq_true _ |>.mp hnot, ?_⟩⟩
    unfold matchEdit at hm
    split at hm
    · cases hm
    · next hfound => exact hfound ▸ rfl

variable (hnfkc : IsNfkc nfkc)
include hnfkc

/-- Each edit is matched at its place in the base. -/
theorem applyEdits_placed (h : applyEditsToNormalizedContent nfkc content edits path = .ok out) :
    let normalized := edits.map Edit.normalized
    let base := baseOf nfkc content normalized
    (∀ edit ∈ normalized, OccursAt (soughtText nfkc base edit.oldText) base (placed nfkc base edit).start ∧
        ¬ 1 < countOccurrences nfkc base edit.oldText) ∧
      ∃ rs, Replaced nfkc content normalized out.newContent rs := by
  intro normalized base
  have hiff := usesFuzzyMatch_iff h
  obtain ⟨ms, hms, hoverlaps, hnew, -, hne⟩ := applyEdits_ok h
  have hbase : (if usesFuzzyMatch nfkc content normalized then normalizeForFuzzyMatch nfkc content
      else content) = base := by
    show _ = if _ then _ else _
    by_cases hexact : AllExact content normalized
    · rw [if_pos hexact, if_neg fun hused => hiff.mp hused hexact]
    · rw [if_neg hexact, if_pos (hiff.mpr hexact)]
  have hfound : ∀ edit ∈ normalized,
      normalizeForFuzzyMatch nfkc base = base ∨ includes base edit.oldText = true := by
    intro edit hedit
    by_cases hexact : AllExact content normalized
    · right
      rw [show base = content from if_pos hexact]
      exact hexact edit hedit
    · left
      rw [show base = normalizeForFuzzyMatch nfkc content from if_neg hexact]
      exact (normal_normalize hnfkc content).normalize
  rw [hbase] at hms hnew
  have hmatched : ∀ edit ∈ normalized,
      OccursAt (soughtText nfkc base edit.oldText) base (placed nfkc base edit).start ∧
      ¬ 1 < countOccurrences nfkc base edit.oldText := by
    intro edit hedit
    obtain ⟨n, hn, rfl⟩ := List.getElem_of_mem hedit
    have hmem : (normalized[n], n) ∈ normalized.zipIdx :=
      List.mem_zipIdx_iff_getElem?.mpr (List.getElem?_eq_getElem hn)
    obtain ⟨m, hm⟩ := ok_of_mapM hms hmem
    exact (matchEdit_ok hm (hfound _ hedit)).2
  have hplaced : ms.map (·.toSplice) = normalized.map (placed nfkc base) := by
    rw [map_of_mapM (k := fun p => placed nfkc base p.1) hms fun p hp m hm =>
      (matchEdit_ok hm (hfound p.1 (List.fst_mem_of_mem_zipIdx hp))).1]
    rw [← Function.comp_def (placed nfkc base) Prod.fst, ← List.map_map, List.zipIdx_map_fst]
  set sorted := ms.insertionSort fun a b => a.start ≤ b.start with hsorted
  have hperm : (sorted.map (·.toSplice)).Perm (normalized.map (placed nfkc base)) :=
    hplaced ▸ (List.perm_insertionSort _ ms).map _
  have hfits : Fits 0 base.length (sorted.map (·.toSplice)) := by
    refine fits_of_overlaps hoverlaps (fun _ _ => Nat.zero_le _) (Nat.zero_le _) fun m hm => ?_
    obtain ⟨edit, hedit, hm⟩ := List.mem_map.mp (hperm.mem_iff.mp (List.mem_map_of_mem hm))
    show m.toSplice.stop ≤ _
    rw [← hm]
    exact (hmatched edit hedit).1.le
  refine ⟨hmatched, sorted.map (·.toSplice), hperm, hfits, fun hexact => ?_, fun hfuzzy => ?_⟩
  · rw [if_neg fun hused => hiff.mp hused hexact] at hnew
    have hcontent : base = content := if_pos hexact
    rw [← Except.ok.inj hnew, applyReplacements_eq (by rwa [Nat.zero_add]), hcontent]
  · rw [if_pos (hiff.mpr hfuzzy)] at hnew
    exact preserving_eq hnew hfits.pairwise

/-- In a base in fuzzy form two places apart are counted. -/
theorem one_lt_countOccurrences {base oldText : Str} {i j : Nat} (hbase : Normal nfkc base)
    (hne : soughtText nfkc base oldText ≠ []) (hi : OccursAt (soughtText nfkc base oldText) base i)
    (hj : OccursAt (soughtText nfkc base oldText) base j)
    (hij : i + (soughtText nfkc base oldText).length ≤ j) : 1 < countOccurrences nfkc base oldText := by
  have hthree : 3 ≤ (split (normalizeForFuzzyMatch nfkc oldText) base).length := by
    unfold soughtText at hne hi hj hij
    split at hne
    · next hin =>
      rw [if_pos hin] at hi hj hij
      rw [hbase.normalize_part hnfkc hi.isInfix]
      have hstarts : trimLines oldText <+: oldText :=
        Trimmed.starts (hbase.trimmed.part (hi.isInfix.trans (List.prefix_append _ _).isInfix))
      by_cases hempty : trimLines oldText = []
      · -- the old text is white space, so something else follows its last place
        have hlt : j + oldText.length < base.length := by
          refine lt_of_le_of_ne hj.le fun heq => hne ?_
          have hdrop : oldText = base.drop j := hj.2.eq_of_length (by rw [List.length_drop]; omega)
          have hsuffix : oldText ++ [lf] <:+ base ++ [lf] := by
            obtain ⟨front, hfront⟩ := List.drop_suffix j base
            exact ⟨front, by rw [← List.append_assoc, hdrop, hfront]⟩
          rw [← trimLines_eq_self (hbase.trimmed.part hsuffix.isInfix), hempty]
        have hpos := List.length_pos_iff.mpr hne
        rw [hempty, split, if_pos rfl, List.length_map]
        omega
      · have hlength := hstarts.length_le
        exact three_le_split hempty (by omega) (hi.starts hstarts).2 (hj.starts hstarts).2
    · next hnot =>
      rw [if_neg hnot] at hi hj hij
      exact three_le_split hne hij hi.2 hj.2
  rw [countOccurrences, hbase.normalize]
  omega

omit hnfkc in
/-- Places that normalization keeps apart are counted. -/
theorem KeptApart.one_lt_countOccurrences {t : Str} {i j : Nat} (h : KeptApart nfkc content t i j) :
    1 < countOccurrences nfkc content t := by
  have hvisible := h.visible
  rw [countOccurrences, normalize_eq nfkc content, h.parts]
  rw [normalize_eq] at hvisible ⊢
  simp only [List.append_assoc]
  obtain ⟨a, ha, -⟩ := trimLines_append (nfkc (content.take i))
    (nfkc t ++ (nfkc (slice content (i + t.length) j) ++ (nfkc t ++ nfkc (content.drop (j + t.length)))))
  obtain ⟨b, hb, hfirst⟩ := trimLines_append (nfkc t)
    (nfkc (slice content (i + t.length) j) ++ (nfkc t ++ nfkc (content.drop (j + t.length))))
  obtain ⟨c, hc, -⟩ := trimLines_append (nfkc (slice content (i + t.length) j))
    (nfkc t ++ nfkc (content.drop (j + t.length)))
  obtain ⟨d, hd, hsecond⟩ := trimLines_append (nfkc t) (nfkc (content.drop (j + t.length)))
  rw [ha, hb, hc, hd]
  set form := (trimLines (nfkc t)).map asciiUnit with hform
  set back := trimLines (nfkc (content.drop (j + t.length)))
  -- the first place stands behind the first part, the second one behind three of them
  have hstarts : ∀ front part rest : Str, trimLines (nfkc t) <+: part →
      form <+: ((front ++ (part ++ rest)).map asciiUnit).drop front.length := by
    intro front part rest hpart
    rw [← List.map_drop, List.drop_left, hform]
    exact (hpart.trans (List.prefix_append _ _)).map asciiUnit
  have hthree := three_le_split (i := a.length) (j := (a ++ (b ++ c)).length) hvisible (by
    have := hfirst.length_le
    simp only [hform, List.length_map, List.length_append]
    omega) (hstarts a b (c ++ (d ++ back)) hfirst) (by
    have := hstarts (a ++ (b ++ c)) d back hsecond
    simpa only [List.append_assoc] using this)
  omega

/-- A call that succeeds makes each edit at the one place of its text just if no text that is looked for is empty or
overlaps itself, and normalization joins or drops no second place of a text found as it is. -/
theorem applyEdits_onePlace_iff (h : applyEditsToNormalizedContent nfkc content edits path = .ok out) :
    OnePlace nfkc content (edits.map Edit.normalized) out.newContent ↔
      RepeatsKept nfkc content (edits.map Edit.normalized) := by
  obtain ⟨hmatched, hreplaced⟩ := applyEdits_placed hnfkc h
  constructor
  · intro hplace edit hedit
    refine ⟨hplace.nonempty edit hedit, fun i j hi hj hij => ?_⟩
    exact absurd ((hplace.once edit hedit).unique hi hj) (Nat.ne_of_lt hij)
  · intro hkept
    refine ⟨fun edit hedit => (hkept edit hedit).1, fun edit hedit => ?_, hreplaced⟩
    obtain ⟨hfirst, hcount⟩ := hmatched edit hedit
    obtain ⟨hne, hrepeats⟩ := hkept edit hedit
    have hone : ∀ i j, OccursAt (soughtText nfkc (baseOf nfkc content (edits.map Edit.normalized)) edit.oldText)
          (baseOf nfkc content (edits.map Edit.normalized)) i →
        OccursAt (soughtText nfkc (baseOf nfkc content (edits.map Edit.normalized)) edit.oldText)
          (baseOf nfkc content (edits.map Edit.normalized)) j → ¬ i < j := by
      intro i j hi hj hij
      obtain ⟨hapart, hexact⟩ := hrepeats i j hi hj hij
      refine hcount ?_
      by_cases hall : AllExact content (edits.map Edit.normalized)
      · rw [show baseOf nfkc content (edits.map Edit.normalized) = content from if_pos hall]
        exact (hexact hall).one_lt_countOccurrences
      · have hnormal : Normal nfkc (baseOf nfkc content (edits.map Edit.normalized)) := by
          rw [show baseOf nfkc content (edits.map Edit.normalized) = normalizeForFuzzyMatch nfkc content from
            if_neg hall]
          exact normal_normalize hnfkc content
        exact one_lt_countOccurrences hnfkc hnormal hne hi hj hapart
    exact ⟨_, hfirst, fun j hj =>
      Nat.le_antisymm (Nat.not_lt.mp (hone _ _ hfirst hj)) (Nat.not_lt.mp (hone _ _ hj hfirst))⟩

omit hnfkc

theorem isNfkc_id : IsNfkc id := ⟨fun _ => rfl, fun _ _ => rfl, fun _ _ _ _ => rfl, fun _ _ => rfl⟩

/-- The second word of a line replaced, at its one place. -/
theorem applyEdits_word :
    OnePlace id (lit "a b") ([⟨lit "b", lit "c"⟩].map Edit.normalized) (lit "a c") := by
  refine (@applyEdits_onePlace_iff id (lit "a b") (lit "f") [⟨lit "b", lit "c"⟩] ⟨lit "a b", lit "a c"⟩ isNfkc_id
    (by decide +kernel)).mpr ?_
  have hedits : [(⟨lit "b", lit "c"⟩ : Edit)].map Edit.normalized = [⟨lit "b", lit "c"⟩] := by decide +kernel
  have hbase : baseOf id (lit "a b") [⟨lit "b", lit "c"⟩] = lit "a b" := by decide +kernel
  have hsought : soughtText id (lit "a b") (lit "b") = lit "b" := by decide +kernel
  rw [hedits]
  intro edit hedit
  obtain rfl := List.mem_singleton.mp hedit
  rw [hbase, hsought]
  have hplace : ∀ i ≤ (lit "a b").length, OccursAt (lit "b") (lit "a b") i → i = 2 := by decide +kernel
  refine ⟨by decide +kernel, fun i j hi hj hij => ?_⟩
  obtain rfl := hplace i hi.1 hi
  obtain rfl := hplace j hj.1 hj
  exact absurd hij (Nat.lt_irrefl _)

/-- A text that overlaps itself is replaced at the first of two places. -/
theorem applyEdits_overlapping :
    applyEditsToNormalizedContent id (lit "aaa") [⟨lit "aa", lit "b"⟩] (lit "f") = .ok ⟨lit "aaa", lit "ba"⟩ ∧
      ¬ OnePlace id (lit "aaa") ([⟨lit "aa", lit "b"⟩].map Edit.normalized) (lit "ba") := by
  refine ⟨by decide +kernel, fun h => ?_⟩
  have honce := h.once ⟨lit "aa", lit "b"⟩ (by decide +kernel)
  have hfirst : OccursAt (soughtText id (baseOf id (lit "aaa") ([⟨lit "aa", lit "b"⟩].map Edit.normalized))
      (lit "aa")) (baseOf id (lit "aaa") ([⟨lit "aa", lit "b"⟩].map Edit.normalized)) 0 := by decide +kernel
  have hsecond : OccursAt (soughtText id (baseOf id (lit "aaa") ([⟨lit "aa", lit "b"⟩].map Edit.normalized))
      (lit "aa")) (baseOf id (lit "aaa") ([⟨lit "aa", lit "b"⟩].map Edit.normalized)) 1 := by decide +kernel
  exact absurd (honce.unique hfirst hsecond) (by decide)

end Apply

end Edits
