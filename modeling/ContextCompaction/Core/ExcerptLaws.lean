import ContextCompaction.Core.Excerpts
import ContextCompaction.Js.QuotedWidth
import ContextCompaction.Sequences.Bisection

/-!
# What an excerpt shows

The window starts before the match, and only the bytes of its line end it.

* `exactOccurrence_some`, `exactOccurrence_none`: the first exact occurrence, or none.
* `ascii_identifierTerms`: a term has three characters or more, all ASCII.
* `longestFitting_spec`: the binary search, for a bound that need not hold for every shorter slice.
* `ExcerptsShow`, `excerpts_show_iff`: every excerpt shows its term exactly when for each of the
  named records the line from the start of the window to the end of the match is within the bound.
-/

namespace Compaction

open Js Regex Sequences

/-! ## Exact occurrences -/

/-- A term stands at an index, and not inside a longer identifier. -/
def ExactAt (text term : Str) (index : Nat) : Prop :=
  term <+: text.drop index ∧ standsAlone text term index = true

theorem ExactAt.lt {text term : Str} {index : Nat} (h : ExactAt text term index) (ht : term ≠ []) :
    index + term.length ≤ text.length := by
  have hle := h.1.length_le
  have := List.length_pos_iff.mpr ht
  rw [List.length_drop] at hle
  omega

/-- The search finds the first exact occurrence from `start` on, or there is none. -/
theorem exactFrom_spec {text term : Str} (ht : term ≠ []) (fuel start : Nat)
    (hfuel : text.length + 1 ≤ start + fuel) :
    (∀ index, exactFrom text term fuel start = some index →
      ExactAt text term index ∧ ∀ j, start ≤ j → j < index → ¬ ExactAt text term j) ∧
    (exactFrom text term fuel start = none → ∀ j, start ≤ j → ¬ ExactAt text term j) := by
  induction fuel generalizing start with
  | zero =>
    refine ⟨fun _ h => (nomatch h), fun _ j hj h => ?_⟩
    have := h.lt ht
    omega
  | succ fuel ih =>
    rw [exactFrom]
    cases hi : indexFrom text term start with
    | none =>
      refine ⟨fun _ h => (nomatch h), fun _ j hj h => ?_⟩
      have := h.lt ht
      exact indexFrom_eq_none.mp hi j hj (by omega) h.1
    | some i =>
      obtain ⟨⟨hle, -, hpre⟩, hleast⟩ := indexFrom_eq_some.mp hi
      by_cases halone : standsAlone text term i = true
      · simp only [halone, ↓reduceIte, Option.some.injEq, reduceCtorEq, false_implies, and_true]
        rintro index rfl
        exact ⟨⟨hpre, halone⟩, fun j hj hlt h => hleast j hj hlt h.1⟩
      · simp only [halone, Bool.false_eq_true, ↓reduceIte]
        have hno : ∀ j, start ≤ j → j < i + 1 → ¬ ExactAt text term j := by
          intro j hj hlt h
          rcases Nat.lt_or_ge j i with hji | hji
          · exact hleast j hj hji h.1
          · obtain rfl : j = i := by omega
            exact halone h.2
        obtain ⟨hsome, hnone⟩ := ih (i + 1) (by omega)
        constructor
        · intro index hindex
          obtain ⟨hexact, hfirst⟩ := hsome index hindex
          refine ⟨hexact, fun j hj hlt => ?_⟩
          rcases Nat.lt_or_ge j (i + 1) with h | h
          · exact hno j hj h
          · exact hfirst j h hlt
        · intro hindex j hj
          rcases Nat.lt_or_ge j (i + 1) with h | h
          · exact hno j hj h
          · exact hnone hindex j h

/-- The first exact occurrence. -/
theorem exactOccurrence_some {text term : Str} (ht : term ≠ []) {index : Nat}
    (h : exactOccurrence text term = some index) :
    ExactAt text term index ∧ ∀ j < index, ¬ ExactAt text term j := by
  obtain ⟨hexact, hfirst⟩ := (exactFrom_spec ht _ 0 (by omega)).1 index h
  exact ⟨hexact, fun j hj => hfirst j (Nat.zero_le j) hj⟩

theorem exactOccurrence_none {text term : Str} (ht : term ≠ []) :
    exactOccurrence text term = none ↔ ∀ j, ¬ ExactAt text term j := by
  constructor
  · exact fun h j => (exactFrom_spec ht _ 0 (by omega)).2 h j (Nat.zero_le j)
  · intro h
    cases ho : exactOccurrence text term with
    | none => rfl
    | some index => exact absurd (exactOccurrence_some ht ho).1 (h index)

theorem standsAlone_iff {text term : Str} {index : Nat} :
    standsAlone text term index = true ↔
      (0 < index → (text[index - 1]?).any isWord = false) ∧
        (text[index + term.length]?).any isWord = false := by
  simp [standsAlone, Nat.pos_iff_ne_zero, or_iff_not_imp_left]

/-- An occurrence is exact in a window that holds it. -/
theorem ExactAt.window {text term shown : Str} {offset index : Nat} (h : ExactAt text term index)
    (hshown : shown <+: text.drop offset) (hle : offset ≤ index)
    (hin : index + term.length ≤ offset + shown.length) : ExactAt shown term (index - offset) := by
  obtain ⟨rest, hrest⟩ := hshown
  have hget : ∀ i < shown.length, shown[i]? = text[offset + i]? := by
    intro i hi
    rw [← List.getElem?_drop, ← hrest, List.getElem?_append_left hi]
  constructor
  · have hdrop : text.drop index = shown.drop (index - offset) ++ rest := by
      rw [← List.drop_append_of_le_length (by omega), hrest, List.drop_drop]
      congr 1
      omega
    refine List.prefix_of_prefix_length_le h.1 (hdrop ▸ List.prefix_append _ _) ?_
    rw [List.length_drop]
    omega
  · obtain ⟨hbefore, hafter⟩ := standsAlone_iff.mp h.2
    refine standsAlone_iff.mpr ⟨fun hpos => ?_, ?_⟩
    · rw [hget _ (by omega), show offset + (index - offset - 1) = index - 1 by omega]
      exact hbefore (by omega)
    · by_cases hend : index - offset + term.length < shown.length
      · rw [hget _ hend, show offset + (index - offset + term.length) = index + term.length by omega]
        exact hafter
      · rw [List.getElem?_eq_none (by omega)]
        rfl

/-! ## Terms -/

/-- A unit below `0x80`. -/
def AsciiUnit (u : UInt16) : Prop := u < 0x80

theorem asciiUnit_of_isWord {u : UInt16} (h : isWord u = true) : AsciiUnit u := by
  simp only [isWord, isAlphanumeric, isLetter, isUpper, isLower, isDigit, Bool.or_eq_true,
    Bool.and_eq_true, decide_eq_true_eq, beq_iff_eq, AsciiUnit] at *
  grind

theorem asciiUnit_of_separator {u : UInt16} (h : oneOf "./:-" u = true) : AsciiUnit u := by
  have hall : (lit "./:-").all (fun u => decide (u < 0x80)) = true := by decide
  have hlt : u < 0x80 := of_decide_eq_true (List.all_eq_true.mp hall u (List.contains_iff_mem.mp h))
  exact hlt

/-- A term is no shorter than three characters, and all ASCII. -/
structure Plain (term : Str) : Prop where
  length : 3 ≤ term.length
  ascii : ∀ u ∈ term, AsciiUnit u

theorem plain_token {prompt : Str} {m : Nat × Str} (hm : m ∈ TOKEN.matchAll prompt)
    (hshape : identifierShaped m.2 = true) : Plain m.2 := by
  have hwithin : TOKEN.Within AsciiUnit := by
    exact ⟨fun u hu => asciiUnit_of_isWord hu, fun u hu => asciiUnit_of_separator hu,
      fun u hu => asciiUnit_of_isWord hu⟩
  refine ⟨?_, (matchAll_spec hwithin m hm).2⟩
  by_contra hlt
  simp [identifierShaped, Nat.lt_of_not_le hlt] at hshape

/-- What stands between backticks is plain. -/
theorem plain_backticked {prompt : Str} {m : Nat × Str} (hm : m ∈ BACKTICKED.matchAll prompt) :
    Plain m.2.tail.dropLast := by
  have hwithin : BACKTICKED.Within AsciiUnit := by
    have htick : ∀ u : UInt16, (u == 0x60) = true → AsciiUnit u := by
      intro u hu
      rw [beq_iff_eq.mp hu]
      exact (by decide : (0x60 : UInt16) < 0x80)
    refine ⟨htick, fun u hu => ?_, htick⟩
    rcases Bool.or_eq_true_iff.mp hu with hu | hu
    · exact asciiUnit_of_isWord hu
    · exact asciiUnit_of_separator hu
  obtain ⟨hlen, hascii⟩ := matchAll_spec hwithin m hm
  have hfive : 5 ≤ m.2.length := hlen
  refine ⟨by simp; omega, fun u hu => hascii u ?_⟩
  exact List.mem_of_mem_tail (List.mem_of_mem_dropLast hu)

/-- Every identifier that a prompt names is plain. -/
theorem ascii_identifierTerms {prompt term : Str} (h : term ∈ identifierTerms prompt) :
    Plain term := by
  have hfold : ∀ (found : List (Nat × Str)) (terms : List Str),
      (∀ m ∈ found, Plain m.2) → (∀ t ∈ terms, Plain t) →
      ∀ t ∈ found.foldl (fun terms m => if m.2 ∈ terms then terms else terms ++ [m.2]) terms,
        Plain t := by
    intro found
    induction found with
    | nil => exact fun terms _ hterms => hterms
    | cons m found ih =>
      intro terms hfound hterms
      rw [List.foldl_cons]
      refine ih _ (fun m' hm' => hfound m' (List.mem_cons_of_mem _ hm')) fun t ht => ?_
      split_ifs at ht
      · exact hterms t ht
      · rcases List.mem_append.mp ht with ht | ht
        · exact hterms t ht
        · rw [List.mem_singleton.mp ht]
          exact hfound m List.mem_cons_self
  refine hfold _ [] (fun m hm => ?_) (by simp) term (List.mem_of_mem_take h)
  rcases List.mem_append.mp ((List.mem_insertionSort _).mp hm) with hm | hm
  · obtain ⟨m', hm', rfl⟩ := List.mem_map.mp (List.mem_of_mem_filter hm)
    exact plain_backticked hm'
  · obtain ⟨hm, hshape⟩ := List.mem_filter.mp hm
    exact plain_token hm hshape

/-! ## The binary search -/

section

variable (text : Str) {start : Nat} (fits : Str → Bool)

/-- The search is the bisection of the ends. -/
theorem searchFitting_eq_bisect (fuel low high : Nat) :
    searchFitting text start fits fuel low high =
      bisect (fun stop => fits (slice text start stop)) fuel low high := by
  induction fuel generalizing low high with
  | zero => rfl
  | succ fuel ih =>
    rw [searchFitting, bisect]
    simp only [ih]

/-- The window is empty, fits, or would fit with the half of the pair it dropped; and it reaches every
end up to which all shorter windows fit. -/
theorem longestFitting_spec (limit : Nat) (hstart : start ≤ text.length) :
    ∃ stop, start ≤ stop ∧ stop ≤ text.length ∧ longestFitting text start limit fits = slice text start stop ∧
      (stop = start ∨ fits (slice text start stop) = true ∨
        ((text[stop]?).any isHigh = true ∧ fits (slice text start (stop + 1)) = true)) ∧
      ∀ e, start < e → e ≤ text.length → e ≤ start + limit → (text[e - 1]?).any isHigh = false →
        (∀ m, start < m → m ≤ e → fits (slice text start m) = true) → e ≤ stop := by
  set high := min text.length (start + limit) with hhigh
  set low := searchFitting text start fits (high - start) start high with hlow
  have hwithin : start ≤ high := by omega
  rw [searchFitting_eq_bisect] at hlow
  obtain ⟨hge, hle⟩ := @bisect_bounds (fun stop => fits (slice text start stop)) (high - start) start high
    hwithin
  have hfits := @bisect_sat (fun stop => fits (slice text start stop)) (high - start) start high start
    (.inl rfl)
  rw [← hlow] at hge hle hfits
  have hreach : ∀ e, start < e → e ≤ text.length → e ≤ start + limit →
      (∀ m, start < m → m ≤ e → fits (slice text start m) = true) → e ≤ low := by
    intro e _ he hlimit hall
    rw [hlow]
    exact le_bisect (Nat.le_refl _) hwithin (by omega) hall
  by_cases hcut : start < low ∧ (text[low - 1]?).any isHigh = true
  · refine ⟨low - 1, by omega, by omega, ?_, .inr (.inr ⟨hcut.2, ?_⟩), fun e hs he hl hlast hall => ?_⟩
    · rw [longestFitting, ← hhigh, searchFitting_eq_bisect, ← hlow, if_pos hcut]
    · rw [Nat.sub_add_cancel (by omega)]
      exact hfits.resolve_left (by omega)
    · have hle := hreach e hs he hl hall
      have hne : e ≠ low := by
        rintro rfl
        rw [hcut.2] at hlast
        cases hlast
      omega
  · refine ⟨low, hge, by omega, ?_, hfits.imp_right .inl, fun e hs he hl _ hall => hreach e hs he hl hall⟩
    rw [longestFitting, ← hhigh, searchFitting_eq_bisect, ← hlow, if_neg hcut]

end

/-! ## The line -/

/-- The bytes of an item's line, but those of its text. -/
def lineOverhead (entry : SessionRecord) (text term : Str) (index : Nat) : Nat :=
  byteLength (excerptLine (itemWith entry text term index []))

/-- The text stands last in the line. -/
theorem excerptLine_eq (entryId role term : Str) (offset : Nat) :
    ∃ label, Printable label ∧ ∀ shown, excerptLine (.excerpt entryId role term offset shown) =
      label ++ (quoteUnits shown ++ [0x22, 0x7D]) := by
  let fields : List (Str × Json) := [(lit "role", .str role), (lit "term", .str term),
    (lit "offset", .num (.ofNat offset))]
  have hrest : ∀ fields : List (Str × Json), ∃ label, Printable label ∧ ∀ rest,
      stringifyFieldsRest (fields ++ rest) = label ++ stringifyFieldsRest rest := by
    intro fields
    induction fields with
    | nil => exact ⟨[], .nil, fun rest => rfl⟩
    | cons f fields ih =>
      obtain ⟨label, hlabel, heq⟩ := ih
      refine ⟨0x2C :: (quote f.1 ++ 0x3A :: (stringify f.2 ++ label)), ?_, fun rest => ?_⟩
      · exact .cons (by decide) ((printable_quote f.1).append
          (.cons (by decide) ((printable_stringify f.2).append hlabel)))
      · rw [List.cons_append, stringifyFieldsRest, heq]
        simp only [List.cons_append, List.append_assoc]
  obtain ⟨label, hlabel, heq⟩ := hrest fields
  refine ⟨0x7B :: (quote (lit "entryId") ++ 0x3A :: (quote entryId ++ (label ++
    0x2C :: (quote (lit "text") ++ [0x3A, 0x22])))), ?_, fun shown => ?_⟩
  · exact .cons (by decide) ((printable_quote _).append (.cons (by decide)
      ((printable_quote _).append (hlabel.append (.cons (by decide)
        ((printable_quote _).append (.of_ascii (by decide))))))))
  · have hline : excerptLine (.excerpt entryId role term offset shown) =
        0x7B :: (quote (lit "entryId") ++ 0x3A :: (quote entryId ++
          stringifyFieldsRest (fields ++ [(lit "text", .str shown)])) ++ [0x7D]) := rfl
    rw [hline, heq]
    simp only [stringifyFieldsRest, stringify, quote, List.cons_append, List.append_assoc,
      List.nil_append, List.append_nil]

theorem byteLength_excerptLine (entryId role term : Str) (offset : Nat) (shown : Str) :
    byteLength (excerptLine (.excerpt entryId role term offset shown)) =
      byteLength (excerptLine (.excerpt entryId role term offset [])) + quotedWidth shown := by
  obtain ⟨label, hlabel, hline⟩ := excerptLine_eq entryId role term offset
  have hbytes : ∀ shown, byteLength (excerptLine (.excerpt entryId role term offset shown)) =
      byteLength label + (quotedWidth shown + 2) := by
    intro shown
    rw [hline, byteLength_append hlabel.1, byteLength_append (printable_quoteUnits shown).1]
    rfl
  rw [hbytes, hbytes, quotedWidth_nil]
  omega

theorem lineFits_iff {entry : SessionRecord} {text term : Str} {index : Nat} {shown : Str} :
    lineFits (itemWith entry text term index shown) = true ↔
      lineOverhead entry text term index + quotedWidth shown ≤ EXCERPT_MAX_TOKENS * 3 := by
  rw [lineFits, decide_eq_true_eq, textTokens, itemWith, byteLength_excerptLine]
  unfold EXCERPT_MAX_TOKENS lineOverhead itemWith
  omega

/-! ## The window -/

theorem AsciiUnit.plain {u : UInt16} (h : AsciiUnit u) : isHigh u = false ∧ isLow u = false := by
  simp only [isHigh, isLow, AsciiUnit] at *
  grind

/-- The units of a match are no halves of pairs. -/
theorem ExactAt.plain {text term : Str} {index : Nat} (ht : Plain term) (h : ExactAt text term index)
    {k : Nat} (hle : index ≤ k) (hlt : k < index + term.length) :
    (text[k]?).any isHigh = false ∧ (text[k]?).any isLow = false := by
  obtain ⟨rest, hrest⟩ := h.1
  have hget : text[k]? = term[k - index]? := by
    have hk := congrArg (fun l => l[k - index]?) hrest
    rw [List.getElem?_append_left (by omega), List.getElem?_drop] at hk
    rw [hk]
    congr 1
    omega
  rw [hget]
  cases hu : term[k - index]? with
  | none => exact ⟨rfl, rfl⟩
  | some u => exact (ht.ascii u (List.mem_of_getElem? hu)).plain

/-- The window does not start behind the match. -/
theorem windowStart_le {text term : Str} {index : Nat} (ht : Plain term)
    (h : ExactAt text term index) : windowStart text index ≤ index := by
  unfold windowStart
  dsimp only
  have hlen := ht.length
  split_ifs with hlow
  · have hne : index - EXCERPT_LEAD_CHARS ≠ index := by
      intro he
      rw [he, (h.plain ht (Nat.le_refl index) (by omega)).2] at hlow
      cases hlow
    omega
  · omega

theorem slice_append (text : Str) {a b c : Nat} (hab : a ≤ b) (hbc : b ≤ c) :
    slice text a b ++ slice text b c = slice text a c := by
  unfold slice
  have hdrop : text.drop b = (text.drop a).drop (b - a) := by
    rw [List.drop_drop]
    congr 1
    omega
  rw [hdrop, ← List.take_add]
  congr 1
  omega

theorem length_slice {text : Str} {a b : Nat} (h : b ≤ text.length) : (slice text a b).length = b - a := by
  rw [slice, List.length_take, List.length_drop]
  omega

theorem getLast?_slice {text : Str} {a b : Nat} (hab : a < b) (hb : b ≤ text.length) :
    (slice text a b).getLast? = text[b - 1]? := by
  rw [List.getLast?_eq_getElem?, length_slice hb, slice, List.getElem?_take_of_lt (by omega),
    List.getElem?_drop]
  congr 1
  omega

theorem head?_slice {text : Str} {a b : Nat} (hab : a < b) : (slice text a b).head? = text[a]? := by
  rw [List.head?_eq_getElem?, slice, List.getElem?_take_of_lt (by omega), List.getElem?_drop,
    Nat.add_zero]

/-- The end of the match fits: then every shorter slice does. -/
theorem lineFits_of_le {entry : SessionRecord} {text term : Str} {index : Nat} (ht : Plain term)
    (h : ExactAt text term index) {m : Nat} (hm : windowStart text index < m)
    (hle : m ≤ index + term.length)
    (hfit : lineFits (itemWith entry text term index
      (slice text (windowStart text index) (index + term.length))) = true) :
    lineFits (itemWith entry text term index (slice text (windowStart text index) m)) = true := by
  rw [lineFits_iff] at *
  refine Nat.le_trans (Nat.add_le_add_left ?_ _) hfit
  rw [← slice_append text (Nat.le_of_lt hm) hle]
  apply quotedWidth_le_of_cut
  intro hcut
  have hne : term ≠ [] := List.ne_nil_of_length_pos (by have := ht.length; omega)
  have hend := h.lt hne
  obtain ⟨-, hhead⟩ := Bool.and_eq_true_iff.mp hcut
  rw [length_slice hend]
  rcases Nat.lt_or_ge m (index + term.length) with hlt | hge
  · rw [head?_slice hlt] at hhead
    -- A pair is cut before the match, so the whole match follows.
    have hbefore : m < index := by
      by_contra hno
      rw [(h.plain ht (by omega) hlt).2] at hhead
      cases hhead
    have := ht.length
    omega
  · obtain rfl : m = index + term.length := by omega
    simp [slice] at hhead

/-- What is shown of a record, and whether it reaches the end of the match. -/
theorem fitted_some {entry : SessionRecord} {text term : Str} {index : Nat} (ht : Plain term)
    (h : ExactAt text term index) {item : ExcerptItem}
    (hitem : fitted entry text term index = some item) :
    ∃ shown, item = itemWith entry text term index shown ∧
      shown <+: text.drop (windowStart text index) ∧ lineFits item = true ∧
      (index + term.length ≤ windowStart text index + shown.length ↔
        lineFits (itemWith entry text term index
          (slice text (windowStart text index) (index + term.length))) = true) := by
  have hne : term ≠ [] := List.ne_nil_of_length_pos (by have := ht.length; omega)
  have hlen := ht.length
  have hend := h.lt hne
  have hstart := windowStart_le ht h
  set start := windowStart text index with hs
  unfold fitted at hitem
  split_ifs at hitem with hbase
  obtain rfl := Option.some.inj hitem
  rw [Bool.not_eq_true, Bool.not_eq_false'] at hbase
  obtain ⟨stop, hle, hstop, heq, hfits, hreach⟩ := @longestFitting_spec text start
    (fun shown => lineFits (itemWith entry text term index shown)) (EXCERPT_MAX_TOKENS * 3) (by omega)
  have hshown : lineFits (itemWith entry text term index (slice text start stop)) = true := by
    rcases hfits with rfl | hfit | ⟨hhigh, hfit⟩
    · simpa [slice] using hbase
    · exact hfit
    · -- Only the first half of a pair was taken off.
      obtain ⟨u, hu, hhigh⟩ := (Option.any_eq_true _ _).mp hhigh
      have hone : slice text stop (stop + 1) = [u] := by
        obtain ⟨hlt, rfl⟩ := List.getElem?_eq_some_iff.mp hu
        rw [slice, Nat.add_sub_cancel_left, List.drop_eq_getElem_cons hlt, List.take_succ_cons, List.take_zero]
      rw [lineFits_iff] at *
      refine Nat.le_trans (Nat.add_le_add_left ?_ _) hfit
      rw [← slice_append text hle (Nat.le_succ stop), hone]
      exact quotedWidth_le_append_singleton _ hhigh
  have hlast : (text[index + term.length - 1]?).any isHigh = false :=
    (h.plain ht (by omega) (by omega)).1
  rw [← hs, heq]
  refine ⟨_, rfl, List.take_prefix _ _, hshown, ?_⟩
  rw [length_slice hstop]
  constructor
  · intro hcover
    have hmatch : start ≤ index + term.length ∧ index + term.length ≤ stop := by omega
    rw [lineFits_iff] at *
    refine Nat.le_trans (Nat.add_le_add_left ?_ _) hshown
    rw [← slice_append text hmatch.1 hmatch.2]
    apply quotedWidth_le_append
    rwa [getLast?_slice (by omega) hend]
  · intro hfit
    have hwidth := length_le_quotedWidth (slice text start (index + term.length))
    rw [length_slice hend] at hwidth
    have hbound := lineFits_iff.mp hfit
    have := hreach (index + term.length) (by omega) hend (by omega) hlast
      fun m hm hle => lineFits_of_le ht h hm hle hfit
    omega

/-! ## The named records -/

/-- A term, its newest record out of context, and where that record holds it. -/
structure Match where
  term : Str
  entry : SessionRecord
  index : Nat

/-- A record that is withheld, or whose label leaves room. -/
def Match.named (m : Match) : Bool :=
  (secretPattern (sourceText m.entry)).isSome ||
    lineFits (itemWith m.entry (sourceText m.entry) m.term m.index [])

/-- The match that a term names. -/
def matchOf (branch : List SessionRecord) (inContext : Str → Bool) (term : Str) : Option Match :=
  ((newestMatch branch inContext term).map fun found => Match.mk term found.1 found.2).filter Match.named

/-- Each record once, by the first term that names it. -/
def distinctMatches : List Str → List Match → List Match
  | _, [] => []
  | seen, m :: rest =>
    if m.entry.id ∈ seen then distinctMatches seen rest
    else m :: distinctMatches (seen ++ [m.entry.id]) rest

/-- The records that the prompt names. -/
def namedRecords (request : ExcerptRequest) : List Match :=
  match request.messages.getLast? with
  | none => []
  | some prompt =>
    if prompt.role = lit "user" then
      (distinctMatches []
        ((absentTerms request prompt).filterMap (matchOf request.branch request.inContext))).take
          EXCERPT_MAX_COUNT
    else []

theorem isSome_excerptItem (m : Match) :
    (excerptItem m.term m.entry m.index).isSome = m.named := by
  unfold excerptItem Match.named
  by_cases hs : (secretPattern (sourceText m.entry)).isSome = true
  · simp [hs]
  · unfold fitted
    by_cases hf : lineFits (itemWith m.entry (sourceText m.entry) m.term m.index []) = true <;>
      simp [hs, hf]

/-- The loop gives the item of each named record. -/
theorem collectItems_eq (branch : List SessionRecord) (inContext : Str → Bool) (terms : List Str)
    (items : List ExcerptItem) (used : List Str) :
    (collectItems branch inContext terms items used).map some =
      items.map some ++ ((distinctMatches used (terms.filterMap (matchOf branch inContext))).take
        (EXCERPT_MAX_COUNT - items.length)).map fun m => excerptItem m.term m.entry m.index := by
  induction terms generalizing items used with
  | nil => simp [collectItems, distinctMatches]
  | cons term terms ih =>
    rw [collectItems]
    by_cases hfull : EXCERPT_MAX_COUNT ≤ items.length
    · simp [hfull, Nat.sub_eq_zero_of_le hfull]
    · rw [if_neg hfull]
      cases hnew : newestMatch branch inContext term with
      | none =>
        have hmatch : matchOf branch inContext term = none := by simp [matchOf, hnew]
        rw [List.filterMap_cons_none hmatch]
        exact ih items used
      | some found =>
        obtain ⟨entry, index⟩ := found
        have hsome := isSome_excerptItem ⟨term, entry, index⟩
        simp only at hsome ⊢
        cases hitem : excerptItem term entry index with
        | none =>
          have hmatch : matchOf branch inContext term = none := by
            rw [hitem] at hsome
            simp [matchOf, hnew, ← hsome]
          rw [List.filterMap_cons_none hmatch]
          split_ifs <;> exact ih items used
        | some item =>
          have hmatch : matchOf branch inContext term = some ⟨term, entry, index⟩ := by
            rw [hitem] at hsome
            simp [matchOf, hnew, ← hsome]
          rw [List.filterMap_cons_some hmatch, distinctMatches]
          split_ifs with hused
          · exact ih items used
          · obtain ⟨k, hk⟩ : ∃ k, EXCERPT_MAX_COUNT - items.length = k + 1 :=
              ⟨EXCERPT_MAX_COUNT - items.length - 1, by omega⟩
            have hk' : EXCERPT_MAX_COUNT - (items ++ [item]).length = k := by
              rw [List.length_append, List.length_singleton]
              omega
            rw [ih, hk', hk, List.take_succ_cons, List.map_cons, hitem]
            simp

/-- The matches that are kept name each record once, and none seen before. -/
theorem distinctMatches_spec (seen : List Str) (found : List Match) :
    (distinctMatches seen found).Sublist found ∧
      ((distinctMatches seen found).map fun m => m.entry.id).Nodup ∧
      ∀ m ∈ distinctMatches seen found, m.entry.id ∉ seen := by
  induction found generalizing seen with
  | nil => simp [distinctMatches]
  | cons m found ih =>
    rw [distinctMatches]
    split_ifs with hseen
    · obtain ⟨hsub, hnodup, hno⟩ := ih seen
      exact ⟨hsub.cons m, hnodup, hno⟩
    · obtain ⟨hsub, hnodup, hno⟩ := ih (seen ++ [m.entry.id])
      have hnew : ∀ m' ∈ distinctMatches (seen ++ [m.entry.id]) found,
          m'.entry.id ∉ seen ∧ m'.entry.id ≠ m.entry.id := by
        intro m' hm'
        simpa [not_or] using hno m' hm'
      refine ⟨hsub.cons_cons m, ?_, fun m' hm' => ?_⟩
      · rw [List.map_cons, List.nodup_cons]
        refine ⟨fun hmem => ?_, hnodup⟩
        obtain ⟨m', hm', heq⟩ := List.mem_map.mp hmem
        exact (hnew m' hm').2 heq
      · rcases List.mem_cons.mp hm' with rfl | hm'
        · exact hseen
        · exact (hnew m' hm').1

theorem newestMatch_some {branch : List SessionRecord} {inContext : Str → Bool} {term : Str}
    {entry : SessionRecord} {index : Nat} (h : newestMatch branch inContext term = some (entry, index)) :
    entry ∈ branch ∧ inContext entry.id = false ∧
      exactOccurrence (sourceText entry) term = some index := by
  obtain ⟨e, he, hfound⟩ := List.exists_of_findSome?_eq_some h
  split_ifs at hfound with hskip
  obtain ⟨i, hi, heq⟩ := Option.map_eq_some_iff.mp hfound
  obtain ⟨rfl, rfl⟩ := Prod.mk.inj heq
  simp only [Bool.or_eq_true, not_or, Bool.not_eq_true] at hskip
  exact ⟨List.mem_reverse.mp he, hskip.2, hi⟩

/-- What a named record is. -/
theorem mem_namedRecords {request : ExcerptRequest} {m : Match} (h : m ∈ namedRecords request) :
    newestMatch request.branch request.inContext m.term = some (m.entry, m.index) ∧
      m.named = true ∧ Plain m.term ∧ exactOccurrence (shownOf request) m.term = none := by
  unfold namedRecords at h
  cases hlast : request.messages.getLast? with
  | none =>
    rw [hlast] at h
    cases h
  | some prompt =>
    rw [hlast] at h
    dsimp only at h
    split_ifs at h
    · obtain ⟨term, hterm, hm⟩ := List.mem_filterMap.mp
        ((distinctMatches_spec [] _).1.subset (List.mem_of_mem_take h))
      obtain ⟨hnew, hnamed⟩ := Option.filter_eq_some_iff.mp hm
      obtain ⟨found, hfound, rfl⟩ := Option.map_eq_some_iff.mp hnew
      obtain ⟨hin, habsent⟩ := List.mem_filter.mp hterm
      exact ⟨hfound, hnamed, ascii_identifierTerms hin, Option.isNone_iff_eq_none.mp habsent⟩
    · cases h

/-- The items are those of the named records, and none is appended when there are none. -/
theorem items_selectExcerpts (request : ExcerptRequest) :
    (((selectExcerpts request).map ExcerptAppend.items).getD []).map some =
      (namedRecords request).map fun m => excerptItem m.term m.entry m.index := by
  unfold selectExcerpts namedRecords
  cases request.messages.getLast? with
  | none => rfl
  | some prompt =>
    dsimp only
    by_cases hrole : prompt.role = lit "user"
    · rw [if_neg (not_not.mpr hrole), if_pos hrole]
      have hitems := collectItems_eq request.branch request.inContext (absentTerms request prompt) [] []
      rw [List.map_nil, List.nil_append, List.length_nil, Nat.sub_zero] at hitems
      rw [← hitems]
      split_ifs with hterms hnone
      · rw [hterms]
        rfl
      · rw [hnone]
        rfl
      · rfl
    · rw [if_pos hrole, if_neg hrole]
      rfl

theorem mem_items {request : ExcerptRequest} {append : ExcerptAppend}
    (h : selectExcerpts request = some append) {item : ExcerptItem} :
    item ∈ append.items ↔ ∃ m ∈ namedRecords request, excerptItem m.term m.entry m.index = some item := by
  have hitems := items_selectExcerpts request
  rw [h, Option.map_some, Option.getD_some] at hitems
  rw [← List.mem_map_of_injective (Option.some_injective _), hitems, List.mem_map]

/-! ## What an excerpt shows -/

/-- An excerpt is a part of the record it was appended for, with the match. -/
structure Shows (request : ExcerptRequest) (entryId role term : Str) (offset : Nat) (text : Str) :
    Prop where
  source : ∃ entry index,
    newestMatch request.branch request.inContext term = some (entry, index) ∧
      entry ∈ request.branch ∧ entry.id = entryId ∧ request.inContext entryId = false ∧
      secretPattern (sourceText entry) = none ∧ text <+: (sourceText entry).drop offset ∧
      ExactAt (sourceText entry) term index ∧ offset ≤ index ∧
      index + term.length ≤ offset + text.length
  exact : ∃ p, ExactAt text term p
  line : textTokens (excerptLine (.excerpt entryId role term offset text)) ≤ EXCERPT_MAX_TOKENS
  absent : ∀ p, ¬ ExactAt (shownOf request) term p

/-- At most two records are named, and every excerpt shows what it was appended for. -/
def ExcerptsShow (request : ExcerptRequest) : Prop :=
  ∀ append, selectExcerpts request = some append →
    append.items.length ≤ 2 ∧ (append.items.map ExcerptItem.entryId).Nodup ∧
      ∀ entryId role term offset text, .excerpt entryId role term offset text ∈ append.items →
        Shows request entryId role term offset text

/-- For each named record that is not withheld, the line that ends with the match is within the
bound. -/
def LeadsFit (request : ExcerptRequest) : Prop :=
  ∀ m ∈ namedRecords request, secretPattern (sourceText m.entry) = none →
    lineFits (itemWith m.entry (sourceText m.entry) m.term m.index
      (slice (sourceText m.entry) (windowStart (sourceText m.entry) m.index)
        (m.index + m.term.length))) = true

theorem entryId_excerptItem {m : Match} {item : ExcerptItem}
    (h : excerptItem m.term m.entry m.index = some item) : item.entryId = m.entry.id := by
  unfold excerptItem fitted at h
  split_ifs at h <;> · obtain rfl := Option.some.inj h; rfl

/-- The count and the records of an append. -/
theorem distinct_items {request : ExcerptRequest} {append : ExcerptAppend}
    (h : selectExcerpts request = some append) :
    append.items.length ≤ 2 ∧ (append.items.map ExcerptItem.entryId).Nodup := by
  have hitems := items_selectExcerpts request
  rw [h, Option.map_some, Option.getD_some] at hitems
  have hids : append.items.map ExcerptItem.entryId = (namedRecords request).map fun m => m.entry.id := by
    apply List.map_injective_iff.mpr (Option.some_injective Str)
    calc (append.items.map ExcerptItem.entryId).map some
        = (append.items.map some).map (Option.map ExcerptItem.entryId) := by simp [Function.comp_def]
      _ = (namedRecords request).map fun m =>
            (excerptItem m.term m.entry m.index).map ExcerptItem.entryId := by
          rw [hitems, List.map_map]
          rfl
      _ = ((namedRecords request).map fun m => m.entry.id).map some := by
          rw [List.map_map]
          refine List.map_congr_left fun m hm => ?_
          obtain ⟨item, hitem⟩ := Option.isSome_iff_exists.mp
            ((isSome_excerptItem m).trans (mem_namedRecords hm).2.1)
          rw [hitem, Option.map_some, entryId_excerptItem hitem]
          rfl
  rw [hids]
  have hlen := congrArg List.length hitems
  rw [List.length_map, List.length_map] at hlen
  rw [hlen]
  unfold namedRecords
  cases request.messages.getLast? with
  | none => simp
  | some prompt =>
    dsimp only
    split_ifs
    · refine ⟨List.length_take_le _ _, ?_⟩
      rw [List.map_take]
      exact (distinctMatches_spec [] _).2.1.sublist (List.take_sublist _ _)
    · simp

/-- The excerpt of a named record, and whether it shows the match. -/
theorem excerpt_of_named {request : ExcerptRequest} {m : Match} (hm : m ∈ namedRecords request)
    (hsecret : secretPattern (sourceText m.entry) = none) :
    ∃ shown, excerptItem m.term m.entry m.index =
        some (itemWith m.entry (sourceText m.entry) m.term m.index shown) ∧
      shown <+: (sourceText m.entry).drop (windowStart (sourceText m.entry) m.index) ∧
      lineFits (itemWith m.entry (sourceText m.entry) m.term m.index shown) = true ∧
      (m.index + m.term.length ≤ windowStart (sourceText m.entry) m.index + shown.length ↔
        lineFits (itemWith m.entry (sourceText m.entry) m.term m.index
          (slice (sourceText m.entry) (windowStart (sourceText m.entry) m.index)
            (m.index + m.term.length))) = true) := by
  obtain ⟨hnew, hnamed, hplain, -⟩ := mem_namedRecords hm
  have hne : m.term ≠ [] := List.ne_nil_of_length_pos (by have := hplain.length; omega)
  have hexact := (exactOccurrence_some hne (newestMatch_some hnew).2.2).1
  have hsome := (isSome_excerptItem m).trans hnamed
  have hfitted : excerptItem m.term m.entry m.index =
      fitted m.entry (sourceText m.entry) m.term m.index := by simp [excerptItem, hsecret]
  rw [hfitted] at hsome ⊢
  obtain ⟨item, hitem⟩ := Option.isSome_iff_exists.mp hsome
  obtain ⟨shown, rfl, hprefix, hfits, hiff⟩ := fitted_some hplain hexact hitem
  exact ⟨shown, hitem, hprefix, hfits, hiff⟩

/-- If all excerpts show their terms, then the texts up to the matches fit. -/
theorem leadsFit_of_excerptsShow {request : ExcerptRequest} (hshow : ExcerptsShow request) :
    LeadsFit request := by
  intro m hm hsecret
  obtain ⟨shown, hitem, -, -, hiff⟩ := excerpt_of_named hm hsecret
  obtain ⟨append, happend⟩ : ∃ append, selectExcerpts request = some append := by
    cases hsel : selectExcerpts request with
    | some append => exact ⟨append, rfl⟩
    | none =>
      have hitems := items_selectExcerpts request
      rw [hsel] at hitems
      rw [List.map_eq_nil_iff.mp hitems.symm] at hm
      cases hm
  have hmem := (mem_items happend).mpr ⟨m, hm, hitem⟩
  obtain ⟨entry, index, hnew, -, -, -, -, -, -, -, hcover⟩ :=
    ((hshow append happend).2.2 _ _ _ _ _ hmem).source
  obtain ⟨rfl, rfl⟩ := Prod.mk.inj (Option.some.inj ((mem_namedRecords hm).1.symm.trans hnew))
  exact hiff.mp hcover

/-- If the texts up to the matches fit, then all excerpts show their terms. -/
theorem excerptsShow_of_leadsFit {request : ExcerptRequest} (hfit : LeadsFit request) :
    ExcerptsShow request := by
  intro append happend
  obtain ⟨hcount, hdistinct⟩ := distinct_items happend
  refine ⟨hcount, hdistinct, fun entryId role term offset text hmem => ?_⟩
  obtain ⟨m, hm, hitem⟩ := (mem_items happend).mp hmem
  obtain ⟨hnew, -, hplain, habsent⟩ := mem_namedRecords hm
  have hne : m.term ≠ [] := List.ne_nil_of_length_pos (by have := hplain.length; omega)
  obtain ⟨hin, hcontext, hoccurs⟩ := newestMatch_some hnew
  have hexact := (exactOccurrence_some hne hoccurs).1
  have hsecret : secretPattern (sourceText m.entry) = none := by
    by_contra hno
    have hsome := Option.ne_none_iff_isSome.mp hno
    simp [excerptItem, hsome] at hitem
  obtain ⟨shown, hshown, hprefix, hline, hiff⟩ := excerpt_of_named hm hsecret
  have hcover := hiff.mpr (hfit m hm hsecret)
  have hstart := windowStart_le hplain hexact
  obtain ⟨rfl, rfl, rfl, rfl, rfl⟩ :=
    ExcerptItem.excerpt.inj (Option.some.inj (hitem.symm.trans hshown))
  refine ⟨⟨m.entry, m.index, hnew, hin, rfl, hcontext, hsecret, hprefix, hexact, hstart, hcover⟩,
    ⟨_, hexact.window hprefix hstart hcover⟩, ?_, (exactOccurrence_none hne).mp habsent⟩
  exact of_decide_eq_true hline

/-- Every appended excerpt shows what it was appended for exactly when each named record's line has
room for the characters before the match and the match. -/
theorem excerpts_show_iff (request : ExcerptRequest) : ExcerptsShow request ↔ LeadsFit request :=
  ⟨leadsFit_of_excerptsShow, excerptsShow_of_leadsFit⟩

/-! ### A tool result that starts with escapes -/

/-- 120 escape characters before the identifier. -/
def controlText : Str := List.replicate 120 0x1B ++ lit "max_retries"

def controlRecord : SessionRecord :=
  messageRecord (lit "r1") (lit "u1") [] (lit "toolResult") controlText

def controlRequest : ExcerptRequest where
  messages := [⟨[(lit "role", .str (lit "user")), (lit "content", .str (lit "Where is max_retries?"))]⟩]
  outside := []
  branch := [controlRecord]
  inContext := fun _ => false

/-- The match that the prompt names. -/
def controlMatch : Match := ⟨lit "max_retries", controlRecord, 120⟩

theorem sourceText_controlRecord : sourceText controlRecord = controlText :=
  sourceText_messageRecord _ _ _ _ _ (by simp)

/-- The record with the control characters is named. -/
theorem named_controlMatch : controlMatch ∈ namedRecords controlRequest := by
  have hterms : ∀ prompt : ExcerptSourceMessage,
      field prompt.fields "content" = some (.str (lit "Where is max_retries?")) →
        absentTerms controlRequest prompt = [lit "max_retries"] := by
    intro prompt hprompt
    rw [absentTerms, hprompt]
    decide +kernel
  have hindex : exactOccurrence controlText (lit "max_retries") = some 120 := by decide +kernel
  have hnew : newestMatch controlRequest.branch controlRequest.inContext (lit "max_retries") =
      some (controlRecord, 120) := by
    have htype : controlRecord.type = .message := type_messageRecord ..
    have hrole : controlRecord.role = lit "toolResult" := role_messageRecord ..
    have hquotable : excerptable controlRecord = true := by simp [excerptable, excluded, htype, hrole]
    simp [newestMatch, controlRequest, hquotable, sourceText_controlRecord, hindex]
  have hnamed : controlMatch.named = true := by
    have hlabel : lineFits (itemWith controlRecord controlText (lit "max_retries") 120 []) = true := by
      decide +kernel
    simp [Match.named, controlMatch, sourceText_controlRecord, hlabel]
  have hmatch : matchOf controlRequest.branch controlRequest.inContext (lit "max_retries") =
      some controlMatch := by
    rw [matchOf, hnew]
    exact Option.filter_eq_some_iff.mpr ⟨rfl, hnamed⟩
  have hlast : controlRequest.messages.getLast? = some ⟨[(lit "role", .str (lit "user")),
      (lit "content", .str (lit "Where is max_retries?"))]⟩ := rfl
  rw [namedRecords, hlast]
  dsimp only
  rw [if_pos (by decide +kernel), hterms _ (by simp [field])]
  simp [hmatch, distinctMatches, EXCERPT_MAX_COUNT]

/-- The excerpt ends before the identifier that it was appended for. -/
theorem not_excerptsShow_controlRequest : ¬ ExcerptsShow controlRequest := by
  intro h
  have hsecret : secretPattern controlText = none := by decide +kernel
  have hfit := leadsFit_of_excerptsShow h controlMatch named_controlMatch
    (by rw [controlMatch, sourceText_controlRecord]; exact hsecret)
  have hno : lineFits (itemWith controlRecord controlText (lit "max_retries") 120
      (slice controlText (windowStart controlText 120) (120 + (lit "max_retries").length))) = false := by
    decide +kernel
  simp only [controlMatch, sourceText_controlRecord] at hfit
  rw [hno] at hfit
  cases hfit

end Compaction
