import ContextCompaction.Core.ExcerptLaws
import ContextCompaction.Core.HistoryView

/-!
# Low detail

The start of one record within a bound, and the search for the longest text within a bound that it
shares with the excerpts.

* `readLowDetail`: the page.
* `TakesLongest`: a text that fits, cuts no pair, and is the longest such.
* `longestFitting_longest_iff`: when the search takes it. It misses it where it probes half of a pair
  that does not fit although the pair does, and where the longest text ends in a first half without
  its second.
-/

namespace Compaction

open Js Sequences

/-! ## The page -/

def LOW_DETAIL_TOKENS : Nat := 200

structure LowDetailHit where
  hit : HistoryExcerpt
  complete : Bool
  readTokens : Nat
  inContext : Bool

structure LowDetailPage where
  sessionId : Str
  leafId : Option Str
  scopeHash : Str
  entries : List LowDetailHit
  message : Option Str

/-- A text within the bound of a low-detail read. -/
def lowDetailFits (shown : Str) : Bool := textTokens (quote shown) ≤ LOW_DETAIL_TOKENS

/-- The start of the newest record of an ID. -/
def readLowDetail (t : TextTables) (sha256 : Sha256) (snapshot : HistorySnapshot)
    (entryId cursor : Option Str) (inContext : Str → Bool) : Except Failure LowDetailPage :=
  if cursor.getD [] ≠ [] then
    .error (.ofText "HISTORY_QUERY_INVALID: a low-detail read has no continuation; read with detail full instead")
  else if entryId.getD [] = [] then .error (.ofText "HISTORY_ENTRY_REQUIRED")
  else
    match snapshot.entries.zipIdx.reverse.find? fun e => some e.1.id = entryId with
    | none => .error (.ofText "HISTORY_SCOPE_DENIED: entry is not in this readable scope")
    | some (entry, position) =>
      let text := sourceText entry
      if text = [] then
        .error (.ofText "HISTORY_SCOPE_DENIED: entry is not in this readable scope")
      else do
        let head := longestFitting text 0 (LOW_DETAIL_TOKENS * 3) lowDetailFits
        let tokens ← readTokens t sha256 snapshot entry position
        let complete := decide (head.length = text.length)
        .ok ⟨snapshot.sessionId, snapshot.leafId, snapshot.scopeHash,
          [⟨⟨entry.id, entry.parentId, sourceRole entry, position, 0, head⟩, complete, tokens,
            inContext entry.id⟩],
          if complete then none
          else some (lit "Low detail: the start of the entry only. Reading it in full returns about " ++
            (Number.ofNat tokens).text ++
            lit " tokens; read it again with detail full if it is needed.")⟩

/-! ## The longest text -/

/-- The end of a slice between the halves of a pair. -/
def CutsAt (text : Str) (start stop : Nat) : Prop :=
  start < stop ∧ (text[stop - 1]?).any isHigh = true ∧ (text[stop]?).any isLow = true

/-- The last end that a search may take. -/
def lastEnd (text : Str) (start limit : Nat) : Nat := min text.length (start + limit)

/-- A slice that fits and cuts no pair, and no longer one does both. -/
def TakesLongest (text : Str) (start limit : Nat) (fits : Str → Bool) (shown : Str) : Prop :=
  ∃ stop, shown = slice text start stop ∧ start ≤ stop ∧ (stop = start ∨ stop ≤ lastEnd text start limit) ∧
    fits shown = true ∧ ¬ CutsAt text start stop ∧
    ∀ longer, stop < longer → longer ≤ lastEnd text start limit →
      fits (slice text start longer) = true → CutsAt text start longer

/-- Where half of a pair does not fit and the pair does, a longer text that fits is probed before the
half; and the longest text that fits does not end in a first half that has no second. -/
structure SearchReaches (text : Str) (start limit : Nat) (fits : Str → Bool) : Prop where
  halves : ∀ half, half < lastEnd text start limit → CutsAt text start half →
    fits (slice text start half) = false → fits (slice text start (half + 1)) = true →
      HiddenBy (fun stop => fits (slice text start stop)) (lastEnd text start limit - start) start
        (lastEnd text start limit) (lastEnd text start limit) half
  lone : ∀ stop, start < stop → stop ≤ lastEnd text start limit → fits (slice text start stop) = true →
    (text[stop - 1]?).any isHigh = true → ¬ CutsAt text start stop →
      ∃ longer, stop < longer ∧ longer ≤ lastEnd text start limit ∧ fits (slice text start longer) = true

/-- The bounds that the search is used with. -/
inductive ModuleBound : (Str → Bool) → Prop
  | lowDetail : ModuleBound lowDetailFits
  | line {entryId role term : Str} {offset : Nat}
      (h : lineFits (.excerpt entryId role term offset []) = true) :
      ModuleBound fun shown => lineFits (.excerpt entryId role term offset shown)

/-- Both bound the width of a text. -/
theorem ModuleBound.width {fits : Str → Bool} (h : ModuleBound fits) :
    ∃ room, ∀ shown, fits shown = true ↔ quotedWidth shown ≤ room := by
  cases h with
  | lowDetail =>
    refine ⟨598, fun shown => ?_⟩
    have hquote : byteLength (quote shown) = quotedWidth shown + 2 := by
      have hsplit : quote shown = [0x22] ++ (quoteUnits shown ++ [0x22]) := rfl
      rw [hsplit, byteLength_append (by decide), byteLength_append (printable_quoteUnits shown).1]
      exact Nat.add_comm _ _
    rw [lowDetailFits, decide_eq_true_eq, textTokens, hquote]
    unfold LOW_DETAIL_TOKENS
    omega
  | @line entryId role term offset hempty =>
    refine ⟨600 - byteLength (excerptLine (.excerpt entryId role term offset [])), fun shown => ?_⟩
    have hline : lineFits (.excerpt entryId role term offset shown) = true ↔
        byteLength (excerptLine (.excerpt entryId role term offset [])) + quotedWidth shown ≤ 600 := by
      rw [lineFits, decide_eq_true_eq, textTokens, byteLength_excerptLine]
      unfold EXCERPT_MAX_TOKENS
      omega
    have hroom : byteLength (excerptLine (.excerpt entryId role term offset [])) ≤ 600 := by
      rw [lineFits, decide_eq_true_eq, textTokens] at hempty
      unfold EXCERPT_MAX_TOKENS at hempty
      omega
    rw [hline]
    omega

section Search

variable {text : Str} {start limit : Nat} {fits : Str → Bool} {room : Nat}

/-- A slice is no wider than a longer one, unless it cuts a pair. -/
theorem width_le_longer (hwidth : ∀ shown, fits shown = true ↔ quotedWidth shown ≤ room)
    {stop longer : Nat} (hstart : start < stop) (hlt : stop < longer) (hlonger : longer ≤ text.length)
    (hcut : ¬ CutsAt text start stop) (hfits : fits (slice text start longer) = true) :
    fits (slice text start stop) = true := by
  rw [hwidth] at hfits ⊢
  refine Nat.le_trans ?_ hfits
  rw [← slice_append text (Nat.le_of_lt hstart) (Nat.le_of_lt hlt), quotedWidth_append]
  · exact Nat.le_add_right _ _
  · rw [cutsPair, getLast?_slice hstart (by omega), head?_slice hlt, Bool.and_eq_false_iff]
    rw [CutsAt, not_and, not_and] at hcut
    by_cases hhigh : (text[stop - 1]?).any isHigh = true
    · exact .inr (by simpa using hcut hstart hhigh)
    · exact .inl (by simpa using hhigh)

/-- Behind the second half nothing is cut. -/
theorem not_cutsAt_of_low {stop : Nat} (h : (text[stop - 1]?).any isLow = true) :
    ¬ CutsAt text start stop := by
  rintro ⟨-, hhigh, -⟩
  obtain ⟨u, hu, hlow⟩ := (Option.any_eq_true _ _).mp h
  rw [hu, Option.any_some] at hhigh
  rw [isLow_of_isHigh hhigh] at hlow
  cases hlow

/-- Only half of a pair does not fit where a longer text does. -/
theorem gap_cuts (hwidth : ∀ shown, fits shown = true ↔ quotedWidth shown ≤ room) {stop longer : Nat}
    (hstart : start < stop) (hlt : stop < longer) (hlonger : longer ≤ text.length)
    (hgap : fits (slice text start stop) = false) (hfits : fits (slice text start longer) = true) :
    CutsAt text start stop ∧ fits (slice text start (stop + 1)) = true := by
  have hcut : CutsAt text start stop := by
    by_contra hno
    rw [width_le_longer hwidth hstart hlt hlonger hno hfits] at hgap
    cases hgap
  refine ⟨hcut, ?_⟩
  by_cases hone : stop + 1 = longer
  · rw [hone]
    exact hfits
  · exact width_le_longer hwidth (by omega) (by omega) hlonger (not_cutsAt_of_low hcut.2.2) hfits

theorem slice_one {a b : Nat} {u : UInt16} (h : text[a]? = some u) (hb : b = a + 1) :
    slice text a b = [u] := by
  obtain ⟨hlt, rfl⟩ := List.getElem?_eq_some_iff.mp h
  rw [slice, hb, Nat.add_sub_cancel_left, List.drop_eq_getElem_cons hlt]
  rfl

/-- Without its last unit, a first half, a slice is no wider. -/
theorem fits_before_high (hwidth : ∀ shown, fits shown = true ↔ quotedWidth shown ≤ room) {stop : Nat}
    (hstart : start < stop) (hhigh : (text[stop - 1]?).any isHigh = true)
    (hfits : fits (slice text start stop) = true) : fits (slice text start (stop - 1)) = true := by
  obtain ⟨u, hu, hhigh⟩ := (Option.any_eq_true _ _).mp hhigh
  rw [hwidth] at hfits ⊢
  rw [← slice_append text (show start ≤ stop - 1 by omega) (Nat.sub_le stop 1),
    slice_one hu (by omega)] at hfits
  exact Nat.le_trans (quotedWidth_le_append_singleton _ hhigh) hfits

/-- The end that the search takes, and the end of what it returns. -/
theorem longestFitting_ends (text : Str) {start limit : Nat} (fits : Str → Bool)
    (hstart : start ≤ lastEnd text start limit) (hempty : fits [] = true) :
    ∃ low, low = bisect (fun stop => fits (slice text start stop)) (lastEnd text start limit - start) start
        (lastEnd text start limit) ∧
      (start ≤ low ∧ low ≤ lastEnd text start limit) ∧ fits (slice text start low) = true ∧
      longestFitting text start limit fits = slice text start
        (if start < low ∧ (text[low - 1]?).any isHigh = true then low - 1 else low) := by
  refine ⟨_, rfl, bisect_bounds hstart, ?_, ?_⟩
  · have hnone : slice text start start = [] := by rw [slice, Nat.sub_self, List.take_zero]
    exact (@bisect_sat (fun stop => fits (slice text start stop)) _ _ _ start (.inl rfl)).elim
      (fun heq => by rw [heq, hnone]; exact hempty) id
  · rw [longestFitting, searchFitting_eq_bisect]
    rfl

/-- Behind a text nothing is searched. -/
theorem takesLongest_behind (hempty : fits [] = true) (hstart : lastEnd text start limit < start) :
    TakesLongest text start limit fits (longestFitting text start limit fits) ∧
      SearchReaches text start limit fits := by
  have hnone : slice text start start = [] := by rw [slice, Nat.sub_self, List.take_zero]
  have hshown : longestFitting text start limit fits = slice text start start := by
    have hrounds : min text.length (start + limit) - start = 0 := by
      unfold lastEnd at hstart
      omega
    rw [longestFitting, hrounds, searchFitting]
    simp
  refine ⟨⟨start, hshown, Nat.le_refl _, .inl rfl, by rw [hshown, hnone, hempty], fun hcut => ?_,
    fun longer hlt hle => ?_⟩, fun half hlt hcut => ?_, fun stop hlt hle => ?_⟩
  · exact absurd hcut.1 (Nat.lt_irrefl _)
  · omega
  · have := hcut.1
    omega
  · omega

/-- The search takes the longest text exactly where it reaches it. -/
theorem takesLongest_iff (hwidth : ∀ shown, fits shown = true ↔ quotedWidth shown ≤ room)
    (hempty : fits [] = true) :
    TakesLongest text start limit fits (longestFitting text start limit fits) ↔
      SearchReaches text start limit fits := by
  rcases Nat.lt_or_ge (lastEnd text start limit) start with hbehind | hstart
  · have := @takesLongest_behind text start limit fits hempty hbehind
    exact iff_of_true this.1 this.2
  obtain ⟨low, hlow, ⟨hge, hle⟩, hfits, hshown⟩ := longestFitting_ends text fits hstart hempty
  have hlength : lastEnd text start limit ≤ text.length := Nat.min_le_left _ _
  constructor
  · rintro ⟨stop, heq, hstop, hbound, hshort, hwhole, hlongest⟩
    -- The text that is returned says where it ends.
    obtain ⟨taken, htaken, hends⟩ : ∃ taken, taken = (if start < low ∧
        (text[low - 1]?).any isHigh = true then low - 1 else low) ∧ taken ≤ low := by
      refine ⟨_, rfl, ?_⟩
      split_ifs <;> omega
    have hsame : stop = taken := by
      have hlengths := congrArg List.length (hshown.symm.trans heq)
      rw [← htaken, length_slice (by omega), length_slice (by omega)] at hlengths
      split_ifs at htaken <;> omega
    refine ⟨fun half hlt hcut hgap hpair => ?_, fun other hother hbound' hfits' hhigh hcut => ?_⟩
    · by_contra hseen
      have hbefore := bisect_lt_of_seen (Nat.le_refl _) hcut.1 (Nat.le_of_lt hlt) hgap hseen
      rw [← hlow] at hbefore
      refine not_cutsAt_of_low hcut.2.2 (hlongest (half + 1) (by omega) hlt hpair)
    · by_contra hnone
      have hreach : other ≤ stop := by
        by_contra hlt
        exact hcut (hlongest other (by omega) hbound' hfits')
      have hlonger : ∀ longer, other < longer → longer ≤ lastEnd text start limit →
          fits (slice text start longer) = false := fun longer hlt hle => by
        by_contra hyes
        exact hnone ⟨longer, hlt, hle, by simpa using hyes⟩
      split_ifs at htaken with hhalf
      · rw [hlonger low (by omega) hle] at hfits
        cases hfits
      · have hother' : other = low := by
          by_contra hne
          rw [hlonger low (by omega) hle] at hfits
          cases hfits
        exact hhalf ⟨hother' ▸ hother, hother' ▸ hhigh⟩
  · intro hreach
    -- The last end that fits is where the bisection ends, since all gaps before it are hidden.
    obtain ⟨last, hlast⟩ : ∃ last, last = Nat.findGreatest (fun stop => fits (slice text start stop) = true)
      (lastEnd text start limit) := ⟨_, rfl⟩
    have hbound : last ≤ lastEnd text start limit := hlast ▸ Nat.findGreatest_le _
    have hmax : ∀ longer, longer ≤ lastEnd text start limit →
        fits (slice text start longer) = true → longer ≤ last := fun longer hle hfits' =>
      hlast ▸ Nat.le_findGreatest hle hfits'
    have hlastfits : fits (slice text start last) = true :=
      hlast ▸ Nat.findGreatest_spec (P := fun stop => fits (slice text start stop) = true) hle hfits
    have hgaps : ∀ n, start < n → n < last → fits (slice text start n) = false →
        HiddenBy (fun stop => fits (slice text start stop)) (lastEnd text start limit - start) start
          (lastEnd text start limit) last n := by
      intro n hn hnl hgap
      obtain ⟨hcut, hpair⟩ := gap_cuts hwidth hn hnl (by omega) hgap hlastfits
      obtain ⟨m, hnm, hm, hpm, hprobes⟩ := hreach.halves n (by omega) hcut hgap hpair
      exact ⟨m, hnm, hmax m hm hpm, hpm, hprobes⟩
    have hend : low = last := Nat.le_antisymm (hmax low hle hfits) (hlow ▸ le_bisect_of_hidden
      (Nat.le_refl _) (hge.trans (hmax low hle hfits)) hbound (.inr hlastfits) hgaps)
    subst hend
    by_cases hhalf : start < low ∧ (text[low - 1]?).any isHigh = true
    · -- A first half at the end is one that the limit cuts off.
      rw [if_pos hhalf] at hshown
      have hcut : CutsAt text start low := by
        by_contra hno
        obtain ⟨longer, hlt, hle', hfits'⟩ := hreach.lone low hhalf.1 hle hfits hhalf.2 hno
        exact Nat.not_le.mpr hlt (hmax longer hle' hfits')
      refine ⟨low - 1, hshown, by omega, .inr (by omega), hshown ▸ fits_before_high hwidth hhalf.1 hhalf.2
        hfits, fun hbefore => ?_, fun longer hlt hle' hfits' => ?_⟩
      · obtain ⟨u, hu, hhigh⟩ := (Option.any_eq_true _ _).mp hhalf.2
        have hlow' := hbefore.2.2
        rw [hu, Option.any_some, isLow_of_isHigh hhigh] at hlow'
        cases hlow'
      · have := hmax longer hle' hfits'
        rwa [show longer = low by omega]
    · rw [if_neg hhalf] at hshown
      refine ⟨low, hshown, hge, .inr hle, hshown ▸ hfits, fun hcut => hhalf ⟨hcut.1, hcut.2.1⟩,
        fun longer hlt hle' hfits' => ?_⟩
      exact absurd (hmax longer hle' hfits') (Nat.not_le.mpr hlt)

end Search

/-- A low-detail read and an excerpt take the longest text that fits exactly where the search reaches
it. -/
theorem longestFitting_longest_iff (text : Str) (start limit : Nat) {fits : Str → Bool}
    (h : ModuleBound fits) :
    TakesLongest text start limit fits (longestFitting text start limit fits) ↔
      SearchReaches text start limit fits := by
  obtain ⟨room, hwidth⟩ := h.width
  refine takesLongest_iff hwidth ?_
  cases h with
  | lowDetail => decide
  | line h => exact h

/-! ### A pair that is missed -/

/-- Two units fewer than the bound of a low-detail read, a pair that takes them, and more text. -/
def missedPair : Str := List.replicate 198 0x4E00 ++ [0xD83D, 0xDE00] ++ List.replicate 197 0x61

/-- The search probes half of the pair first, and returns a text without the pair. -/
theorem not_takesLongest_missedPair :
    ¬ TakesLongest missedPair 0 600 lowDetailFits (longestFitting missedPair 0 600 lowDetailFits) := by
  rintro ⟨stop, hshown, -, hbound, -, -, hlongest⟩
  have hshort : (longestFitting missedPair 0 600 lowDetailFits).length = 198 := by decide +kernel
  have hlast : lastEnd missedPair 0 600 = 397 := by decide +kernel
  have hpair : lowDetailFits (slice missedPair 0 200) = true ∧
      (missedPair[199]?).any isHigh = false := by decide +kernel
  have hlength : missedPair.length = 397 := by decide +kernel
  have hstop : stop = 198 := by
    rw [hshown, length_slice (by omega)] at hshort
    exact hshort
  obtain ⟨-, hhigh, -⟩ := hlongest 200 (by omega) (by omega) hpair.1
  rw [hpair.2] at hhigh
  cases hhigh

/-- Two letters and a pair. -/
def pairedText : Str := [0x6F, 0x6B, 0xD83D, 0xDE00]

/-- Every slice of it fits, so that the search takes the longest one. -/
theorem longestFitting_longest_iff_sample :
    TakesLongest pairedText 0 600 lowDetailFits (longestFitting pairedText 0 600 lowDetailFits) := by
  have hend : lastEnd pairedText 0 600 = 4 := by decide
  have hfits : ∀ stop < 4, lowDetailFits (slice pairedText 0 stop) = true := by decide +kernel
  have hpairs : ∀ stop < 5, 0 < stop → (pairedText[stop - 1]?).any isHigh = true →
      (pairedText[stop]?).any isLow = true := by decide +kernel
  refine (longestFitting_longest_iff pairedText 0 600 .lowDetail).mpr
    ⟨fun half hhalf _ hno _ => ?_, fun stop hpos hstop _ hhigh hcut => ?_⟩
  · rw [hfits half (hend ▸ hhalf)] at hno
    cases hno
  · exact absurd ⟨hpos, hhigh, hpairs stop (by omega) hpos hhigh⟩ hcut

end Compaction
