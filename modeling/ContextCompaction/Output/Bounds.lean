import ContextCompaction.Js.Boundaries

/-!
# Bounded output

`boundOutput` keeps the first or the last lines of a text within a limit of bytes and one of lines. A
single line that is longer than the limit is cut.

* `headEnd_spec`, `tailStart_spec`: where the kept bytes end, and where they start.
* `headEnd_append`, `tailStart_append`: which part of a text decides it.
-/

namespace Output

open Js Sequences

inductive Retain where
  | head
  | tail
  deriving DecidableEq, Repr

/-- Retention limits of one tool's output. -/
structure OutputLimits where
  maxBytes : Nat
  maxLines : Nat
  retain : Retain
  deriving DecidableEq, Repr

/-- An exact slice of the input within the limits, and what it left out. -/
structure OutputSlice where
  text : Str
  bytes : Nat
  droppedBytes : Int
  droppedLines : Int
  deriving DecidableEq, Repr

def NEWLINE : UInt8 := 0x0A

/-- The last character boundary at or before an index. -/
def characterEnd (bytes : List UInt8) : Nat → Nat
  | 0 => 0
  | i + 1 => if isContinuation (bytes[i + 1]?.getD 0) then characterEnd bytes i else i + 1

/-- The first character boundary at or after an index. -/
def characterStart (bytes : List UInt8) (i : Nat) : Nat :=
  i + ((bytes.drop i).takeWhile isContinuation).length

def headRange (bytes : List UInt8) (limits : OutputLimits) : Nat × Nat :=
  if limits.maxLines = 0 ∨ limits.maxBytes = 0 then (0, 0)
  else
    let last := afterLines NEWLINE bytes limits.maxLines 0
    if last > limits.maxBytes then
      match prevIndex NEWLINE bytes limits.maxBytes with
      | none => (0, characterEnd bytes limits.maxBytes)
      | some newline => (0, newline + 1)
    else (0, last)

def tailRange (bytes : List UInt8) (limits : OutputLimits) : Nat × Nat :=
  if limits.maxLines = 0 ∨ limits.maxBytes = 0 then (bytes.length, bytes.length)
  else
    let start := linesBefore NEWLINE bytes (limits.maxLines - 1)
    if bytes.length - start > limits.maxBytes then
      let first := bytes.length - limits.maxBytes
      match nextIndex NEWLINE bytes (first - 1) with
      | none => (characterStart bytes first, bytes.length)
      | some newline =>
        if newline + 1 < bytes.length then (newline + 1, bytes.length)
        else (characterStart bytes first, bytes.length)
    else (start, bytes.length)

/-- Bound a text to whole lines within the limits. -/
def boundOutput (text : Str) (limits : OutputLimits) : OutputSlice :=
  let bytes := utf8 text
  let range := match limits.retain with
    | .head => headRange bytes limits
    | .tail => tailRange bytes limits
  let kept := (bytes.take range.2).drop range.1
  { text := if kept.length = bytes.length then text else decodeUtf8 kept
    bytes := kept.length
    droppedBytes := bytes.length - kept.length
    droppedLines := lineCount NEWLINE bytes - lineCount NEWLINE kept }

variable {bytes : List UInt8} {limits : OutputLimits} {i k : Nat}

/-! ## Character boundaries -/

theorem characterEnd_le (bytes : List UInt8) (i : Nat) : characterEnd bytes i ≤ i := by
  induction i with
  | zero => exact Nat.le_refl 0
  | succ i ih =>
    rw [characterEnd]
    split_ifs
    · exact Nat.le_succ_of_le ih
    · exact Nat.le_refl _

theorem boundary_iff : Boundary bytes i ↔ isContinuation (bytes[i]?.getD 0) = false := by
  unfold Boundary
  cases bytes[i]? with
  | none => simp [isContinuation]
  | some b => simp

theorem boundary_characterEnd (h : Boundary bytes 0) : Boundary bytes (characterEnd bytes i) := by
  induction i with
  | zero => exact h
  | succ i ih =>
    rw [characterEnd]
    split_ifs with hc
    · exact ih
    · exact boundary_iff.mpr (Bool.not_eq_true _ ▸ hc)

/-- No boundary up to the index is later. -/
theorem le_characterEnd (h : Boundary bytes k) (hk : k ≤ i) : k ≤ characterEnd bytes i := by
  induction i with
  | zero => exact hk
  | succ i ih =>
    rw [characterEnd]
    split_ifs with hc
    · refine ih (Nat.le_of_lt_succ (Nat.lt_of_le_of_ne hk ?_))
      rintro rfl
      rw [boundary_iff.mp h] at hc
      cases hc
    · exact hk

theorem le_characterStart (bytes : List UInt8) (i : Nat) : i ≤ characterStart bytes i := Nat.le_add_right _ _

theorem characterStart_le (h : i ≤ bytes.length) : characterStart bytes i ≤ bytes.length := by
  have hlen := (List.takeWhile_prefix isContinuation (l := bytes.drop i)).length_le
  rw [List.length_drop] at hlen
  unfold characterStart
  omega

/-- What stands behind the leading bytes of a kind, and among them. -/
private theorem getElem?_takeWhile (p : UInt8 → Bool) (l : List UInt8) :
    (∀ b ∈ l[(l.takeWhile p).length]?, p b = false) ∧
      ∀ j < (l.takeWhile p).length, ∃ b, l[j]? = some b ∧ p b = true := by
  induction l with
  | nil => simp
  | cons b l ih =>
    cases hp : p b with
    | false => simp [hp]
    | true =>
      rw [List.takeWhile_cons_of_pos hp, List.length_cons]
      refine ⟨by simpa using ih.1, fun j hj => ?_⟩
      cases j with
      | zero => exact ⟨b, rfl, hp⟩
      | succ j => exact ih.2 j (Nat.lt_of_succ_lt_succ hj)

theorem boundary_characterStart : Boundary bytes (characterStart bytes i) := by
  intro b hb
  rw [characterStart, ← List.getElem?_drop] at hb
  exact (getElem?_takeWhile isContinuation (bytes.drop i)).1 b hb

/-- No boundary from the index on is earlier. -/
theorem characterStart_le_of_boundary (h : Boundary bytes k) (hk : i ≤ k) :
    characterStart bytes i ≤ k := by
  by_contra hlt
  obtain ⟨b, hb, hc⟩ := (getElem?_takeWhile isContinuation (bytes.drop i)).2 (k - i) (by
    unfold characterStart at hlt
    omega)
  rw [List.getElem?_drop, Nat.add_sub_cancel' hk] at hb
  rw [h b hb] at hc
  cases hc

/-! ## The first lines -/

/-- A cut beyond the start has the first line before it. -/
private theorem firstLine_le (hi : LineCut NEWLINE bytes i) (hpos : bytes ≠ [] → 0 < i)
    (hk : LineCut NEWLINE bytes k) (hone : lineCount NEWLINE (bytes.take k) = 1) : k ≤ i := by
  by_contra hlt
  have hne : bytes ≠ [] := by
    rintro rfl
    simp at hone
  have hzero : LineCut NEWLINE bytes 0 := .inl rfl
  have h1 := hzero.lt_take (hpos hne) hi.le
  have h2 := hi.lt_take (Nat.not_le.mp hlt) hk.le
  omega

/-- The first line is as long as the bytes before the first newline. -/
private theorem exists_firstLine (hlen : k < bytes.length)
    (hnone : ∀ j, j < k → bytes[j]? ≠ some NEWLINE) :
    ∃ i, LineCut NEWLINE bytes i ∧ lineCount NEWLINE (bytes.take i) = 1 ∧ k < i := by
  have hne : bytes ≠ [] := List.length_pos_iff.mp (by omega)
  have hcut := lineCut_afterLines (x := NEWLINE) (l := bytes) (n := 1)
  have hone := (le_afterLines (x := NEWLINE) (n := 1) hcut.le).mp (Nat.le_refl _)
  have hpos : 0 < afterLines NEWLINE bytes 1 0 :=
    (le_afterLines (List.length_pos_iff.mpr hne)).mpr (by
      obtain ⟨b, rest, rfl⟩ := List.exists_cons_of_ne_nil hne
      exact Nat.le_of_eq (lineCount_singleton b))
  refine ⟨_, hcut, Nat.le_antisymm hone (lineCount_pos fun hnil => ?_), ?_⟩
  · rcases List.take_eq_nil_iff.mp hnil with h | h
    · omega
    · exact hne h
  · rcases hcut with hzero | hend | ⟨j, heq, hj⟩
    · omega
    · omega
    · have := Nat.not_lt.mp fun hlt => hnone j hlt hj
      omega

section Positive

variable (hb : 0 < limits.maxBytes) (hl : 0 < limits.maxLines)

include hb hl

/-- Either the longest start of whole lines is kept, or the first line is cut. -/
theorem headRange_cases (bytes : List UInt8) :
    (LineCut NEWLINE bytes (headRange bytes limits).2 ∧
      (headRange bytes limits).2 ≤ limits.maxBytes ∧
      lineCount NEWLINE (bytes.take (headRange bytes limits).2) ≤ limits.maxLines ∧
      (∀ k, LineCut NEWLINE bytes k → lineCount NEWLINE (bytes.take k) = 1 → k ≤ limits.maxBytes) ∧
      ∀ k, LineCut NEWLINE bytes k → k ≤ limits.maxBytes →
        lineCount NEWLINE (bytes.take k) ≤ limits.maxLines → k ≤ (headRange bytes limits).2) ∨
    ((headRange bytes limits).2 = characterEnd bytes limits.maxBytes ∧
      ∃ k, LineCut NEWLINE bytes k ∧ lineCount NEWLINE (bytes.take k) = 1 ∧ limits.maxBytes < k) := by
  have hle := afterLines_le (x := NEWLINE) (l := bytes) (n := limits.maxLines)
  rw [headRange, if_neg (by omega)]
  dsimp only
  split_ifs with hlong
  · -- The first lines are too long.
    have hlt : limits.maxBytes < bytes.length := by omega
    cases hp : prevIndex NEWLINE bytes limits.maxBytes with
    | none => exact .inr ⟨rfl, exists_firstLine hlt fun k hk => prevIndex_eq_none.mp hp k hk⟩
    | some j =>
      obtain ⟨hj, hx, -⟩ := prevIndex_eq_some.mp hp
      have hcut : LineCut NEWLINE bytes (j + 1) := .inr (.inr ⟨j, rfl, hx⟩)
      refine .inl ⟨hcut, hj, ?_, fun k hk hone => ?_, fun k hk hkb _ => ?_⟩
      · exact (le_afterLines hcut.le).mp (Nat.le_of_lt (Nat.lt_of_le_of_lt hj hlong))
      · exact Nat.le_trans (firstLine_le hcut (fun _ => Nat.succ_pos j) hk hone) hj
      · have hprev := hk.le_prevIndex hkb hlt
        rwa [hp] at hprev
  · refine .inl ⟨lineCut_afterLines, Nat.not_lt.mp hlong, (le_afterLines hle).mp (Nat.le_refl _),
      fun k hk hone => ?_, fun k hk _ hkl => (le_afterLines hk.le).mpr hkl⟩
    exact Nat.le_trans ((le_afterLines hk.le).mpr (by omega)) (Nat.not_lt.mp hlong)

end Positive

/-! ## The last lines -/

/-- A cut before the end has the last line behind it. -/
private theorem le_lastLine (hi : LineCut NEWLINE bytes i) (hlt : bytes ≠ [] → i < bytes.length)
    (hk : LineCut NEWLINE bytes k) (hone : lineCount NEWLINE (bytes.drop k) = 1) : i ≤ k := by
  by_contra hki
  have hne : bytes ≠ [] := by
    rintro rfl
    simp at hone
  have hend : LineCut NEWLINE bytes bytes.length := .inr (.inl rfl)
  have h1 := hend.lt_drop (hlt hne)
  have h2 := hi.lt_drop (Nat.not_le.mp hki)
  omega

/-- The last line is as long as the bytes behind the last newline that does not end it. -/
private theorem exists_lastLine (hpos : 0 < k) (hlen : k < bytes.length)
    (hnone : ∀ j, k ≤ j + 1 → j + 1 < bytes.length → bytes[j]? ≠ some NEWLINE) :
    ∃ i, LineCut NEWLINE bytes i ∧ lineCount NEWLINE (bytes.drop i) = 1 ∧ i < k := by
  have hne : bytes ≠ [] := List.length_pos_iff.mp (by omega)
  have hcut := lineCut_linesBefore (x := NEWLINE) (l := bytes) (n := 0)
  have hone := (linesBefore_le (x := NEWLINE) (l := bytes) (n := 0)).mp (Nat.le_refl _)
  have hlt : linesBefore NEWLINE bytes 0 < bytes.length := by
    obtain ⟨most, b, rfl⟩ := (List.eq_nil_or_concat bytes).resolve_left hne
    refine Nat.lt_of_le_of_lt (linesBefore_le (k := most.length) |>.mpr ?_) (by simp)
    rw [List.concat_eq_append, List.drop_left]
    exact Nat.le_of_eq (lineCount_singleton b)
  refine ⟨_, hcut, Nat.le_antisymm hone (lineCount_pos fun hnil => ?_), ?_⟩
  · have := List.drop_eq_nil_iff.mp hnil
    omega
  · rcases hcut with hzero | hend | ⟨j, heq, hj⟩
    · omega
    · omega
    · rw [heq] at hlt ⊢
      exact Nat.not_le.mp fun hle => hnone j hle hlt hj

section Positive

variable (hb : 0 < limits.maxBytes) (hl : 0 < limits.maxLines)

include hb hl

/-- Either the longest end of whole lines is kept, or the last line is cut. -/
theorem tailRange_cases (bytes : List UInt8) :
    (LineCut NEWLINE bytes (tailRange bytes limits).1 ∧
      bytes.length - (tailRange bytes limits).1 ≤ limits.maxBytes ∧
      lineCount NEWLINE (bytes.drop (tailRange bytes limits).1) ≤ limits.maxLines ∧
      (∀ k, LineCut NEWLINE bytes k → lineCount NEWLINE (bytes.drop k) = 1 →
        bytes.length - k ≤ limits.maxBytes) ∧
      ∀ k, LineCut NEWLINE bytes k → bytes.length - k ≤ limits.maxBytes →
        lineCount NEWLINE (bytes.drop k) ≤ limits.maxLines → (tailRange bytes limits).1 ≤ k) ∨
    ((tailRange bytes limits).1 = characterStart bytes (bytes.length - limits.maxBytes) ∧
      ∃ k, LineCut NEWLINE bytes k ∧ lineCount NEWLINE (bytes.drop k) = 1 ∧
        k < bytes.length - limits.maxBytes) := by
  have hlines : limits.maxLines - 1 + 1 = limits.maxLines := Nat.sub_add_cancel hl
  have hle : ∀ k, linesBefore NEWLINE bytes (limits.maxLines - 1) ≤ k ↔
      lineCount NEWLINE (bytes.drop k) ≤ limits.maxLines := fun k => by rw [linesBefore_le, hlines]
  rw [tailRange, if_neg (by omega)]
  dsimp only
  split_ifs with hlong
  · -- The last lines are too long.
    have hcut : ∀ k, LineCut NEWLINE bytes k → bytes.length - limits.maxBytes ≤ k →
        k < bytes.length →
        ∃ j, nextIndex NEWLINE bytes (bytes.length - limits.maxBytes - 1) = some j ∧ j + 1 ≤ k :=
      fun k hk hfirst hlt => hk.nextIndex_lt (by omega) hfirst hlt
    have hlast : (∀ j, nextIndex NEWLINE bytes (bytes.length - limits.maxBytes - 1) = some j →
        ¬ j + 1 < bytes.length) → ∃ k, LineCut NEWLINE bytes k ∧
          lineCount NEWLINE (bytes.drop k) = 1 ∧ k < bytes.length - limits.maxBytes := by
      refine fun hnone => exists_lastLine (by omega) (by omega) fun k hk hlt heq => ?_
      obtain ⟨j, hj, hjk⟩ := hcut (k + 1) (.inr (.inr ⟨k, rfl, heq⟩)) hk hlt
      exact hnone j hj (Nat.lt_of_le_of_lt hjk hlt)
    cases hn : nextIndex NEWLINE bytes (bytes.length - limits.maxBytes - 1) with
    | none => exact .inr ⟨rfl, hlast fun j hj => by rw [hn] at hj; cases hj⟩
    | some j =>
      dsimp only
      split_ifs with hj
      · obtain ⟨hfirst, hx, -⟩ := nextIndex_eq_some.mp hn
        have hline : LineCut NEWLINE bytes (j + 1) := .inr (.inr ⟨j, rfl, hx⟩)
        refine .inl ⟨hline, by omega, (hle _).mp (by omega), fun k hk hone => ?_, fun k hk hkb _ => ?_⟩
        · have := le_lastLine hline (fun _ => hj) hk hone
          omega
        · by_cases hlt : k < bytes.length
          · obtain ⟨m, hm, hmk⟩ := hcut k hk (by omega) hlt
            rw [hn] at hm
            obtain rfl := Option.some.inj hm
            exact hmk
          · omega
      · refine .inr ⟨rfl, hlast fun m hm => ?_⟩
        rw [hn] at hm
        obtain rfl := Option.some.inj hm
        exact hj
  · refine .inl ⟨lineCut_linesBefore, Nat.not_lt.mp hlong, (hle _).mp (Nat.le_refl _),
      fun k _ hone => ?_, fun k _ _ hkl => (hle k).mpr hkl⟩
    have := (hle k).mpr (by omega)
    omega

end Positive

/-! ## Which part of the bytes decides -/

variable {a b : List UInt8}

theorem characterEnd_append (h : i < a.length) : characterEnd (a ++ b) i = characterEnd a i := by
  induction i with
  | zero => rfl
  | succ i ih =>
    rw [characterEnd, characterEnd, List.getElem?_append_left h, ih (Nat.lt_of_succ_lt h)]

theorem characterStart_append :
    characterStart (a ++ b) (a.length + i) = a.length + characterStart b i := by
  rw [characterStart, characterStart, List.drop_append, Nat.add_sub_cancel_left,
    List.drop_of_length_le (Nat.le_add_right a.length i), List.nil_append, Nat.add_assoc]

/-- What follows more than the limits allow does not matter to the start. -/
theorem headRange_append
    (hfull : limits.maxBytes < a.length ∨ limits.maxLines ≤ a.count NEWLINE) :
    headRange (a ++ b) limits = headRange a limits := by
  by_cases hzero : limits.maxLines = 0 ∨ limits.maxBytes = 0
  · rw [headRange, headRange, if_pos hzero, if_pos hzero]
  have hmin := afterLines_append (x := NEWLINE) (a := a) (b := b) (n := limits.maxLines)
  rw [headRange, headRange, if_neg hzero, if_neg hzero]
  dsimp only
  rw [hmin]
  rcases Nat.lt_or_ge a.length (afterLines NEWLINE (a ++ b) limits.maxLines 0) with hlt | hge
  · have hlong : limits.maxBytes < a.length := hfull.resolve_right fun hcount =>
      absurd hlt (Nat.not_lt.mpr (afterLines_le_of_count hcount))
    rw [Nat.min_eq_right (Nat.le_of_lt hlt), if_pos (Nat.lt_trans hlong hlt), if_pos hlong,
      prevIndex_append (Nat.le_of_lt hlong), characterEnd_append hlong]
  · rw [Nat.min_eq_left hge]
    split_ifs with hlong
    · have hlt := Nat.lt_of_lt_of_le hlong hge
      rw [prevIndex_append (Nat.le_of_lt hlt), characterEnd_append hlt]
    · rfl

/-- What precedes more than the limits allow does not matter to the end. -/
theorem tailRange_append
    (hfull : limits.maxBytes < b.length ∨ limits.maxLines < b.count NEWLINE) :
    (tailRange (a ++ b) limits).1 = a.length + (tailRange b limits).1 := by
  by_cases hzero : limits.maxLines = 0 ∨ limits.maxBytes = 0
  · rw [tailRange, tailRange, if_pos hzero, if_pos hzero]
    exact List.length_append
  have hsub := linesBefore_append (x := NEWLINE) (a := a) (b := b) (n := limits.maxLines - 1)
  have hcount : limits.maxLines < b.count NEWLINE →
      a.length ≤ linesBefore NEWLINE (a ++ b) (limits.maxLines - 1) := fun h =>
    le_linesBefore_of_count (by omega)
  rw [tailRange, tailRange, if_neg hzero, if_neg hzero]
  dsimp only
  rw [List.length_append]
  by_cases hlong : limits.maxBytes < b.length - linesBefore NEWLINE b (limits.maxLines - 1)
  · have hfirst : a.length + b.length - limits.maxBytes = a.length + (b.length - limits.maxBytes) := by
      omega
    have hsearch : a.length + (b.length - limits.maxBytes) - 1 =
        a.length + (b.length - limits.maxBytes - 1) := by omega
    rw [if_pos (by omega), if_pos hlong, hfirst, hsearch, nextIndex_append, characterStart_append]
    cases nextIndex NEWLINE b (b.length - limits.maxBytes - 1) with
    | none => rfl
    | some j =>
      simp only [Option.map_some]
      by_cases hj : j + 1 < b.length
      · rw [if_pos hj, if_pos (by omega)]
        rfl
      · rw [if_neg hj, if_neg (by omega)]
  · have hstart : a.length ≤ linesBefore NEWLINE (a ++ b) (limits.maxLines - 1) := by
      rcases hfull with h | h
      · omega
      · exact hcount h
    rw [if_neg hlong, if_neg (by omega)]
    dsimp only
    omega

end Output
