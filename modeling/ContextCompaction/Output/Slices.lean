import ContextCompaction.Output.Bounds

/-!
# The best slice

What `boundOutput` is for, said of the text itself: `BestLines` is the longest part of whole lines within
the limits, and `BestCut` the longest part of a line that is too long alone.

`boundOutput_best` is the result.
-/

namespace Output

open Js Sequences

/-- The parts of a text, in their order. -/
def parts (retain : Retain) (kept rest : Str) : Str × Str :=
  match retain with
  | .head => (kept, rest)
  | .tail => (rest, kept)

/-- What is kept of a text at its start or at its end, and the rest. No character is split. -/
def Slice (retain : Retain) (text kept rest : Str) : Prop :=
  (parts retain kept rest).1 ++ (parts retain kept rest).2 = text ∧
    wellFormed kept = true ∧ wellFormed rest = true

/-- A part made of whole lines. -/
def WholeLines (retain : Retain) (text kept : Str) : Prop :=
  ∃ rest, Slice retain text kept rest ∧
    (kept = [] ∨ rest = [] ∨ (parts retain kept rest).1.getLast? = some 10)

/-- The first line, or the last one. -/
def EdgeLine (retain : Retain) (text line : Str) : Prop :=
  WholeLines retain text line ∧ lineCount 10 line = 1

def Fits (limits : OutputLimits) (kept : Str) : Prop :=
  byteLength kept ≤ limits.maxBytes ∧ lineCount 10 kept ≤ limits.maxLines

/-- The longest part of whole lines within the limits. -/
def BestLines (limits : OutputLimits) (text kept : Str) : Prop :=
  WholeLines limits.retain text kept ∧ Fits limits kept ∧
    ∀ other, WholeLines limits.retain text other → Fits limits other →
      byteLength other ≤ byteLength kept

/-- The longest part of a line within the limit of bytes. -/
def BestCut (limits : OutputLimits) (line kept : Str) : Prop :=
  (∃ rest, Slice limits.retain line kept rest) ∧ byteLength kept ≤ limits.maxBytes ∧
    ∀ other rest, Slice limits.retain line other rest → byteLength other ≤ limits.maxBytes →
      byteLength other ≤ byteLength kept

variable {limits : OutputLimits} {text a b : Str} {k : Nat}

/-! ## Cuts of a text -/

theorem take_utf8 (ha : wellFormed a = true) : (utf8 (a ++ b)).take (byteLength a) = utf8 a := by
  rw [utf8_append ha, byteLength, List.take_left]

theorem drop_utf8 (ha : wellFormed a = true) : (utf8 (a ++ b)).drop (byteLength a) = utf8 b := by
  rw [utf8_append ha, byteLength, List.drop_left]

/-- A text is cut where its lines are. -/
theorem exists_lineCut (ht : wellFormed text = true) (h : LineCut NEWLINE (utf8 text) k) :
    ∃ a b, text = a ++ b ∧ wellFormed a = true ∧ wellFormed b = true ∧ byteLength a = k ∧
      (a = [] ∨ b = [] ∨ a.getLast? = some 10) := by
  obtain ⟨a, b, rfl, ha, hb, rfl⟩ := exists_cut ht h.le (boundary_of_lineCut ht h)
  exact ⟨a, b, rfl, ha, hb, rfl, (lineCut_utf8 ha).mp h⟩

/-- The text that is kept is the one whose bytes are. -/
private theorem text_of_kept (text : Str) {kept : Str} (hk : wellFormed kept = true)
    (hwhole : (utf8 kept).length = (utf8 text).length → kept = text) :
    (if (utf8 kept).length = (utf8 text).length then text else decodeUtf8 (utf8 kept)) = kept := by
  split_ifs with h
  · exact (hwhole h).symm
  · exact decodeUtf8_utf8 hk

private theorem headRange_fst (bytes : List UInt8) : (headRange bytes limits).1 = 0 := by
  unfold headRange
  dsimp only
  split_ifs
  · rfl
  · cases prevIndex NEWLINE bytes limits.maxBytes <;> rfl
  · rfl

private theorem tailRange_snd (bytes : List UInt8) : (tailRange bytes limits).2 = bytes.length := by
  unfold tailRange
  dsimp only
  split_ifs
  · rfl
  · cases nextIndex NEWLINE bytes (bytes.length - limits.maxBytes - 1) with
    | none => rfl
    | some j =>
      dsimp only
      split_ifs <;> rfl
  · rfl

/-- The first part is kept. -/
theorem boundOutput_head (hr : limits.retain = .head) (ha : wellFormed a = true)
    (hb : wellFormed b = true) (h : (headRange (utf8 (a ++ b)) limits).2 = byteLength a) :
    boundOutput (a ++ b) limits =
      { text := a
        bytes := byteLength a
        droppedBytes := byteLength b
        droppedLines := lineCount 10 (a ++ b) - lineCount 10 a } := by
  have hab : wellFormed (a ++ b) = true := by rw [wellFormed_append ha, hb]
  have htext := text_of_kept (a ++ b) ha fun hlen => by
    rw [utf8_append ha, List.length_append] at hlen
    rw [utf8_eq_nil.mp (List.length_eq_zero_iff.mp (show (utf8 b).length = 0 by omega)),
      List.append_nil]
  simp only [boundOutput, hr, headRange_fst, h, take_utf8 ha, List.drop_zero, htext]
  have hlines := lineCount_utf8 ha
  have hall := lineCount_utf8 hab
  rw [NEWLINE, show (0x0A : UInt8) = 10 from rfl, hlines, hall, utf8_append ha, List.length_append]
  simp only [OutputSlice.mk.injEq, byteLength, true_and, and_true]
  omega

/-- The last part is kept. -/
theorem boundOutput_tail (hr : limits.retain = .tail) (ha : wellFormed a = true)
    (hb : wellFormed b = true) (h : (tailRange (utf8 (a ++ b)) limits).1 = byteLength a) :
    boundOutput (a ++ b) limits =
      { text := b
        bytes := byteLength b
        droppedBytes := byteLength a
        droppedLines := lineCount 10 (a ++ b) - lineCount 10 b } := by
  have hab : wellFormed (a ++ b) = true := by rw [wellFormed_append ha, hb]
  have htext := text_of_kept (a ++ b) hb fun hlen => by
    rw [utf8_append ha, List.length_append] at hlen
    rw [utf8_eq_nil.mp (List.length_eq_zero_iff.mp (show (utf8 a).length = 0 by omega)),
      List.nil_append]
  simp only [boundOutput, hr, tailRange_snd, h, List.take_length, drop_utf8 ha, htext]
  have hlines := lineCount_utf8 hb
  have hall := lineCount_utf8 hab
  rw [NEWLINE, show (0x0A : UInt8) = 10 from rfl, hlines, hall, utf8_append ha, List.length_append]
  simp only [OutputSlice.mk.injEq, byteLength, true_and, and_true]
  omega

/-! ## The best slice -/

/-- What a slice says of itself is true, and it is the best one. -/
structure Best (limits : OutputLimits) (text : Str) (out : OutputSlice) : Prop where
  slice : ∃ rest, Slice limits.retain text out.text rest
  fits : Fits limits out.text
  bytes : out.bytes = byteLength out.text
  droppedBytes : out.bytes + out.droppedBytes = byteLength text ∧ 0 ≤ out.droppedBytes
  droppedLines : lineCount 10 out.text + out.droppedLines = lineCount 10 text ∧
    0 ≤ out.droppedLines
  best : (BestLines limits text out.text ∧
      ∀ line, EdgeLine limits.retain text line → byteLength line ≤ limits.maxBytes) ∨
    ∃ line, EdgeLine limits.retain text line ∧ limits.maxBytes < byteLength line ∧
      BestCut limits line out.text

/-- A slice that keeps the best lines, or cuts the first line where this alone is too long, is best. -/
private theorem Best.of_slice {kept rest : Str} (hslice : Slice limits.retain text kept rest)
    (hfits : Fits limits kept)
    (hbest : (BestLines limits text kept ∧
        ∀ line, EdgeLine limits.retain text line → byteLength line ≤ limits.maxBytes) ∨
      ∃ line, EdgeLine limits.retain text line ∧ limits.maxBytes < byteLength line ∧
        BestCut limits line kept) :
    Best limits text
      { text := kept
        bytes := byteLength kept
        droppedBytes := byteLength rest
        droppedLines := lineCount 10 text - lineCount 10 kept } := by
  have hsum : byteLength kept + byteLength rest = byteLength text ∧
      lineCount 10 kept ≤ lineCount 10 text := by
    obtain ⟨rfl, hk, hr⟩ := hslice
    cases limits.retain with
    | head => exact ⟨(byteLength_append hk rest).symm, lineCount_le_append_left⟩
    | tail =>
      exact ⟨by rw [Nat.add_comm]; exact (byteLength_append hr kept).symm, lineCount_le_append_right⟩
  refine ⟨⟨rest, hslice⟩, hfits, rfl, ⟨?_, ?_⟩, ⟨?_, ?_⟩, hbest⟩ <;> dsimp only <;> omega

section Positive

variable (hbytes : 0 < limits.maxBytes) (hlines : 0 < limits.maxLines)

include hbytes hlines

/-- The head that is kept is best. -/
private theorem best_head (hr : limits.retain = .head) (ht : wellFormed text = true) :
    Best limits text (boundOutput text limits) := by
  -- The place in the bytes of a part of whole lines, and its lines.
  have hplace : ∀ other, WholeLines limits.retain text other →
      LineCut NEWLINE (utf8 text) (byteLength other) ∧
        lineCount NEWLINE ((utf8 text).take (byteLength other)) = lineCount 10 other := by
    rintro other ⟨rest, hslice, hline⟩
    rw [hr] at hslice hline
    obtain ⟨rfl, ho, hrest⟩ := hslice
    simp only [parts] at hline ⊢
    exact ⟨(lineCut_utf8 ho).mpr hline, by rw [take_utf8 ho]; exact lineCount_utf8 ho⟩
  rcases headRange_cases hbytes hlines (utf8 text) with
    ⟨hcut, hle, hfit, hshort, hlongest⟩ | ⟨hend, k, hcut, hone, hlong⟩
  · obtain ⟨a, b, rfl, ha, hb, hlen, hline⟩ := exists_lineCut ht hcut
    rw [boundOutput_head hr ha hb hlen.symm]
    rw [← hlen] at hle hfit hlongest
    have hslice : Slice limits.retain (a ++ b) a b := by rw [hr]; exact ⟨rfl, ha, hb⟩
    have hwhole : WholeLines limits.retain (a ++ b) a := ⟨b, hslice, by rw [hr]; exact hline⟩
    have hfits : Fits limits a := ⟨hle, by rw [← (hplace a hwhole).2]; exact hfit⟩
    refine .of_slice hslice hfits (.inl ⟨⟨hwhole, hfits, fun other ho hof => ?_⟩, fun line hl => ?_⟩)
    · obtain ⟨hoc, hol⟩ := hplace other ho
      exact hlongest _ hoc hof.1 (by rw [hol]; exact hof.2)
    · obtain ⟨hlc, hll⟩ := hplace line hl.1
      exact hshort _ hlc (by rw [hll, hl.2])
  · -- The first line is longer than the limit.
    obtain ⟨line, after, rfl, hl, hafter, rfl, hends⟩ := exists_lineCut ht hcut
    have hwhole : WholeLines limits.retain (line ++ after) line := by
      rw [hr]
      exact ⟨after, ⟨rfl, hl, hafter⟩, hends⟩
    have hedge : EdgeLine limits.retain (line ++ after) line :=
      ⟨hwhole, by rw [← (hplace line hwhole).2, hone]⟩
    have hlimit : characterEnd (utf8 (line ++ after)) limits.maxBytes < byteLength line :=
      Nat.lt_of_le_of_lt (characterEnd_le _ _) hlong
    obtain ⟨a, b, rfl, ha, hb, hlen⟩ := exists_cut hl (Nat.le_of_lt hlimit) (by
      have hcharacter := boundary_characterEnd (i := limits.maxBytes) (boundary_utf8 (a := []) rfl ht)
      rw [List.nil_append, utf8_append hl] at hcharacter
      rw [utf8_append hl] at hlimit ⊢
      exact (boundary_append_left hlimit).mp hcharacter)
    have hbafter : wellFormed (b ++ after) = true := by rw [wellFormed_append hb, hafter]
    have hslice : Slice limits.retain (a ++ b ++ after) a (b ++ after) := by
      rw [hr]
      exact ⟨(List.append_assoc a b after).symm, ha, hbafter⟩
    have hfits : Fits limits a := by
      refine ⟨by rw [hlen]; exact characterEnd_le _ _, Nat.le_trans (lineCount_le_append_left (b := b)) ?_⟩
      rw [hedge.2]
      exact hlines
    rw [List.append_assoc] at hlen hend hedge hslice ⊢
    rw [boundOutput_head hr ha hbafter (by rw [hend, hlen])]
    refine .of_slice hslice hfits (.inr ⟨a ++ b, hedge, hlong, ⟨b, by rw [hr]; exact ⟨rfl, ha, hb⟩⟩,
      hfits.1, fun other rest hother ho => ?_⟩)
    rw [hr] at hother
    obtain ⟨heq, hother, hrest⟩ := hother
    have hbound := boundary_utf8 hother (show wellFormed (rest ++ after) = true by
      rw [wellFormed_append hrest, hafter])
    rw [← List.append_assoc, show other ++ rest = a ++ b from heq, List.append_assoc] at hbound
    rw [hlen]
    exact le_characterEnd hbound ho

/-- The tail that is kept is best. -/
private theorem best_tail (hr : limits.retain = .tail) (ht : wellFormed text = true) :
    Best limits text (boundOutput text limits) := by
  -- The place in the bytes of a part of whole lines, and its lines.
  have hplace : ∀ rest other, Slice limits.retain text other rest →
      (other = [] ∨ rest = [] ∨ (parts limits.retain other rest).1.getLast? = some 10) →
      LineCut NEWLINE (utf8 text) (byteLength rest) ∧
        lineCount NEWLINE ((utf8 text).drop (byteLength rest)) = lineCount 10 other ∧
        (utf8 text).length - byteLength rest = byteLength other := by
    rintro rest other hslice hline
    rw [hr] at hslice hline
    obtain ⟨rfl, ho, hrest⟩ := hslice
    simp only [parts] at hline ⊢
    refine ⟨(lineCut_utf8 hrest).mpr (by tauto), by rw [drop_utf8 hrest]; exact lineCount_utf8 ho, ?_⟩
    rw [utf8_append hrest, List.length_append, byteLength, byteLength, Nat.add_sub_cancel_left]
  rcases tailRange_cases hbytes hlines (utf8 text) with
    ⟨hcut, hle, hfit, hshort, hlongest⟩ | ⟨hstart, k, hcut, hone, hlong⟩
  · obtain ⟨a, b, rfl, ha, hb, hlen, hline⟩ := exists_lineCut ht hcut
    rw [boundOutput_tail hr ha hb hlen.symm]
    rw [← hlen] at hle hfit hlongest
    have hslice : Slice limits.retain (a ++ b) b a := by rw [hr]; exact ⟨rfl, hb, ha⟩
    have hends : b = [] ∨ a = [] ∨ (parts limits.retain b a).1.getLast? = some 10 := by
      rw [hr]
      exact or_left_comm.mp hline
    obtain ⟨-, hlb, hbb⟩ := hplace a b hslice hends
    have hfits : Fits limits b := ⟨by rw [← hbb]; exact hle, by rw [← hlb]; exact hfit⟩
    refine .of_slice hslice hfits (.inl ⟨⟨⟨a, hslice, hends⟩, hfits, ?_⟩, ?_⟩)
    · rintro other ⟨rest, hos, hoe⟩ hof
      obtain ⟨hoc, hol, hob⟩ := hplace rest other hos hoe
      have hplaces := hlongest _ hoc (by rw [hob]; exact hof.1) (by rw [hol]; exact hof.2)
      omega
    · rintro line ⟨⟨rest, hls, hle⟩, hone⟩
      obtain ⟨hlc, hll, hlb⟩ := hplace rest line hls hle
      rw [← hlb]
      exact hshort _ hlc (by rw [hll, hone])
  · -- The last line is longer than the limit.
    obtain ⟨before, line, rfl, hbefore, hl, rfl, hends⟩ := exists_lineCut ht hcut
    have hslice : Slice limits.retain (before ++ line) line before := by
      rw [hr]
      exact ⟨rfl, hl, hbefore⟩
    have hedges : line = [] ∨ before = [] ∨ (parts limits.retain line before).1.getLast? = some 10 := by
      rw [hr]
      exact or_left_comm.mp hends
    obtain ⟨-, hll, hlb⟩ := hplace before line hslice hedges
    have hedge : EdgeLine limits.retain (before ++ line) line :=
      ⟨⟨before, hslice, hedges⟩, by rw [← hll, hone]⟩
    have hwidth : (utf8 (before ++ line)).length = byteLength before + byteLength line :=
      byteLength_append hbefore line
    obtain ⟨i, hi⟩ : ∃ i, characterStart (utf8 (before ++ line))
        ((utf8 (before ++ line)).length - limits.maxBytes) = byteLength before + i :=
      Nat.exists_eq_add_of_le (Nat.le_trans (Nat.le_of_lt hlong) (le_characterStart _ _))
    have hend := characterStart_le (Nat.sub_le (utf8 (before ++ line)).length limits.maxBytes)
    obtain ⟨a, b, rfl, ha, hb, rfl⟩ := exists_cut (i := i) hl (by omega) (by
      have hcharacter := @boundary_characterStart (utf8 (before ++ line))
        ((utf8 (before ++ line)).length - limits.maxBytes)
      rw [hi, utf8_append hbefore] at hcharacter
      exact boundary_append_right.mp hcharacter)
    have hbefore_a : wellFormed (before ++ a) = true := by rw [wellFormed_append hbefore, ha]
    have hlines : lineCount 10 b ≤ limits.maxLines := by
      refine Nat.le_trans (lineCount_le_append_right (a := a)) ?_
      rw [hedge.2]
      exact hlines
    rw [byteLength_append ha] at hwidth hlb
    rw [← byteLength_append hbefore, ← List.append_assoc] at hi
    rw [← List.append_assoc] at hstart hedge hlong hwidth hlb ⊢
    have hfirst := le_characterStart (utf8 (before ++ a ++ b))
      ((utf8 (before ++ a ++ b)).length - limits.maxBytes)
    rw [hi, byteLength_append hbefore] at hfirst
    have hfits : Fits limits b := ⟨by omega, hlines⟩
    rw [boundOutput_tail hr hbefore_a hb (by rw [hstart, hi])]
    refine .of_slice (by rw [hr]; exact ⟨rfl, hb, hbefore_a⟩) hfits (.inr ⟨a ++ b, hedge, by
      rw [byteLength_append ha]; omega, ⟨a, by rw [hr]; exact ⟨rfl, hb, ha⟩⟩, hfits.1,
      fun other rest hother ho => ?_⟩)
    rw [hr] at hother
    obtain ⟨heq, hother, hrest⟩ := hother
    have hparts : byteLength rest + byteLength other = byteLength a + byteLength b := by
      rw [← byteLength_append hrest, ← byteLength_append ha]
      exact congrArg byteLength heq
    have hbound := boundary_utf8 (show wellFormed (before ++ rest) = true by
      rw [wellFormed_append hbefore, hrest]) hother
    rw [List.append_assoc, show rest ++ other = a ++ b from heq, ← List.append_assoc] at hbound
    rw [byteLength_append hbefore] at hbound
    have hplaces := characterStart_le_of_boundary
      (i := (utf8 (before ++ a ++ b)).length - limits.maxBytes) hbound (by omega)
    rw [hi, byteLength_append hbefore] at hplaces
    omega

end Positive

/-- What is kept is the longest start or end of whole lines within the limits, or the longest part
of a first or last line that is too long alone, and what is dropped is the rest. -/
theorem boundOutput_best (ht : wellFormed text = true) (hbytes : 0 < limits.maxBytes)
    (hlines : 0 < limits.maxLines) : Best limits text (boundOutput text limits) := by
  cases hr : limits.retain with
  | head => exact best_head hbytes hlines hr ht
  | tail => exact best_tail hbytes hlines hr ht

/-- The second line does not fit, so the first one is kept. -/
theorem boundOutput_best_twoLines :
    wellFormed (lit "ab\ncd") = true ∧
      Best ⟨4, 2, .head⟩ (lit "ab\ncd") (boundOutput (lit "ab\ncd") ⟨4, 2, .head⟩) :=
  ⟨by decide, boundOutput_best (by decide) (by decide) (by decide)⟩

/-- A character of three bytes does not fit into two. -/
example : boundOutput (lit "é€") ⟨4, 2, .head⟩ =
    { text := lit "é", bytes := 2, droppedBytes := 3, droppedLines := 0 } := by
  decide +kernel

end Output
