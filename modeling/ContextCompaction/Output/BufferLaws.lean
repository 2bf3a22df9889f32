import ContextCompaction.Output.Buffer
import Mathlib.Data.List.Induction

/-!
# Running output and whole output

`Tracks` relates a buffer to the text that it accepted: its counts are those of the text, and what it
stores decides what bounding the text keeps.

* `accept_tracks`, `snapshot_tracks`: every step keeps it.
* `snapshot_eq`: a snapshot is the whole output, bounded.
* `snapshot_run`: so is it in every run.
-/

namespace Output

open Js Sequences

variable {limits : OutputLimits} {text stored kept : Str} {b : OutputBuffer}

/-! ## What a part of the text decides -/

/-- What is kept of a text, and the rest as its dropped bytes and lines. -/
def sliceOf (text kept : Str) : OutputSlice :=
  { text := kept
    bytes := byteLength kept
    droppedBytes := byteLength text - byteLength kept
    droppedLines := lineCount 10 text - lineCount 10 kept }

/-- The head that is kept ends between two code points. -/
private theorem exists_headPart (limits : OutputLimits) (ht : wellFormed text = true) :
    ∃ a b, text = a ++ b ∧ wellFormed a = true ∧ wellFormed b = true ∧
      (headRange (utf8 text) limits).2 = byteLength a := by
  by_cases hzero : limits.maxLines = 0 ∨ limits.maxBytes = 0
  · rw [headRange, if_pos hzero]
    exact ⟨[], text, rfl, rfl, ht, rfl⟩
  · obtain ⟨hlines, hbytes⟩ := not_or.mp hzero
    rcases headRange_cases (Nat.pos_of_ne_zero hbytes) (Nat.pos_of_ne_zero hlines) (utf8 text) with
      ⟨hcut, -⟩ | ⟨hend, k, hk, -, hlong⟩
    · obtain ⟨a, b, heq, ha, hb, hlen, -⟩ := exists_lineCut ht hcut
      exact ⟨a, b, heq, ha, hb, hlen.symm⟩
    · have hle := characterEnd_le (utf8 text) limits.maxBytes
      obtain ⟨a, b, heq, ha, hb, hlen⟩ := exists_cut ht
        (Nat.le_trans hle (Nat.le_trans (Nat.le_of_lt hlong) hk.le))
        (boundary_characterEnd (boundary_utf8 (a := []) rfl ht))
      exact ⟨a, b, heq, ha, hb, by rw [hend]; exact hlen.symm⟩

private theorem exists_tailPart (limits : OutputLimits) (ht : wellFormed text = true) :
    ∃ a b, text = a ++ b ∧ wellFormed a = true ∧ wellFormed b = true ∧
      (tailRange (utf8 text) limits).1 = byteLength a := by
  by_cases hzero : limits.maxLines = 0 ∨ limits.maxBytes = 0
  · rw [tailRange, if_pos hzero]
    exact ⟨text, [], (List.append_nil text).symm, ht, rfl, rfl⟩
  · obtain ⟨hlines, hbytes⟩ := not_or.mp hzero
    rcases tailRange_cases (Nat.pos_of_ne_zero hbytes) (Nat.pos_of_ne_zero hlines) (utf8 text) with
      ⟨hcut, -⟩ | ⟨hstart, -⟩
    · obtain ⟨a, b, heq, ha, hb, hlen, -⟩ := exists_lineCut ht hcut
      exact ⟨a, b, heq, ha, hb, hlen.symm⟩
    · obtain ⟨a, b, heq, ha, hb, hlen⟩ := exists_cut ht
        (characterStart_le (Nat.sub_le _ limits.maxBytes)) boundary_characterStart
      exact ⟨a, b, heq, ha, hb, by rw [hstart]; exact hlen.symm⟩

/-- What is stored decides what is kept of the text. -/
def Covers (limits : OutputLimits) (text stored : Str) (full : Bool) : Prop :=
  match limits.retain with
  | .head => ∃ rest, text = stored ++ rest ∧ (rest = [] ∨ full = true) ∧
      (full = true → limits.maxBytes < byteLength stored ∨ limits.maxLines ≤ stored.count 10)
  | .tail => full = false ∧ ∃ rest, wellFormed rest = true ∧ text = rest ++ stored ∧
      (rest = [] ∨ limits.maxBytes < byteLength stored ∨ limits.maxLines < stored.count 10)

/-- The same part is kept of the text and of what is stored. -/
theorem Covers.boundOutput {full : Bool} (h : Covers limits text stored full)
    (ht : wellFormed text = true) (hs : wellFormed stored = true) :
    ∃ kept, boundOutput stored limits = sliceOf stored kept ∧
      boundOutput text limits = sliceOf text kept := by
  have hcount := (lf_utf8 hs).1
  cases hr : limits.retain with
  | head =>
    simp only [Covers, hr] at h
    obtain ⟨rest, rfl, hrest, hfull⟩ := h
    obtain ⟨a, b, rfl, ha, hb, hrange⟩ := exists_headPart limits hs
    have hsame : headRange (utf8 (a ++ (b ++ rest))) limits = headRange (utf8 (a ++ b)) limits := by
      rw [← List.append_assoc, utf8_append hs]
      rcases hrest with rfl | hf
      · rw [utf8_nil, List.append_nil]
      · refine headRange_append ((hfull hf).imp id fun h => ?_)
        rw [NEWLINE, show (0x0A : UInt8) = 10 from rfl, hcount]
        exact h
    rw [wellFormed_append hs] at ht
    have hbr : wellFormed (b ++ rest) = true := by rw [wellFormed_append hb, ht]
    refine ⟨a, ?_, ?_⟩
    · rw [boundOutput_head hr ha hb hrange, sliceOf, byteLength_append ha]
      simp only [OutputSlice.mk.injEq, true_and, and_true]
      omega
    · rw [List.append_assoc, boundOutput_head hr ha hbr (by rw [hsame, hrange]), sliceOf,
        byteLength_append ha]
      simp only [OutputSlice.mk.injEq, true_and, and_true]
      omega
  | tail =>
    simp only [Covers, hr] at h
    obtain ⟨-, rest, hrest, rfl, hfull⟩ := h
    obtain ⟨a, b, rfl, ha, hb, hrange⟩ := exists_tailPart limits hs
    have hsame : (tailRange (utf8 (rest ++ (a ++ b))) limits).1 = byteLength (rest ++ a) := by
      rw [utf8_append hrest, byteLength_append hrest, ← hrange]
      rcases hfull with rfl | hf
      · rw [utf8_nil, List.nil_append]
        exact (Nat.zero_add _).symm
      · refine tailRange_append (hf.imp id fun h => ?_)
        rw [NEWLINE, show (0x0A : UInt8) = 10 from rfl, hcount]
        exact h
    have hra : wellFormed (rest ++ a) = true := by rw [wellFormed_append hrest, ha]
    refine ⟨b, ?_, ?_⟩
    · rw [boundOutput_tail hr ha hb hrange, sliceOf, byteLength_append ha]
      simp only [OutputSlice.mk.injEq, true_and, and_true]
      omega
    · rw [← List.append_assoc] at hsame ⊢
      rw [boundOutput_tail hr hra hb hsame, sliceOf, byteLength_append hra]
      simp only [OutputSlice.mk.injEq, true_and, and_true]
      omega

/-! ## What a buffer stores -/

/-- A stored chunk counts its own text. -/
structure StoredChunk.Sound (c : StoredChunk) : Prop where
  well : wellFormed c.text = true
  bytes : c.bytes = byteLength c.text
  newlines : c.newlines = c.text.count 10

def chunksText (chunks : List StoredChunk) : Str := (chunks.map (·.text)).flatten

/-- Chunks with the counts of their text. -/
structure Stores (chunks : List StoredChunk) (bytes newlines : Nat) : Prop where
  sound : ∀ c ∈ chunks, c.Sound
  bytes : bytes = byteLength (chunksText chunks)
  newlines : newlines = (chunksText chunks).count 10

variable {chunks : List StoredChunk} {bytes newlines : Nat}

@[simp] theorem chunksText_cons (c : StoredChunk) :
    chunksText (c :: chunks) = c.text ++ chunksText chunks := rfl

@[simp] theorem chunksText_concat (c : StoredChunk) :
    chunksText (chunks ++ [c]) = chunksText chunks ++ c.text := by simp [chunksText]

theorem wellFormed_chunksText (h : ∀ c ∈ chunks, c.Sound) : wellFormed (chunksText chunks) = true := by
  induction chunks with
  | nil => rfl
  | cons c chunks ih =>
    obtain ⟨hc, hrest⟩ := List.forall_mem_cons.mp h
    rw [chunksText_cons, wellFormed_append hc.well, ih hrest]

theorem Stores.concat (h : Stores chunks bytes newlines) (ht : wellFormed text = true) :
    Stores (chunks ++ [⟨text, byteLength text, text.count 10⟩]) (bytes + byteLength text)
      (newlines + text.count 10) where
  sound := List.forall_mem_append.mpr ⟨h.sound, List.forall_mem_singleton.mpr ⟨ht, rfl, rfl⟩⟩
  bytes := by
    rw [chunksText_concat, byteLength_append (wellFormed_chunksText h.sound), h.bytes]
  newlines := by rw [chunksText_concat, List.count_append, h.newlines]

/-- Only chunks go without which more than a window is left. -/
theorem dropLeading_stores (limits : OutputLimits) (h : Stores chunks bytes newlines) :
    ∃ dropped, wellFormed dropped = true ∧
      chunksText chunks = dropped ++ chunksText (dropLeading limits chunks bytes newlines).1 ∧
      Stores (dropLeading limits chunks bytes newlines).1
        (dropLeading limits chunks bytes newlines).2.1
        (dropLeading limits chunks bytes newlines).2.2 ∧
      (dropped = [] ∨ limits.maxBytes < (dropLeading limits chunks bytes newlines).2.1 ∨
        limits.maxLines < (dropLeading limits chunks bytes newlines).2.2) := by
  induction chunks, bytes, newlines using dropLeading.induct limits with
  | case1 first second rest bytes newlines bytesAfter newlinesAfter hkeep =>
    rw [dropLeading, if_pos hkeep]
    exact ⟨[], rfl, rfl, h, .inl rfl⟩
  | case2 first second rest bytes newlines bytesAfter newlinesAfter hdrop ih =>
    obtain ⟨hfirst, hrest⟩ := List.forall_mem_cons.mp h.sound
    have hstores : Stores (second :: rest) bytesAfter newlinesAfter := by
      refine ⟨hrest, ?_, ?_⟩
      · rw [show bytesAfter = bytes - first.bytes from rfl, h.bytes, hfirst.bytes, chunksText_cons,
          byteLength_append hfirst.well, Nat.add_sub_cancel_left]
      · rw [show newlinesAfter = newlines - first.newlines from rfl, h.newlines, hfirst.newlines,
          chunksText_cons, List.count_append, Nat.add_sub_cancel_left]
    rw [dropLeading, if_neg hdrop]
    obtain ⟨dropped, hwell, heq, hafter, hmore⟩ := ih hstores
    refine ⟨first.text ++ dropped, by rw [wellFormed_append hfirst.well, hwell], ?_, hafter, .inr ?_⟩
    · rw [chunksText_cons, heq, List.append_assoc]
    · rcases hmore with rfl | hmore
      · -- Nothing more went: what is left is what the drop left.
        have hb := hafter.bytes
        have hn := hafter.newlines
        rw [List.nil_append] at heq
        rw [← heq, ← hstores.bytes] at hb
        rw [← heq, ← hstores.newlines] at hn
        have hlarge : limits.maxBytes < bytesAfter ∨ limits.maxLines < newlinesAfter := by omega
        exact hlarge.imp (Nat.lt_of_lt_of_eq · hb.symm) (Nat.lt_of_lt_of_eq · hn.symm)
      · exact hmore
  | case3 chunks bytes newlines hshort =>
    have hsame : dropLeading limits chunks bytes newlines = (chunks, bytes, newlines) := by
      cases chunks with
      | nil => rfl
      | cons c chunks =>
        cases chunks with
        | nil => rfl
        | cons c' chunks => exact absurd rfl (hshort c c' chunks)
    rw [hsame]
    exact ⟨[], rfl, rfl, h, .inl rfl⟩

/-- The counts of a buffer are those of the text it accepted, and it stores what decides. -/
structure Tracks (limits : OutputLimits) (text : Str) (b : OutputBuffer) : Prop where
  well : wellFormed text = true
  totalBytes : b.totalBytes = byteLength text
  totalNewlines : b.totalNewlines = text.count 10
  ends : b.endsWithNewline = (decide (text = []) || endsWithNewline text)
  stores : Stores b.chunks b.storedBytes b.storedNewlines
  covers : Covers limits text (chunksText b.chunks) b.full

theorem tracks_new (limits : OutputLimits) : Tracks limits [] .new where
  well := rfl
  totalBytes := rfl
  totalNewlines := rfl
  ends := rfl
  stores := ⟨fun _ h => absurd h List.not_mem_nil, rfl, rfl⟩
  covers := by
    unfold Covers
    cases limits.retain with
    | head => exact ⟨[], rfl, .inl rfl, fun h => nomatch h⟩
    | tail => exact ⟨rfl, [], rfl, rfl, .inl rfl⟩

/-! ## Accepting text -/

@[simp] theorem accept_decoder : (b.accept limits text).2.decoder = b.decoder := by
  unfold OutputBuffer.accept
  dsimp only
  split_ifs
  · rfl
  · rfl
  · cases limits.retain <;> rfl

@[simp] theorem accept_started : (b.accept limits text).2.started = b.started := by
  unfold OutputBuffer.accept
  dsimp only
  split_ifs
  · rfl
  · rfl
  · cases limits.retain <;> rfl

private theorem endsWithNewline_append (text : Str) {added : Str} (h : added ≠ []) :
    (decide (text ++ added = []) || endsWithNewline (text ++ added)) = endsWithNewline added := by
  rw [endsWithNewline, endsWithNewline, List.getLast?_append_of_ne_nil text h]
  simp [h]

/-- A buffer tracks the text with what it accepts. -/
theorem accept_tracks {added : Str} (h : Tracks limits text b) (ha : wellFormed added = true) :
    Tracks limits (text ++ added) (b.accept limits added).2 := by
  by_cases hnil : added = []
  · rw [hnil, List.append_nil, OutputBuffer.accept, if_pos rfl]
    exact h
  have hwell : wellFormed (text ++ added) = true := by rw [wellFormed_append h.well, ha]
  have hbytes : b.totalBytes + byteLength added = byteLength (text ++ added) := by
    rw [byteLength_append h.well, h.totalBytes]
  have hnewlines : b.totalNewlines + countNewlines added = (text ++ added).count 10 := by
    rw [List.count_append, h.totalNewlines, countNewlines]
  have hends := (endsWithNewline_append text hnil).symm
  have hstores := h.stores.concat ha
  have hcovers := h.covers
  have hstored := wellFormed_chunksText h.stores.sound
  unfold OutputBuffer.accept
  rw [if_neg hnil]
  dsimp only
  split_ifs with hfull
  · -- Only head retention stops storing.
    refine ⟨hwell, hbytes, hnewlines, hends, h.stores, ?_⟩
    unfold Covers at hcovers ⊢
    cases hr : limits.retain with
    | head =>
      rw [hr] at hcovers
      obtain ⟨rest, rfl, -, hmore⟩ := hcovers
      exact ⟨rest ++ added, List.append_assoc _ _ _, .inr hfull, hmore⟩
    | tail =>
      rw [hr] at hcovers
      rw [hcovers.1] at hfull
      cases hfull
  · unfold Covers at hcovers
    cases hr : limits.retain with
    | head =>
      rw [hr] at hcovers
      obtain ⟨rest, heq, hrest, -⟩ := hcovers
      obtain rfl := hrest.resolve_right hfull
      rw [List.append_nil] at heq
      refine ⟨hwell, hbytes, hnewlines, hends, hstores, ?_⟩
      simp only [Covers, hr, chunksText_concat]
      refine ⟨[], by rw [heq, List.append_nil], .inl rfl, fun hf => ?_⟩
      have hsb := hstores.bytes
      have hsn := hstores.newlines
      rw [chunksText_concat] at hsb hsn
      rw [← hsb, ← hsn]
      rw [Bool.or_eq_true] at hf
      exact hf.imp of_decide_eq_true of_decide_eq_true
    | tail =>
      rw [hr] at hcovers
      obtain ⟨hnot, rest, hrest, heq, hmore⟩ := hcovers
      obtain ⟨dropped, hdropped, hsplit, hafter, hmargin⟩ := dropLeading_stores limits hstores
      refine ⟨hwell, hbytes, hnewlines, hends, hafter, ?_⟩
      rw [chunksText_concat] at hsplit
      simp only [Covers, hr]
      refine ⟨hnot, rest ++ dropped, by rw [wellFormed_append hrest, hdropped], ?_, ?_⟩
      · rw [heq, List.append_assoc, hsplit, List.append_assoc]
        rfl
      · have hsb := hafter.bytes
        have hsn := hafter.newlines
        unfold countNewlines
        rw [← hsb, ← hsn]
        rcases hmargin with rfl | hmargin
        · -- Nothing went, so the window has only grown.
          rw [List.nil_append] at hsplit
          rw [← hsplit] at hsb hsn
          rw [byteLength_append hstored] at hsb
          rw [List.count_append] at hsn
          rcases hmore with rfl | hmore
          · exact .inl rfl
          · exact .inr (by omega)
        · exact .inr hmargin

/-! ## Snapshots -/

/-- What is left of the text decides what is kept of it. -/
theorem tailMargin_spec (limits : OutputLimits) (ht : wellFormed text = true) :
    ∃ dropped, text = dropped ++ tailMargin text limits ∧ wellFormed dropped = true ∧
      wellFormed (tailMargin text limits) = true ∧
      (dropped = [] ∨ limits.maxBytes < byteLength (tailMargin text limits) ∨
        limits.maxLines < (tailMargin text limits).count 10) := by
  unfold tailMargin
  dsimp only
  generalize hbyte : (if (utf8 text).length > limits.maxBytes then
    characterEnd (utf8 text) ((utf8 text).length - limits.maxBytes - 1) else 0) = byteStart
  generalize hline : (nthPrev NEWLINE (utf8 text) limits.maxLines (utf8 text).length).getD 0 = lineStart
  have hstart : Boundary (utf8 text) 0 := boundary_utf8 (a := []) rfl ht
  -- Either place is a boundary, and more than a window is behind it.
  have hbytes : Boundary (utf8 text) byteStart ∧
      (0 < byteStart → byteStart + limits.maxBytes < (utf8 text).length) := by
    rw [← hbyte]
    split_ifs with hlong
    · have hle := characterEnd_le (utf8 text) ((utf8 text).length - limits.maxBytes - 1)
      exact ⟨boundary_characterEnd hstart, fun _ => by omega⟩
    · exact ⟨hstart, fun h => absurd h (Nat.lt_irrefl 0)⟩
  have hlines : Boundary (utf8 text) lineStart ∧ (0 < lineStart → lineStart < (utf8 text).length ∧
      limits.maxLines < ((utf8 text).drop lineStart).count NEWLINE) := by
    rw [← hline]
    cases hn : nthPrev NEWLINE (utf8 text) limits.maxLines (utf8 text).length with
    | none => exact ⟨hstart, fun h => absurd h (Nat.lt_irrefl 0)⟩
    | some j =>
      obtain ⟨hj, hx, hcount⟩ := nthPrev_eq_some hn
      have hall := count_drop (x := NEWLINE) (l := utf8 text) (k := j)
      rw [List.take_length] at hcount
      refine ⟨fun first hfirst => ?_, fun _ => ⟨hj, by rw [Option.getD_some]; omega⟩⟩
      rw [Option.getD_some, hx, Option.mem_some] at hfirst
      subst hfirst
      decide
  by_cases hzero : max byteStart lineStart = 0
  · rw [if_pos hzero]
    exact ⟨[], rfl, rfl, ht, .inl rfl⟩
  · rw [if_neg hzero]
    have hplace : Boundary (utf8 text) (max byteStart lineStart) ∧
        max byteStart lineStart < (utf8 text).length ∧
        (max byteStart lineStart + limits.maxBytes < (utf8 text).length ∨
          limits.maxLines < ((utf8 text).drop (max byteStart lineStart)).count NEWLINE) := by
      rcases Nat.le_total byteStart lineStart with hle | hle
      · rw [Nat.max_eq_right hle] at hzero ⊢
        obtain ⟨hlt, hmore⟩ := hlines.2 (Nat.pos_of_ne_zero hzero)
        exact ⟨hlines.1, hlt, .inr hmore⟩
      · rw [Nat.max_eq_left hle] at hzero ⊢
        have hmore := hbytes.2 (Nat.pos_of_ne_zero hzero)
        exact ⟨hbytes.1, by omega, .inl hmore⟩
    generalize max byteStart lineStart = start at hplace
    obtain ⟨hboundary, hlt, hmore⟩ := hplace
    obtain ⟨a, b, rfl, ha, hb, rfl⟩ := exists_cut ht (Nat.le_of_lt hlt) hboundary
    rw [drop_utf8 ha, decodeUtf8_utf8 hb]
    refine ⟨a, rfl, ha, hb, .inr (hmore.imp (fun h => ?_) fun h => ?_)⟩
    · rw [utf8_append ha, List.length_append, byteLength] at h
      rw [byteLength]
      omega
    · rw [drop_utf8 ha, NEWLINE, show (0x0A : UInt8) = 10 from rfl, (lf_utf8 hb).1] at h
      exact h

/-- Another store that decides the same. -/
theorem Tracks.restore {next : OutputBuffer} (h : Tracks limits text b)
    (htotal : next.totalBytes = b.totalBytes ∧ next.totalNewlines = b.totalNewlines ∧
      next.endsWithNewline = b.endsWithNewline ∧ next.full = b.full)
    (hw : wellFormed stored = true) (hcovers : Covers limits text stored b.full)
    (hchunks : next.chunks =
      if stored = [] then [] else [⟨stored, byteLength stored, stored.count 10⟩])
    (hbytes : next.storedBytes = byteLength stored) (hnewlines : next.storedNewlines = stored.count 10) :
    Tracks limits text next := by
  obtain ⟨h1, h2, h3, h4⟩ := htotal
  have htext : chunksText next.chunks = stored := by
    rw [hchunks]
    split_ifs with hnil
    · rw [hnil]
      rfl
    · simp [chunksText]
  refine ⟨h.well, by rw [h1, h.totalBytes], by rw [h2, h.totalNewlines], by rw [h3, h.ends],
    ⟨?_, by rw [htext, hbytes], by rw [htext, hnewlines]⟩, by rw [htext, h4]; exact hcovers⟩
  rw [hchunks]
  split_ifs with hnil
  · exact fun c hc => absurd hc List.not_mem_nil
  · exact List.forall_mem_singleton.mpr ⟨hw, rfl, rfl⟩

private theorem newlines_restored (text : Str) (bytes : Nat) :
    (Option.map (fun c : StoredChunk => c.newlines)
      (if text = [] then [] else [StoredChunk.mk text bytes (countNewlines text)]).head?).getD 0 =
      text.count 10 := by
  split_ifs with hnil
  · rw [hnil]
    rfl
  · rfl

/-- A snapshot changes nothing about what the buffer tracks. -/
theorem snapshot_tracks (h : Tracks limits text b) : Tracks limits text (b.snapshot limits).2 := by
  have hwell := wellFormed_chunksText h.stores.sound
  have hcovers := h.covers
  cases hr : limits.retain with
  | tail =>
    simp only [OutputBuffer.snapshot, hr, true_or, if_true]
    obtain ⟨dropped, heq, hdropped, hmargin, hmore⟩ := tailMargin_spec limits hwell
    refine h.restore ⟨rfl, rfl, rfl, rfl⟩ hmargin ?_ rfl rfl (newlines_restored _ _)
    simp only [Covers, hr] at hcovers ⊢
    obtain ⟨hnot, rest, hrest, htext, hstored⟩ := hcovers
    refine ⟨hnot, rest ++ dropped, by rw [wellFormed_append hrest, hdropped], ?_, ?_⟩
    · rw [List.append_assoc, ← heq, htext]
    · rcases hmore with rfl | hmore
      · rw [List.nil_append] at heq
        rw [← heq, List.append_nil]
        exact hstored
      · exact .inr hmore
  | head =>
    simp only [OutputBuffer.snapshot, hr, reduceCtorEq, false_or, if_false]
    by_cases hmany : 1 < b.chunks.length
    · rw [if_pos hmany]
      refine h.restore ⟨rfl, rfl, rfl, rfl⟩ hwell hcovers ?_ h.stores.bytes (newlines_restored _ _)
      rw [← h.stores.bytes]
      rfl
    · rw [if_neg hmany]
      exact h

private theorem lines_eq (text : Str) :
    lines (text.count 10) (decide (text = []) || endsWithNewline text) = lineCount 10 text := by
  rw [lines, lineCount, endsWithNewline]
  congr 1
  by_cases hnil : text = []
  · simp [hnil]
  · simp [hnil]

/-- A snapshot is the whole text, bounded. -/
theorem snapshot_eq (h : Tracks limits text b) :
    (b.snapshot limits).1 = boundWhole limits text := by
  obtain ⟨kept, hstored, hwhole⟩ := h.covers.boundOutput h.well (wellFormed_chunksText h.stores.sound)
  simp only [OutputBuffer.snapshot, boundWhole]
  rw [show (b.chunks.map (·.text)).flatten = chunksText b.chunks from rfl, hstored, hwhole,
    h.stores.newlines, h.totalBytes, h.totalNewlines, h.ends, lines_eq, lines_eq]
  simp only [sliceOf, BoundedOutput.mk.injEq, true_and]
  omega

/-! ## Chunks -/

/-- Text chunks are well formed. -/
def OutputChunk.Sound : OutputChunk → Prop
  | .text text => wellFormed text = true
  | .bytes _ => True

theorem decodeChunks_append (state : DecodeState) (a c : List OutputChunk) :
    decodeChunks state (a ++ c) =
      ((decodeChunks state a).1 ++ (decodeChunks (decodeChunks state a).2 c).1,
        (decodeChunks (decodeChunks state a).2 c).2) := by
  induction a generalizing state with
  | nil => rfl
  | cons x a ih =>
    cases x with
    | text text => simp only [List.cons_append, decodeChunks, ih, List.append_assoc]
    | bytes bytes => simp only [List.cons_append, decodeChunks, ih, List.append_assoc]

/-- The mark is dropped from the first units only. -/
theorem withoutMark_append (a c : List (UInt16 × Bool)) :
    withoutMark (a ++ c) = if a = [] then withoutMark c else withoutMark a ++ c.map (·.1) := by
  cases a with
  | nil => rfl
  | cons x a =>
    rw [if_neg (List.cons_ne_nil x a)]
    by_cases hx : x = (0xFEFF, true)
    · subst hx
      simp [withoutMark]
    · have hkeep : ∀ units, withoutMark (x :: units) = (x :: units).map (·.1) := fun units => by
        unfold withoutMark
        split
        · next heq => exact absurd (List.cons.inj heq).1 hx
        · rfl
      rw [List.cons_append, hkeep, hkeep]
      simp

private theorem map_tagged (s : Str) (tag : Bool) : (s.map (·, tag)).map (·.1) = s := by
  rw [List.map_map]
  exact List.map_id s

private theorem withoutMark_text (s : Str) : withoutMark (s.map (·, false)) = s := by
  cases s with
  | nil => rfl
  | cons u s =>
    have hkeep : withoutMark ((u :: s).map (·, false)) = ((u :: s).map (·, false)).map (·.1) := by
      unfold withoutMark
      split
      · next heq => simp at heq
      · rfl
    rw [hkeep, map_tagged]

/-- A byte order mark is dropped at the start of the text only. -/
private theorem withoutMark_bytes (s : Str) :
    withoutMark (s.map (·, true)) = if s.head? == some (0xFEFF : UInt16) then s.drop 1 else s := by
  cases s with
  | nil => rfl
  | cons u s =>
    by_cases hu : u = 0xFEFF
    · subst hu
      exact map_tagged s true
    · have hkeep : withoutMark ((u :: s).map (·, true)) = ((u :: s).map (·, true)).map (·.1) := by
        unfold withoutMark
        split
        · next heq =>
          simp only [List.map_cons, List.cons.injEq, Prod.mk.injEq, and_true] at heq
          exact absurd heq.1 hu
        · rfl
      rw [hkeep, map_tagged, if_neg (by simpa using hu)]

/-- The decoder and the text of a buffer are those of the chunks that arrived. -/
structure Follows (limits : OutputLimits) (chunks : List OutputChunk) (b : OutputBuffer) : Prop where
  decoder : b.decoder = (decodeChunks .start chunks).2
  completing : Completing b.decoder
  started : b.started = decide ((decodeChunks .start chunks).1 ≠ [])
  tracks : Tracks limits (decodedText chunks) b

theorem follows_new (limits : OutputLimits) : Follows limits [] .new :=
  ⟨rfl, trivial, rfl, tracks_new limits⟩

/-- What a text chunk adds to the text. -/
private theorem decodedText_text (chunks : List OutputChunk) (text : Str) :
    decodedText (chunks ++ [.text text]) =
      decodedText chunks ++ (decodeFlush (decodeChunks .start chunks).2 ++ text) := by
  rw [decodedText, decodeChunks_append, withoutMark_append]
  simp only [decodeChunks, List.append_nil, List.map_append, map_tagged]
  split_ifs with hnil
  · rw [decodedText, hnil]
    cases (decodeChunks .start chunks).2 with
    | start => exact withoutMark_text text
    | more => exact congrArg (0xFFFD :: ·) (map_tagged text false)
  · rfl

/-- What a byte chunk adds to the text: only a mark that nothing precedes is left out. -/
private theorem decodedText_bytes (chunks : List OutputChunk) (bytes : List UInt8) :
    decodedText (chunks ++ [.bytes bytes]) = decodedText chunks ++
      (if (decide ((decodeChunks .start chunks).1 = []) &&
          (decodeBytes (decodeChunks .start chunks).2 bytes).1.head? == some 0xFEFF) = true
        then (decodeBytes (decodeChunks .start chunks).2 bytes).1.drop 1
        else (decodeBytes (decodeChunks .start chunks).2 bytes).1) := by
  rw [decodedText, decodeChunks_append, withoutMark_append]
  simp only [decodeChunks, List.append_nil, map_tagged]
  split_ifs with hnil hmark hmark
  · rw [withoutMark_bytes, decodedText, hnil]
    rw [hnil] at hmark
    rw [if_pos (by simpa using hmark)]
    rfl
  · rw [withoutMark_bytes, decodedText, hnil]
    rw [hnil] at hmark
    rw [if_neg (by simpa using hmark)]
    rfl
  · rw [decide_eq_false hnil] at hmark
    cases hmark
  · rfl

/-- A buffer follows the chunks with the one that arrives. -/
theorem push_follows {chunks : List OutputChunk} {chunk : OutputChunk} (h : Follows limits chunks b)
    (hc : chunk.Sound) : Follows limits (chunks ++ [chunk]) (b.push limits chunk none).2 := by
  have htracks : ∀ decoder started, Tracks limits (decodedText chunks)
      { b with decoder := decoder, started := started } := fun _ _ =>
    ⟨h.tracks.well, h.tracks.totalBytes, h.tracks.totalNewlines, h.tracks.ends, h.tracks.stores,
      h.tracks.covers⟩
  cases chunk with
  | text text =>
    have hwell : wellFormed (decodeFlush b.decoder ++ text) = true := by
      rw [wellFormed_append (wellFormed_decodeFlush _)]
      exact hc
    simp only [OutputBuffer.push, Bool.true_or, if_true, Bool.not_true, Bool.and_false]
    refine ⟨?_, ?_, ?_, ?_⟩
    · rw [accept_decoder, decodeChunks_append]
      rfl
    · rw [accept_decoder]
      trivial
    · rw [accept_started, decodeChunks_append, h.started, h.decoder]
      simp [decodeChunks, Bool.or_assoc]
    · rw [decodedText_text, ← h.decoder]
      exact accept_tracks (htracks _ _) hwell
  | bytes bytes =>
    obtain ⟨hwell, hcompleting⟩ := wellFormed_decodeBytes h.completing bytes
    simp only [OutputBuffer.push, Bool.false_or, Option.isSome_none, Bool.false_eq_true, if_false,
      decide_true, Bool.and_true, Option.isNone_none, Bool.not_false, List.nil_append]
    refine ⟨?_, ?_, ?_, ?_⟩
    · rw [accept_decoder, decodeChunks_append, h.decoder]
      rfl
    · rw [accept_decoder]
      exact hcompleting
    · rw [accept_started, decodeChunks_append, h.started, h.decoder]
      simp [decodeChunks]
    · rw [decodedText_bytes, ← h.decoder, h.started, decide_not, Bool.not_not]
      refine accept_tracks (htracks _ _) ?_
      split_ifs with hmark
      · -- The mark itself is well formed, so what follows it is.
        rw [Bool.and_eq_true, beq_iff_eq] at hmark
        obtain ⟨rest, hrest⟩ : ∃ rest, (decodeBytes b.decoder bytes).1 = [0xFEFF] ++ rest := by
          obtain ⟨rest, hrest⟩ := List.head?_eq_some_iff.mp hmark.2
          exact ⟨rest, hrest⟩
        rw [hrest, wellFormed_append (by decide)] at hwell
        rw [hrest]
        exact hwell
      · exact hwell

theorem snapshot_follows {chunks : List OutputChunk} (h : Follows limits chunks b) :
    Follows limits chunks (b.snapshot limits).2 := by
  have hsame : (b.snapshot limits).2.decoder = b.decoder ∧
      (b.snapshot limits).2.started = b.started := by
    unfold OutputBuffer.snapshot
    dsimp only
    split_ifs <;> exact ⟨rfl, rfl⟩
  exact ⟨hsame.1.trans h.decoder, hsame.1 ▸ h.completing, hsame.2.trans h.started,
    snapshot_tracks h.tracks⟩

/-! ## Runs -/

/-- The buffer follows every run of events whose chunks are sound. -/
theorem run_follows (limits : OutputLimits) {events : List Event} (h : ∀ chunk ∈ pushes events, chunk.Sound) :
    Follows limits (pushes events) (run limits .new events) := by
  induction events using List.reverseRecOn with
  | nil => exact follows_new limits
  | append_singleton events event ih =>
    have hpushes : pushes (events ++ [event]) = pushes events ++ pushes [event] :=
      List.filterMap_append
    rw [hpushes] at h ⊢
    have hprev := ih fun chunk hc => h chunk (List.mem_append_left _ hc)
    rw [run, List.foldl_append]
    cases event with
    | push chunk => exact push_follows hprev (h chunk (List.mem_append_right _ List.mem_cons_self))
    | snapshot =>
      rw [show pushes [Event.snapshot] = [] from rfl, List.append_nil]
      exact snapshot_follows hprev

/-- After any chunks and snapshots, a snapshot is the whole text decoded so far, bounded, as it is
without the snapshots before it. -/
theorem snapshot_run (limits : OutputLimits) (events : List Event)
    (h : ∀ text, .text text ∈ pushes events → wellFormed text = true) :
    ((run limits .new events).snapshot limits).1 = boundWhole limits (decodedText (pushes events)) ∧
      ((run limits .new events).snapshot limits).1 =
        ((run limits .new ((pushes events).map .push)).snapshot limits).1 := by
  have hsound : ∀ chunk ∈ pushes events, chunk.Sound := fun chunk hc => by
    cases chunk with
    | text text => exact h text hc
    | bytes bytes => trivial
  have hmap : pushes ((pushes events).map .push) = pushes events := by
    rw [pushes, List.filterMap_map]
    exact List.filterMap_some
  have hwhole := snapshot_eq (run_follows limits hsound).tracks
  have halone := snapshot_eq (@run_follows limits ((pushes events).map .push)
    (by rw [hmap]; exact hsound)).tracks
  rw [hmap] at halone
  exact ⟨hwhole, by rw [hwhole, halone]⟩

/-- A character arrives in two chunks with a snapshot between them. -/
theorem snapshot_run_split :
    (∀ text, .text text ∈ pushes [.push (.bytes [0xC3]), .snapshot, .push (.bytes [0xA9])] →
        wellFormed text = true) ∧
      ((run ⟨4, 1, .tail⟩ .new
        [.push (.bytes [0xC3]), .snapshot, .push (.bytes [0xA9])]).snapshot ⟨4, 1, .tail⟩).1 =
        boundWhole ⟨4, 1, .tail⟩ (decodedText [.bytes [0xC3], .bytes [0xA9]]) :=
  have h : ∀ text, .text text ∈ pushes [.push (.bytes [0xC3]), .snapshot, .push (.bytes [0xA9])] →
      wellFormed text = true := fun text ht => by simp [pushes] at ht
  ⟨h, (snapshot_run ⟨4, 1, .tail⟩ _ h).1⟩

example : decodedText [.bytes [0xEF], .bytes [0xBB, 0xBF, 0x61], .text (lit "b"),
    .bytes [0xEF, 0xBB, 0xBF, 0x63]] = lit "ab\ufeffc" := by
  decide +kernel

end Output
