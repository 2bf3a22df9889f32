import ContextCompaction.Env.LineScanner

/-!
# What a scan finds

Whatever the chunks of a file are, the scan finds what `scanLines` says of the whole file.

* `decodeUtf8_intercalate`: a line is decoded on its own.
* `rangeState`: the decoder of a range of lines and the length of its text so far.
* `Scanned`: what the scanner knows of the bytes behind it.
* `finish_push`: the chunks are the file.
-/

namespace Env

open Js Sequences

/-! ## Lines are decoded on their own -/

private theorem decodeBytes_newline {state : DecodeState} (h : Completing state) :
    decodeBytes state [NEWLINE] = (decodeFlush state ++ [0x0A], .start) := by
  cases state with
  | start => rfl
  | more point needed lower upper =>
    have hout : ¬ (lower ≤ NEWLINE.toNat ∧ NEWLINE.toNat ≤ upper) := fun hin => by
      have hlower : lower ≤ 10 := hin.1
      have := h.1
      omega
    simp only [decodeBytes, decodeStep, if_neg hout]
    rfl

private theorem completing_decoded (bytes : List UInt8) : Completing (decodeBytes .start bytes).2 :=
  (wellFormed_decodeBytes (show Completing .start from trivial) bytes).2

private theorem wellFormed_decoded (bytes : List UInt8) :
    wellFormed (decodeBytes .start bytes).1 = true :=
  (wellFormed_decodeBytes (show Completing .start from trivial) bytes).1

theorem decodeUtf8_append_newline (a b : List UInt8) :
    decodeUtf8 (a ++ NEWLINE :: b) = decodeUtf8 a ++ 0x0A :: decodeUtf8 b := by
  have hline : decodeBytes .start (a ++ [NEWLINE]) =
      ((decodeBytes .start a).1 ++ (decodeFlush (decodeBytes .start a).2 ++ [0x0A]), .start) := by
    rw [decodeBytes_append, decodeBytes_newline (completing_decoded a)]
  rw [decodeUtf8, decodeFrom_eq, ← List.singleton_append, ← List.append_assoc, decodeBytes_append,
    hline, decodeUtf8, decodeFrom_eq, decodeUtf8, decodeFrom_eq]
  simp only [List.append_assoc, List.cons_append, List.nil_append]

theorem decodeUtf8_intercalate (lines : List (List UInt8)) :
    decodeUtf8 ([NEWLINE].intercalate lines) = join "\n" (lines.map decodeUtf8) := by
  induction lines with
  | nil => rfl
  | cons line lines ih =>
    cases lines with
    | nil => simp [join]
    | cons next lines =>
      rw [List.intercalate_cons_cons, List.append_assoc, List.singleton_append,
        decodeUtf8_append_newline, ih, List.map_cons, List.map_cons, List.map_cons, join, join,
        List.intercalate_cons_cons, List.append_assoc]
      rfl

/-- The lines of the text are the lines of the bytes. -/
theorem splitOn_decodeUtf8 (bytes : List UInt8) :
    (decodeUtf8 bytes).splitOn 0x0A = (bytes.splitOn NEWLINE).map decodeUtf8 := by
  have htext := decodeUtf8_intercalate (bytes.splitOn NEWLINE)
  rw [List.intercalate_splitOn] at htext
  rw [htext]
  refine List.splitOn_intercalate _ (fun text htext hmem => ?_) (by simp)
  obtain ⟨line, hline, rfl⟩ := List.mem_map.mp htext
  exact notMem_of_mem_splitOn hline ((lf_mem_decodeUtf8 line).mp hmem)

/-! ## Ranges -/

/-- Bytes to the decoder of a range. -/
def rangeFeed (r : Option DecodeState × Nat) (bytes : List UInt8) : Option DecodeState × Nat :=
  (r.1.map fun d => (decodeBytes d bytes).2, r.2 + (r.1.map fun d => decodedBytes (decodeBytes d bytes).1).getD 0)

/-- The end of a range. -/
def rangeClose (r : Option DecodeState × Nat) : Option DecodeState × Nat :=
  (none, r.2 + (r.1.map fun d => decodedBytes (decodeFlush d)).getD 0)

/-- The decoder of the lines from `start` to `stop` and the length of its text, where `lines` have ended and
`line` is the part of the next one. -/
def rangeState (lines : List (List UInt8)) (line : List UInt8) (start : Nat) (stop : Option Nat) :
    Option DecodeState × Nat :=
  if lines.length < start then (none, 0)
  else if stop.any (· ≤ lines.length) then
    (none, byteLength (decodeUtf8 ([NEWLINE].intercalate ((lines.take (stop.getD 0)).drop start))))
  else
    let decoded := decodeBytes .start ([NEWLINE].intercalate (lines.drop start ++ [line]))
    (some decoded.2, byteLength decoded.1)

variable {lines : List (List UInt8)} {line x : List UInt8} {start : Nat} {stop : Option Nat}

private theorem decodedBytes_eq (text : Str) : decodedBytes text = byteLength text := by
  unfold decodedBytes
  split_ifs with h
  · rw [h]
    rfl
  · rfl

/-- More of the current line. -/
theorem rangeState_append : rangeState lines (line ++ x) start stop = rangeFeed (rangeState lines line start stop) x := by
  unfold rangeState
  split_ifs
  · rfl
  · rfl
  · simp only [intercalate_concat, decodeBytes_append, rangeFeed, Option.map_some, Option.getD_some, decodedBytes_eq,
      byteLength_append (wellFormed_decoded _)]

private theorem decodeUtf8_eq (bytes : List UInt8) : byteLength (decodeUtf8 bytes) =
    byteLength (decodeBytes .start bytes).1 + byteLength (decodeFlush (decodeBytes .start bytes).2) := by
  rw [decodeUtf8, decodeFrom_eq, byteLength_append (wellFormed_decoded bytes)]

theorem rangeState_before (h : lines.length < start) : rangeState lines line start stop = (none, 0) :=
  if_pos h

theorem rangeState_open (h : start ≤ lines.length) (ho : ∀ k ∈ stop, lines.length < k) :
    rangeState lines line start stop =
      (some (decodeBytes .start ([NEWLINE].intercalate (lines.drop start ++ [line]))).2,
        byteLength (decodeBytes .start ([NEWLINE].intercalate (lines.drop start ++ [line]))).1) := by
  have hopen : ¬ stop.any (· ≤ lines.length) = true := by
    simp only [Option.any_eq_true, decide_eq_true_eq, not_exists, not_and, Nat.not_le]
    exact ho
  rw [rangeState, if_neg (Nat.not_lt.mpr h), if_neg hopen]

theorem rangeState_closed {k : Nat} (h : start ≤ lines.length) (hk : k ≤ lines.length) :
    rangeState lines line start (some k) =
      (none, byteLength (decodeUtf8 ([NEWLINE].intercalate ((lines.take k).drop start)))) := by
  rw [rangeState, if_neg (Nat.not_lt.mpr h), if_pos (by simpa using hk)]
  rfl

private theorem rangeClose_open (bytes : List UInt8) :
    rangeClose (some (decodeBytes .start bytes).2, byteLength (decodeBytes .start bytes).1) =
      (none, byteLength (decodeUtf8 bytes)) := by
  rw [decodeUtf8_eq, rangeClose, Option.map_some, Option.getD_some, decodedBytes_eq]

/-- The newline that ends the current line. -/
theorem rangeState_newline (h : ∀ k ∈ stop, start < k) : rangeState (lines ++ [line]) [] start stop =
    let r := rangeState lines line start stop
    let r := if stop.any (lines.length = · - 1) then rangeClose r else r
    let r := rangeFeed r [NEWLINE]
    if lines.length + 1 = start then (some .start, r.2) else r := by
  have hlen : (lines ++ [line]).length = lines.length + 1 := List.length_append
  rcases Nat.lt_or_ge lines.length start with hbefore | hle
  · -- Nothing of the range has been read.
    have hrest : (if stop.any (lines.length = · - 1) then rangeClose (none, 0) else (none, 0)) =
        ((none, 0) : Option DecodeState × Nat) := by
      split_ifs <;> rfl
    simp only [rangeState_before hbefore, hrest, rangeFeed, Option.map_none, Option.getD_none, Nat.add_zero]
    split_ifs with hstart
    · rw [rangeState_open (by omega) (fun k hk => by have := h k hk; omega),
        List.drop_eq_nil_of_le (by omega)]
      rfl
    · exact rangeState_before (by omega)
  · have hdrop : (lines ++ [line]).drop start = lines.drop start ++ [line] :=
      List.drop_append_of_le_length hle
    simp only [if_neg (show ¬ lines.length + 1 = start by omega)]
    by_cases hopen : ∀ k ∈ stop, lines.length + 1 < k
    · have hany : ¬ stop.any (lines.length = · - 1) = true := by
        simp only [Option.any_eq_true, decide_eq_true_eq, not_exists, not_and]
        intro k hk
        have := hopen k hk
        omega
      rw [if_neg hany, rangeState_open (by omega) (by simpa only [hlen] using hopen),
        rangeState_open hle (fun k hk => by have := hopen k hk; omega), hdrop, intercalate_concat_nil,
        decodeBytes_append, byteLength_append (wellFormed_decoded _)]
      simp only [rangeFeed, Option.map_some, Option.getD_some, decodedBytes_eq]
    · push Not at hopen
      obtain ⟨k, rfl, hk⟩ := hopen
      rw [rangeState_closed (by omega) (by omega)]
      rcases Nat.lt_or_ge lines.length k with hlast | hclosed
      · -- The newline ends the last line of the range.
        obtain rfl : k = lines.length + 1 := by omega
        rw [if_pos (by simp), rangeState_open hle (by simp), rangeClose_open, ← hdrop, ← hlen, List.take_length]
        rfl
      · have hstart := h k rfl
        rw [if_neg (by simp; omega), rangeState_closed hle hclosed, List.take_append_of_le_length hclosed]
        rfl

/-- The text of a range, when it has been closed or is closed at the end of the file. -/
theorem rangeState_finish (h : start ≤ lines.length) :
    (if stop.any (· ≤ lines.length) then rangeState lines line start stop
      else rangeClose (rangeState lines line start stop)).2 =
    byteLength (decodeUtf8 ([NEWLINE].intercalate
      (((lines ++ [line]).take (min (stop.getD (lines.length + 1)) (lines.length + 1))).drop start))) := by
  have hlen : (lines ++ [line]).length = lines.length + 1 := List.length_append
  by_cases hopen : ∀ k ∈ stop, lines.length < k
  · have hany : ¬ stop.any (· ≤ lines.length) = true := by
      simp only [Option.any_eq_true, decide_eq_true_eq, not_exists, not_and, Nat.not_le]
      exact hopen
    have hmin : min (stop.getD (lines.length + 1)) (lines.length + 1) = (lines ++ [line]).length := by
      cases stop with
      | none => simp
      | some k =>
        have := hopen k rfl
        rw [Option.getD_some]
        omega
    rw [if_neg hany, rangeState_open h hopen, rangeClose_open, hmin, List.take_length,
      List.drop_append_of_le_length h]
  · push Not at hopen
    obtain ⟨k, rfl, hk⟩ := hopen
    have hk : k ≤ lines.length := by omega
    rw [if_pos (by simpa using hk), rangeState_closed h hk, Option.getD_some, Nat.min_eq_left (by omega),
      List.take_append_of_le_length hk]

/-! ## The scanner -/

namespace LineScanner

variable {s : LineScanner} {chunk : List UInt8} {base from_ to_ index : Nat}

/-- The decoder of the selection and the length of its text so far. -/
def selected (s : LineScanner) : Option DecodeState × Nat := (s.selection, s.selectedBytes)

def first (s : LineScanner) : Option DecodeState × Nat := (s.firstLine, s.firstLineBytes)

/-- The bytes that decoding the file drops. -/
def mark (s : LineScanner) : Nat := if s.bom then 3 else 0

/-- Bytes to the decoders of the ranges still open. -/
def feedBytes (s : LineScanner) (bytes : List UInt8) : LineScanner :=
  { s with
    selection := (rangeFeed s.selected bytes).1
    selectedBytes := (rangeFeed s.selected bytes).2
    firstLine := (rangeFeed s.first bytes).1
    firstLineBytes := (rangeFeed s.first bytes).2 }

private theorem rangeFeed_nil (r : Option DecodeState × Nat) : rangeFeed r [] = r := by
  obtain ⟨_ | d, total⟩ := r <;> rfl

/-- A slice behind the mark is fed byte for byte. -/
theorem feed_eq (h : s.mark ≤ base + from_) :
    s.feed chunk base from_ to_ = s.feedBytes ((chunk.take to_).drop from_) := by
  have hmark : ¬ (s.bom && decide (base + from_ < 3)) = true := by
    unfold mark at h
    split_ifs at h with hbom
    · simp [hbom]
      omega
    · simp [hbom]
  rw [feed, if_neg hmark]
  dsimp only
  split_ifs with hle
  · have hnil : (chunk.take to_).drop from_ = [] := by
      apply List.drop_eq_nil_of_le
      rw [List.length_take]
      omega
    rw [hnil, feedBytes, rangeFeed_nil, rangeFeed_nil]
    rfl
  · rfl

/-- A byte-order mark is dropped. -/
theorem feed_bom (hbom : s.bom = true) (h : chunk.length = 3) : s.feed chunk 0 0 chunk.length = s := by
  simp [feed, hbom, h]

section fields

variable {bytes : List UInt8} {position : Nat}

@[simp] theorem feedBytes_startLine : (s.feedBytes bytes).startLine = s.startLine := rfl

@[simp] theorem feedBytes_endLine : (s.feedBytes bytes).endLine = s.endLine := rfl

@[simp] theorem feedBytes_newlines : (s.feedBytes bytes).newlines = s.newlines := rfl

@[simp] theorem endFirstLine_startLine : (s.endFirstLine position).startLine = s.startLine := rfl

@[simp] theorem endFirstLine_endLine : (s.endFirstLine position).endLine = s.endLine := rfl

@[simp] theorem endFirstLine_newlines : (s.endFirstLine position).newlines = s.newlines := rfl

@[simp] theorem endSelection_startLine : (s.endSelection position).startLine = s.startLine := rfl

@[simp] theorem endSelection_endLine : (s.endSelection position).endLine = s.endLine := rfl

@[simp] theorem endSelection_newlines : (s.endSelection position).newlines = s.newlines := rfl

@[simp] theorem begin_endLine : (s.begin position).endLine = s.endLine := rfl

@[simp] theorem begin_newlines : (s.begin position).newlines = s.newlines := rfl

@[simp] theorem begin_lineStart : (s.begin position).lineStart = s.lineStart := rfl

end fields

/-- The newline at `position`, where what stands before it has been fed. -/
def passNewline (s : LineScanner) (position : Nat) : LineScanner :=
  let s₁ := if s.newlines = s.startLine then s.endFirstLine position else s
  let s₂ := if s.endLine.any (s.newlines = · - 1) then s₁.endSelection position else s₁
  let s₃ := { s₂.feedBytes [NEWLINE] with newlines := s.newlines + 1, lineStart := position + 1 }
  let s₄ := if s.newlines + 1 = s.startLine then s₃.begin (position + 1) else s₃
  if s.endLine.any (s.newlines + 1 = · - 1) then { s₄ with lastLineStart := some (position + 1) } else s₄

/-- A newline feeds what stands before it and passes to the next line. -/
theorem newline_eq (h : s.mark ≤ base) (hnewline : chunk[index]? = some NEWLINE) :
    s.newline chunk base from_ index =
      (s.feedBytes ((chunk.take index).drop from_)).passNewline (base + index) := by
  obtain ⟨hindex, hbyte⟩ := List.getElem?_eq_some_iff.mp hnewline
  have hslice : (chunk.take (index + 1)).drop index = [NEWLINE] := by
    rw [List.drop_take, Nat.add_sub_cancel_left, List.drop_eq_getElem_cons hindex, hbyte]
    rfl
  have hfeed {s' : LineScanner} (hs : s'.bom = s.bom) :
      s'.feed chunk base index (index + 1) = s'.feedBytes [NEWLINE] := by
    rw [← hslice]
    exact feed_eq (by unfold mark at h ⊢; rw [hs]; omega)
  rw [newline, feed_eq (show s.mark ≤ base + from_ by omega)]
  generalize hfed : s.feedBytes ((chunk.take index).drop from_) = fed
  have hbom : fed.bom = s.bom := hfed ▸ rfl
  unfold passNewline
  simp only [apply_ite LineScanner.endLine, endFirstLine_endLine, ite_self]
  rw [hfeed (by split_ifs <;> exact hbom)]
  simp only [apply_ite LineScanner.endLine, apply_ite LineScanner.newlines, apply_ite LineScanner.startLine,
    apply_ite LineScanner.lineStart, feedBytes_startLine, feedBytes_endLine, feedBytes_newlines,
    endFirstLine_startLine, endFirstLine_endLine, endFirstLine_newlines, endSelection_startLine,
    endSelection_endLine, endSelection_newlines, begin_endLine, begin_newlines, begin_lineStart, ite_self]

section passNewline

variable {position : Nat}

theorem passNewline_selected : (s.passNewline position).selected =
    let r := if s.endLine.any (s.newlines = · - 1) then rangeClose s.selected else s.selected
    let r := rangeFeed r [NEWLINE]
    if s.newlines + 1 = s.startLine then (some .start, r.2) else r := by
  dsimp only [passNewline]
  split_ifs <;> rfl

theorem passNewline_first : (s.passNewline position).first =
    let r := if s.newlines = s.startLine then rangeClose s.first else s.first
    let r := rangeFeed r [NEWLINE]
    if s.newlines + 1 = s.startLine then (some .start, r.2) else r := by
  dsimp only [passNewline]
  split_ifs <;> rfl

@[simp] theorem passNewline_startLine : (s.passNewline position).startLine = s.startLine := by
  dsimp only [passNewline]
  split_ifs <;> rfl

@[simp] theorem passNewline_endLine : (s.passNewline position).endLine = s.endLine := by
  dsimp only [passNewline]
  split_ifs <;> rfl

@[simp] theorem passNewline_newlines : (s.passNewline position).newlines = s.newlines + 1 := by
  dsimp only [passNewline]
  split_ifs <;> rfl

@[simp] theorem passNewline_lineStart : (s.passNewline position).lineStart = position + 1 := by
  dsimp only [passNewline]
  split_ifs <;> rfl

theorem passNewline_start :
    (s.passNewline position).start = if s.newlines + 1 = s.startLine then some (position + 1) else s.start := by
  dsimp only [passNewline]
  split_ifs <;> rfl

theorem passNewline_end : (s.passNewline position).end_ =
    if s.endLine.any (s.newlines = · - 1) then some position else s.end_ := by
  dsimp only [passNewline]
  split_ifs <;> rfl

theorem passNewline_firstLineEnd : (s.passNewline position).firstLineEnd =
    if s.newlines = s.startLine then some position else s.firstLineEnd := by
  dsimp only [passNewline]
  split_ifs <;> rfl

theorem passNewline_lastLineStart : (s.passNewline position).lastLineStart =
    if s.endLine.any (s.newlines + 1 = · - 1) then some (position + 1)
    else if s.newlines + 1 = s.startLine ∧ s.endLine.any (s.startLine = · - 1) then some (position + 1)
    else s.lastLineStart := by
  dsimp only [passNewline]
  split_ifs <;> grind [begin, feedBytes, endSelection, endFirstLine]

end passNewline

/-- The fields that are about the file, where `lines` have ended. -/
structure Placed (first : Nat) (stop : Option Nat) (lines : List (List UInt8)) (s : LineScanner) :
    Prop where
  startLine : s.startLine = first
  endLine : s.endLine = stop
  newlines : s.newlines = lines.length
  lineStart : s.lineStart = pieceStart lines lines.length
  start : s.start = if first ≤ lines.length then some (pieceStart lines first) else none
  end_ : s.end_ = stop.bind fun k => if k ≤ lines.length then some (pieceEnd lines (k - 1)) else none
  firstLineEnd : s.firstLineEnd = if first < lines.length then some (pieceEnd lines first) else none
  lastLineStart : s.lastLineStart =
    stop.bind fun k => if k - 1 ≤ lines.length then some (pieceStart lines (k - 1)) else none

variable {first : Nat} {stop : Option Nat} {lines : List (List UInt8)} {line : List UInt8}

theorem Placed.feedBytes (h : Placed first stop lines s) (bytes : List UInt8) :
    Placed first stop lines (s.feedBytes bytes) := { h with }

/-- Behind a newline the scanner is placed at the next line. -/
theorem Placed.passNewline (h : Placed first stop lines s) (hrange : ∀ k ∈ stop, first < k)
    {position : Nat} (hposition : position = pieceStart lines lines.length + line.length) :
    Placed first stop (lines ++ [line]) (s.passNewline position) := by
  have hlen : (lines ++ [line]).length = lines.length + 1 := List.length_append
  have hstart (i : Nat) (hi : i ≤ lines.length + 1) : pieceStart (lines ++ [line]) i =
      if i = lines.length + 1 then position + 1 else pieceStart lines i := by
    split_ifs with h'
    · rw [h', pieceStart_concat, hposition]
    · exact pieceStart_append (by omega)
  have hend (i : Nat) (hi : i ≤ lines.length) : pieceEnd (lines ++ [line]) i =
      if i = lines.length then position else pieceEnd lines i := by
    split_ifs with h'
    · rw [h', pieceEnd_concat, hposition]
    · exact pieceEnd_append (by omega)
  constructor
  · rw [passNewline_startLine, h.startLine]
  · rw [passNewline_endLine, h.endLine]
  · rw [passNewline_newlines, h.newlines, hlen]
  · rw [passNewline_lineStart, hlen, hstart _ (Nat.le_refl _), if_pos rfl]
  · rw [passNewline_start, h.newlines, h.startLine, h.start, hlen]
    grind
  · rw [passNewline_end, h.newlines, h.endLine, h.end_, hlen]
    cases stop with
    | none => rfl
    | some k =>
      have := hrange k rfl
      simp only [Option.any_some, decide_eq_true_eq, Option.bind_some]
      grind
  · rw [passNewline_firstLineEnd, h.newlines, h.startLine, h.firstLineEnd, hlen]
    grind
  · rw [passNewline_lastLineStart, h.newlines, h.startLine, h.endLine, h.lastLineStart, hlen]
    cases stop with
    | none => simp
    | some k =>
      have := hrange k rfl
      simp only [Option.any_some, decide_eq_true_eq, Option.bind_some]
      grind

/-- What the scanner knows where `file` is behind it, of which `text` has been decoded: all of it, or all but
a byte-order mark. -/
def Scanned (first : Nat) (stop : Option Nat) (file text : List UInt8) (s : LineScanner) : Prop :=
  ∃ lines line lines' line', file.splitOn NEWLINE = lines ++ [line] ∧ text.splitOn NEWLINE = lines' ++ [line'] ∧
    lines'.length = lines.length ∧ Placed first stop lines s ∧
    s.selected = rangeState lines' line' first stop ∧
    s.first = rangeState lines' line' first (some (first + 1))

variable {file text x : List UInt8}

theorem Scanned.feedBytes (h : Scanned first stop file text s) (hx : NEWLINE ∉ x) :
    Scanned first stop (file ++ x) (text ++ x) (s.feedBytes x) := by
  obtain ⟨lines, line, lines', line', hfile, htext, hlength, hplaced, hselected, hfirst⟩ := h
  refine ⟨lines, line ++ x, lines', line' ++ x, splitOn_append_of_notMem hx hfile,
    splitOn_append_of_notMem hx htext, hlength, hplaced.feedBytes x, ?_, ?_⟩
  · rw [rangeState_append, ← hselected]
    rfl
  · rw [rangeState_append, ← hfirst]
    rfl

/-- Bytes that are not decoded. -/
theorem Scanned.skip (h : Scanned first stop file text s) (hx : NEWLINE ∉ x) (position : Nat) :
    Scanned first stop (file ++ x) text { s with position } := by
  obtain ⟨lines, line, lines', line', hfile, htext, hlength, hplaced, hselected, hfirst⟩ := h
  exact ⟨lines, line ++ x, lines', line', splitOn_append_of_notMem hx hfile, htext, hlength,
    { hplaced with }, hselected, hfirst⟩

theorem Scanned.passNewline (h : Scanned first stop file text s) (hrange : ∀ k ∈ stop, first < k)
    {position : Nat} (hposition : position = file.length) :
    Scanned first stop (file ++ [NEWLINE]) (text ++ [NEWLINE]) (s.passNewline position) := by
  obtain ⟨lines, line, lines', line', hfile, htext, hlength, hplaced, hselected, hfirst⟩ := h
  refine ⟨lines ++ [line], [], lines' ++ [line'], [], splitOn_concat_self hfile, splitOn_concat_self htext,
    by simpa using hlength, hplaced.passNewline hrange (by rw [hposition, length_of_splitOn hfile]), ?_, ?_⟩
  · rw [passNewline_selected, rangeState_newline hrange, hselected, hplaced.newlines, hplaced.startLine,
      hplaced.endLine, hlength]
  · rw [passNewline_first, rangeState_newline (by simp), hfirst, hplaced.newlines, hplaced.startLine, hlength]
    simp

/-- What processing a chunk leaves alone. -/
def still (s : LineScanner) : Bool × Option (List UInt8) × Nat := (s.bom, s.head, s.position)

theorem passNewline_still {position : Nat} : (s.passNewline position).still = s.still := by
  dsimp only [LineScanner.passNewline]
  split_ifs <;> rfl

private theorem mark_of_still {s' : LineScanner} (h : s'.still = s.still) : s'.mark = s.mark := by
  rw [mark, mark, (Prod.mk.inj h).1]

private theorem take_slice (h : from_ ≤ index) :
    chunk.take from_ ++ (chunk.take index).drop from_ = chunk.take index := by
  conv_rhs => rw [← List.take_append_drop from_ (chunk.take index), List.take_take, Nat.min_eq_left h]

private theorem newlinesFrom_scanned (hrange : ∀ k ∈ stop, first < k) (hbase : base = file.length)
    {rest : List UInt8} (hrest : chunk.drop index = rest) (hle : from_ ≤ index)
    (hfree : NEWLINE ∉ (chunk.take index).drop from_) (hmark : s.mark ≤ base)
    (h : Scanned first stop (file ++ chunk.take from_) (text ++ chunk.take from_) s) :
    let r := newlinesFrom chunk base rest index from_ s
    NEWLINE ∉ chunk.drop r.2 ∧
      Scanned first stop (file ++ chunk.take r.2) (text ++ chunk.take r.2) r.1 ∧ r.1.still = s.still := by
  induction rest generalizing s from_ index with
  | nil =>
    refine ⟨?_, h, rfl⟩
    rwa [List.take_of_length_le (List.drop_eq_nil_iff.mp hrest)] at hfree
  | cons b rest ih =>
    have hindex : index < chunk.length := by
      by_contra hge
      rw [List.drop_eq_nil_of_le (Nat.not_lt.mp hge)] at hrest
      cases hrest
    rw [List.drop_eq_getElem_cons hindex, List.cons.injEq] at hrest
    obtain ⟨hb, hnext⟩ := hrest
    have htake : chunk.take (index + 1) = chunk.take index ++ [b] := by
      rw [← hb, List.take_append_getElem hindex]
    rw [newlinesFrom]
    split_ifs with hnewline
    · rw [hnewline] at hb htake
      have hbyte : chunk[index]? = some NEWLINE := List.getElem?_eq_some_iff.mpr ⟨hindex, hb⟩
      have hfed := h.feedBytes hfree
      rw [List.append_assoc, List.append_assoc, take_slice hle] at hfed
      have hposition : base + index = (file ++ chunk.take index).length := by
        rw [List.length_append, List.length_take, hbase]
        omega
      have hpassed := hfed.passNewline hrange hposition
      rw [List.append_assoc, List.append_assoc, ← htake, ← newline_eq hmark hbyte] at hpassed
      have hstill : (s.newline chunk base from_ index).still = s.still := by
        rw [newline_eq hmark hbyte, passNewline_still]
        rfl
      obtain ⟨hfree', hscanned, hstill'⟩ := ih hnext (Nat.le_refl _)
        (by rw [List.drop_eq_nil_of_le (by rw [List.length_take]; omega)]; exact List.not_mem_nil)
        (by rw [mark_of_still hstill]; exact hmark) hpassed
      exact ⟨hfree', hscanned, hstill'.trans hstill⟩
    · refine ih hnext (by omega) ?_ hmark h
      rw [htake, List.drop_append_of_le_length (by rw [List.length_take]; omega)]
      simpa [hfree] using Ne.symm hnewline

/-- A chunk takes the scanner on from the bytes it has seen to these and the chunk. -/
theorem process_scanned (hrange : ∀ k ∈ stop, first < k) (hposition : s.position = file.length)
    (hmark : s.mark ≤ s.position) (h : Scanned first stop file text s) :
    Scanned first stop (file ++ chunk) (text ++ chunk) (s.process chunk) ∧
      (s.process chunk).position = (file ++ chunk).length ∧ (s.process chunk).head = s.head ∧
      (s.process chunk).mark = s.mark := by
  obtain ⟨hfree, hscanned, hstill⟩ := @newlinesFrom_scanned s chunk s.position 0 0 first stop file text hrange
    hposition _ List.drop_zero (Nat.le_refl 0) (by simp) hmark (by simpa using h)
  have hmark' := mark_of_still hstill
  rw [process]
  dsimp only
  revert hfree hscanned hstill hmark'
  generalize newlinesFrom chunk s.position chunk 0 0 s = r
  intro hfree hscanned hstill hmark'
  obtain ⟨hbom, hhead, hposition'⟩ : r.1.bom = s.bom ∧ r.1.head = s.head ∧ r.1.position = s.position := by
    simpa [still] using hstill
  rw [feed_eq (by omega), List.take_length]
  have hfed := hscanned.feedBytes hfree
  rw [List.append_assoc, List.append_assoc, List.take_append_drop] at hfed
  obtain ⟨lines, line, lines', line', hfile, htext, hlength, hplaced, hselected, hfirst⟩ := hfed
  refine ⟨⟨lines, line, lines', line', hfile, htext, hlength, { hplaced with }, hselected, hfirst⟩, ?_, hhead, hmark'⟩
  rw [List.length_append, ← hposition, ← hposition']
  rfl

/-! ### Before the first bytes -/

variable {s₀ : LineScanner} {head : List UInt8} {bom : Bool}

/-- A scanner starts, for a range that is not empty, as one that has seen nothing. -/
theorem new_eq_ok (h : LineScanner.new first stop = .ok s₀) :
    (∀ k ∈ stop, first < k) ∧ s₀.head = some [] ∧ s₀.position = 0 ∧
      ∀ head bom, Scanned first stop [] [] { s₀ with head, bom } := by
  unfold LineScanner.new at h
  split_ifs at h with hinvalid hzero
  all_goals
    have hrange : ∀ k ∈ stop, first < k := by
      rintro k rfl
      by_contra hle
      exact hinvalid (.inr (by simpa using .inl (Nat.not_lt.mp hle)))
    obtain rfl := Except.ok.inj h
    refine ⟨hrange, rfl, rfl, fun head bom => ⟨[], [], [], [], rfl, rfl, rfl, ?_, ?_, ?_⟩⟩
  · subst hzero
    refine ⟨rfl, rfl, rfl, rfl, rfl, ?_, rfl, ?_⟩
    · cases stop with
      | none => rfl
      | some k =>
        have := hrange k rfl
        simp [begin]
        omega
    · cases stop with
      | none => rfl
      | some k =>
        have := hrange k rfl
        by_cases hlast : k - 1 = 0
        · simp [begin, hlast]
        · simp [begin, hlast, Ne.symm hlast]
  · subst hzero
    rw [rangeState_open (Nat.zero_le _) hrange]
    rfl
  · subst hzero
    rfl
  · refine ⟨rfl, rfl, rfl, rfl, ?_, ?_, ?_, ?_⟩
    · simpa using hzero
    · cases stop with
      | none => rfl
      | some k =>
        have := hrange k rfl
        simp
        omega
    · simp
    · cases stop with
      | none => rfl
      | some k =>
        have := hrange k rfl
        simp
        omega
  · rw [rangeState_before (Nat.pos_of_ne_zero hzero)]
    rfl
  · rw [rangeState_before (Nat.pos_of_ne_zero hzero)]
    rfl

private theorem process_bom (hbom : s.bom = true) (hposition : s.position = 0) :
    s.process [0xEF, 0xBB, 0xBF] = { s with position := 3 } := by
  have hnone : newlinesFrom [0xEF, 0xBB, 0xBF] 0 [0xEF, 0xBB, 0xBF] 0 0 s = (s, 0) := by
    simp [newlinesFrom, NEWLINE]
  rw [process, hposition, hnone]
  dsimp only
  rw [feed_bom hbom rfl, hposition]
  rfl

/-- The bytes of a file that are decoded. -/
def withoutBom (bytes : List UInt8) : List UInt8 := if startsWithBom bytes then bytes.drop 3 else bytes

/-- The first bytes are released when it is known whether they are a byte-order mark. -/
theorem releaseHead_scanned (hnew : LineScanner.new first stop = .ok s₀) (hlength : head.length ≤ 3) :
    let s := { s₀ with head := some head }.releaseHead
    Scanned first stop head (withoutBom head) s ∧
      s.position = head.length ∧ s.head = none ∧ s.mark ≤ s.position := by
  obtain ⟨hrange, -, hposition, hscanned⟩ := new_eq_ok hnew
  by_cases hbom : startsWithBom head = true
  · obtain ⟨rest, rfl⟩ := List.isPrefixOf_iff_prefix.mp hbom
    obtain rfl : rest = [] := List.eq_nil_of_length_eq_zero (by
      rw [List.length_append, List.length_cons, List.length_cons, List.length_singleton] at hlength
      omega)
    have hprocess := @process_bom { s₀ with head := none, bom := true } rfl hposition
    have hskip := (hscanned none true).skip (x := [0xEF, 0xBB, 0xBF]) (by decide) 3
    have hrelease : { s₀ with head := some ([0xEF, 0xBB, 0xBF] ++ []) }.releaseHead =
        { s₀ with head := none, bom := true, position := 3 } := hprocess
    rw [withoutBom, if_pos hbom]
    dsimp only
    rw [hrelease]
    exact ⟨hskip, rfl, rfl, Nat.le_refl 3⟩
  · rw [withoutBom, if_neg hbom]
    have hmark : { s₀ with head := none, bom := startsWithBom head }.mark = 0 := by
      simp [mark, hbom]
    obtain ⟨hprocess, hlen, hhead, hmark'⟩ := @process_scanned { s₀ with head := none, bom := startsWithBom head } head first stop [] []
      hrange hposition (by omega) (hscanned none _)
    exact ⟨hprocess, hlen, hhead, Nat.le_trans (Nat.le_of_eq (hmark'.trans hmark)) (Nat.zero_le _)⟩

/-- What the scanner knows when `file` has been pushed. -/
def Pushed (s₀ : LineScanner) (first : Nat) (stop : Option Nat) (file : List UInt8) (s : LineScanner) : Prop :=
  if file.length < 3 then s = { s₀ with head := some file }
  else Scanned first stop file (withoutBom file) s ∧
    s.position = file.length ∧ s.head = none ∧ s.mark ≤ s.position

private theorem startsWithBom_append {a b : List UInt8} (h : 3 ≤ a.length) :
    startsWithBom (a ++ b) = startsWithBom a := by
  obtain ⟨x, y, z, rest, rfl⟩ : ∃ x y z rest, a = x :: y :: z :: rest := by
    match a, h with
    | x :: y :: z :: rest, _ => exact ⟨x, y, z, rest, rfl⟩
  rfl

private theorem withoutBom_append {a b : List UInt8} (h : 3 ≤ a.length) :
    withoutBom (a ++ b) = withoutBom a ++ b := by
  rw [withoutBom, withoutBom, startsWithBom_append h]
  split_ifs
  · exact List.drop_append_of_le_length h
  · rfl

/-- A pushed chunk keeps the scanner's state that of the bytes pushed so far. -/
theorem Pushed.push (hnew : LineScanner.new first stop = .ok s₀) (h : Pushed s₀ first stop file s) :
    Pushed s₀ first stop (file ++ chunk) (s.push chunk) := by
  have hrange := (new_eq_ok hnew).1
  unfold Pushed at h
  split_ifs at h with hlength
  · subst h
    unfold LineScanner.push
    dsimp only
    split_ifs with hshort
    · have htake : chunk.take (min (3 - file.length) chunk.length) = chunk := by
        apply List.take_of_length_le
        rw [List.length_append, List.length_take] at hshort
        omega
      rw [htake] at hshort ⊢
      rw [Pushed, if_pos hshort]
    · generalize htake : chunk.take (min (3 - file.length) chunk.length) = taken at hshort ⊢
      have htaken : (file ++ taken).length = 3 := by
        rw [← htake, List.length_append, List.length_take] at hshort ⊢
        omega
      obtain ⟨hscanned, hposition, hhead, hmark⟩ := releaseHead_scanned hnew (Nat.le_of_eq htaken)
      obtain ⟨hprocess, hlen, hhead', hmark'⟩ := @process_scanned _
        (chunk.drop (min (3 - file.length) chunk.length)) _ _ _ _ hrange hposition hmark hscanned
      have hfile : file ++ chunk = file ++ taken ++ chunk.drop (min (3 - file.length) chunk.length) := by
        rw [List.append_assoc, ← htake, List.take_append_drop]
      rw [Pushed, if_neg (by rw [hfile, List.length_append]; omega), hfile, withoutBom_append (by omega)]
      exact ⟨hprocess, hlen, hhead'.trans hhead, by rw [hmark', hlen, List.length_append]; omega⟩
  · obtain ⟨hscanned, hposition, hhead, hmark⟩ := h
    obtain ⟨hprocess, hlen, hhead', hmark'⟩ := @process_scanned s chunk _ _ _ _ hrange hposition hmark hscanned
    rw [Pushed, if_neg (by rw [List.length_append]; omega), withoutBom_append (by omega), LineScanner.push,
      hhead]
    exact ⟨hprocess, hlen, hhead'.trans hhead, by rw [hmark', hlen, List.length_append]; omega⟩

theorem pushed_foldl (hnew : LineScanner.new first stop = .ok s₀) (chunks : List (List UInt8)) :
    Pushed s₀ first stop chunks.flatten (chunks.foldl push s₀) := by
  have hrun (file : List UInt8) (s : LineScanner) (h : Pushed s₀ first stop file s) :
      Pushed s₀ first stop (file ++ chunks.flatten) (chunks.foldl push s) := by
    induction chunks generalizing file s with
    | nil => rwa [List.flatten_nil, List.append_nil]
    | cons chunk chunks ih =>
      rw [List.flatten_cons, ← List.append_assoc, List.foldl_cons]
      exact ih _ _ (h.push hnew)
  refine hrun [] s₀ ?_
  rw [Pushed, if_pos (by simp), ← (new_eq_ok hnew).2.1]

/-! ### The end of the file -/

/-- `finish` where no first bytes are held. -/
def report (s : LineScanner) : LineScan :=
  let size := s.position
  match s.start with
  | none =>
    { newlines := s.newlines, start := size, end_ := size, firstLineEnd := size, lastLineStart := size
      selectedBytes := 0, firstLineBytes := 0 }
  | some start =>
    let s := if s.firstLineEnd = none then s.endFirstLine size else s
    let s := if s.end_ = none then s.endSelection size else s
    { newlines := s.newlines
      start
      end_ := s.end_.getD size
      firstLineEnd := s.firstLineEnd.getD size
      lastLineStart := s.lastLineStart.getD s.lineStart
      selectedBytes := s.selectedBytes
      firstLineBytes := s.firstLineBytes }

theorem report_eq {start : Nat} (h : s.start = some start) : s.report =
    { newlines := s.newlines
      start
      end_ := s.end_.getD s.position
      firstLineEnd := s.firstLineEnd.getD s.position
      lastLineStart := s.lastLineStart.getD s.lineStart
      selectedBytes := (if s.end_ = none then rangeClose s.selected else s.selected).2
      firstLineBytes := (if s.firstLineEnd = none then rangeClose s.first else s.first).2 } := by
  unfold report
  rw [h]
  dsimp only
  split_ifs <;> grind [endFirstLine, endSelection, rangeClose, selected, LineScanner.first]

/-- The report is that of a scan of the whole file. -/
theorem report_scanned (hrange : ∀ k ∈ stop, first < k) (h : Scanned first stop file (withoutBom file) s)
    (hposition : s.position = file.length) : s.report = scanLines file first stop := by
  obtain ⟨lines, line, lines', line', hfile, htext, hlength, hplaced, hselected, hfirst⟩ := h
  have hlen : (lines ++ [line]).length = lines.length + 1 := List.length_append
  have htexts : (decodeText file).splitOn 0x0A = (lines' ++ [line']).map decodeUtf8 := by
    rw [← htext]
    exact splitOn_decodeUtf8 (withoutBom file)
  unfold scanLines
  rw [hfile, htexts]
  dsimp only
  rw [hlen]
  split_ifs with hreached
  · have hstart : s.start = some (pieceStart lines first) := by
      rw [hplaced.start, if_pos (by omega)]
    rw [report_eq hstart]
    have hsize : pieceEnd (lines ++ [line]) lines.length = s.position := by
      rw [pieceEnd_concat, hposition, length_of_splitOn hfile]
    congr 1
    · exact hplaced.newlines
    · exact (pieceStart_append (by omega)).symm
    · rw [hplaced.end_]
      cases stop with
      | none => simpa using hsize.symm
      | some k =>
        have := hrange k rfl
        rw [Option.bind_some, Option.getD_some]
        split_ifs with hk
        · rw [Nat.min_eq_left (by omega), pieceEnd_append (by omega), Option.getD_some]
        · rw [Nat.min_eq_right (by omega), Nat.add_sub_cancel, hsize, Option.getD_none]
    · rw [hplaced.firstLineEnd]
      split_ifs with hended
      · rw [pieceEnd_append hended, Option.getD_some]
      · obtain rfl : first = lines.length := by omega
        rw [hsize, Option.getD_none]
    · rw [hplaced.lastLineStart, hplaced.lineStart]
      cases stop with
      | none => simp [pieceStart_append]
      | some k =>
        rw [Option.bind_some, Option.getD_some]
        split_ifs with hk
        · rw [pieceStart_append (by omega), Option.getD_some]
          congr 1
          omega
        · rw [Nat.min_eq_right (by omega), Nat.add_sub_cancel, pieceStart_append (Nat.le_refl _), Option.getD_none]
    · have hclosed : s.end_ = none ↔ ¬ stop.any (· ≤ lines'.length) = true := by
        rw [hplaced.end_, hlength]
        cases stop <;> simp
      rw [← List.map_take, ← List.map_drop, ← decodeUtf8_intercalate, ← hlength,
        ← rangeState_finish (by omega), hselected]
      simp only [hclosed, ite_not]
    · have hclosed : s.firstLineEnd = none ↔ ¬ (some (first + 1)).any (· ≤ lines'.length) = true := by
        rw [hplaced.firstLineEnd, hlength, Option.any_some, decide_eq_true_iff]
        split_ifs <;> simp only [true_iff, false_iff] <;> omega
      have hline : first < (lines' ++ [line']).length := by simp; omega
      have htext := @rangeState_finish lines' line' first (some (first + 1)) (by omega)
      rw [Option.getD_some, Nat.min_eq_left (by omega), List.drop_take, Nat.add_sub_cancel_left,
        List.drop_eq_getElem_cons hline] at htext
      rw [List.getElem?_map, List.getElem?_eq_getElem hline, Option.map_some, Option.getD_some, hfirst]
      simp only [hclosed, ite_not, htext, List.take_succ_cons, List.take_zero, List.intercalate_singleton]
  · have hstart : s.start = none := by
      rw [hplaced.start, if_neg (by omega)]
    unfold report
    rw [hstart, hplaced.newlines, hposition]
    rfl

/-- A scan finds what it is for, in whatever chunks the file comes. -/
theorem finish_push (hnew : LineScanner.new first stop = .ok s₀) (chunks : List (List UInt8)) :
    (chunks.foldl push s₀).finish = scanLines chunks.flatten first stop := by
  have hpushed := pushed_foldl hnew chunks
  have hrange := (new_eq_ok hnew).1
  generalize chunks.foldl push s₀ = s at hpushed
  generalize chunks.flatten = file at hpushed
  unfold Pushed at hpushed
  split_ifs at hpushed with hlength
  · subst hpushed
    obtain ⟨hscanned, hposition, -, -⟩ := releaseHead_scanned hnew (Nat.le_of_lt hlength)
    exact report_scanned hrange hscanned hposition
  · obtain ⟨hscanned, hposition, hhead, -⟩ := hpushed
    have hreport : s.finish = s.report := by
      unfold finish
      rw [if_neg (by simp [hhead])]
      rfl
    rw [hreport, report_scanned hrange hscanned hposition]

/-- The second line of a file with a byte-order mark, which comes with a character cut in two. -/
theorem finish_push_cut :
    let s₀ : LineScanner := {
      startLine := 1, endLine := some 2, position := 0, newlines := 0, lineStart := 0, start := none
      end_ := none, firstLineEnd := none, lastLineStart := none, selectedBytes := 0, firstLineBytes := 0
      selection := none, firstLine := none, head := some [], bom := false }
    let chunks : List (List UInt8) := [[0xEF, 0xBB], [0xBF, 0x61, 0x0A, 0xC3], [0xA9, 0x62, 0x0A, 0x63]]
    (chunks.foldl push s₀).finish = scanLines chunks.flatten 1 (some 2) ∧
      (scanLines chunks.flatten 1 (some 2)).selectedBytes = 3 :=
  ⟨finish_push (by rfl) [[0xEF, 0xBB], [0xBF, 0x61, 0x0A, 0xC3], [0xA9, 0x62, 0x0A, 0x63]], by rfl⟩

end LineScanner

end Env
