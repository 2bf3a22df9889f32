import ContextCompaction.Edits.Places

/-!
# What an edit leaves

* `fileLines`: the lines of a file with what ends them, a line feed, a carriage return or both.
* `lines_normalizeToLF`: they are the lines that edits work on.
* `StartsLine`: where a line of the file starts a line again once the matches are replaced.
* `editText_keeps`: the lines that no match touches are written in their order, each with its characters, and each
  that was ended with the line ending of the file; `startsLine` says which of them another text is joined to.
-/

namespace Edits

open Js Sequences

/-- The lines of a file: their characters, and what ends them. -/
def fileLines : Str → List (Str × Str)
  | [] => []
  | [u] => if u = cr ∨ u = lf then [([], [u])] else [([u], [])]
  | u :: v :: rest =>
    if u = cr ∧ v = lf then ([], [cr, lf]) :: fileLines rest
    else if u = cr ∨ u = lf then ([], [u]) :: fileLines (v :: rest)
    else
      match fileLines (v :: rest) with
      | [] => [([u], [])]
      | line :: rest => (u :: line.1, line.2) :: rest

/-- A line with this for what ends it. -/
def endedBy (ending : Str) (line : Str × Str) : Str := line.1 ++ if line.2 = [] then [] else ending

section Lines

variable {content : Str}

/-- Nothing is lost in lines. -/
theorem flatten_fileLines (content : Str) :
    ((fileLines content).map fun line => line.1 ++ line.2).flatten = content := by
  fun_induction fileLines content with
  | case1 => rfl
  | case2 u h => rfl
  | case3 u h => rfl
  | case4 u v rest h ih =>
    rw [List.map_cons, List.flatten_cons, ih, h.1, h.2]
    rfl
  | case5 u v rest h h' ih =>
    rw [List.map_cons, List.flatten_cons, ih]
    rfl
  | case6 u v rest h h' heq ih =>
    rw [heq] at ih
    exact congrArg (u :: ·) ih
  | case7 u v rest h h' line ls heq ih =>
    rw [heq] at ih
    exact congrArg (u :: ·) ih

/-- The characters of a line end no line. -/
theorem mem_fileLines {line : Str × Str} (h : line ∈ fileLines content) : lf ∉ line.1 := by
  fun_induction fileLines content generalizing line with
  | case1 => cases h
  | case2 u hu =>
    obtain rfl := List.mem_singleton.mp h
    exact List.not_mem_nil
  | case3 u hu =>
    obtain rfl := List.mem_singleton.mp h
    exact fun hlf => hu (.inr (List.mem_singleton.mp hlf).symm)
  | case4 u v rest hcrlf ih =>
    obtain rfl | h := List.mem_cons.mp h
    · exact List.not_mem_nil
    · exact ih h
  | case5 u v rest hcrlf hu ih =>
    obtain rfl | h := List.mem_cons.mp h
    · exact List.not_mem_nil
    · exact ih h
  | case6 u v rest hcrlf hu heq ih =>
    obtain rfl := List.mem_singleton.mp h
    exact fun hlf => hu (.inr (List.mem_singleton.mp hlf).symm)
  | case7 u v rest hcrlf hu line' ls heq ih =>
    rw [heq, List.forall_mem_cons] at ih
    obtain rfl | h := List.mem_cons.mp h
    · intro hlf
      obtain rfl | hlf := List.mem_cons.mp hlf
      · exact hu (.inr rfl)
      · exact ih.1 hlf
    · exact ih.2 line h

theorem normalizeToLF_crlf (rest : Str) : normalizeToLF (cr :: lf :: rest) = lf :: normalizeToLF rest := rfl

theorem normalizeToLF_cons {u v : UInt16} {rest : Str} (h : ¬ (u = cr ∧ v = lf)) :
    normalizeToLF (u :: v :: rest) = (if u = cr then lf else u) :: normalizeToLF (v :: rest) := by
  rw [normalizeToLF, replaceCrlf, if_neg h, List.map_cons]
  rfl

theorem normalizeToLF_singleton (u : UInt16) : normalizeToLF [u] = [if u = cr then lf else u] := rfl

theorem lines_cons_lf (rest : Str) : lines lf (lf :: rest) = [lf] :: lines lf rest := by
  rw [lines, if_pos rfl]

/-- A unit that ends a line becomes a line feed. -/
theorem ite_cr {u : UInt16} (h : u = cr ∨ u = lf) : (if u = cr then lf else u) = lf := by
  obtain rfl | rfl := h <;> rfl

/-- The lines of the normalized text are those of the file, each ended by a newline. -/
theorem lines_normalizeToLF (content : Str) :
    lines lf (normalizeToLF content) = (fileLines content).map (endedBy [lf]) := by
  fun_induction fileLines content with
  | case1 => rfl
  | case2 u hu =>
    rw [normalizeToLF_singleton, ite_cr hu]
    rfl
  | case3 u hu =>
    rw [not_or] at hu
    rw [normalizeToLF_singleton, if_neg hu.1, lines, if_neg hu.2]
    rfl
  | case4 u v rest hcrlf ih =>
    rw [hcrlf.1, hcrlf.2, normalizeToLF_crlf, lines_cons_lf, ih]
    rfl
  | case5 u v rest hcrlf hu ih =>
    rw [normalizeToLF_cons hcrlf, ite_cr hu, lines_cons_lf, ih]
    rfl
  | case6 u v rest hcrlf hu heq ih =>
    rw [not_or] at hu
    rw [heq] at ih
    rw [normalizeToLF_cons hcrlf, if_neg hu.1, lines, if_neg hu.2, ih]
    rfl
  | case7 u v rest hcrlf hu line' ls heq ih =>
    rw [not_or] at hu
    rw [heq] at ih
    rw [normalizeToLF_cons hcrlf, if_neg hu.1, lines, if_neg hu.2, ih]
    rfl

theorem restoreLineEndings_append (ending : LineEnding) (a b : Str) :
    restoreLineEndings (a ++ b) ending = restoreLineEndings a ending ++ restoreLineEndings b ending := by
  unfold restoreLineEndings
  split
  · exact List.flatMap_append
  · rfl

/-- The line ending is restored at the end of a line. -/
theorem restoreLineEndings_endedBy {line : Str × Str} (h : lf ∉ line.1) (ending : LineEnding) :
    restoreLineEndings (endedBy [lf] line) ending = endedBy ending.text line := by
  have hchars : restoreLineEndings line.1 ending = line.1 := by
    unfold restoreLineEndings
    split
    · have hsame : ∀ u ∈ line.1, (if u = lf then [cr, lf] else [u]) = [u] := by
        intro u hu
        refine if_neg fun heq => ?_
        subst heq
        exact h hu
      rw [List.flatMap_congr hsame]
      exact List.flatMap_singleton' _
    · rfl
  unfold endedBy
  rw [restoreLineEndings_append, hchars]
  split
  · cases ending <;> rfl
  · cases ending <;> rfl

end Lines

/-! ## The written file -/

section Written

variable {nfkc : Str → Str} {read written path : Str} {edits : List Edit}

/-- The places of the lines of the file that no match touches. A match of no length touches the line it lies in. -/
def keptPlaces (nfkc : Str → Str) (content : Str) (edits : List Edit) : List Nat :=
  let normalized := edits.map Edit.normalized
  let base := baseOf nfkc (normalizeToLF content) normalized
  (List.range (fileLines content).length).filter fun i =>
    decide (∀ r ∈ normalized.map (placed nfkc base), ¬ Touches (lines lf base) i r)

/-- The matches of the edits in their order, in the base. -/
structure Matches (nfkc : Str → Str) (content : Str) (edits : List Edit) (rs : List TextReplacement) : Prop where
  perm : rs.Perm ((edits.map Edit.normalized).map
    (placed nfkc (baseOf nfkc (normalizeToLF content) (edits.map Edit.normalized))))
  fits : Fits 0 (baseOf nfkc (normalizeToLF content) (edits.map Edit.normalized)).length rs

/-- Once the matches are replaced, a line still starts where this one does: what stands before it is empty or ends
with a line feed. -/
def StartsLine (nfkc : Str → Str) (content : Str) (edits : List Edit) (rs : List TextReplacement) (i : Nat) : Prop :=
  Ended lf (betweenWith (lines lf (baseOf nfkc (normalizeToLF content) (edits.map Edit.normalized))) rs 0 i)

/-- A line of the file with the line ending that is detected. -/
def restoredLine (content : Str) (i : Nat) : Str :=
  endedBy (detectLineEnding content).text ((fileLines content).getD i ([], []))

/-- A line of the file and the line that it ends in the written file. It is this line, unless an edit has taken away
the line end before it. -/
structure WrittenAs (nfkc : Str → Str) (content : Str) (edits : List Edit) (rs : List TextReplacement) (i : Nat)
    (out : Str) : Prop where
  ends : restoredLine content i <:+ out
  whole : StartsLine nfkc content edits rs i → out = restoredLine content i

theorem untouched_perm {ls : List Str} {rs rs' : List TextReplacement} (h : rs.Perm rs') :
    untouched ls rs = untouched ls rs' := by
  unfold untouched
  refine List.filter_congr fun i _ => decide_eq_decide.mpr ?_
  exact ⟨fun hrs r hr => hrs r (h.mem_iff.mpr hr), fun hrs r hr => hrs r (h.mem_iff.mp hr)⟩

/-- A line of the file, and the line that edits work on. -/
theorem restoreLineEndings_line (content : Str) (ending : LineEnding) (i : Nat) :
    restoreLineEndings ((lines lf (normalizeToLF content)).getD i []) ending =
      endedBy ending.text ((fileLines content).getD i ([], [])) := by
  rw [lines_normalizeToLF, List.getD_eq_getElem?_getD, List.getD_eq_getElem?_getD, List.getElem?_map]
  cases hline : (fileLines content)[i]? with
  | none => cases ending <;> rfl
  | some line => exact restoreLineEndings_endedBy (mem_fileLines (List.mem_of_getElem? hline)) ending

/-- Restoring line endings acts line by line. -/
theorem lines_restoreLineEndings (text : Str) (ending : LineEnding) :
    lines lf (restoreLineEndings text ending) = (lines lf text).map (restoreLineEndings · ending) := by
  cases ending with
  | lf => exact (List.map_id _).symm
  | crlf =>
    induction text with
    | nil => rfl
    | cons u rest ih =>
      have hcons : ∀ s, restoreLineEndings (u :: s) .crlf =
          restoreLineEndings [u] .crlf ++ restoreLineEndings s .crlf := fun s => restoreLineEndings_append .crlf [u] s
      by_cases hu : u = lf
      · subst hu
        have hfirst : restoreLineEndings [lf] .crlf = [cr, lf] := rfl
        rw [hcons, hfirst, lines_cons_lf, List.map_cons, hfirst, ← ih]
        rfl
      · have hfirst : restoreLineEndings [u] .crlf = [u] := by
          show (if u = lf then [cr, lf] else [u]) ++ [] = [u]
          rw [if_neg hu, List.append_nil]
        rw [hcons, hfirst, List.singleton_append, lines, lines, if_neg hu, if_neg hu, ih]
        cases lines lf rest with
        | nil => exact congrArg (fun l => [l]) hfirst.symm
        | cons l ls =>
          show (u :: restoreLineEndings l .crlf) :: _ = restoreLineEndings (u :: l) .crlf :: _
          rw [hcons, hfirst]
          rfl

/-- The lines of the normalized content that no match touches are lines of the new content, in their order. -/
theorem kept_newContent {content : Str} {out : AppliedEditsResult} (hnfkc : IsNfkc nfkc)
    (h : applyEditsToNormalizedContent nfkc content edits path = .ok out) :
    ∃ rs, Replaced nfkc content (edits.map Edit.normalized) out.newContent rs ∧
      (lines lf content).length = (lines lf (baseOf nfkc content (edits.map Edit.normalized))).length ∧
      ∃ outs, outs.Sublist (lines lf out.newContent) ∧
        List.Forall₂ (fun i out => (lines lf content).getD i [] <:+ out ∧
          (Ended lf (betweenWith (lines lf (baseOf nfkc content (edits.map Edit.normalized))) rs 0 i) →
            out = (lines lf content).getD i []))
          (untouched (lines lf (baseOf nfkc content (edits.map Edit.normalized))) rs) outs := by
  obtain ⟨hplaces, rs, hrs⟩ := applyEdits_placed hnfkc h
  obtain ⟨-, -, -, -, -, hnonempty⟩ := applyEdits_ok h
  refine ⟨rs, hrs, ?_⟩
  set base := baseOf nfkc content (edits.map Edit.normalized)
  by_cases hexact : AllExact content (edits.map Edit.normalized)
  · have hsame : base = content := if_pos hexact
    rw [hrs.exact hexact, ← hsame]
    refine ⟨rfl, ?_⟩
    have hin : ∀ r ∈ rs, r.start < base.length := by
      intro r hr
      obtain ⟨edit, hedit, rfl⟩ := List.mem_map.mp (hrs.perm.mem_iff.mp hr)
      have hsought : soughtText nfkc base edit.oldText = edit.oldText := if_pos (hsame ▸ hexact edit hedit)
      have hle := (hplaces edit hedit).1.le
      rw [hsought] at hle
      have hpos := List.length_pos_iff.mpr (hnonempty edit hedit)
      exact Nat.lt_of_lt_of_le (Nat.lt_add_of_pos_right hpos) hle
    have hlined : Lined lf (lines lf base) := lined_lines base
    have hlines := kept_splice hlined (by rw [flatten_lines]; exact hrs.fits) (by rwa [flatten_lines])
    rwa [flatten_lines] at hlines
  · obtain ⟨hlength, groups, hgroups, hnew⟩ := hrs.fuzzy hexact
    rw [hnew]
    exact ⟨hlength, kept_overlay (lined_lines _) (lined_lines _) hlength hgroups hrs.fits.pairwise⟩

/-- The lines that no match touches are written in their order, with the line ending of the file for what
ends them: each ends a line, and is the whole of it where a line still starts. -/
theorem editText_keeps (hnfkc : IsNfkc nfkc) (h : editText nfkc read edits path = .ok written) :
    ∃ text rs outs, written = (stripBom read).1 ++ text ∧ Matches nfkc (stripBom read).2 edits rs ∧
      outs.Sublist (lines lf text) ∧
      List.Forall₂ (WrittenAs nfkc (stripBom read).2 edits rs) (keptPlaces nfkc (stripBom read).2 edits) outs := by
  unfold editText at h
  generalize stripBom read = parts at h ⊢
  obtain ⟨bom, content⟩ := parts
  obtain ⟨out, hout, h⟩ := bind_ok.mp h
  obtain rfl := Except.ok.inj h
  obtain ⟨rs, hrs, hlength, outs, houts, hall⟩ := kept_newContent hnfkc hout
  have hplaces : untouched (lines lf (baseOf nfkc (normalizeToLF content) (edits.map Edit.normalized))) rs =
      keptPlaces nfkc content edits := by
    rw [untouched_perm hrs.perm]
    unfold untouched keptPlaces
    rw [← hlength, lines_normalizeToLF, List.length_map]
  rw [hplaces] at hall
  refine ⟨_, rs, outs.map (restoreLineEndings · (detectLineEnding content)), rfl, ⟨hrs.perm, hrs.fits⟩, ?_, ?_⟩
  · rw [lines_restoreLineEndings]
    exact houts.map _
  · rw [List.forall₂_map_right_iff]
    refine hall.imp fun i line hline => ?_
    have hrestored := restoreLineEndings_line content (detectLineEnding content) i
    obtain ⟨⟨front, hfront⟩, hwhole⟩ := hline
    refine ⟨⟨restoreLineEndings front (detectLineEnding content), ?_⟩, fun hstarts => ?_⟩
    · rw [restoredLine, ← hrestored, ← restoreLineEndings_append, hfront]
    · rw [hwhole hstarts, hrestored]
      rfl

/-- A line is joined to the text before it only by a match that ends where it starts, and whose new text does not end
with a line feed. -/
theorem startsLine {content : Str} {rs : List TextReplacement} (hrs : Matches nfkc content edits rs) {i : Nat}
    (hi : i < (lines lf (baseOf nfkc (normalizeToLF content) (edits.map Edit.normalized))).length)
    (h : ∀ r ∈ rs,
      r.stop = lineStart (lines lf (baseOf nfkc (normalizeToLF content) (edits.map Edit.normalized))) i →
        r.text.getLast? = some lf) : StartsLine nfkc content edits rs i :=
  ended_betweenWith (lined_lines _) (Nat.zero_le i) hi hrs.fits h

/-- A word replaced in a file with a mark and carriage returns: the next line is written as it was. -/
theorem editText_crlf : lit "c\r\n" ∈ lines lf (lit "a\r\nx\r\nc\r\n") := by
  obtain ⟨text, rs, outs, hwritten, hmatches, hsub, hall⟩ :=
    @editText_keeps id (0xFEFF :: lit "a\r\nb\r\nc\r\n") (0xFEFF :: lit "a\r\nx\r\nc\r\n") (lit "f")
      [⟨lit "b", lit "x"⟩] isNfkc_id (by decide +kernel)
  have hstrip : stripBom (0xFEFF :: lit "a\r\nb\r\nc\r\n") = ([0xFEFF], lit "a\r\nb\r\nc\r\n") := rfl
  simp only [hstrip] at hwritten hmatches hall
  obtain rfl := (List.cons.inj hwritten).2
  -- the match ends before the line end of its own line
  have hapart : ∀ r ∈ ([⟨lit "b", lit "x"⟩].map Edit.normalized).map
      (placed id (baseOf id (normalizeToLF (lit "a\r\nb\r\nc\r\n")) ([⟨lit "b", lit "x"⟩].map Edit.normalized))),
      r.stop ≠ lineStart (lines lf (baseOf id (normalizeToLF (lit "a\r\nb\r\nc\r\n"))
        ([⟨lit "b", lit "x"⟩].map Edit.normalized))) 2 := by
    decide +kernel
  have hstarts := startsLine hmatches (i := 2) (by decide +kernel) fun r hr hstop =>
    absurd hstop (hapart r (hmatches.perm.mem_iff.mp hr))
  have hkept : keptPlaces id (lit "a\r\nb\r\nc\r\n") [⟨lit "b", lit "x"⟩] = [0, 2] := by decide +kernel
  rw [hkept] at hall
  obtain ⟨first, _, -, hrest, rfl⟩ := List.forall₂_cons_left_iff.mp hall
  obtain ⟨second, _, hsecond, -, rfl⟩ := List.forall₂_cons_left_iff.mp hrest
  have hline : restoredLine (lit "a\r\nb\r\nc\r\n") 2 = lit "c\r\n" := by decide +kernel
  rw [← hline, ← hsecond.whole hstarts]
  exact hsub.subset (List.mem_cons_of_mem _ List.mem_cons_self)

/-- A line feed becomes the line ending of the file in a line that no match touches, and an edit that takes a line
end away joins the next line to its new text. -/
theorem editText_mixed :
    (editText id (lit "a\r\nb\nc") [⟨lit "a", lit "x"⟩] (lit "f") = .ok (lit "x\r\nb\r\nc") ∧
      keptPlaces id (lit "a\r\nb\nc") [⟨lit "a", lit "x"⟩] = [1, 2] ∧
      (fileLines (lit "a\r\nb\nc"))[1]? = some (lit "b", lit "\n") ∧
      ¬ lit "b\n" <:+: lit "x\r\nb\r\nc") ∧
    editText id (lit "a\nb\n") [⟨lit "a\n", lit "x"⟩] (lit "f") = .ok (lit "xb\n") ∧
      keptPlaces id (lit "a\nb\n") [⟨lit "a\n", lit "x"⟩] = [1] ∧
      (fileLines (lit "a\nb\n"))[1]? = some (lit "b", lit "\n") ∧ lit "b\n" ∉ lines lf (lit "xb\n") := by
  decide +kernel

end Written

end Edits
