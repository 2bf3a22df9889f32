import Mathlib

/-!
# The pieces between separators

A sequence is the pieces between its separators. What is added at its end goes to the last piece, or,
behind one more separator, to a piece of its own.

* `pieceStart`, `pieceEnd`: where a piece is in the sequence.
* `splitOn_append_of_notMem`, `splitOn_concat_self`: the pieces of a longer sequence.
-/

namespace Sequences

variable {α : Type} {pieces more : List (List α)} {piece x : List α} {i : Nat}

/-- Where the piece `i` starts, with separators of length one. -/
def pieceStart (pieces : List (List α)) (i : Nat) : Nat :=
  ((pieces.take i).map fun piece => piece.length + 1).sum

/-- Where the piece `i` ends. -/
def pieceEnd (pieces : List (List α)) (i : Nat) : Nat :=
  pieceStart pieces i + (pieces[i]?.getD []).length

@[simp] theorem pieceStart_zero : pieceStart pieces 0 = 0 := rfl

theorem pieceStart_append (h : i ≤ pieces.length) :
    pieceStart (pieces ++ more) i = pieceStart pieces i := by
  rw [pieceStart, List.take_append_of_le_length h, pieceStart]

theorem pieceEnd_append (h : i < pieces.length) : pieceEnd (pieces ++ more) i = pieceEnd pieces i := by
  rw [pieceEnd, pieceStart_append (Nat.le_of_lt h), List.getElem?_append_left h, pieceEnd]

theorem pieceEnd_concat :
    pieceEnd (pieces ++ [piece]) pieces.length = pieceStart pieces pieces.length + piece.length := by
  rw [pieceEnd, pieceStart_append (Nat.le_refl _), List.getElem?_concat_length, Option.getD_some]

theorem pieceStart_concat : pieceStart (pieces ++ [piece]) (pieces.length + 1) =
    pieceStart pieces pieces.length + piece.length + 1 := by
  simp [pieceStart, List.take_of_length_le, Nat.add_assoc]

/-! ## More at the end -/

theorem intercalate_concat {separator : List α} :
    separator.intercalate (pieces ++ [piece ++ x]) = separator.intercalate (pieces ++ [piece]) ++ x := by
  induction pieces with
  | nil => simp
  | cons first pieces ih =>
    have hne (last : List α) : pieces ++ [last] ≠ [] := by simp
    rw [List.cons_append, List.cons_append, List.intercalate_cons_of_ne_nil (hne _),
      List.intercalate_cons_of_ne_nil (hne _), ih]
    simp only [List.append_assoc]

theorem intercalate_concat_nil {separator : List α} :
    separator.intercalate (pieces ++ [piece] ++ [[]]) = separator.intercalate (pieces ++ [piece]) ++ separator := by
  induction pieces with
  | nil => simp [List.intercalate_cons_cons]
  | cons first pieces ih =>
    rw [List.cons_append, List.cons_append, List.intercalate_cons_of_ne_nil (by simp),
      List.intercalate_cons_of_ne_nil (by simp), ih]
    simp only [List.append_assoc]

section

variable [BEq α] [LawfulBEq α] {separator : α} {l : List α}

theorem splitOn_concat_self (h : l.splitOn separator = pieces ++ [piece]) :
    (l ++ [separator]).splitOn separator = pieces ++ [piece] ++ [[]] := by
  rw [List.splitOn_append_cons_self, h, List.splitOn_nil]

/-- Text without a separator extends the last piece. -/
theorem splitOn_append_of_notMem (hx : separator ∉ x) (h : l.splitOn separator = pieces ++ [piece]) :
    (l ++ x).splitOn separator = pieces ++ [piece ++ x] := by
  induction l generalizing pieces piece with
  | nil =>
    obtain ⟨rfl, hpiece⟩ := List.append_inj' (show [] ++ [[]] = pieces ++ [piece] from (h.symm.trans (List.splitOn_nil _)).symm) rfl
    rw [← List.singleton_inj.mp hpiece]
    exact List.splitOn_eq_singleton hx
  | cons c l ih =>
    obtain ⟨before, last, hl⟩ :=
      (List.eq_nil_or_concat' (l.splitOn separator)).resolve_left (List.splitOn_ne_nil separator l)
    rw [List.splitOn_cons_eq_if_modifyHead, hl] at h
    rw [List.cons_append, List.splitOn_cons_eq_if_modifyHead, ih hl]
    split_ifs at h ⊢ with hc
    · obtain ⟨rfl, hlast⟩ := List.append_inj' (show [] :: before ++ [last] = pieces ++ [piece] from h) rfl
      rw [List.singleton_inj.mp hlast, List.cons_append]
    · cases before with
      | nil =>
        obtain ⟨rfl, hlast⟩ := List.append_inj' (show [] ++ [c :: last] = pieces ++ [piece] from h) rfl
        rw [← List.singleton_inj.mp hlast]
        rfl
      | cons first before =>
        obtain ⟨rfl, hlast⟩ := List.append_inj' (show (c :: first) :: before ++ [last] = pieces ++ [piece] from h) rfl
        rw [← List.singleton_inj.mp hlast]
        rfl

theorem notMem_of_mem_splitOn (h : piece ∈ l.splitOn separator) : separator ∉ piece := by
  induction l generalizing piece with
  | nil =>
    rw [List.splitOn_nil, List.mem_singleton] at h
    simp [h]
  | cons c l ih =>
    obtain ⟨first, rest, hl⟩ := List.exists_cons_of_ne_nil (List.splitOn_ne_nil separator l)
    rw [List.splitOn_cons_eq_if_modifyHead] at h
    rw [hl] at h ih
    split_ifs at h with hc
    · obtain rfl | h := List.mem_cons.mp h
      · simp
      · exact ih h
    · obtain rfl | h := List.mem_cons.mp h
      · have hfirst := ih List.mem_cons_self
        grind
      · exact ih (List.mem_cons_of_mem _ h)

/-- The sequence is its pieces with separators between them. -/
theorem intercalate_of_splitOn (h : l.splitOn separator = pieces) : [separator].intercalate pieces = l :=
  h ▸ List.intercalate_splitOn separator

theorem length_of_splitOn (h : l.splitOn separator = pieces ++ [piece]) :
    l.length = pieceStart pieces pieces.length + piece.length := by
  rw [← intercalate_of_splitOn h]
  clear h
  induction pieces with
  | nil => simp
  | cons first pieces ih =>
    rw [List.cons_append, List.intercalate_cons_of_ne_nil (by simp), List.length_append,
      List.length_append, ih]
    simp [pieceStart]
    omega

end

end Sequences
