import Mathlib.Data.List.Chain
import ContextCompaction.Edits.Diff

/-!
# The fuzzy form

* `IsNfkc`: what the code relies on of `text.normalize("NFKC")`.
* `Normal`: the texts in fuzzy form. `normal_normalize`: the form is reached in one step,
  `Normal.normalize`: and is its own form.
* `Normal.normalize_part`: the form of a part of such a text starts the part, so that only white space at
  its end is gone.
-/

namespace Edits

open Js Sequences

/-- Normalization form KC: a text in this form stays, line feeds stay in place, each part of a text in this form is in
this form, and so is the text with its quotes, dashes and spaces in their ASCII form. -/
structure IsNfkc (nfkc : Str → Str) : Prop where
  idem : ∀ s, nfkc (nfkc s) = nfkc s
  line_feed : ∀ a b, nfkc (a ++ lf :: b) = nfkc a ++ lf :: nfkc b
  part : ∀ s t, nfkc s = s → t <:+: s → nfkc t = t
  ascii : ∀ s, nfkc s = s → nfkc (toAscii s) = toAscii s

/-! ## Units -/

/-- One unit in its ASCII form. -/
def asciiUnit (u : UInt16) : UInt16 :=
  if isSingleQuote u then 0x27 else if isDoubleQuote u then 0x22 else if isDash u then 0x2D
  else if isSpecialSpace u then 0x20 else u

/-- The replacements act unit by unit. -/
theorem toAscii_eq (s : Str) : toAscii s = s.map asciiUnit := by
  unfold toAscii replaceUnits
  simp only [List.map_map]
  refine List.map_congr_left fun u _ => ?_
  simp only [Function.comp_apply, asciiUnit]
  by_cases h₁ : isSingleQuote u = true
  · rw [if_pos h₁, if_pos h₁]
    rfl
  · rw [if_neg h₁, if_neg h₁]
    by_cases h₂ : isDoubleQuote u = true
    · rw [if_pos h₂, if_pos h₂]
      rfl
    · rw [if_neg h₂, if_neg h₂]
      by_cases h₃ : isDash u = true
      · rw [if_pos h₃, if_pos h₃]
        rfl
      · rw [if_neg h₃, if_neg h₃]

/-- Quotes and dashes are no white space. -/
theorem not_isSpace {u : UInt16} (h : isSingleQuote u = true ∨ isDoubleQuote u = true ∨ isDash u = true) :
    isSpace u = false := by
  simp only [isSingleQuote, isDoubleQuote, isDash, Bool.and_eq_true, Bool.or_eq_true, decide_eq_true_eq,
    beq_iff_eq, UInt16.le_iff_toNat_le, ← UInt16.toNat_inj, UInt16.reduceToNat] at h
  simp only [isSpace, Bool.or_eq_false_iff, Bool.and_eq_false_iff, decide_eq_false_iff_not, beq_eq_false_iff_ne,
    ne_eq, UInt16.le_iff_toNat_le, ← UInt16.toNat_inj, UInt16.reduceToNat]
  omega

theorem isSpace_of_special {u : UInt16} (h : isSpecialSpace u = true) : isSpace u = true ∧ u ≠ lf := by
  simp only [isSpecialSpace, lf, Bool.and_eq_true, Bool.or_eq_true, decide_eq_true_eq, beq_iff_eq, ne_eq,
    UInt16.le_iff_toNat_le, ← UInt16.toNat_inj, UInt16.reduceToNat] at h ⊢
  simp only [isSpace, Bool.or_eq_true, Bool.and_eq_true, decide_eq_true_eq, beq_iff_eq, UInt16.le_iff_toNat_le,
    ← UInt16.toNat_inj, UInt16.reduceToNat]
  omega

/-- A unit stays, becomes a quote or a dash that was one, or becomes the space that it was. -/
theorem asciiUnit_cases (u : UInt16) :
    asciiUnit u = u ∨
      (isSpace u = false ∧ (asciiUnit u = 0x27 ∨ asciiUnit u = 0x22 ∨ asciiUnit u = 0x2D)) ∨
      ((isSpace u = true ∧ u ≠ lf) ∧ asciiUnit u = 0x20) := by
  unfold asciiUnit
  split
  · next h => exact .inr (.inl ⟨not_isSpace (.inl h), .inl rfl⟩)
  · split
    · next h => exact .inr (.inl ⟨not_isSpace (.inr (.inl h)), .inr (.inl rfl)⟩)
    · split
      · next h => exact .inr (.inl ⟨not_isSpace (.inr (.inr h)), .inr (.inr rfl)⟩)
      · split
        · next h => exact .inr (.inr ⟨isSpace_of_special h, rfl⟩)
        · exact .inl rfl

@[simp] theorem isSpace_asciiUnit (u : UInt16) : isSpace (asciiUnit u) = isSpace u := by
  rcases asciiUnit_cases u with h | ⟨hu, h | h | h⟩ | ⟨⟨hu, -⟩, h⟩
  · rw [h]
  all_goals
    rw [h, hu]
    rfl

@[simp] theorem asciiUnit_eq_lf {u : UInt16} : asciiUnit u = lf ↔ u = lf := by
  rcases asciiUnit_cases u with h | ⟨hu, h | h | h⟩ | ⟨⟨-, hu⟩, h⟩
  · rw [h]
  all_goals
    rw [h]
    refine iff_of_false (by decide) ?_
    rintro rfl
    first | exact hu rfl | exact absurd hu (by decide)

theorem asciiUnit_asciiUnit (u : UInt16) : asciiUnit (asciiUnit u) = asciiUnit u := by
  rcases asciiUnit_cases u with h | ⟨-, h | h | h⟩ | ⟨-, h⟩
  · rw [h, h]
  all_goals
    rw [h]
    rfl

/-! ## White space at the end of lines -/

/-- The text without white space at the end of its lines. -/
def trimLines : Str → Str
  | [] => []
  | u :: rest =>
    if isSpace u = true ∧ u ≠ lf ∧ ((trimLines rest).head?.getD lf = lf) then trimLines rest
    else u :: trimLines rest

/-- A unit is not white space at the end of the line that the next one ends. -/
def NotTrailing (u v : UInt16) : Prop := ¬ (isSpace u = true ∧ u ≠ lf ∧ v = lf)

/-- No white space stands at the end of a line that a line feed ends. -/
def Trimmed (s : Str) : Prop := s.IsChain NotTrailing

theorem Trimmed.part {s t : Str} (h : Trimmed s) (ht : t <:+: s) : Trimmed t :=
  List.IsChain.infix h ht

theorem trimEnd_cons (u : UInt16) (s : Str) :
    trimEnd (u :: s) = if trimEnd s = [] ∧ isSpace u = true then [] else u :: trimEnd s := by
  unfold trimEnd List.rdropWhile
  rw [List.reverse_cons, List.dropWhile_append]
  simp only [List.reverse_eq_nil_iff, List.isEmpty_iff]
  by_cases h : List.dropWhile isSpace s.reverse = []
  · rw [if_pos h, h]
    by_cases hu : isSpace u = true
    · rw [if_pos ⟨rfl, hu⟩, List.dropWhile_cons_of_pos hu]
      rfl
    · rw [if_neg fun hand => hu hand.2, List.dropWhile_cons_of_neg hu]
      rfl
  · rw [if_neg h, if_neg fun hand => h hand.1, List.reverse_append, List.reverse_singleton, List.singleton_append]

theorem trimEnd_starts (s : Str) : trimEnd s <+: s := List.rdropWhile_prefix isSpace s

/-- The head of the joined lines is a line feed, or there is none, if the first line is empty. -/
theorem head?_intercalate {l : Str} {ls : List Str} (h : lf ∉ l) :
    ([lf].intercalate (l :: ls)).head?.getD lf = lf ↔ l = [] := by
  cases l with
  | nil => cases ls <;> simp
  | cons u l =>
    have hu : u ≠ lf := fun hu => h (hu ▸ List.mem_cons_self)
    cases ls <;> simpa using hu

/-- The pieces between line feeds are parts without line feeds. -/
theorem mem_splitOn {s l : Str} (h : l ∈ s.splitOn lf) : lf ∉ l ∧ l <:+: s := by
  by_cases hlf : lf ∈ s
  · obtain ⟨a, b, rfl, ha⟩ := List.eq_append_cons_of_mem hlf
    rw [List.splitOn_append_cons_self_of_not_mem ha, List.mem_cons] at h
    obtain rfl | h := h
    · exact ⟨ha, (List.prefix_append _ _).isInfix⟩
    · have hrest := mem_splitOn h
      exact ⟨hrest.1, hrest.2.trans ((List.suffix_cons _ _).trans (List.suffix_append _ _)).isInfix⟩
  · rw [List.splitOn_eq_singleton hlf, List.mem_singleton] at h
    subst h
    exact ⟨hlf, List.infix_refl _⟩
termination_by s.length
decreasing_by
  subst_vars
  rw [List.length_append, List.length_cons]
  omega

/-- Trimming the ends of the lines is trimming the text at once. -/
theorem intercalate_trimEnd (s : Str) : [lf].intercalate ((s.splitOn lf).map trimEnd) = trimLines s := by
  induction s with
  | nil => rfl
  | cons u rest ih =>
    obtain ⟨l, ls, hl⟩ := List.exists_cons_of_ne_nil (List.splitOn_ne_nil lf rest)
    have hfree : lf ∉ trimEnd l := fun h =>
      (mem_splitOn (hl ▸ List.mem_cons_self)).1 ((trimEnd_starts l).subset h)
    rw [List.splitOn_cons_eq_if_modifyHead, trimLines, ← ih, hl, List.map_cons]
    by_cases hu : u = lf
    · rw [if_pos (by simpa using hu), if_neg fun h => h.2.1 hu, List.map_cons, List.map_cons, hu]
      rfl
    · rw [if_neg (by simpa using hu), List.modifyHead_cons, List.map_cons, trimEnd_cons]
      have hhead := @head?_intercalate _ (ls.map trimEnd) hfree
      by_cases hspace : trimEnd l = [] ∧ isSpace u = true
      · rw [if_pos hspace, if_pos ⟨hspace.2, hu, hhead.mpr hspace.1⟩, hspace.1]
      · rw [if_neg hspace, if_neg fun h => hspace ⟨hhead.mp h.2.2, h.1⟩]
        cases ls <;> simp

/-- A text whose lines end without white space stays, up to white space at its end. -/
theorem Trimmed.starts {s : Str} (h : Trimmed s) : trimLines s <+: s := by
  induction s with
  | nil => exact List.prefix_refl _
  | cons u rest ih =>
    have hrest := ih h.tail
    rw [trimLines]
    split
    · next hdrop =>
      -- the unit goes only if nothing but white space follows
      cases hr : trimLines rest with
      | nil => exact List.nil_prefix
      | cons v r =>
        rw [hr] at hrest hdrop
        obtain ⟨tail, rfl⟩ := hrest
        rw [List.cons_append] at h
        exact absurd ⟨hdrop.1, hdrop.2.1, hdrop.2.2⟩ (List.isChain_cons_cons.mp h).1
    · exact List.cons_prefix_cons.mpr ⟨rfl, hrest⟩

/-- A text whose lines all end without white space stays. -/
theorem trimLines_eq_self {s : Str} (h : Trimmed (s ++ [lf])) : trimLines s = s := by
  induction s with
  | nil => rfl
  | cons u rest ih =>
    have hrest := ih h.tail
    rw [trimLines, hrest, if_neg]
    rintro ⟨hspace, hlf, hhead⟩
    cases rest with
    | nil => exact (List.isChain_cons_cons.mp h).1 ⟨hspace, hlf, rfl⟩
    | cons v rest => exact (List.isChain_cons_cons.mp h).1 ⟨hspace, hlf, hhead⟩

/-- The lines in front of a text are trimmed no further than alone. -/
theorem trimLines_append (s t : Str) :
    ∃ front, trimLines (s ++ t) = front ++ trimLines t ∧ trimLines s <+: front := by
  induction s with
  | nil => exact ⟨[], rfl, List.prefix_refl _⟩
  | cons u s ih =>
    obtain ⟨front, hfront, hstarts⟩ := ih
    -- what follows the unit within its own text follows it here
    have hhead : trimLines s = [] ∨ (trimLines (s ++ t)).head? = (trimLines s).head? := by
      cases hs : trimLines s with
      | nil => exact .inl rfl
      | cons v rest =>
        rw [hs] at hstarts
        obtain ⟨tail, rfl⟩ := hstarts
        rw [hfront]
        exact .inr rfl
    rw [List.cons_append, trimLines, trimLines]
    split
    next hdrop =>
      have hdrop' : (trimLines s).head?.getD lf = lf := by
        rcases hhead with hnil | hhead
        · rw [hnil]
          rfl
        · rw [← hhead]
          exact hdrop.2.2
      refine ⟨front, hfront, ?_⟩
      rw [if_pos ⟨hdrop.1, hdrop.2.1, hdrop'⟩]
      exact hstarts
    next hkeep =>
      refine ⟨u :: front, by rw [hfront, List.cons_append], ?_⟩
      split
      next hdrop =>
        rcases hhead with hnil | hhead
        · rw [hnil]
          exact List.nil_prefix
        · exact absurd ⟨hdrop.1, hdrop.2.1, by rw [hhead]; exact hdrop.2.2⟩ hkeep
      next => exact List.cons_prefix_cons.mpr ⟨rfl, hstarts⟩

/-- No trimmed line ends in white space. -/
theorem trimmed_trimLines (s : Str) : Trimmed (trimLines s ++ [lf]) := by
  induction s with
  | nil => exact .singleton _
  | cons u rest ih =>
    rw [trimLines]
    split
    · exact ih
    · next hkeep =>
      cases hr : trimLines rest with
      | nil =>
        rw [hr] at hkeep
        exact List.isChain_cons_cons.mpr ⟨fun h => hkeep ⟨h.1, h.2.1, rfl⟩, .singleton _⟩
      | cons v r =>
        rw [hr] at hkeep ih
        exact List.isChain_cons_cons.mpr ⟨fun h => hkeep ⟨h.1, h.2.1, h.2.2⟩, ih⟩

theorem trimmed_map {s : Str} (h : Trimmed s) : Trimmed (s.map asciiUnit) := by
  refine List.isChain_map _ |>.mpr (h.imp fun u v huv => ?_)
  unfold NotTrailing
  rw [isSpace_asciiUnit, asciiUnit_eq_lf, Ne, asciiUnit_eq_lf]
  exact huv

/-! ## The normal form -/

section Normal

variable {nfkc : Str → Str} {s t : Str}

/-- The fuzzy form. -/
structure Normal (nfkc : Str → Str) (s : Str) : Prop where
  nfkc : nfkc s = s
  ascii : ∀ u ∈ s, asciiUnit u = u
  trimmed : Trimmed (s ++ [lf])

theorem normalize_eq (nfkc : Str → Str) (s : Str) :
    normalizeForFuzzyMatch nfkc s = (trimLines (nfkc s)).map asciiUnit := by
  rw [normalizeForFuzzyMatch, toAscii_eq, intercalate_trimEnd]

theorem IsNfkc.nil (h : IsNfkc nfkc) : nfkc [] = [] :=
  h.part (nfkc []) [] (h.idem []) List.nil_infix

/-- Lines in normalization form make a text in this form. -/
theorem IsNfkc.intercalate (h : IsNfkc nfkc) {ls : List Str} (hls : ∀ l ∈ ls, nfkc l = l) :
    nfkc ([lf].intercalate ls) = [lf].intercalate ls := by
  induction ls with
  | nil => exact h.nil
  | cons l ls ih =>
    obtain ⟨hl, hls⟩ := List.forall_mem_cons.mp hls
    cases ls with
    | nil => rwa [List.intercalate_singleton]
    | cons l' ls =>
      rw [List.intercalate_cons_cons, List.append_assoc, List.singleton_append, h.line_feed, hl, ih hls]

theorem IsNfkc.trimLines (h : IsNfkc nfkc) (hs : nfkc s = s) : nfkc (trimLines s) = trimLines s := by
  rw [← intercalate_trimEnd]
  refine h.intercalate fun line hline => ?_
  obtain ⟨l, hl, rfl⟩ := List.mem_map.mp hline
  exact h.part s _ hs ((trimEnd_starts l).isInfix.trans (mem_splitOn hl).2)

theorem normal_normalize (h : IsNfkc nfkc) (s : Str) : Normal nfkc (normalizeForFuzzyMatch nfkc s) := by
  rw [normalize_eq]
  refine ⟨?_, ?_, ?_⟩
  · rw [← toAscii_eq]
    exact h.ascii _ (h.trimLines (h.idem s))
  · intro u hu
    obtain ⟨v, -, rfl⟩ := List.mem_map.mp hu
    exact asciiUnit_asciiUnit v
  · have htrimmed := trimmed_map (trimmed_trimLines (nfkc s))
    rwa [List.map_append, List.map_singleton, asciiUnit_eq_lf.mpr rfl] at htrimmed

theorem map_asciiUnit (h : ∀ u ∈ s, asciiUnit u = u) : s.map asciiUnit = s := by
  rw [List.map_congr_left h, List.map_id']

/-- A text in fuzzy form is its own form. -/
theorem Normal.normalize (h : Normal nfkc s) : normalizeForFuzzyMatch nfkc s = s := by
  rw [normalize_eq, h.nfkc, trimLines_eq_self h.trimmed, map_asciiUnit h.ascii]

/-- The form of a part of such a text is the part without white space at the end of its lines. -/
theorem Normal.normalize_part (hnfkc : IsNfkc nfkc) (h : Normal nfkc s) (ht : t <:+: s) :
    normalizeForFuzzyMatch nfkc t = trimLines t := by
  have hstarts : trimLines t <+: t := Trimmed.starts (h.trimmed.part (ht.trans (List.prefix_append _ _).isInfix))
  rw [normalize_eq, hnfkc.part s t h.nfkc ht]
  exact map_asciiUnit fun u hu => h.ascii u (ht.subset (hstarts.subset hu))

end Normal

end Edits
