import Mathlib.Data.List.Chain
import Mathlib.Data.List.Infix

/-!
# Sections

A section is a blank line, a title and lines, where a blank line is two separators in a row. Where
the title and the lines hold no blank line, a text ends with at most one section of that title.

* `section_unique`: two sections that a text ends with have the same lines.
-/

namespace Sequences

variable {α : Type} (sep : α)

/-- Two separators do not stand next to each other. -/
def NoBlank (l : List α) : Prop := l.IsChain fun a b => ¬ (a = sep ∧ b = sep)

/-- A line of a section. -/
structure IsLine (l : List α) : Prop where
  nonempty : l ≠ []
  sep_notMem : sep ∉ l

def joinLines (lines : List (List α)) : List α := [sep].intercalate lines

/-- A blank line, the title, and the lines. -/
def sectionText (title : List α) (lines : List (List α)) : List α :=
  sep :: sep :: (title ++ joinLines sep lines)

variable {sep}

theorem IsLine.noBlank {l : List α} (h : sep ∉ l) : NoBlank sep l := by
  induction l with
  | nil => exact .nil
  | cons a l ih =>
    rw [List.mem_cons, not_or] at h
    exact List.isChain_cons.mpr ⟨fun b _ hab => h.1 hab.1.symm, ih h.2⟩

/-- Joined lines start with the first unit of the first line. -/
theorem head?_joinLines {lines : List (List α)} (h : ∀ l ∈ lines, IsLine sep l) :
    ∀ a ∈ (joinLines sep lines).head?, a ≠ sep := by
  cases lines with
  | nil => exact fun _ ha => nomatch ha
  | cons l lines =>
    obtain ⟨hne, hsep⟩ := h l List.mem_cons_self
    obtain ⟨b, l, rfl⟩ := List.exists_cons_of_ne_nil hne
    intro a ha
    rw [joinLines, List.intercalate_cons_cons_left, List.head?_cons, Option.mem_some_iff] at ha
    rintro rfl
    exact hsep (ha ▸ List.mem_cons_self)

/-- Joined lines have no empty line among them. -/
theorem noBlank_joinLines {lines : List (List α)} (h : ∀ l ∈ lines, IsLine sep l) :
    NoBlank sep (joinLines sep lines) := by
  induction lines with
  | nil => exact .nil
  | cons l lines ih =>
    rw [List.forall_mem_cons] at h
    cases lines with
    | nil =>
      rw [joinLines, List.intercalate_singleton]
      exact IsLine.noBlank h.1.sep_notMem
    | cons l' lines =>
      rw [joinLines, List.intercalate_cons_cons, List.append_assoc]
      refine List.isChain_append.mpr ⟨IsLine.noBlank h.1.sep_notMem, ?_, ?_⟩
      · refine List.isChain_cons.mpr ⟨?_, ih h.2⟩
        exact fun a ha hab => head?_joinLines h.2 a ha hab.2
      · rintro a ha b - ⟨rfl, -⟩
        exact h.1.sep_notMem (List.mem_of_getLast? ha)

/-- Joined lines end with the last unit of the last line. -/
theorem getLast?_joinLines {lines : List (List α)} (h : ∀ l ∈ lines, IsLine sep l) :
    ∀ a ∈ (joinLines sep lines).getLast?, a ≠ sep := by
  induction lines with
  | nil => exact fun _ ha => nomatch ha
  | cons l lines ih =>
    rw [List.forall_mem_cons] at h
    obtain ⟨⟨hne, hsep⟩, h⟩ := h
    cases lines with
    | nil =>
      rw [joinLines, List.intercalate_singleton]
      rintro a ha rfl
      exact hsep (List.mem_of_getLast? ha)
    | cons l' lines =>
      intro a ha
      refine ih h a ?_
      have hrest : joinLines sep (l' :: lines) ≠ [] := by
        obtain ⟨b, hb⟩ := List.exists_mem_of_ne_nil _ (h l' List.mem_cons_self).nonempty
        refine List.ne_nil_of_mem (a := b) ?_
        cases lines with
        | nil => simpa [joinLines] using hb
        | cons => simp [joinLines, hb]
      rw [joinLines, List.intercalate_cons_cons] at ha
      change a ∈ (l ++ [sep] ++ joinLines sep (l' :: lines)).getLast? at ha
      rwa [List.getLast?_append_of_ne_nil _ hrest] at ha

/-- Behind joined lines no section starts before their end. -/
theorem not_blank_joinLines {lines : List (List α)} (h : ∀ l ∈ lines, IsLine sep l) {rest title : List α}
    {i : Nat} (hi : i < (joinLines sep lines).length) :
    ¬ sep :: sep :: title <+: (joinLines sep lines ++ rest).drop i := by
  rintro ⟨t, ht⟩
  have hfirst : (joinLines sep lines)[i]? = some sep := by
    have h0 := congrArg (·[0]?) ht.symm
    rwa [List.getElem?_drop, Nat.add_zero, List.getElem?_append_left hi] at h0
  rcases Nat.lt_or_ge (i + 1) (joinLines sep lines).length with hlt | hge
  · have hsecond : (joinLines sep lines)[i + 1]? = some sep := by
      have h1 := congrArg (·[1]?) ht.symm
      rwa [List.getElem?_drop, List.getElem?_append_left hlt] at h1
    rw [List.getElem?_eq_getElem hi, Option.some.injEq] at hfirst
    rw [List.getElem?_eq_getElem hlt, Option.some.injEq] at hsecond
    exact List.isChain_iff_getElem.mp (noBlank_joinLines h) i hlt ⟨hfirst, hsecond⟩
  · refine getLast?_joinLines h sep ?_ rfl
    rw [List.getLast?_eq_getElem?, Option.mem_def, ← hfirst]
    congr 1
    omega

/-- Behind its first unit a section holds no blank line. -/
theorem noBlank_section {title : List α} (ht : NoBlank sep (sep :: title)) {lines : List (List α)}
    (h : ∀ l ∈ lines, IsLine sep l) : NoBlank sep (sep :: (title ++ joinLines sep lines)) := by
  rw [← List.cons_append]
  refine List.isChain_append.mpr ⟨ht, noBlank_joinLines h, ?_⟩
  exact fun a _ b hb hab => head?_joinLines h b hb hab.2

/-- A section that ends with another one starts where it does. -/
theorem section_eq_of_suffix {title title' : List α} (ht : NoBlank sep (sep :: title))
    {lines lines' : List (List α)} (h : ∀ l ∈ lines, IsLine sep l)
    (hs : sectionText sep title' lines' <:+ sectionText sep title lines) :
    sectionText sep title' lines' = sectionText sep title lines := by
  obtain ⟨before, heq⟩ := hs
  cases before with
  | nil => exact heq
  | cons a before =>
    -- The blank line of the shorter section would stand inside the longer one.
    have htail := (List.cons.inj heq).2
    have hno := noBlank_section ht h
    rw [← htail] at hno
    have hpair := (List.isChain_append.mp hno).2.1
    exact absurd ⟨rfl, rfl⟩ ((List.isChain_cons_cons.mp hpair).1)

variable [DecidableEq α]

/-- Lines are known from their joined text. -/
theorem joinLines_inj {lines lines' : List (List α)} (h : ∀ l ∈ lines, IsLine sep l)
    (h' : ∀ l ∈ lines', IsLine sep l) (heq : joinLines sep lines = joinLines sep lines') :
    lines = lines' := by
  have hempty : ∀ {ls : List (List α)}, (∀ l ∈ ls, IsLine sep l) → joinLines sep ls = [] →
      ls = [] := by
    intro ls hls hnil
    cases ls with
    | nil => rfl
    | cons l ls =>
      obtain ⟨b, l, rfl⟩ := List.exists_cons_of_ne_nil (hls l List.mem_cons_self).nonempty
      rw [joinLines, List.intercalate_cons_cons_left] at hnil
      cases hnil
  by_cases hl : lines = []
  · subst hl
    exact (hempty h' heq.symm).symm
  · by_cases hl' : lines' = []
    · subst hl'
      exact hempty h heq
    · rw [← List.splitOn_intercalate sep (fun l hm => (h l hm).sep_notMem) hl,
        ← List.splitOn_intercalate sep (fun l hm => (h' l hm).sep_notMem) hl']
      exact congrArg (List.splitOn sep) heq

/-- A text ends with at most one section of a title. -/
theorem section_unique {title : List α} (ht : NoBlank sep (sep :: title)) {text : List α}
    {lines lines' : List (List α)} (h : ∀ l ∈ lines, IsLine sep l) (h' : ∀ l ∈ lines', IsLine sep l)
    (hs : sectionText sep title lines <:+ text) (hs' : sectionText sep title lines' <:+ text) :
    lines = lines' := by
  have heq : sectionText sep title lines = sectionText sep title lines' := by
    rcases List.suffix_or_suffix_of_suffix hs hs' with hss | hss
    · exact section_eq_of_suffix ht h' hss
    · exact (section_eq_of_suffix ht h hss).symm
  have hjoin := (List.cons.inj (List.cons.inj heq).2).2
  exact joinLines_inj h h' (List.append_cancel_left hjoin)

end Sequences
