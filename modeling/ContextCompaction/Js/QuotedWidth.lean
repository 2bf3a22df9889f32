import ContextCompaction.Js.Json

/-!
# The bytes of a quoted string

`quotedWidth s` counts the UTF-8 bytes of `s` within JSON quotes. It is no monotone function of a
prefix: half a surrogate pair takes six bytes where the pair takes four.

* `quotedWidth_append`: the width of two parts between which no pair is cut.
* `quotedWidth_le_of_cut`: a prefix is no wider than a text with a few more units behind it.
-/

namespace Js

/-- A pair takes four bytes. -/
theorem length_encodePoint_pairPoint (u v : UInt16) : (encodePoint (pairPoint u v)).length = 4 := by
  have hbig : ¬ pairPoint u v < 0x10000 := by
    unfold pairPoint
    omega
  unfold encodePoint
  rw [if_neg (by omega), if_neg (by omega), if_neg hbig]
  rfl

/-- The bytes between the quotes. -/
def quotedWidth (s : Str) : Nat := byteLength (quoteUnits s)

/-- The bytes of a unit that is no half of a pair. -/
def unitWidth (u : UInt16) : Nat := byteLength (quoteUnit u)

@[simp] theorem quotedWidth_nil : quotedWidth [] = 0 := rfl

@[simp] theorem quotedWidth_singleton (u : UInt16) : quotedWidth [u] = unitWidth u := rfl

theorem quotedWidth_pair {u v : UInt16} (hu : isHigh u = true) (hv : isLow v = true) (s : Str) :
    quotedWidth (u :: v :: s) = 4 + quotedWidth s := by
  have hpair : wellFormed [u, v] = true := by simp [wellFormed, hu, hv]
  have hfour : byteLength [u, v] = 4 := by
    simp only [byteLength, utf8, hu, hv, Bool.and_self, ↓reduceIte, List.append_nil,
      length_encodePoint_pairPoint]
  have hunits : quoteUnits (u :: v :: s) = [u, v] ++ quoteUnits s := by simp [quoteUnits, hu, hv]
  rw [quotedWidth, hunits, byteLength_append hpair, hfour]
  rfl

theorem quotedWidth_cons {u v : UInt16} (h : (isHigh u && isLow v) = false) (s : Str) :
    quotedWidth (u :: v :: s) = unitWidth u + quotedWidth (v :: s) := by
  have hunits : quoteUnits (u :: v :: s) = quoteUnit u ++ quoteUnits (v :: s) := by
    simp [quoteUnits, h]
  rw [quotedWidth, hunits, byteLength_append (printable_quoteUnit u).1]
  rfl

/-! ## Bounds -/

theorem length_le_byteLength (s : Str) : s.length ≤ byteLength s := by
  have hpoint : ∀ n, 1 ≤ (encodePoint n).length := by
    intro n
    unfold encodePoint
    split_ifs <;> simp
  have hunit : ∀ u, 1 ≤ (encodeUnit u).length := by
    intro u
    unfold encodeUnit
    split_ifs <;> exact hpoint _
  unfold byteLength
  induction s using utf8.induct with
  | case1 => exact Nat.le_refl 0
  | case2 u => exact hunit u
  | case3 u v s h ih =>
    simp only [utf8, h, ↓reduceIte, List.length_append, List.length_cons, length_encodePoint_pairPoint]
    omega
  | case4 u v s h ih =>
    have hu := hunit u
    simp only [utf8, h, Bool.false_eq_true, ↓reduceIte, List.length_append, List.length_cons] at ih ⊢
    omega

theorem byteLength_of_ascii {s : Str} (h : ∀ u ∈ s, u < 0x80) : byteLength s = s.length := by
  induction s with
  | nil => rfl
  | cons u s ih =>
    have hu := h u List.mem_cons_self
    have hplain : isHigh u = false ∧ isLow u = false := by
      simp only [isHigh, isLow]
      grind
    have hone : byteLength [u] = 1 := by
      simp only [byteLength, utf8, encodeUnit, hplain, Bool.or_self, Bool.false_eq_true, ↓reduceIte]
      rw [encodePoint, if_pos (by simpa [UInt16.lt_iff_toNat_lt] using hu)]
      rfl
    rw [← List.singleton_append, byteLength_append (by simp [wellFormed, hplain]), hone,
      ih fun v hv => h v (List.mem_cons_of_mem _ hv), List.length_append, List.length_singleton]

theorem length_stringifyFieldsRest {fields : List (Str × Json)} {k : Str} {v : Json}
    (h : (k, v) ∈ fields) : (stringify v).length ≤ (stringifyFieldsRest fields).length := by
  induction fields with
  | nil => cases h
  | cons f fields ih =>
    simp only [stringifyFieldsRest, List.length_cons, List.length_append]
    rcases List.mem_cons.mp h with rfl | h
    · dsimp only
      omega
    · have := ih h
      omega

/-- A property takes no more room than its object. -/
theorem length_stringify_obj {fields : List (Str × Json)} {k : Str} {v : Json} (h : (k, v) ∈ fields) :
    (stringify v).length ≤ (stringify (.obj fields)).length := by
  have hrest := length_stringifyFieldsRest h
  cases fields with
  | nil => cases h
  | cons f fields =>
    simp only [stringify, stringifyFields, stringifyFieldsRest, List.length_cons,
      List.length_append] at hrest ⊢
    omega

theorem one_le_unitWidth (u : UInt16) : 1 ≤ unitWidth u := by
  have hne : 1 ≤ (quoteUnit u).length := by
    unfold quoteUnit unicodeEscape
    split_ifs <;> simp
  exact hne.trans (length_le_byteLength _)

theorem unitWidth_surrogate {u : UInt16} (h : isHigh u = true ∨ isLow u = true) : unitWidth u = 6 := by
  have hquote : quoteUnit u = unicodeEscape u := by
    unfold quoteUnit
    have hor : (u < 0x20 || isHigh u || isLow u) = true := by
      rcases h with h | h <;> simp [h]
    rw [if_neg, if_neg, if_neg, if_neg, if_neg, if_neg, if_neg, if_pos hor]
    all_goals
      rintro rfl
      revert h
      decide
  have hhex : ∀ n < 16, hexDigit n < 0x80 := by decide
  have hlt := u.toNat_lt
  rw [unitWidth, hquote, byteLength_of_ascii]
  · rfl
  · intro v hv
    simp only [unicodeEscape, List.mem_cons, List.not_mem_nil, or_false] at hv
    rcases hv with rfl | rfl | rfl | rfl | rfl | rfl
    · decide
    · decide
    all_goals exact hhex _ (by omega)

theorem length_le_quotedWidth (s : Str) : s.length ≤ quotedWidth s := by
  induction s using quoteUnits.induct with
  | case1 => exact Nat.le_refl 0
  | case2 u => exact one_le_unitWidth u
  | case3 u v s h ih =>
    rw [Bool.and_eq_true] at h
    rw [quotedWidth_pair h.1 h.2]
    simp only [List.length_cons]
    omega
  | case4 u v s h ih =>
    have hu := one_le_unitWidth u
    rw [quotedWidth_cons (by simpa using h)]
    simp only [List.length_cons] at ih ⊢
    omega

/-! ## Parts -/

/-- A pair is cut between two parts. -/
def cutsPair (s t : Str) : Bool := s.getLast?.any isHigh && t.head?.any isLow

/-- Widths add up unless a pair is cut. -/
theorem quotedWidth_append {s t : Str} (h : cutsPair s t = false) :
    quotedWidth (s ++ t) = quotedWidth s + quotedWidth t := by
  induction s using quoteUnits.induct with
  | case1 => simp
  | case2 u =>
    cases t with
    | nil => simp
    | cons v t => exact quotedWidth_cons (by simpa [cutsPair] using h) t
  | case3 u v s hp ih =>
    rw [Bool.and_eq_true] at hp
    have hcut : cutsPair s t = false := by
      cases s with
      | nil => rfl
      | cons w s => simpa [cutsPair, List.getLast?_cons_cons] using h
    rw [List.cons_append, List.cons_append, quotedWidth_pair hp.1 hp.2, quotedWidth_pair hp.1 hp.2,
      ih hcut, Nat.add_assoc]
  | case4 u v s hp ih =>
    have hcut : cutsPair (v :: s) t = false := by simpa [cutsPair, List.getLast?_cons_cons] using h
    have hp : (isHigh u && isLow v) = false := by simpa using hp
    have hrest := ih hcut
    rw [List.cons_append] at hrest
    rw [List.cons_append, List.cons_append, quotedWidth_cons hp, quotedWidth_cons hp, hrest,
      Nat.add_assoc]

/-- A unit at the end does not narrow a text. -/
theorem quotedWidth_le_append_singleton (s : Str) {u : UInt16} (hu : isHigh u = true) :
    quotedWidth s ≤ quotedWidth (s ++ [u]) := by
  rw [quotedWidth_append (by simp [cutsPair, isLow_of_isHigh hu])]
  exact Nat.le_add_right _ _

/-- What follows a text that ends in no first half does not narrow it. -/
theorem quotedWidth_le_append {s : Str} (h : s.getLast?.any isHigh = false) (t : Str) :
    quotedWidth s ≤ quotedWidth (s ++ t) := by
  rw [quotedWidth_append (by simp [cutsPair, h])]
  exact Nat.le_add_right _ _

/-- A prefix may be wider by two bytes, where it cuts a pair; two more units make up for that. -/
theorem quotedWidth_le_of_cut {s t : Str} (h : cutsPair s t = true → 3 ≤ t.length) :
    quotedWidth s ≤ quotedWidth (s ++ t) := by
  by_cases hcut : cutsPair s t = true
  · have hlen := h hcut
    obtain ⟨hlast, hhead⟩ := Bool.and_eq_true_iff.mp hcut
    obtain ⟨u, hu, hhigh⟩ := (Option.any_eq_true _ _).mp hlast
    obtain ⟨v, hv, hlow⟩ := (Option.any_eq_true _ _).mp hhead
    obtain ⟨s, rfl⟩ := List.getLast?_eq_some_iff.mp hu
    obtain ⟨t, rfl⟩ := List.head?_eq_some_iff.mp hv
    have hs : ∀ r : Str, quotedWidth (s ++ u :: r) = quotedWidth s + quotedWidth (u :: r) := fun r =>
      quotedWidth_append (by simp [cutsPair, isLow_of_isHigh hhigh])
    have ht := length_le_quotedWidth t
    rw [List.append_assoc, List.singleton_append, hs [], hs (v :: t), quotedWidth_pair hhigh hlow,
      quotedWidth_singleton, unitWidth_surrogate (.inl hhigh)]
    rw [List.length_cons] at hlen
    omega
  · rw [quotedWidth_append (by simpa using hcut)]
    exact Nat.le_add_right _ _

end Js
