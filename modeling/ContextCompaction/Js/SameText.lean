import ContextCompaction.Js.JsonParse

/-!
# Values with the same JSON text

`stringify` is no injection (`NaN` is written as `null`, and `-0` as `0`), but the text determines
the shape of a value, its keys in their order, and its strings.

* `stringify_cancel`: a text is read off before whatever follows it.
* `sameText_obj`, `sameText_arr`, `sameText_str`: the parts of values with the same text have the
  same text.
-/

namespace Js

/-- The same text. -/
def SameText (a b : Json) : Prop := stringify a = stringify b

theorem SameText.normal {a b : Json} (h : SameText a b) : a.normal = b.normal := by
  have hparse := congrArg parse h
  rw [parse_stringify, parse_stringify] at hparse
  exact Option.some.inj hparse

theorem stringify_cancel {a b : Json} {s t : Str} (hs : NumberEnds s) (ht : NumberEnds t)
    (h : stringify a ++ s = stringify b ++ t) : SameText a b ∧ s = t := by
  have ha := reads a (2 * (stringify a).length + 2 * (stringify b).length) s (by omega) hs
  have hb := reads b (2 * (stringify a).length + 2 * (stringify b).length) t (by omega) ht
  rw [h, hb] at ha
  obtain rfl : t = s := (Prod.mk.inj (Option.some.inj ha)).2
  exact ⟨List.append_cancel_right h, rfl⟩

theorem quote_cancel {k l s t : Str} (h : quote k ++ s = quote l ++ t) : k = l ∧ s = t := by
  simp only [quote, List.cons_append, List.append_assoc, List.nil_append, List.cons.injEq,
    true_and] at h
  have hk := parseUnits_quoteUnits k s
  have hl := parseUnits_quoteUnits l t
  rw [h, hl] at hk
  obtain ⟨rfl, rfl⟩ := Prod.mk.inj (Option.some.inj hk)
  exact ⟨rfl, rfl⟩

/-! ## Arrays -/

private theorem elementsRest_cancel {xs ys : List Json} {s t : Str}
    (h : stringifyElementsRest xs ++ 0x5D :: s = stringifyElementsRest ys ++ 0x5D :: t) :
    List.Forall₂ SameText xs ys := by
  have hends : ∀ (zs : List Json) (r : Str), NumberEnds (stringifyElementsRest zs ++ 0x5D :: r) := by
    intro zs r
    cases zs with
    | nil => exact numberEnds_cons (by decide)
    | cons z zs => exact numberEnds_cons (by decide)
  induction xs generalizing ys with
  | nil =>
    cases ys with
    | nil => exact .nil
    | cons y ys => simp [stringifyElementsRest] at h
  | cons x xs ih =>
    cases ys with
    | nil => simp [stringifyElementsRest] at h
    | cons y ys =>
      simp only [stringifyElementsRest, List.cons_append, List.append_assoc, List.cons.injEq,
        true_and] at h
      obtain ⟨hxy, hrest⟩ := stringify_cancel (hends xs s) (hends ys t) h
      exact .cons hxy (ih hrest)

/-- Arrays with the same text. -/
theorem sameText_arr {xs : List Json} {b : Json} (h : SameText (.arr xs) b) :
    ∃ ys, b = .arr ys ∧ List.Forall₂ SameText xs ys := by
  obtain ⟨ys, rfl⟩ : ∃ ys, b = .arr ys := by
    have hn := h.normal
    cases b with
    | arr ys => exact ⟨ys, rfl⟩
    | num n => cases n <;> simp [Json.normal] at hn
    | _ => simp [Json.normal] at hn
  refine ⟨ys, rfl, ?_⟩
  simp only [SameText, stringify, List.cons.injEq, true_and] at h
  cases xs with
  | nil =>
    cases ys with
    | nil => exact .nil
    | cons y ys =>
      obtain ⟨u, r, hu, -, hne⟩ := stringify_head y
      simp [stringifyElements, hu, Ne.symm hne] at h
  | cons x xs =>
    cases ys with
    | nil =>
      obtain ⟨u, r, hu, -, hne⟩ := stringify_head x
      simp [stringifyElements, hu, hne] at h
    | cons y ys =>
      have hrest : stringifyElementsRest (x :: xs) ++ 0x5D :: [] =
          stringifyElementsRest (y :: ys) ++ 0x5D :: [] := by
        simpa [stringifyElements, stringifyElementsRest] using h
      exact elementsRest_cancel hrest

/-! ## Objects -/

/-- Properties with the same keys, in order, and values with the same text. -/
def SameFields (fs gs : List (Str × Json)) : Prop :=
  List.Forall₂ (fun f g => f.1 = g.1 ∧ SameText f.2 g.2) fs gs

private theorem fieldsRest_cancel {fs gs : List (Str × Json)} {s t : Str}
    (h : stringifyFieldsRest fs ++ 0x7D :: s = stringifyFieldsRest gs ++ 0x7D :: t) :
    SameFields fs gs := by
  have hends : ∀ (zs : List (Str × Json)) (r : Str),
      NumberEnds (stringifyFieldsRest zs ++ 0x7D :: r) := by
    intro zs r
    cases zs with
    | nil => exact numberEnds_cons (by decide)
    | cons z zs => exact numberEnds_cons (by decide)
  induction fs generalizing gs with
  | nil =>
    cases gs with
    | nil => exact .nil
    | cons g gs => simp [stringifyFieldsRest] at h
  | cons f fs ih =>
    cases gs with
    | nil => simp [stringifyFieldsRest] at h
    | cons g gs =>
      simp only [stringifyFieldsRest, List.cons_append, List.append_assoc, List.cons.injEq,
        true_and] at h
      obtain ⟨hkey, h⟩ := quote_cancel h
      obtain ⟨hval, hrest⟩ := stringify_cancel (hends fs s) (hends gs t) (List.cons.inj h).2
      exact .cons ⟨hkey, hval⟩ (ih hrest)

/-- Objects with the same text. -/
theorem sameText_obj {fs : List (Str × Json)} {b : Json} (h : SameText (.obj fs) b) :
    ∃ gs, b = .obj gs ∧ SameFields fs gs := by
  obtain ⟨gs, rfl⟩ : ∃ gs, b = .obj gs := by
    have hn := h.normal
    cases b with
    | obj gs => exact ⟨gs, rfl⟩
    | num n => cases n <;> simp [Json.normal] at hn
    | _ => simp [Json.normal] at hn
  refine ⟨gs, rfl, ?_⟩
  simp only [SameText, stringify, List.cons.injEq, true_and] at h
  cases fs with
  | nil =>
    cases gs with
    | nil => exact .nil
    | cons g gs => simp [stringifyFields, quote] at h
  | cons f fs =>
    cases gs with
    | nil => simp [stringifyFields, quote] at h
    | cons g gs =>
      have hrest : stringifyFieldsRest (f :: fs) ++ 0x7D :: [] =
          stringifyFieldsRest (g :: gs) ++ 0x7D :: [] := by
        simpa [stringifyFields, stringifyFieldsRest] using h
      exact fieldsRest_cancel hrest

/-- A string is its text. -/
theorem sameText_str {s : Str} {b : Json} (h : SameText (.str s) b) : b = .str s := by
  have hn := h.normal
  cases b with
  | str t => exact hn.symm
  | num n => cases n <;> simp [Json.normal] at hn
  | _ => simp [Json.normal] at hn

/-! ## What is read of them -/

theorem SameText.str? {a b : Json} (h : SameText a b) : a.str? = b.str? := by
  cases a with
  | str s => rw [sameText_str h]
  | _ =>
    cases b with
    | str t => cases sameText_str (Eq.symm h)
    | _ => rfl

theorem SameText.arr? {a b : Json} (h : SameText a b) :
    Option.Rel (List.Forall₂ SameText) a.arr? b.arr? := by
  cases a with
  | arr xs =>
    obtain ⟨ys, rfl, hs⟩ := sameText_arr h
    exact .some hs
  | _ =>
    cases b with
    | arr ys =>
      obtain ⟨_, heq, -⟩ := sameText_arr (Eq.symm h)
      cases heq
    | _ => exact .none

theorem SameText.obj? {a b : Json} (h : SameText a b) : Option.Rel SameFields a.obj? b.obj? := by
  cases a with
  | obj fs =>
    obtain ⟨gs, rfl, hs⟩ := sameText_obj h
    exact .some hs
  | _ =>
    cases b with
    | obj gs =>
      obtain ⟨_, heq, -⟩ := sameText_obj (Eq.symm h)
      cases heq
    | _ => exact .none

theorem SameFields.get {fs gs : List (Str × Json)} (h : SameFields fs gs) (k : Str) :
    Option.Rel SameText (mapGet fs k) (mapGet gs k) := by
  induction h with
  | nil => exact .none
  | @cons f g fs gs hfg _ ih =>
    rw [mapGet_cons, mapGet_cons, hfg.1]
    split
    · exact .some hfg.2
    · exact ih

end Js
