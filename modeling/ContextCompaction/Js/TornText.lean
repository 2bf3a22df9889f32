import Mathlib.Data.List.TakeWhile
import ContextCompaction.Js.JsonParse

/-!
# Text that is cut short

A write that is interrupted leaves a byte prefix of the text. What the parser reads of a text it
also reads of every text that goes on, except that a number may go on too; so no proper prefix of
an object's text is a text of its own.

* `parseValue_append`: a value is read alike in front of more text.
* `parse_torn`: no proper byte prefix of the text of an object parses.
-/

namespace Js

/-! ## Tokens in front of more text -/

theorem skipSpace_append {s : Str} (h : skipSpace s ≠ []) (q : Str) :
    skipSpace (s ++ q) = skipSpace s ++ q := by
  induction s with
  | nil => exact absurd rfl h
  | cons u s ih =>
    unfold skipSpace at h ih ⊢
    rw [List.cons_append, List.dropWhile_cons, List.dropWhile_cons]
    rw [List.dropWhile_cons] at h
    split
    · rename_i hu
      rw [if_pos hu] at h
      exact ih h
    · rfl

theorem skipSpace_suffix (s : Str) : skipSpace s <:+ s := List.dropWhile_suffix _

theorem dropWord_eq_some {w s r : Str} : dropWord w s = some r ↔ s = w ++ r := by
  unfold dropWord
  constructor
  · intro h
    split at h
    · rename_i hw
      obtain ⟨t, rfl⟩ := List.isPrefixOf_iff_prefix.mp hw
      simpa using h
    · cases h
  · rintro rfl
    simp

/-- The characters `c` stand for the unit `o`, if it is one, in front of any text. -/
def Spells (c : Str) (o : Option UInt16) : Prop :=
  ∀ s, parseUnits (c ++ s) = o.bind fun u => (parseUnits s).map fun p => (u :: p.1, p.2)

private theorem spells_unicode (a b c d : UInt16) : ∃ o, Spells [0x5C, 0x75, a, b, c, d] o := by
  refine ⟨do
    let a ← hexValue a
    let b ← hexValue b
    let c ← hexValue c
    let d ← hexValue d
    some (a * 4096 + b * 256 + c * 16 + d).toUInt16, fun s => ?_⟩
  simp only [List.cons_append, List.nil_append, parseUnits]
  cases hexValue a <;> cases hexValue b <;> cases hexValue c <;> cases hexValue d <;>
    cases parseUnits s <;> rfl

private theorem spells_short {e : UInt16} (he : e ≠ 0x75) : Spells [0x5C, e] (shortEscape e) := by
  intro s
  rw [List.cons_append, List.singleton_append, parseUnits.eq_def]
  simp only [show (0x5C : UInt16) ≠ 0x22 by decide, ↓reduceIte]
  split
  · rename_i heq
    exact absurd (List.cons.inj heq).1 he
  · rename_i heq
    obtain ⟨rfl, rfl⟩ := List.cons.inj heq
    cases shortEscape e <;> cases parseUnits s <;> rfl
  · simp_all

private theorem spells_plain {u : UInt16} (h1 : u ≠ 0x22) (h2 : u ≠ 0x5C) (h3 : ¬ u < 0x20) :
    Spells [u] (some u) :=
  fun s => parseUnits_plain h1 h2 h3 s

/-- A string is read up to its closing quote, whatever follows. -/
def ReadsOn (s : Str) : Prop :=
  ∀ t r, parseUnits s = some (t, r) → r <:+ s ∧ ∀ q, parseUnits (s ++ q) = some (t, r ++ q)

private theorem Spells.readsOn {c s : Str} {o : Option UInt16} (hc : Spells c o) (hs : ReadsOn s) :
    ReadsOn (c ++ s) := by
  intro t r h
  rw [hc, Option.bind_eq_some_iff] at h
  obtain ⟨u, rfl, h⟩ := h
  obtain ⟨⟨t', r'⟩, hp, he⟩ := Option.map_eq_some_iff.mp h
  obtain ⟨rfl, rfl⟩ := Prod.mk.inj he
  obtain ⟨hr, hq⟩ := hs t' _ hp
  refine ⟨hr.trans (List.suffix_append _ _), fun q => ?_⟩
  rw [List.append_assoc, hc, Option.bind_some, hq, Option.map_some]

/-- A value that was read is read alike when the text goes on. -/
theorem readsOn (s : Str) : ReadsOn s := by
  induction s using parseUnits.induct with
  | case1 => exact fun t r h => absurd h (by simp [parseUnits])
  | case2 s =>
    intro t r h
    rw [parseUnits_close] at h
    obtain ⟨rfl, rfl⟩ := Prod.mk.inj (Option.some.inj h)
    exact ⟨List.suffix_cons _ _, fun q => parseUnits_close _⟩
  | case3 a b c d s _ ih =>
    obtain ⟨o, ho⟩ := spells_unicode a b c d
    exact ho.readsOn ih
  | case4 e s hne _ ih =>
    by_cases he : e = 0x75
    · -- Fewer than four digits: `u` opens no short escape.
      subst he
      intro t r h
      rw [parseUnits.eq_def] at h
      simp only [show (0x5C : UInt16) ≠ 0x22 by decide, ↓reduceIte] at h
      exact absurd h (by simp [show shortEscape 0x75 = none by decide])
    · exact (spells_short he).readsOn ih
  | case5 => exact fun t r h => absurd h (by simp [parseUnits])
  | case6 u s h1 h2 h3 =>
    intro t r h
    rw [parseUnits.eq_def] at h
    simp [h1, h2, h3] at h
  | case7 u s h1 h2 h3 ih => exact (spells_plain h1 h2 h3).readsOn ih

/-! ## Numbers in front of more text -/

private theorem spanDigits_more {s : Str} (h : (spanDigits s).2 ≠ []) (q : Str) :
    spanDigits (s ++ q) = ((spanDigits s).1, (spanDigits s).2 ++ q) := by
  unfold spanDigits at h ⊢
  induction s with
  | nil => exact absurd rfl h
  | cons u s ih =>
    rw [List.cons_append, List.dropWhile_cons, List.takeWhile_cons, List.takeWhile_cons,
      List.dropWhile_cons]
    rw [List.dropWhile_cons] at h
    split
    · rename_i hu
      simp only [hu, ↓reduceIte] at h ⊢
      obtain ⟨h1, h2⟩ := Prod.mk.inj (ih h)
      rw [h1, h2]
    · rfl

private theorem spanDigits_suffix (s : Str) : (spanDigits s).2 <:+ s := List.dropWhile_suffix _

private theorem scanSign_more {s : Str} (h : s ≠ []) (q : Str) :
    scanSign (s ++ q) = ((scanSign s).1, (scanSign s).2 ++ q) := by
  cases s with
  | nil => exact absurd rfl h
  | cons u s =>
    by_cases hu : u = 0x2D
    · subst hu
      rfl
    · have hplain : ∀ t, scanSign (u :: t) = (false, u :: t) := fun t => by simp [scanSign, hu]
      rw [List.cons_append, hplain, hplain]
      rfl

private theorem scanSign_suffix (s : Str) : (scanSign s).2 <:+ s := by
  unfold scanSign
  split
  · exact List.suffix_cons _ _
  · exact List.suffix_refl _

private theorem scanFrac_more {s ds r : Str} (h : scanFrac s = some (ds, r)) :
    r <:+ s ∧ (r ≠ [] → ∀ q, scanFrac (s ++ q) = some (ds, r ++ q)) := by
  cases s with
  | nil =>
    obtain ⟨-, rfl⟩ := Prod.mk.inj (Option.some.inj h)
    exact ⟨List.suffix_refl _, fun hr => absurd rfl hr⟩
  | cons u s =>
    by_cases hu : u = 0x2E
    · subst hu
      simp only [scanFrac] at h
      split at h
      · cases h
      · rename_i hne
        obtain ⟨rfl, rfl⟩ := Prod.mk.inj (Option.some.inj h)
        refine ⟨(spanDigits_suffix s).trans (List.suffix_cons _ _), fun hr q => ?_⟩
        simp only [List.cons_append, scanFrac, spanDigits_more hr, if_neg hne]
    · have hplain : ∀ t, scanFrac (u :: t) = some ([], u :: t) := fun t => by simp [scanFrac, hu]
      rw [hplain] at h
      obtain ⟨rfl, rfl⟩ := Prod.mk.inj (Option.some.inj h)
      exact ⟨List.suffix_refl _, fun _ q => hplain _⟩

private theorem expDigits_more {s r : Str} {e : Option (Bool × Str)}
    (h : scanExp.scanExpDigits s = some (e, r)) :
    r <:+ s ∧ (r ≠ [] → ∀ q, scanExp.scanExpDigits (s ++ q) = some (e, r ++ q)) := by
  have hdigits : ∀ (minus : Bool) (t : Str),
      (if (spanDigits t).1 = [] then none else some (some (minus, (spanDigits t).1), (spanDigits t).2))
        = some (e, r) → r <:+ t ∧ (r ≠ [] → ∀ q,
          (if (spanDigits (t ++ q)).1 = [] then none
            else some (some (minus, (spanDigits (t ++ q)).1), (spanDigits (t ++ q)).2)) =
              some (e, r ++ q)) := by
    intro minus t ht
    split at ht
    · cases ht
    · rename_i hne
      obtain ⟨rfl, rfl⟩ := Prod.mk.inj (Option.some.inj ht)
      exact ⟨spanDigits_suffix t, fun hr q => by rw [spanDigits_more hr, if_neg hne]⟩
  cases s with
  | nil => simp [scanExp.scanExpDigits, spanDigits] at h
  | cons u s =>
    by_cases h1 : u = 0x2D
    · subst h1
      obtain ⟨hs, hq⟩ := hdigits true s h
      exact ⟨hs.trans (List.suffix_cons _ _), hq⟩
    by_cases h2 : u = 0x2B
    · subst h2
      obtain ⟨hs, hq⟩ := hdigits false s h
      exact ⟨hs.trans (List.suffix_cons _ _), hq⟩
    · have hplain : ∀ t, scanExp.scanExpDigits (u :: t) =
          if (spanDigits (u :: t)).1 = [] then none
            else some (some (false, (spanDigits (u :: t)).1), (spanDigits (u :: t)).2) := by
        intro t
        unfold scanExp.scanExpDigits
        split
        rename_i heq
        split at heq <;> simp_all
      rw [hplain] at h
      obtain ⟨hs, hq⟩ := hdigits false (u :: s) h
      exact ⟨hs, fun hr q => by rw [List.cons_append, hplain]; exact hq hr q⟩

private theorem scanExp_more {s r : Str} {e : Option (Bool × Str)}
    (h : scanExp s = some (e, r)) :
    r <:+ s ∧ (r ≠ [] → ∀ q, scanExp (s ++ q) = some (e, r ++ q)) := by
  cases s with
  | nil =>
    obtain ⟨-, rfl⟩ := Prod.mk.inj (Option.some.inj h)
    exact ⟨List.suffix_refl _, fun hr => absurd rfl hr⟩
  | cons u s =>
    by_cases h1 : u = 0x65
    · subst h1
      obtain ⟨hs, hq⟩ := expDigits_more h
      exact ⟨hs.trans (List.suffix_cons _ _), hq⟩
    by_cases h2 : u = 0x45
    · subst h2
      obtain ⟨hs, hq⟩ := expDigits_more h
      exact ⟨hs.trans (List.suffix_cons _ _), hq⟩
    · have hplain : ∀ t, scanExp (u :: t) = some (none, u :: t) :=
        fun t => by simp [scanExp, h1, h2]
      rw [hplain] at h
      obtain ⟨rfl, rfl⟩ := Prod.mk.inj (Option.some.inj h)
      exact ⟨List.suffix_refl _, fun _ q => hplain _⟩

/-- A number that something follows is read alike in front of more text. -/
theorem scanNumber_append {s r : Str} {x : Number} (h : scanNumber s = some (x, r)) :
    r <:+ s ∧ (r ≠ [] → ∀ q, scanNumber (s ++ q) = some (x, r ++ q)) := by
  unfold scanNumber at h
  simp only at h
  split at h
  · cases h
  rename_i hint
  obtain ⟨⟨frac, s₁⟩, hfrac, h⟩ := Option.bind_eq_some_iff.mp h
  obtain ⟨⟨e, s₂⟩, hexp, h⟩ := Option.bind_eq_some_iff.mp h
  obtain ⟨rfl, rfl⟩ := Prod.mk.inj (Option.some.inj h)
  obtain ⟨hs₁, hq₁⟩ := scanFrac_more hfrac
  obtain ⟨hs₂, hq₂⟩ := scanExp_more hexp
  have hsuf := (hs₂.trans hs₁).trans (spanDigits_suffix _)
  refine ⟨hsuf.trans (scanSign_suffix s), fun hr q => ?_⟩
  have hne : ∀ {a b : Str}, a <:+ b → a ≠ [] → b ≠ [] := by
    rintro a b hab ha rfl
    exact ha (List.suffix_nil.mp hab)
  have hd := hne (hs₂.trans hs₁) hr
  have hsign := scanSign_more (hne (scanSign_suffix s) (hne (spanDigits_suffix _) hd)) q
  unfold scanNumber
  simp only [hsign, spanDigits_more hd, if_neg hint, hq₁ (hne hs₂ hr), hq₂ hr,
    Option.bind_eq_bind, Option.bind_some]

/-! ## Values in front of more text -/

/-- A text that opens a string, an array or an object shows where its value ends. -/
def Delimited (s : Str) : Prop := ∃ u t, s = u :: t ∧ (u = 0x22 ∨ u = 0x5B ∨ u = 0x7B)

private theorem ne_nil_of_suffix {a b : Str} (h : a <:+ b) (ha : a ≠ []) : b ≠ [] := by
  rintro rfl
  exact ha (List.suffix_nil.mp h)

private theorem skipSpace_head {s t : Str} {u : UInt16} (h : skipSpace s = u :: t) (q : Str) :
    skipSpace (s ++ q) = u :: (t ++ q) := by
  rw [skipSpace_append (by simp [h]), h, List.cons_append]

/-- Reading on with more fuel: one statement for each of the three parsers. -/
structure Continues (n : Nat) : Prop where
  value : ∀ s v r, parseValue n s = some (v, r) → r <:+ s ∧ (r ≠ [] ∨ Delimited s →
    ∀ m q, n ≤ m → parseValue m (s ++ q) = some (v, r ++ q))
  elements : ∀ s xs r, parseElements n s = some (xs, r) → r <:+ s ∧
    ∀ m q, n ≤ m → parseElements m (s ++ q) = some (xs, r ++ q)
  fields : ∀ s fs r, parseFields n s = some (fs, r) → 0x7D :: r <:+ s ∧
    ∀ m q, n ≤ m → parseFields m (s ++ q) = some (fs, r ++ q)

private theorem dropWord_more {w s r : Str} (h : dropWord w s = some r) :
    r <:+ s ∧ ∀ q, dropWord w (s ++ q) = some (r ++ q) := by
  obtain rfl := dropWord_eq_some.mp h
  exact ⟨List.suffix_append _ _, fun q => dropWord_eq_some.mpr (List.append_assoc _ _ _)⟩

private theorem continues_word {w s r : Str} {v x : Json}
    (h : (dropWord w s).map (fun rest => (x, rest)) = some (v, r)) :
    r <:+ s ∧ ∀ q, (dropWord w (s ++ q)).map (fun rest => (x, rest)) = some (v, r ++ q) := by
  obtain ⟨r', hp, he⟩ := Option.map_eq_some_iff.mp h
  obtain ⟨rfl, rfl⟩ := Prod.mk.inj he
  obtain ⟨hs, hq⟩ := dropWord_more hp
  exact ⟨hs, fun q => by rw [hq, Option.map_some]⟩

private theorem parseElements_nil (n : Nat) : parseElements n [] = none := by
  rcases n with _ | _ | n <;> simp [parseElements, parseValue]

private theorem continues_arr {n : Nat} (ih : Continues n) {s r : Str} {v : Json}
    (h : parseValue (n + 1) (0x5B :: s) = some (v, r)) :
    r <:+ 0x5B :: s ∧ ∀ m q, n ≤ m → parseValue (m + 1) (0x5B :: (s ++ q)) = some (v, r ++ q) := by
  simp only [parseValue, show (0x5B : UInt16) ≠ 0x22 by decide, ↓reduceIte] at h ⊢
  split at h
  · rename_i hempty
    obtain ⟨rfl, rfl⟩ := Prod.mk.inj (Option.some.inj h)
    obtain ⟨t, ht⟩ := List.head?_eq_some_iff.mp hempty
    refine ⟨(List.tail_suffix _).trans ((skipSpace_suffix s).trans (List.suffix_cons _ _)), ?_⟩
    intro m q _
    rw [skipSpace_head ht, ht, List.head?_cons, if_pos rfl]
    rfl
  · rename_i hopen
    obtain ⟨⟨xs, r'⟩, hp, he⟩ := Option.map_eq_some_iff.mp h
    obtain ⟨rfl, rfl⟩ := Prod.mk.inj he
    obtain ⟨hs, hq⟩ := ih.elements _ _ _ hp
    refine ⟨hs.trans ((skipSpace_suffix s).trans (List.suffix_cons _ _)), fun m q hm => ?_⟩
    cases hskip : skipSpace s with
    | nil =>
      rw [hskip, parseElements_nil] at hp
      cases hp
    | cons u t =>
      have hq := hq m q hm
      rw [hskip, List.head?_cons] at hopen
      rw [hskip, List.cons_append] at hq
      rw [skipSpace_head hskip, List.head?_cons, if_neg hopen, hq, Option.map_some]

private theorem continues_obj {n : Nat} (ih : Continues n) {s r : Str} {v : Json}
    (h : parseValue (n + 1) (0x7B :: s) = some (v, r)) :
    0x7D :: r <:+ s ∧ ∀ m q, n ≤ m → parseValue (m + 1) (0x7B :: (s ++ q)) = some (v, r ++ q) := by
  simp only [parseValue, show (0x7B : UInt16) ≠ 0x22 by decide, show (0x7B : UInt16) ≠ 0x5B by decide,
    ↓reduceIte] at h ⊢
  split at h
  · rename_i hempty
    obtain ⟨rfl, rfl⟩ := Prod.mk.inj (Option.some.inj h)
    obtain ⟨t, ht⟩ := List.head?_eq_some_iff.mp hempty
    refine ⟨by simpa [ht] using ht ▸ skipSpace_suffix s, fun m q _ => ?_⟩
    rw [skipSpace_head ht, ht, List.head?_cons, if_pos rfl]
    rfl
  · rename_i hopen
    obtain ⟨⟨xs, r'⟩, hp, he⟩ := Option.map_eq_some_iff.mp h
    obtain ⟨rfl, rfl⟩ := Prod.mk.inj he
    obtain ⟨hs, hq⟩ := ih.fields _ _ _ hp
    refine ⟨hs.trans (skipSpace_suffix s), fun m q hm => ?_⟩
    cases hskip : skipSpace s with
    | nil =>
      rw [hskip] at hs
      exact absurd (List.suffix_nil.mp hs) (List.cons_ne_nil _ _)
    | cons u t =>
      have hq := hq m q hm
      rw [hskip, List.head?_cons] at hopen
      rw [hskip, List.cons_append] at hq
      rw [skipSpace_head hskip, List.head?_cons, if_neg hopen, hq, Option.map_some]

private theorem continues_value {n : Nat} (ih : Continues n) {s r : Str} {v : Json}
    (h : parseValue (n + 1) s = some (v, r)) :
    r <:+ s ∧ (r ≠ [] ∨ Delimited s →
      ∀ m q, n ≤ m → parseValue (m + 1) (s ++ q) = some (v, r ++ q)) := by
  cases s with
  | nil => simp [parseValue] at h
  | cons u s =>
    by_cases h1 : u = 0x22
    · subst h1
      simp only [parseValue, ↓reduceIte, Option.map_eq_some_iff] at h
      obtain ⟨⟨t, r'⟩, hp, he⟩ := h
      obtain ⟨rfl, rfl⟩ := Prod.mk.inj he
      obtain ⟨hs, hq⟩ := readsOn s t _ hp
      refine ⟨hs.trans (List.suffix_cons _ _), fun _ m q _ => ?_⟩
      simp only [List.cons_append, parseValue, ↓reduceIte, hq, Option.map_some]
    by_cases h2 : u = 0x5B
    · subst h2
      obtain ⟨hs, hq⟩ := continues_arr ih h
      exact ⟨hs, fun _ => hq⟩
    by_cases h3 : u = 0x7B
    · subst h3
      obtain ⟨hs, hq⟩ := continues_obj ih h
      exact ⟨(List.suffix_cons _ _).trans (hs.trans (List.suffix_cons _ _)), fun _ => hq⟩
    by_cases h4 : u = 0x74
    · subst h4
      simp only [parseValue, h1, h2, h3, ↓reduceIte] at h
      obtain ⟨hs, hq⟩ := continues_word h
      refine ⟨hs, fun _ m q _ => ?_⟩
      simp only [List.cons_append, parseValue, h1, h2, h3, ↓reduceIte]
      exact hq q
    by_cases h5 : u = 0x66
    · subst h5
      simp only [parseValue, h1, h2, h3, h4, ↓reduceIte] at h
      obtain ⟨hs, hq⟩ := continues_word h
      refine ⟨hs, fun _ m q _ => ?_⟩
      simp only [List.cons_append, parseValue, h1, h2, h3, h4, ↓reduceIte]
      exact hq q
    by_cases h6 : u = 0x6E
    · subst h6
      simp only [parseValue, h1, h2, h3, h4, h5, ↓reduceIte] at h
      obtain ⟨hs, hq⟩ := continues_word h
      refine ⟨hs, fun _ m q _ => ?_⟩
      simp only [List.cons_append, parseValue, h1, h2, h3, h4, h5, ↓reduceIte]
      exact hq q
    · simp only [parseValue, h1, h2, h3, h4, h5, h6, ↓reduceIte, Option.map_eq_some_iff] at h
      obtain ⟨⟨x, r'⟩, hp, he⟩ := h
      obtain ⟨rfl, rfl⟩ := Prod.mk.inj he
      obtain ⟨hs, hq⟩ := scanNumber_append hp
      refine ⟨hs, fun hr m q _ => ?_⟩
      have hr : r' ≠ [] := by
        rcases hr with hr | ⟨w, t, heq, hw⟩
        · exact hr
        · obtain ⟨rfl, rfl⟩ := List.cons.inj heq
          exact absurd hw (by simp [h1, h2, h3])
      have hq := hq hr q
      simp only [List.cons_append, parseValue, h1, h2, h3, h4, h5, h6, ↓reduceIte] at hq ⊢
      rw [hq, Option.map_some]

private theorem continues_elements {n : Nat} (ih : Continues n) {s r : Str} {xs : List Json}
    (h : parseElements (n + 1) s = some (xs, r)) :
    r <:+ s ∧ ∀ m q, n ≤ m → parseElements (m + 1) (s ++ q) = some (xs, r ++ q) := by
  simp only [parseElements, Option.bind_eq_some_iff] at h ⊢
  obtain ⟨⟨x, t⟩, hx, h⟩ := h
  obtain ⟨ht, htq⟩ := ih.value _ _ _ hx
  dsimp only at h
  cases hskip : skipSpace t with
  | nil => simp [hskip] at h
  | cons u t' =>
    simp only [hskip] at h
    have htq := htq (.inl (ne_nil_of_suffix (skipSpace_suffix t) (by simp [hskip])))
    have hin : t' <:+ s := by
      have := hskip ▸ skipSpace_suffix t
      exact (List.suffix_cons _ _).trans (this.trans ht)
    split at h
    · rename_i hu
      obtain ⟨⟨ys, r'⟩, hp, he⟩ := Option.map_eq_some_iff.mp h
      obtain ⟨rfl, rfl⟩ := Prod.mk.inj he
      obtain ⟨hs, hq⟩ := ih.elements _ _ _ hp
      refine ⟨hs.trans ((skipSpace_suffix _).trans hin), fun m q hm => ⟨_, htq m q hm, ?_⟩⟩
      have hskip' : skipSpace t' ≠ [] := by
        intro hnil
        rw [hnil, parseElements_nil] at hp
        cases hp
      simp only [skipSpace_head hskip, hu, ↓reduceIte, skipSpace_append hskip', hq m q hm,
        Option.map_some]
    · rename_i hu
      split at h
      · rename_i hclose
        obtain ⟨rfl, rfl⟩ := Prod.mk.inj (Option.some.inj h)
        subst hclose
        refine ⟨hin, fun m q hm => ⟨_, htq m q hm, ?_⟩⟩
        simp only [skipSpace_head hskip, hu, ↓reduceIte]
      · cases h

private theorem continues_fields {n : Nat} (ih : Continues n) {s r : Str} {fs : List (Str × Json)}
    (h : parseFields (n + 1) s = some (fs, r)) :
    0x7D :: r <:+ s ∧ ∀ m q, n ≤ m → parseFields (m + 1) (s ++ q) = some (fs, r ++ q) := by
  simp only [parseFields, Option.bind_eq_some_iff] at h ⊢
  obtain ⟨s₁, h₁, ⟨k, s₂⟩, h₂, s₃, h₃, ⟨v, t⟩, h₄, h⟩ := h
  dsimp only at h₃ h
  obtain ⟨hs₁, hq₁⟩ := dropWord_more h₁
  obtain ⟨hs₂, hq₂⟩ := readsOn _ _ _ h₂
  obtain ⟨hs₃, hq₃⟩ := dropWord_more h₃
  obtain ⟨ht, htq⟩ := ih.value _ _ _ h₄
  cases hskip : skipSpace t with
  | nil => simp [hskip] at h
  | cons u t' =>
    simp only [hskip] at h
    have hne := ne_nil_of_suffix (skipSpace_suffix t) (by simp [hskip])
    have htq := htq (.inl hne)
    have hskip₂ : skipSpace s₂ ≠ [] := by
      rw [dropWord_eq_some.mp h₃]
      exact List.cons_ne_nil _ _
    have hskip₃ : skipSpace s₃ ≠ [] := ne_nil_of_suffix ht hne
    have hin : u :: t' <:+ s :=
      (hskip ▸ skipSpace_suffix t).trans (ht.trans ((skipSpace_suffix _).trans
        (hs₃.trans ((skipSpace_suffix _).trans (hs₂.trans hs₁)))))
    have hgo : ∀ m q, n ≤ m → ∃ s₁' : Str, dropWord [0x22] (s ++ q) = some s₁' ∧
        ∃ p, parseUnits s₁' = some p ∧ ∃ s₃', dropWord [0x3A] (skipSpace p.2) = some s₃' ∧
          parseValue m (skipSpace s₃') = some (v, t ++ q) ∧ p.1 = k := by
      intro m q hm
      refine ⟨_, hq₁ q, (k, s₂ ++ q), hq₂ q, s₃ ++ q, ?_, ?_, rfl⟩
      · rw [skipSpace_append hskip₂]
        exact hq₃ q
      · rw [skipSpace_append hskip₃]
        exact htq m q hm
    split at h
    · rename_i hu
      obtain ⟨⟨gs, r'⟩, hp, he⟩ := Option.map_eq_some_iff.mp h
      obtain ⟨rfl, rfl⟩ := Prod.mk.inj he
      obtain ⟨hs, hq⟩ := ih.fields _ _ _ hp
      refine ⟨hs.trans ((skipSpace_suffix _).trans ((List.suffix_cons _ _).trans hin)),
        fun m q hm => ?_⟩
      obtain ⟨s₁', g₁, p, g₂, s₃', g₃, g₄, rfl⟩ := hgo m q hm
      refine ⟨s₁', g₁, p, g₂, s₃', g₃, _, g₄, ?_⟩
      have hskip' : skipSpace t' ≠ [] := ne_nil_of_suffix hs (List.cons_ne_nil _ _)
      simp only [skipSpace_head hskip, hu, ↓reduceIte, skipSpace_append hskip', hq m q hm,
        Option.map_some]
    · rename_i hu
      split at h
      · rename_i hclose
        obtain ⟨rfl, rfl⟩ := Prod.mk.inj (Option.some.inj h)
        subst hclose
        refine ⟨hin, fun m q hm => ?_⟩
        obtain ⟨s₁', g₁, p, g₂, s₃', g₃, g₄, rfl⟩ := hgo m q hm
        refine ⟨s₁', g₁, p, g₂, s₃', g₃, _, g₄, ?_⟩
        simp only [skipSpace_head hskip, hu, ↓reduceIte]
      · cases h

/-- Values, elements and fields that were read are read alike when the text goes on. -/
theorem continues (n : Nat) : Continues n := by
  induction n with
  | zero =>
    exact ⟨fun s v r h => by simp [parseValue] at h, fun s v r h => by simp [parseElements] at h,
      fun s v r h => by simp [parseFields] at h⟩
  | succ n ih =>
    have hm : ∀ m, n + 1 ≤ m → ∃ k, m = k + 1 ∧ n ≤ k := fun m hm => ⟨m - 1, by omega, by omega⟩
    constructor
    · intro s v r h
      obtain ⟨hs, hq⟩ := continues_value ih h
      refine ⟨hs, fun hr m q hmn => ?_⟩
      obtain ⟨k, rfl, hk⟩ := hm m hmn
      exact hq hr k q hk
    · intro s xs r h
      obtain ⟨hs, hq⟩ := continues_elements ih h
      refine ⟨hs, fun m q hmn => ?_⟩
      obtain ⟨k, rfl, hk⟩ := hm m hmn
      exact hq k q hk
    · intro s fs r h
      obtain ⟨hs, hq⟩ := continues_fields ih h
      refine ⟨hs, fun m q hmn => ?_⟩
      obtain ⟨k, rfl, hk⟩ := hm m hmn
      exact hq k q hk

/-! ## Bytes that are cut short -/

private theorem decodeFrom_go {point needed lower upper k : Nat} (hk : k < 256)
    (hlo : lower ≤ k) (hup : k ≤ upper) (hn : 1 < needed) (bytes : List UInt8) :
    decodeFrom (.more point needed lower upper) (k.toUInt8 :: bytes) =
      decodeFrom (.more (point * 64 + (k - 0x80)) (needed - 1) 0x80 0xBF) bytes := by
  rw [decodeFrom_cons]
  simp only [decodeStep, toNat_byte hk, hlo, hup, and_self, ↓reduceIte, Nat.not_le.mpr hn,
    List.nil_append]

/-- The bytes of a code point that is cut short decode to one U+FFFD. -/
theorem decodeUtf8_take_encodePoint {n : Nat} (h : Scalar n) {k : Nat} (hk : 0 < k)
    (hlt : k < (encodePoint n).length) : decodeUtf8 ((encodePoint n).take k) = [0xFFFD] := by
  unfold Scalar at h
  unfold decodeUtf8
  obtain ⟨k, rfl⟩ : ∃ j, k = j + 1 := ⟨k - 1, by omega⟩
  have hlead : ∀ (lead : Nat) (bytes : List UInt8), lead < 256 →
      decodeFrom .start (lead.toUInt8 :: bytes) =
        (decodeStart lead).1 ++ decodeFrom (decodeStart lead).2 bytes := by
    intro lead bytes hl
    rw [decodeFrom_cons]
    simp only [decodeStep, toNat_byte hl]
  unfold encodePoint at hlt ⊢
  by_cases h1 : n < 0x80
  · simp [h1] at hlt
  by_cases h2 : n < 0x800
  · -- Two bytes: only the first one is there.
    simp only [h1, h2, ↓reduceIte, List.length_cons, List.length_nil] at hlt ⊢
    obtain rfl : k = 0 := by omega
    rw [List.take_succ_cons, List.take_zero, hlead _ _ (by omega)]
    simp only [decodeStart, show ¬ (0xC0 + n / 64 < 0x80) by omega,
      show ¬ (0xC0 + n / 64 < 0xC2) by omega, show 0xC0 + n / 64 < 0xE0 by omega, ↓reduceIte,
      List.nil_append, decodeFrom]
  by_cases h3 : n < 0x10000
  · -- Three bytes: the first one, or two.
    simp only [h1, h2, h3, ↓reduceIte, List.length_cons, List.length_nil] at hlt ⊢
    rw [List.take_succ_cons, hlead _ _ (by omega)]
    simp only [decodeStart, show ¬ (0xE0 + n / 4096 < 0x80) by omega,
      show ¬ (0xE0 + n / 4096 < 0xC2) by omega, show ¬ (0xE0 + n / 4096 < 0xE0) by omega,
      show 0xE0 + n / 4096 < 0xF0 by omega, ↓reduceIte, List.nil_append]
    obtain rfl | rfl : k = 0 ∨ k = 1 := by omega
    · rw [List.take_zero, decodeFrom]
    · rw [List.take_succ_cons, List.take_zero,
        decodeFrom_go (by omega) (by split <;> omega) (by split <;> omega) (by omega), decodeFrom]
  · -- Four bytes: the first one, two or three.
    simp only [h1, h2, h3, ↓reduceIte, List.length_cons, List.length_nil] at hlt ⊢
    rw [List.take_succ_cons, hlead _ _ (by omega)]
    simp only [decodeStart, show ¬ (0xF0 + n / 262144 < 0x80) by omega,
      show ¬ (0xF0 + n / 262144 < 0xC2) by omega, show ¬ (0xF0 + n / 262144 < 0xE0) by omega,
      show ¬ (0xF0 + n / 262144 < 0xF0) by omega, show 0xF0 + n / 262144 < 0xF5 by omega,
      ↓reduceIte, List.nil_append]
    obtain rfl | rfl | rfl : k = 0 ∨ k = 1 ∨ k = 2 := by omega
    · rw [List.take_zero, decodeFrom]
    · rw [List.take_succ_cons, List.take_zero,
        decodeFrom_go (by omega) (by split <;> omega) (by split <;> omega) (by omega), decodeFrom]
    · rw [List.take_succ_cons, List.take_succ_cons, List.take_zero,
        decodeFrom_go (by omega) (by split <;> omega) (by split <;> omega) (by omega),
        decodeFrom_go (by omega) (by omega) (by omega) (by omega), decodeFrom]

/-- What a byte prefix of a text decodes to. -/
def CutShort (s : Str) : Prop :=
  ∀ b, b <+: utf8 s →
    ∃ p, p <+: s ∧ (b = utf8 p ∧ decodeUtf8 b = p ∨ decodeUtf8 b = p ++ [0xFFFD])

private theorem cutShort_append {n : Nat} {c t : Str} (hn : Scalar n) (hp : pointUnits n = c)
    (hc : wellFormed c = true) (hb : utf8 c = encodePoint n) (ht : CutShort t) :
    CutShort (c ++ t) := by
  intro b hpre
  rw [utf8_append hc, hb] at hpre
  by_cases hlen : (encodePoint n).length ≤ b.length
  · obtain ⟨b', rfl⟩ := List.prefix_of_prefix_length_le (List.prefix_append _ _) hpre hlen
    obtain ⟨p, hpt, hcase⟩ := ht b' ((List.prefix_append_right_inj _).mp hpre)
    refine ⟨c ++ p, (List.prefix_append_right_inj _).mpr hpt, ?_⟩
    have hd : decodeUtf8 (encodePoint n ++ b') = c ++ decodeUtf8 b' := by
      unfold decodeUtf8
      rw [decodeFrom_encodePoint hn, hp]
    rcases hcase with ⟨rfl, hcase⟩ | hcase
    · exact .inl ⟨by rw [utf8_append hc, hb], by rw [hd, hcase]⟩
    · exact .inr (by rw [hd, hcase, List.append_assoc])
  · have hlt : b.length < (encodePoint n).length := by omega
    have htake : b = (encodePoint n).take b.length :=
      List.prefix_iff_eq_take.mp (List.prefix_of_prefix_length_le hpre (List.prefix_append _ _) hlt.le)
    refine ⟨[], List.nil_prefix, ?_⟩
    rcases Nat.eq_zero_or_pos b.length with h0 | h0
    · obtain rfl := List.length_eq_zero_iff.mp h0
      exact .inl ⟨rfl, rfl⟩
    · rw [htake]
      exact .inr (decodeUtf8_take_encodePoint hn h0 hlt)

private theorem cutShort_cons {u : UInt16} (hu : isHigh u = false) (hl : isLow u = false) {t : Str}
    (ht : CutShort t) : CutShort (u :: t) := by
  have h1 := (surrogate_iff u).1
  have h2 := (surrogate_iff u).2
  have hlt := u.toNat_lt
  rw [hu] at h1
  rw [hl] at h2
  simp only [Bool.false_eq_true, false_iff] at h1 h2
  refine cutShort_append (n := u.toNat) (c := [u]) (by unfold Scalar; omega) ?_ ?_ ?_ ht
  · simp only [pointUnits, show u.toNat < 0x10000 by omega, ↓reduceIte, toUInt16_toNat]
  · simp [wellFormed, hu, hl]
  · simp [utf8, encodeUnit, hu, hl]

/-- A byte prefix holds the units whose bytes are all there, and one U+FFFD for a code point that
is cut. -/
theorem cutShort {s : Str} (hs : wellFormed s = true) : CutShort s := by
  induction s using utf8.induct with
  | case1 =>
    intro b hb
    obtain rfl := List.prefix_nil.mp hb
    exact ⟨[], List.nil_prefix, .inl ⟨rfl, rfl⟩⟩
  | case2 u =>
    simp only [wellFormed, Bool.not_eq_true', Bool.or_eq_false_iff] at hs
    refine cutShort_cons hs.1 hs.2 fun b hb => ?_
    obtain rfl := List.prefix_nil.mp hb
    exact ⟨[], List.nil_prefix, .inl ⟨rfl, rfl⟩⟩
  | case3 u v s h ih =>
    simp only [wellFormed, h, ↓reduceIte] at hs
    have hp := h
    simp only [Bool.and_eq_true] at hp
    have h1 := (surrogate_iff u).1.mp hp.1
    have h2 := (surrogate_iff v).2.mp hp.2
    refine cutShort_append (n := pairPoint u v) (c := [u, v]) (by unfold Scalar pairPoint; omega)
      (pointUnits_pair hp.1 hp.2) ?_ ?_ (ih hs)
    · simp [wellFormed, h]
    · simp [utf8, h]
  | case4 u v s h ih =>
    simp only [wellFormed, h, Bool.false_eq_true, ↓reduceIte, Bool.and_eq_true, Bool.not_eq_true',
      Bool.or_eq_false_iff] at hs
    exact cutShort_cons hs.1.1 hs.1.2 (ih hs.2)

/-! ## The text of an object -/

private theorem parse_eq_some {s : Str} {v : Json} (h : parse s = some v) :
    ∃ r, parseValue (2 * s.length) (skipSpace s) = some (v, r) ∧ skipSpace r = [] := by
  unfold parse at h
  obtain ⟨⟨w, r⟩, hp, h⟩ := Option.bind_eq_some_iff.mp h
  dsimp only at h
  split at h
  · rename_i hr
    obtain rfl := Option.some.inj h
    exact ⟨r, hp, hr⟩
  · cases h

private theorem parse_cut {p q : Str} {fields : List (Str × Json)}
    (h : stringify (.obj fields) = 0x7B :: (p ++ q)) (hq : q ≠ []) : parse (0x7B :: p) = none := by
  by_contra hne
  obtain ⟨v, hv⟩ := Option.ne_none_iff_exists'.mp hne
  obtain ⟨r, hp, -⟩ := parse_eq_some hv
  rw [skipSpace_cons (by decide)] at hp
  have hread := ((continues _).value _ _ _ hp).2 (.inr ⟨_, _, rfl, .inr (.inr rfl)⟩)
    (2 * (stringify (.obj fields)).length) q (by simp [h])
  have hfull := reads (.obj fields) (2 * (stringify (.obj fields)).length) [] (by omega)
    (by simp [NumberEnds])
  rw [List.append_nil, h] at hfull
  rw [List.cons_append, h, hfull] at hread
  have hnil : [] = r ++ q := (Prod.mk.inj (Option.some.inj hread)).2
  exact hq (List.append_eq_nil_iff.mp hnil.symm).2

private theorem parse_garbled (p : Str) : parse (0x7B :: (p ++ [0xFFFD])) = none := by
  by_contra hne
  obtain ⟨v, hv⟩ := Option.ne_none_iff_exists'.mp hne
  obtain ⟨r, hp, hr⟩ := parse_eq_some hv
  rw [skipSpace_cons (by decide)] at hp
  obtain ⟨n, hn⟩ : ∃ n, 2 * (0x7B :: (p ++ [0xFFFD]) : Str).length = n + 1 :=
    ⟨2 * (p ++ [0xFFFD]).length + 1, by simp only [List.length_cons]; omega⟩
  rw [hn] at hp
  obtain ⟨⟨c, hc⟩, -⟩ := continues_obj (continues n) hp
  -- The object ends with a brace, and behind it stands white space only.
  rcases List.eq_nil_or_concat r with rfl | ⟨t, u, rfl⟩
  · have := List.append_inj_right' hc rfl
    exact absurd this (by decide)
  · have hu : u = 0xFFFD := by
      have hc' : (c ++ 0x7D :: t) ++ [u] = p ++ [0xFFFD] := by simpa using hc
      simpa using List.append_inj_right' hc' rfl
    have hspace := List.dropWhile_eq_nil_iff.mp hr u (by simp)
    rw [hu] at hspace
    exact absurd hspace (by decide)

/-- No proper byte prefix of the text of an object parses. -/
theorem parse_torn {fields : List (Str × Json)} {b : List UInt8}
    (hb : b <+: utf8 (stringify (.obj fields))) (hne : b ≠ utf8 (stringify (.obj fields))) :
    parse (decodeUtf8 b) = none := by
  obtain ⟨p, ⟨q, hq⟩, hcase⟩ := cutShort (printable_stringify _).1 b hb
  obtain ⟨s, hs⟩ : ∃ s, stringify (.obj fields) = 0x7B :: s := ⟨_, rfl⟩
  cases p with
  | nil =>
    rcases hcase with ⟨-, h⟩ | h
    · rw [h]
      decide
    · rw [h]
      decide +kernel
  | cons u p =>
    obtain ⟨rfl, rfl⟩ := List.cons.inj (hq.trans hs)
    rcases hcase with ⟨rfl, h⟩ | h
    · rw [h]
      refine parse_cut hs fun hnil => hne ?_
      rw [hs, hnil]
      exact congrArg (fun t => utf8 (0x7B :: t)) (List.append_nil p).symm
    · rw [h, List.cons_append]
      exact parse_garbled p

end Js
