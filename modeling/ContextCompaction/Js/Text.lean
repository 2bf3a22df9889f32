import Mathlib.Data.List.Infix
import Mathlib.Tactic.Common

/-!
# ECMAScript strings

A string is the list of its UTF-16 code units, so a slice may end between the halves of a
surrogate pair and a unit may stand alone. `lit` is the string of a source literal.

* `slice`, `indexFrom`: `String.prototype.slice` with bounds that are not negative, and `indexOf`
  with a start. `join`: `Array.prototype.join`.
* `isSpace`, `trim`: the white space and line terminators of `\s` and `trim`.
* `replaceRuns`: `replace(/[..]+/g, r)` for a class of single units. `mem_replaceRuns` is what
  it leaves.
-/

namespace Js

/-- A string: its UTF-16 code units. -/
abbrev Str := List UInt16

instance : LawfulBEq Str := inferInstance

/-- The code units of one character. -/
def encodeChar (c : Char) : Str :=
  if c.toNat < 0x10000 then [c.toNat.toUInt16]
  else
    [(0xD800 + (c.toNat - 0x10000) / 0x400).toUInt16,
      (0xDC00 + (c.toNat - 0x10000) % 0x400).toUInt16]

/-- A string literal. -/
def lit (s : String) : Str := s.toList.flatMap encodeChar

/-- The first half of a surrogate pair. -/
def isHigh (u : UInt16) : Bool := 0xD800 ≤ u && u ≤ 0xDBFF

/-- The second half of a surrogate pair. -/
def isLow (u : UInt16) : Bool := 0xDC00 ≤ u && u ≤ 0xDFFF

theorem isLow_of_isHigh {u : UInt16} (h : isHigh u = true) : isLow u = false := by
  simp only [isHigh, isLow, Bool.and_eq_true, decide_eq_true_eq, Bool.and_eq_false_iff,
    decide_eq_false_iff_not, UInt16.le_iff_toNat_le] at *
  simp only [UInt16.reduceToNat] at *
  omega

/-! ## Literals -/

private theorem ofNat_inj {a b : Nat} (ha : a < 65536) (hb : b < 65536)
    (h : a.toUInt16 = b.toUInt16) : a = b := by
  have := congrArg UInt16.toNat h
  simpa [Nat.mod_eq_of_lt ha, Nat.mod_eq_of_lt hb] using this

private theorem char_bounds (c : Char) :
    c.toNat < 0xD800 ∨ (0xDFFF < c.toNat ∧ c.toNat < 0x110000) := by
  have := c.valid
  unfold UInt32.isValidChar Nat.isValidChar at this
  simpa using this

private theorem char_eq_of_toNat {c d : Char} (h : c.toNat = d.toNat) : c = d :=
  Char.ext (UInt32.toNat_inj.mp h)

/-- The units of a character and what follows them determine the character. -/
theorem encodeChar_append_inj {c d : Char} {s t : Str}
    (h : encodeChar c ++ s = encodeChar d ++ t) : c = d ∧ s = t := by
  have hc := char_bounds c
  have hd := char_bounds d
  unfold encodeChar at h
  split at h <;> split at h <;> simp only [List.cons_append, List.nil_append, List.cons.injEq] at h
  · exact ⟨char_eq_of_toNat (ofNat_inj (by omega) (by omega) h.1), h.2⟩
  · have := ofNat_inj (by omega) (by omega) h.1
    omega
  · have := ofNat_inj (by omega) (by omega) h.1
    omega
  · have h1 := ofNat_inj (by omega) (by omega) h.1
    have h2 := ofNat_inj (by omega) (by omega) h.2.1
    exact ⟨char_eq_of_toNat (by omega), h.2.2⟩

private theorem encodeChar_ne_nil (c : Char) : encodeChar c ≠ [] := by
  unfold encodeChar; split <;> simp

private theorem flatMap_encodeChar_inj : ∀ {xs ys : List Char},
    xs.flatMap encodeChar = ys.flatMap encodeChar → xs = ys
  | [], [], _ => rfl
  | [], d :: ys, h => by simp [encodeChar_ne_nil] at h
  | c :: xs, [], h => by simp [encodeChar_ne_nil] at h
  | c :: xs, d :: ys, h => by
    simp only [List.flatMap_cons] at h
    obtain ⟨rfl, hs⟩ := encodeChar_append_inj h
    rw [flatMap_encodeChar_inj hs]

@[simp] theorem lit_inj {a b : String} : lit a = lit b ↔ a = b :=
  ⟨fun h => String.toList_inj.mp (flatMap_encodeChar_inj h), fun h => h ▸ rfl⟩

/-- A literal by its characters, which the kernel reads off without decoding it. -/
theorem lit_ofList (cs : List Char) : lit (String.ofList cs) = cs.flatMap encodeChar := by
  rw [lit, String.toList_ofList]

/-! ## Slices and searches -/

/-- `s.slice(start, stop)` for bounds that are not negative. -/
def slice (s : Str) (start stop : Nat) : Str := (s.drop start).take (stop - start)

/-- `s.indexOf(t, start)`. -/
def indexFrom (s t : Str) (start : Nat) : Option Nat :=
  (List.range (s.length + 1)).find? fun i => decide (start ≤ i) && t.isPrefixOf (s.drop i)

/-- `s.includes(t)`. -/
def includes (s t : Str) : Bool := decide (t <:+: s)

theorem indexFrom_eq_some {s t : Str} {start i : Nat} :
    indexFrom s t start = some i ↔
      (start ≤ i ∧ i ≤ s.length ∧ t <+: s.drop i) ∧ ∀ j, start ≤ j → j < i → ¬ t <+: s.drop j := by
  unfold indexFrom
  rw [List.find?_range_eq_some]
  simp only [Bool.and_eq_true, decide_eq_true_eq, List.isPrefixOf_iff_prefix, List.mem_range,
    Bool.not_eq_true', Bool.and_eq_false_iff, decide_eq_false_iff_not]
  grind

theorem indexFrom_eq_none {s t : Str} {start : Nat} :
    indexFrom s t start = none ↔ ∀ j, start ≤ j → j ≤ s.length → ¬ t <+: s.drop j := by
  unfold indexFrom
  rw [List.find?_range_eq_none]
  simp only [Bool.not_eq_true', Bool.and_eq_false_iff, decide_eq_false_iff_not]
  grind

theorem indexFrom_some {s t : Str} {start i : Nat} (h : indexFrom s t start = some i) :
    start ≤ i ∧ i ≤ s.length ∧ t <+: s.drop i :=
  (indexFrom_eq_some.mp h).1

/-! ## Joining -/

/-- `parts.join(separator)`. -/
def join (separator : String) (parts : List Str) : Str := (lit separator).intercalate parts

@[simp] theorem join_nil (sep : String) : join sep [] = [] := rfl

@[simp] theorem join_singleton (sep : String) (s : Str) : join sep [s] = s := by
  simp [join]

@[simp] theorem join_cons_cons (sep : String) (s t : Str) (parts : List Str) :
    join sep (s :: t :: parts) = s ++ lit sep ++ join sep (t :: parts) := by
  simp [join]

theorem join_append {parts rest : List Str} (sep : String) (hp : parts ≠ []) (hr : rest ≠ []) :
    join sep (parts ++ rest) = join sep parts ++ lit sep ++ join sep rest := by
  obtain ⟨t, ts, rfl⟩ := List.exists_cons_of_ne_nil hr
  induction parts with
  | nil => exact absurd rfl hp
  | cons s parts ih =>
    cases parts with
    | nil => simp
    | cons s' parts => simpa using ih (by simp)

/-! ## White space -/

/-- The units that `\s` matches: white space and line terminators. -/
def isSpace (u : UInt16) : Bool :=
  (0x0009 ≤ u && u ≤ 0x000D) || u == 0x0020 || u == 0x00A0 || u == 0x1680 ||
    (0x2000 ≤ u && u ≤ 0x200A) || u == 0x2028 || u == 0x2029 || u == 0x202F || u == 0x205F ||
    u == 0x3000 || u == 0xFEFF

/-- `s.trim()`. -/
def trim (s : Str) : Str := ((s.dropWhile isSpace).reverse.dropWhile isSpace).reverse

/-! ## Replacing runs -/

/-- `s.replace(/[p]+/g, r)`: each longest run of units in `p` becomes `r`. -/
def replaceRuns (p : UInt16 → Bool) (r : Str) : Str → Str
  | [] => []
  | [u] => if p u then r else [u]
  | u :: v :: s =>
    if p u then if p v then replaceRuns p r (v :: s) else r ++ replaceRuns p r (v :: s)
    else u :: replaceRuns p r (v :: s)

/-- What a replacement leaves: units of the replacement, and units outside the class. -/
theorem mem_replaceRuns {p : UInt16 → Bool} {r s : Str} {u : UInt16}
    (h : u ∈ replaceRuns p r s) : u ∈ r ∨ (u ∈ s ∧ p u = false) := by
  induction s using replaceRuns.induct p with
  | case1 => simp [replaceRuns] at h
  | case2 v hv => left; simpa [replaceRuns, hv] using h
  | case3 v hv =>
    simp only [replaceRuns, hv, Bool.false_eq_true, ↓reduceIte, List.mem_singleton] at h
    subst h
    exact .inr ⟨List.mem_cons_self, by simpa using hv⟩
  | case4 v w s hv hw ih =>
    simp only [replaceRuns, hv, hw, ↓reduceIte] at h
    exact (ih h).imp id fun ⟨hm, hp⟩ => ⟨List.mem_cons_of_mem _ hm, hp⟩
  | case5 v w s hv hw ih =>
    simp only [replaceRuns, hv, hw, Bool.false_eq_true, ↓reduceIte, List.mem_append] at h
    rcases h with h | h
    · exact .inl h
    · exact (ih h).imp id fun ⟨hm, hp⟩ => ⟨List.mem_cons_of_mem _ hm, hp⟩
  | case6 v w s hv ih =>
    simp only [replaceRuns, hv, Bool.false_eq_true, ↓reduceIte, List.mem_cons] at h
    rcases h with rfl | h
    · exact .inr ⟨List.mem_cons_self, by simpa using hv⟩
    · exact (ih h).imp id fun ⟨hm, hp⟩ => ⟨List.mem_cons_of_mem _ hm, hp⟩

/-- Runs of a nonempty string become something nonempty. -/
theorem replaceRuns_ne_nil {p : UInt16 → Bool} {r s : Str} (hr : r ≠ []) (hs : s ≠ []) :
    replaceRuns p r s ≠ [] := by
  induction s using replaceRuns.induct p with
  | case1 => exact absurd rfl hs
  | case2 v hv => simpa [replaceRuns, hv] using hr
  | case3 v hv => simp [replaceRuns, hv]
  | case4 v w s hv hw ih => simpa [replaceRuns, hv, hw] using ih (by simp)
  | case5 v w s hv hw ih => simp [replaceRuns, hv, hw, hr]
  | case6 v w s hv ih => simp [replaceRuns, hv]

/-- A replacement of one unit lengthens nothing. -/
theorem length_replaceRuns_le {p : UInt16 → Bool} {r : Str} (hr : r.length ≤ 1) (s : Str) :
    (replaceRuns p r s).length ≤ s.length := by
  induction s using replaceRuns.induct p with
  | case1 => simp [replaceRuns]
  | case2 v hv => simpa [replaceRuns, hv] using hr
  | case3 v hv => simp [replaceRuns, hv]
  | case4 v w s hv hw ih =>
    simp only [replaceRuns, hv, hw, ↓reduceIte]
    exact Nat.le_succ_of_le ih
  | case5 v w s hv hw ih =>
    simp only [replaceRuns, hv, hw, Bool.false_eq_true, ↓reduceIte, List.length_append, List.length_cons] at ih ⊢
    omega
  | case6 v w s hv ih =>
    simp only [replaceRuns, hv, Bool.false_eq_true, ↓reduceIte, List.length_cons] at ih ⊢
    omega

end Js
