import ContextCompaction.Js.StrictUtf8
import ContextCompaction.Sequences.Lines

/-!
# Characters and lines within UTF-8

* `wellFormed_induction`: a well-formed string is made of code points.
* `exists_cut`, `boundary_utf8`: a string is cut where its bytes begin a code point.
* `characterEnd_spec`, `characterStart_spec`: the nearest such places.
* `lineCount_utf8`: the bytes of a string have its lines.
-/

namespace Js

open Sequences

/-- `(b & 0xc0) === 0x80` -/
def isContinuation (b : UInt8) : Bool := b &&& 0xC0 == 0x80

/-- No code point is cut before the byte `i`. -/
def Boundary (bytes : List UInt8) (i : Nat) : Prop := ∀ b ∈ bytes[i]?, isContinuation b = false

theorem boundary_append_left {a b : List UInt8} {i : Nat} (h : i < a.length) :
    Boundary (a ++ b) i ↔ Boundary a i := by
  rw [Boundary, Boundary, List.getElem?_append_left h]

theorem boundary_append_right {a b : List UInt8} {i : Nat} :
    Boundary (a ++ b) (a.length + i) ↔ Boundary b i := by
  rw [Boundary, Boundary, List.getElem?_append_right (Nat.le_add_right _ _), Nat.add_sub_cancel_left]

/-! ## Code points -/

/-- A well-formed string is made of code points. -/
theorem wellFormed_induction {motive : (s : Str) → wellFormed s = true → Prop}
    (nil : motive [] rfl)
    (point : ∀ n s, Scalar n → (hs : wellFormed s = true) → motive s hs →
      ∀ h, motive (pointUnits n ++ s) h)
    {s : Str} (hs : wellFormed s = true) : motive s hs := by
  have hunit : ∀ {u : UInt16} (s : Str), isHigh u = false → isLow u = false →
      (hs : wellFormed s = true) → motive s hs → ∀ h, motive (u :: s) h := by
    intro u s hu hl hs ih
    have hpoint := point u.toNat s (encodeUnit_of_scalar hu hl).2 hs ih
    rwa [pointUnits, if_pos u.toNat_lt, toUInt16_toNat] at hpoint
  induction s using utf8.induct with
  | case1 => exact nil
  | case2 u =>
    have hu := hs
    simp only [wellFormed, Bool.not_eq_true', Bool.or_eq_false_iff] at hu
    exact hunit [] hu.1 hu.2 rfl nil hs
  | case3 u v s h ih =>
    have hs' := hs
    simp only [wellFormed, h, ↓reduceIte] at hs'
    rw [Bool.and_eq_true] at h
    have hpoint := point (pairPoint u v) s (scalar_pairPoint h.1 h.2) hs' (ih hs')
    rw [pointUnits_pair h.1 h.2] at hpoint
    exact hpoint hs
  | case4 u v s h ih =>
    have hs' := hs
    simp only [wellFormed, h, Bool.false_eq_true, ↓reduceIte, Bool.and_eq_true, Bool.not_eq_true',
      Bool.or_eq_false_iff] at hs'
    exact hunit (v :: s) hs'.1.1 hs'.1.2 hs'.2 (ih hs'.2) hs

theorem utf8_pointUnits_append {n : Nat} (h : Scalar n) (s : Str) :
    utf8 (pointUnits n ++ s) = encodePoint n ++ utf8 s := by
  obtain ⟨hwell, hbytes⟩ := utf8_pointUnits h
  rw [utf8_append hwell, hbytes]

private theorem isContinuation_byte : ∀ n < 256,
    isContinuation n.toUInt8 = (decide (0x80 ≤ n) && decide (n < 0xC0)) := by
  decide +kernel

/-- The first byte of a code point leads, the others continue. -/
private theorem encodePoint_bytes {n : Nat} (h : Scalar n) : ∃ lead rest,
    encodePoint n = lead :: rest ∧ isContinuation lead = false ∧
      ∀ b ∈ rest, isContinuation b = true := by
  unfold Scalar at h
  have hrest : ∀ k, isContinuation (0x80 + k % 64).toUInt8 = true := fun k => by
    have hk := Nat.mod_lt k (y := 64) (by omega)
    rw [isContinuation_byte _ (by omega)]
    simp only [Bool.and_eq_true, decide_eq_true_eq]
    omega
  have hlead : ∀ k, k < 256 → (k < 0x80 ∨ 0xC0 ≤ k) → isContinuation k.toUInt8 = false :=
    fun k hk hcase => by
      rw [isContinuation_byte _ hk]
      simp only [Bool.and_eq_false_iff, decide_eq_false_iff_not]
      omega
  unfold encodePoint
  split_ifs with h1 h2 h3
  · exact ⟨_, _, rfl, hlead n (by omega) (.inl h1), fun b hb => absurd hb List.not_mem_nil⟩
  · exact ⟨_, _, rfl, hlead _ (by omega) (by omega), List.forall_mem_cons.mpr
      ⟨hrest n, fun b hb => absurd hb List.not_mem_nil⟩⟩
  · exact ⟨_, _, rfl, hlead _ (by omega) (by omega), List.forall_mem_cons.mpr
      ⟨hrest (n / 64), List.forall_mem_cons.mpr
        ⟨hrest n, fun b hb => absurd hb List.not_mem_nil⟩⟩⟩
  · exact ⟨_, _, rfl, hlead _ (by omega) (by omega), List.forall_mem_cons.mpr
      ⟨hrest (n / 4096), List.forall_mem_cons.mpr ⟨hrest (n / 64), List.forall_mem_cons.mpr
        ⟨hrest n, fun b hb => absurd hb List.not_mem_nil⟩⟩⟩⟩

@[simp] theorem utf8_eq_nil {s : Str} : utf8 s = [] ↔ s = [] := by
  have hpoint : ∀ n, encodePoint n ≠ [] := fun n => by unfold encodePoint; split_ifs <;> simp
  have hunit : ∀ u, encodeUnit u ≠ [] := fun u => by unfold encodeUnit; split_ifs <;> exact hpoint _
  cases s using utf8.induct with
  | case1 => simp
  | case2 u => simp [utf8, hunit]
  | case3 u v s h => simp [utf8, h, hpoint]
  | case4 u v s h => simp [utf8, h, hunit]

/-! ## Where a string is cut -/

/-- The bytes of a string begin a code point. -/
theorem boundary_utf8 {a b : Str} (ha : wellFormed a = true) (hb : wellFormed b = true) :
    Boundary (utf8 (a ++ b)) (byteLength a) := by
  intro first hfirst
  rw [utf8_append ha, byteLength, List.getElem?_append_right (Nat.le_refl _), Nat.sub_self] at hfirst
  induction hb using wellFormed_induction with
  | nil => simp at hfirst
  | point n s hn hs _ _ =>
    obtain ⟨lead, rest, hbytes, hlead, -⟩ := encodePoint_bytes hn
    rw [utf8_pointUnits_append hn, hbytes] at hfirst
    obtain rfl : lead = first := by simpa using hfirst
    exact hlead

/-- Where no code point is cut, the string can be cut. -/
theorem exists_cut {s : Str} (hs : wellFormed s = true) {i : Nat} (hi : i ≤ byteLength s)
    (hcut : Boundary (utf8 s) i) :
    ∃ a b, s = a ++ b ∧ wellFormed a = true ∧ wellFormed b = true ∧ byteLength a = i := by
  induction hs using wellFormed_induction generalizing i with
  | nil => exact ⟨[], [], rfl, rfl, rfl, (Nat.le_zero.mp hi).symm⟩
  | point n s hn hs ih hwhole =>
    obtain ⟨hwell, hunits⟩ := utf8_pointUnits hn
    rw [byteLength, utf8_pointUnits_append hn, List.length_append] at hi
    rw [utf8_pointUnits_append hn] at hcut
    by_cases hzero : i = 0
    · exact ⟨[], pointUnits n ++ s, rfl, rfl, by rw [wellFormed_append hwell, hs], hzero.symm⟩
    · by_cases hlt : i < (encodePoint n).length
      · -- Within the code point every byte but the first continues it.
        obtain ⟨lead, rest, hbytes, -, hrest⟩ := encodePoint_bytes hn
        obtain ⟨j, rfl⟩ := Nat.exists_eq_succ_of_ne_zero hzero
        rw [hbytes, List.length_cons] at hlt
        have hj : j < rest.length := Nat.lt_of_succ_lt_succ hlt
        have hbyte := hcut rest[j] (by simp [hbytes, List.getElem?_append_left hj])
        rw [hrest rest[j] (List.getElem_mem hj)] at hbyte
        cases hbyte
      · have hrest : Boundary (utf8 s) (i - (encodePoint n).length) := fun b hb =>
          hcut b (by rwa [List.getElem?_append_right (Nat.not_lt.mp hlt)])
        obtain ⟨a, b, rfl, ha, hb, hlen⟩ := ih (by rw [byteLength]; omega) hrest
        refine ⟨pointUnits n ++ a, b, by simp, by rw [wellFormed_append hwell, ha], hb, ?_⟩
        rw [byteLength] at hlen
        rw [byteLength, utf8_pointUnits_append hn, List.length_append, hlen]
        omega

/-! ## Lines -/

private theorem byte_eq_lf {k : Nat} (hk : k < 256) : k.toUInt8 = 10 ↔ k = 10 := by
  rw [← UInt8.toNat_inj, toNat_byte hk]
  rfl

private theorem unit_eq_lf {k : Nat} (hk : k < 65536) : k.toUInt16 = 10 ↔ k = 10 := by
  rw [← UInt16.toNat_inj, toNat_unit hk]
  rfl

/-- A code point is a line feed in its bytes if it is one. -/
private theorem lf_point {n : Nat} (h : Scalar n) :
    (n = 10 ∧ encodePoint n = [10] ∧ pointUnits n = [10]) ∨
      (10 ∉ encodePoint n ∧ 10 ∉ pointUnits n) := by
  by_cases hn : n = 10
  · subst hn
    exact .inl ⟨rfl, rfl, rfl⟩
  · unfold Scalar at h
    refine .inr ⟨?_, ?_⟩
    · unfold encodePoint
      split_ifs <;> simp only [List.mem_cons, List.not_mem_nil, or_false, eq_comm (a := (10 : UInt8))]
      · rw [byte_eq_lf (by omega)]
        exact hn
      · rw [byte_eq_lf (by omega), byte_eq_lf (by omega)]
        omega
      · rw [byte_eq_lf (by omega), byte_eq_lf (by omega), byte_eq_lf (by omega)]
        omega
      · rw [byte_eq_lf (by omega), byte_eq_lf (by omega), byte_eq_lf (by omega), byte_eq_lf (by omega)]
        omega
    · unfold pointUnits
      split_ifs <;> simp only [List.mem_cons, List.not_mem_nil, or_false, eq_comm (a := (10 : UInt16))]
      · rw [unit_eq_lf (by omega)]
        exact hn
      · rw [unit_eq_lf (by omega), unit_eq_lf (by omega)]
        omega

private theorem getLast?_append_of_notMem {α : Type} {x : α} {a b : List α} (h : x ∉ a) :
    (a ++ b).getLast? = some x ↔ b.getLast? = some x := by
  cases hb : b with
  | nil =>
    rw [List.append_nil]
    exact ⟨fun hx => absurd (List.mem_of_getLast? hx) h, fun hx => by simp at hx⟩
  | cons y ys => rw [List.getLast?_append_of_ne_nil a (List.cons_ne_nil y ys)]

/-- A string ends a line where its bytes do, and holds as many line feeds. -/
theorem lf_utf8 {s : Str} (hs : wellFormed s = true) :
    (utf8 s).count 10 = s.count 10 ∧ ((utf8 s).getLast? = some 10 ↔ s.getLast? = some 10) := by
  induction hs using wellFormed_induction with
  | nil => simp
  | point n s hn hs ih =>
    rw [utf8_pointUnits_append hn, List.count_append, List.count_append, ih.1]
    rcases lf_point hn with ⟨-, hbytes, hunits⟩ | ⟨hbytes, hunits⟩
    · rw [hbytes, hunits]
      refine ⟨rfl, ?_⟩
      by_cases hnil : s = []
      · simp [hnil]
      · rw [List.getLast?_append_of_ne_nil _ (mt utf8_eq_nil.mp hnil),
          List.getLast?_append_of_ne_nil _ hnil, ih.2]
    · rw [List.count_eq_zero.mpr hbytes, List.count_eq_zero.mpr hunits,
        getLast?_append_of_notMem hbytes, getLast?_append_of_notMem hunits]
      exact ⟨rfl, ih.2⟩

/-- The bytes of a string have its lines. -/
theorem lineCount_utf8 {s : Str} (hs : wellFormed s = true) :
    lineCount 10 (utf8 s) = lineCount 10 s := by
  rw [lineCount, lineCount, (lf_utf8 hs).1]
  simp only [utf8_eq_nil, (lf_utf8 hs).2]

/-- A line is cut in the bytes where it is cut in the string. -/
theorem lineCut_utf8 {a b : Str} (ha : wellFormed a = true) :
    LineCut 10 (utf8 (a ++ b)) (byteLength a) ↔ a = [] ∨ b = [] ∨ a.getLast? = some 10 := by
  have hlast : (∃ j, byteLength a = j + 1 ∧ (utf8 (a ++ b))[j]? = some 10) ↔
      a.getLast? = some 10 := by
    rw [← (lf_utf8 ha).2, List.getLast?_eq_getElem?, utf8_append ha]
    by_cases hnil : utf8 a = []
    · simp [byteLength, hnil]
    · have hpos := List.length_pos_iff.mpr hnil
      constructor
      · rintro ⟨j, hj, hbyte⟩
        rw [byteLength] at hj
        rwa [List.getElem?_append_left (by omega), show j = (utf8 a).length - 1 by omega] at hbyte
      · intro hbyte
        refine ⟨(utf8 a).length - 1, by rw [byteLength]; omega, ?_⟩
        rwa [List.getElem?_append_left (by omega)]
  have hzero : byteLength a = 0 ↔ a = [] := by
    rw [byteLength, List.length_eq_zero_iff, utf8_eq_nil]
  have hwhole : byteLength a = (utf8 (a ++ b)).length ↔ b = [] := by
    rw [utf8_append ha, List.length_append, byteLength, ← utf8_eq_nil, ← List.length_eq_zero_iff]
    omega
  rw [LineCut, hzero, hwhole, hlast]

/-- Where no line is cut, no code point is. -/
theorem boundary_of_lineCut {s : Str} (hs : wellFormed s = true) {k : Nat}
    (h : LineCut 10 (utf8 s) k) : Boundary (utf8 s) k := by
  rcases h with rfl | rfl | ⟨j, rfl, hj⟩
  · exact boundary_utf8 (a := []) rfl hs
  · intro b hb
    simp at hb
  · have hlt := (List.getElem?_eq_some_iff.mp hj).1
    obtain ⟨a, b, rfl, ha, hb, rfl⟩ := exists_cut hs (Nat.le_of_lt hlt)
      (fun first hfirst => by rw [hj, Option.mem_some] at hfirst; subst hfirst; decide)
    rw [utf8_append ha, byteLength, List.getElem?_append_right (Nat.le_refl _), Nat.sub_self] at hj
    -- The code point that the line feed begins is the line feed.
    induction hb using wellFormed_induction with
    | nil => simp at hj
    | point n t hn ht _ _ =>
      rw [utf8_pointUnits_append hn] at hj
      rcases lf_point hn with ⟨-, -, hunits⟩ | ⟨hbytes, -⟩
      · have hcut := boundary_utf8 (a := a ++ [10]) (by rw [wellFormed_append ha]; rfl) ht
        rw [byteLength, utf8_append ha, List.length_append, List.append_assoc] at hcut
        rw [hunits]
        exact hcut
      · obtain ⟨lead, rest, hlead, -⟩ := encodePoint_bytes hn
        rw [hlead] at hj hbytes
        obtain rfl : lead = 10 := by simpa using hj
        exact absurd List.mem_cons_self hbytes

end Js
