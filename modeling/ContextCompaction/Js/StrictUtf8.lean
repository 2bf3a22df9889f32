import ContextCompaction.Js.Utf8

/-!
# Strict UTF-8

The decoder of `new TextDecoder("utf-8", { fatal: true, ignoreBOM: true })`: a byte that has no place
where it stands, or an end inside a sequence, is an error.

* `decodeStrict_utf8`: a well-formed string is read back.
* `utf8_of_decodeStrict`: what is read was written so, by a well-formed string.
-/

namespace Js

/-- The byte has no place in this state. -/
def misplaced : DecodeState → UInt8 → Bool
  | .start, b => (decide (0x80 ≤ b.toNat) && decide (b.toNat < 0xC2)) || decide (0xF5 ≤ b.toNat)
  | .more _ _ lower upper, b => !(decide (lower ≤ b.toNat) && decide (b.toNat ≤ upper))

/-- No byte is misplaced and the end stands at a boundary. -/
def clean : DecodeState → List UInt8 → Bool
  | .start, [] => true
  | .more .., [] => false
  | state, b :: bytes => !misplaced state b && clean (decodeStep state b).2 bytes

/-- `decoder.decode(bytes)`, if it does not throw. -/
def decodeStrict (bytes : List UInt8) : Option Str :=
  if clean .start bytes then some (decodeUtf8 bytes) else none

theorem clean_cons (state : DecodeState) (b : UInt8) (bytes : List UInt8) :
    clean state (b :: bytes) = (!misplaced state b && clean (decodeStep state b).2 bytes) := by
  cases state <;> rfl

/-! ## What was written is clean -/

private theorem clean_more {point needed lower upper k : Nat} (hk : k < 256) (hlo : lower ≤ k)
    (hup : k ≤ upper) (bytes : List UInt8) :
    clean (.more point needed lower upper) (k.toUInt8 :: bytes) =
      clean (if needed ≤ 1 then .start else .more (point * 64 + (k - 0x80)) (needed - 1) 0x80 0xBF)
        bytes := by
  rw [clean_cons]
  simp only [misplaced, decodeStep, toNat_byte hk, hlo, hup, decide_true, Bool.and_self, Bool.not_true,
    Bool.not_false, Bool.true_and, and_self, ↓reduceIte]
  by_cases hn : needed ≤ 1
  · rw [if_pos hn, if_pos hn]
  · rw [if_neg hn, if_neg hn]

private theorem clean_start {k : Nat} (hk : k < 256) (h : k < 0x80 ∨ (0xC2 ≤ k ∧ k < 0xF5))
    (bytes : List UInt8) : clean .start (k.toUInt8 :: bytes) = clean (decodeStart k).2 bytes := by
  rw [clean_cons]
  have hplace : misplaced .start k.toUInt8 = false := by
    simp only [misplaced, toNat_byte hk, Bool.or_eq_false_iff, Bool.and_eq_false_iff,
      decide_eq_false_iff_not]
    omega
  rw [hplace]
  simp only [decodeStep, toNat_byte hk, Bool.not_false, Bool.true_and]

theorem clean_encodePoint {n : Nat} (h : Scalar n) (bytes : List UInt8) :
    clean .start (encodePoint n ++ bytes) = clean .start bytes := by
  unfold Scalar at h
  unfold encodePoint
  split
  · rw [List.singleton_append, clean_start (by omega) (by omega)]
    simp [decodeStart, show n < 128 by omega]
  split
  · simp only [List.cons_append, List.nil_append]
    rw [clean_start (by omega) (by omega)]
    simp only [decodeStart, show ¬ (0xC0 + n / 64 < 0x80) by omega,
      show ¬ (0xC0 + n / 64 < 0xC2) by omega, show 0xC0 + n / 64 < 0xE0 by omega, ↓reduceIte]
    rw [clean_more (by omega) (by omega) (by omega)]
    rfl
  split
  · simp only [List.cons_append, List.nil_append]
    rw [clean_start (by omega) (by omega)]
    simp only [decodeStart, show ¬ (0xE0 + n / 4096 < 0x80) by omega,
      show ¬ (0xE0 + n / 4096 < 0xC2) by omega, show ¬ (0xE0 + n / 4096 < 0xE0) by omega,
      show 0xE0 + n / 4096 < 0xF0 by omega, ↓reduceIte]
    rw [clean_more (by omega) (by split <;> omega) (by split <;> omega), if_neg (by omega),
      clean_more (by omega) (by omega) (by omega)]
    rfl
  · simp only [List.cons_append, List.nil_append]
    rw [clean_start (by omega) (by omega)]
    simp only [decodeStart, show ¬ (0xF0 + n / 262144 < 0x80) by omega,
      show ¬ (0xF0 + n / 262144 < 0xC2) by omega, show ¬ (0xF0 + n / 262144 < 0xE0) by omega,
      show ¬ (0xF0 + n / 262144 < 0xF0) by omega, show 0xF0 + n / 262144 < 0xF5 by omega, ↓reduceIte]
    rw [clean_more (by omega) (by split <;> omega) (by split <;> omega), if_neg (by omega),
      clean_more (by omega) (by omega) (by omega), if_neg (by omega),
      clean_more (by omega) (by omega) (by omega)]
    rfl

/-- A unit that is no surrogate is a code point. -/
theorem encodeUnit_of_scalar {u : UInt16} (hu : isHigh u = false) (hl : isLow u = false) :
    encodeUnit u = encodePoint u.toNat ∧ Scalar u.toNat := by
  have h1 := (surrogate_iff u).1
  have h2 := (surrogate_iff u).2
  rw [hu] at h1
  rw [hl] at h2
  have hlt := u.toNat_lt
  simp only [Bool.false_eq_true, false_iff] at h1 h2
  exact ⟨by simp [encodeUnit, hu, hl], by unfold Scalar; omega⟩

theorem scalar_pairPoint {u v : UInt16} (hu : isHigh u = true) (hv : isLow v = true) :
    Scalar (pairPoint u v) := by
  have h1 := (surrogate_iff u).1.mp hu
  have h2 := (surrogate_iff v).2.mp hv
  unfold Scalar pairPoint
  omega

/-- Well-formed text encodes to clean bytes. -/
theorem clean_utf8 {s : Str} (hs : wellFormed s = true) : clean .start (utf8 s) = true := by
  induction s using utf8.induct with
  | case1 => rfl
  | case2 u =>
    simp only [wellFormed, Bool.not_eq_true', Bool.or_eq_false_iff] at hs
    obtain ⟨hunit, hscalar⟩ := encodeUnit_of_scalar hs.1 hs.2
    rw [utf8, hunit, ← List.append_nil (encodePoint _), clean_encodePoint hscalar]
    rfl
  | case3 u v s h ih =>
    simp only [wellFormed, h, ↓reduceIte] at hs
    simp only [utf8, h, ↓reduceIte]
    rw [Bool.and_eq_true] at h
    rw [clean_encodePoint (scalar_pairPoint h.1 h.2), ih hs]
  | case4 u v s h ih =>
    simp only [wellFormed, h, Bool.false_eq_true, ↓reduceIte, Bool.and_eq_true, Bool.not_eq_true',
      Bool.or_eq_false_iff] at hs
    obtain ⟨hunit, hscalar⟩ := encodeUnit_of_scalar hs.1.1 hs.1.2
    simp only [utf8, h, Bool.false_eq_true, ↓reduceIte]
    rw [hunit, clean_encodePoint hscalar, ih hs.2]

/-- A well-formed string is read back. -/
theorem decodeStrict_utf8 {s : Str} (hs : wellFormed s = true) : decodeStrict (utf8 s) = some s := by
  rw [decodeStrict, if_pos (clean_utf8 hs), decodeUtf8_utf8 hs]

/-! ## What is clean was written -/

/-- The next byte inside a sequence. -/
private theorem of_clean_more {point needed lower upper : Nat} {bytes : List UInt8}
    (h : clean (.more point needed lower upper) bytes = true) :
    ∃ (k : Nat) (rest : List UInt8), bytes = k.toUInt8 :: rest ∧ k < 256 ∧ lower ≤ k ∧ k ≤ upper ∧
      clean (if needed ≤ 1 then .start else .more (point * 64 + (k - 0x80)) (needed - 1) 0x80 0xBF)
        rest = true := by
  cases bytes with
  | nil => cases h
  | cons b rest =>
    have hb : b.toNat.toUInt8 = b := by simp
    have hplace : lower ≤ b.toNat ∧ b.toNat ≤ upper := by
      rw [clean_cons, Bool.and_eq_true] at h
      simpa [misplaced] using h.1
    rw [← hb, clean_more b.toNat_lt hplace.1 hplace.2] at h
    exact ⟨b.toNat, rest, by rw [hb], b.toNat_lt, hplace.1, hplace.2, h⟩

/-- A clean input starts with a code point. -/
theorem encodePoint_of_clean {b : UInt8} {bytes : List UInt8} (h : clean .start (b :: bytes) = true) :
    ∃ (n : Nat) (rest : List UInt8), Scalar n ∧ b :: bytes = encodePoint n ++ rest ∧
      clean .start rest = true := by
  generalize hk : b.toNat = k at *
  have hlt : k < 256 := hk ▸ b.toNat_lt
  have hb : b = k.toUInt8 := by rw [← hk]; simp
  have hplace : k < 0x80 ∨ (0xC2 ≤ k ∧ k < 0xF5) := by
    have h := h
    rw [clean_cons, Bool.and_eq_true] at h
    have hkept := h.1
    simp only [misplaced, hk, Bool.not_eq_true', Bool.or_eq_false_iff, Bool.and_eq_false_iff,
      decide_eq_false_iff_not] at hkept
    omega
  subst hb
  rw [clean_start hlt hplace] at h
  unfold decodeStart at h
  split at h
  · -- One byte.
    refine ⟨k, bytes, by unfold Scalar; omega, ?_, h⟩
    rw [encodePoint, if_pos (by omega)]
    rfl
  split at h
  · omega
  split at h
  · -- Two bytes.
    obtain ⟨k1, rest, rfl, h1, hlo1, hup1, h⟩ := of_clean_more h
    refine ⟨(k - 0xC0) * 64 + (k1 - 0x80), rest, by unfold Scalar; omega, ?_, by simpa using h⟩
    rw [encodePoint, if_neg (by omega), if_pos (by omega)]
    rw [show 0xC0 + ((k - 0xC0) * 64 + (k1 - 0x80)) / 64 = k by omega,
      show 0x80 + ((k - 0xC0) * 64 + (k1 - 0x80)) % 64 = k1 by omega]
    rfl
  split at h
  · -- Three bytes.
    obtain ⟨k1, rest, rfl, h1, hlo1, hup1, h⟩ := of_clean_more h
    rw [if_neg (by omega)] at h
    obtain ⟨k2, rest, rfl, h2, hlo2, hup2, h⟩ := of_clean_more h
    have hlower : 0x80 ≤ k1 ∧ (k = 0xE0 → 0xA0 ≤ k1) := by
      by_cases hfirst : k = 0xE0
      · rw [if_pos hfirst] at hlo1
        exact ⟨by omega, fun _ => hlo1⟩
      · rw [if_neg hfirst] at hlo1
        exact ⟨hlo1, fun hk => absurd hk hfirst⟩
    have hupper : k1 ≤ 0xBF ∧ (k = 0xED → k1 ≤ 0x9F) := by
      by_cases hfirst : k = 0xED
      · rw [if_pos hfirst] at hup1
        exact ⟨by omega, fun _ => hup1⟩
      · rw [if_neg hfirst] at hup1
        exact ⟨hup1, fun hk => absurd hk hfirst⟩
    refine ⟨((k - 0xE0) * 64 + (k1 - 0x80)) * 64 + (k2 - 0x80), rest, by unfold Scalar; omega, ?_,
      by simpa using h⟩
    rw [encodePoint, if_neg (by omega), if_neg (by omega), if_pos (by omega)]
    rw [show 0xE0 + (((k - 0xE0) * 64 + (k1 - 0x80)) * 64 + (k2 - 0x80)) / 4096 = k by omega,
      show 0x80 + (((k - 0xE0) * 64 + (k1 - 0x80)) * 64 + (k2 - 0x80)) / 64 % 64 = k1 by omega,
      show 0x80 + (((k - 0xE0) * 64 + (k1 - 0x80)) * 64 + (k2 - 0x80)) % 64 = k2 by omega]
    rfl
  split at h
  · -- Four bytes.
    obtain ⟨k1, rest, rfl, h1, hlo1, hup1, h⟩ := of_clean_more h
    rw [if_neg (by omega)] at h
    obtain ⟨k2, rest, rfl, h2, hlo2, hup2, h⟩ := of_clean_more h
    rw [if_neg (by omega)] at h
    obtain ⟨k3, rest, rfl, h3, hlo3, hup3, h⟩ := of_clean_more h
    have hlower : 0x80 ≤ k1 ∧ (k = 0xF0 → 0x90 ≤ k1) := by
      by_cases hfirst : k = 0xF0
      · rw [if_pos hfirst] at hlo1
        exact ⟨by omega, fun _ => hlo1⟩
      · rw [if_neg hfirst] at hlo1
        exact ⟨hlo1, fun hk => absurd hk hfirst⟩
    have hupper : k1 ≤ 0xBF ∧ (k = 0xF4 → k1 ≤ 0x8F) := by
      by_cases hfirst : k = 0xF4
      · rw [if_pos hfirst] at hup1
        exact ⟨by omega, fun _ => hup1⟩
      · rw [if_neg hfirst] at hup1
        exact ⟨hup1, fun hk => absurd hk hfirst⟩
    generalize hn : (((k - 0xF0) * 64 + (k1 - 0x80)) * 64 + (k2 - 0x80)) * 64 + (k3 - 0x80) = n
    refine ⟨n, rest, by unfold Scalar; omega, ?_, by simpa using h⟩
    rw [encodePoint, if_neg (by omega), if_neg (by omega), if_neg (by omega)]
    rw [show 0xF0 + n / 262144 = k by omega, show 0x80 + n / 4096 % 64 = k1 by omega,
      show 0x80 + n / 64 % 64 = k2 by omega, show 0x80 + n % 64 = k3 by omega]
    rfl
  · omega

theorem toNat_unit {k : Nat} (h : k < 65536) : k.toUInt16.toNat = k := by
  simpa using h

/-- A code point beyond the first plane is a surrogate pair. -/
private theorem pointUnits_high {n : Nat} (h : Scalar n) (hn : ¬ n < 0x10000) :
    ∃ hi lo : UInt16, pointUnits n = [hi, lo] ∧ hi.toNat = 0xD800 + (n - 0x10000) / 0x400 ∧
      lo.toNat = 0xDC00 + (n - 0x10000) % 0x400 := by
  unfold Scalar at h
  refine ⟨_, _, if_neg hn, toNat_unit ?_, toNat_unit ?_⟩
  · omega
  · omega

/-- The units of a code point are well formed and stand for it. -/
theorem utf8_pointUnits {n : Nat} (h : Scalar n) :
    wellFormed (pointUnits n) = true ∧ utf8 (pointUnits n) = encodePoint n := by
  by_cases hn : n < 0x10000
  · have hto : n.toUInt16.toNat = n := toNat_unit hn
    unfold Scalar at h
    have hhigh : isHigh n.toUInt16 = false := by
      rw [← Bool.not_eq_true, (surrogate_iff _).1, hto]
      omega
    have hlow : isLow n.toUInt16 = false := by
      rw [← Bool.not_eq_true, (surrogate_iff _).2, hto]
      omega
    rw [pointUnits, if_pos hn]
    exact ⟨by simp [wellFormed, hhigh, hlow], by simp [utf8, encodeUnit, hhigh, hlow, hto]⟩
  · obtain ⟨hi, lo, hunits, hhi, hlo⟩ := pointUnits_high h hn
    unfold Scalar at h
    have hhigh : isHigh hi = true := by
      rw [(surrogate_iff _).1, hhi]
      omega
    have hlow : isLow lo = true := by
      rw [(surrogate_iff _).2, hlo]
      omega
    have hpoint : pairPoint hi lo = n := by
      unfold pairPoint
      omega
    rw [hunits]
    refine ⟨by simp [wellFormed, hhigh, hlow], ?_⟩
    simp only [utf8, hhigh, hlow, hpoint, Bool.and_self, ↓reduceIte, List.append_nil]

/-- Clean bytes decode to well-formed text that encodes to them. -/
theorem utf8_of_clean {bytes : List UInt8} (h : clean .start bytes = true) :
    wellFormed (decodeUtf8 bytes) = true ∧ utf8 (decodeUtf8 bytes) = bytes := by
  induction hn : bytes.length using Nat.strongRecOn generalizing bytes with
  | ind n ih =>
    cases bytes with
    | nil => exact ⟨rfl, rfl⟩
    | cons b bytes =>
      obtain ⟨point, rest, hscalar, heq, hrest⟩ := encodePoint_of_clean h
      obtain ⟨hwell, hunits⟩ := utf8_pointUnits hscalar
      have hlt : rest.length < n := by
        have hlength := congrArg List.length heq
        have hpos : 0 < (encodePoint point).length := by unfold encodePoint; split_ifs <;> simp
        simp only [List.length_append] at hlength
        omega
      obtain ⟨hw, hu⟩ := ih _ hlt hrest rfl
      rw [decodeUtf8] at hw hu ⊢
      rw [heq, decodeFrom_encodePoint hscalar, wellFormed_append hwell, utf8_append hwell, hunits, hu]
      exact ⟨hw, rfl⟩

/-- What is read was written so, by a well-formed string. -/
theorem utf8_of_decodeStrict {bytes : List UInt8} {s : Str} (h : decodeStrict bytes = some s) :
    wellFormed s = true ∧ utf8 s = bytes := by
  unfold decodeStrict at h
  split at h
  · obtain rfl := Option.some.inj h
    exact utf8_of_clean ‹_›
  · cases h

end Js
