import ContextCompaction.Js.Number

/-!
# Bytes of numbers

`DataView.setFloat64` and `getFloat64` with the most significant byte first.

* `natOfBytes_bytesOf`: base 256 digits are read back.
* `getFloat64_setFloat64`: so is a finite number.
-/

namespace Js

/-! ## Base 256 -/

/-- The last `width` digits of `n`, the most significant first. -/
def bytesOf : ℕ → ℕ → List UInt8
  | 0, _ => []
  | width + 1, n => bytesOf width (n / 256) ++ [n.toUInt8]

def natOfBytes (bytes : List UInt8) : ℕ := bytes.foldl (fun n b => n * 256 + b.toNat) 0

@[simp] theorem length_bytesOf (width n : ℕ) : (bytesOf width n).length = width := by
  induction width generalizing n with
  | zero => rfl
  | succ width ih => simp [bytesOf, ih]

theorem bytesOf_add (a b n : ℕ) : bytesOf (a + b) n = bytesOf a (n / 256 ^ b) ++ bytesOf b n := by
  induction b generalizing n with
  | zero => simp [bytesOf]
  | succ b ih =>
    rw [← Nat.add_assoc, bytesOf, ih, bytesOf, Nat.div_div_eq_div_mul, pow_succ', List.append_assoc]

/-- Only the last digits are written. -/
theorem bytesOf_mod (width n : ℕ) : bytesOf width (n % 256 ^ width) = bytesOf width n := by
  induction width generalizing n with
  | zero => rfl
  | succ width ih =>
    have hbyte : (n % 256 ^ (width + 1)).toUInt8 = n.toUInt8 := by
      apply UInt8.toNat_inj.mp
      simp [pow_succ']
    rw [bytesOf, bytesOf, hbyte, pow_succ', Nat.mod_mul_right_div_self, ih]

/-- Eight digits in two words. -/
theorem bytesOf_words (n : ℕ) : bytesOf 4 (n / 2 ^ 32) ++ bytesOf 4 (n % 2 ^ 32) = bytesOf 8 n := by
  rw [show n % 2 ^ 32 = n % 256 ^ 4 from rfl, bytesOf_mod, bytesOf_add 4 4]
  rfl

theorem natOfBytes_append_singleton (bytes : List UInt8) (b : UInt8) :
    natOfBytes (bytes ++ [b]) = natOfBytes bytes * 256 + b.toNat := by
  simp [natOfBytes]

theorem natOfBytes_bytesOf {width n : ℕ} (h : n < 256 ^ width) : natOfBytes (bytesOf width n) = n := by
  induction width generalizing n with
  | zero =>
    rw [pow_zero, Nat.lt_one_iff] at h
    rw [h]
    rfl
  | succ width ih =>
    have hdiv : n / 256 < 256 ^ width := by
      rw [Nat.div_lt_iff_lt_mul (by norm_num), ← pow_succ]
      exact h
    have hbyte : n.toUInt8.toNat = n % 256 := by simp
    rw [bytesOf, natOfBytes_append_singleton, ih hdiv, hbyte]
    omega

theorem natOfBytes_lt (bytes : List UInt8) : natOfBytes bytes < 256 ^ bytes.length := by
  induction bytes using List.reverseRecOn with
  | nil => simp [natOfBytes]
  | append_singleton bytes b ih =>
    have hb := b.toNat_lt
    rw [natOfBytes_append_singleton, List.length_append, List.length_singleton, pow_succ]
    omega

/-- Bytes are the digits of the number they spell. -/
theorem bytesOf_natOfBytes (bytes : List UInt8) : bytesOf bytes.length (natOfBytes bytes) = bytes := by
  induction bytes using List.reverseRecOn with
  | nil => rfl
  | append_singleton bytes b ih =>
    have hb := b.toNat_lt
    have hdiv : (natOfBytes bytes * 256 + b.toNat) / 256 = natOfBytes bytes := by omega
    have hbyte : (natOfBytes bytes * 256 + b.toNat).toUInt8 = b := by
      apply UInt8.toNat_inj.mp
      simp
    rw [natOfBytes_append_singleton, List.length_append, List.length_singleton, bytesOf, hdiv, ih, hbyte]

/-! ## Binary64 -/

/-- The exponent field and the significand of a magnitude. The leading bit of a normal significand
carries into the exponent. -/
def magnitudeBits (abs : ℚ) : ℕ :=
  if abs = 0 then 0
  else (gridExponent abs + 1074).toNat * 2 ^ 52 + roundEven (abs / (2 : ℚ) ^ gridExponent abs)

def signBit (negative : Bool) : ℕ := if negative then 2 ^ 63 else 0

/-- The 64 bits of a number. -/
def Number.bits : Number → ℕ
  | .nan => 0x7FF8000000000000
  | .infinite negative => signBit negative + 0x7FF0000000000000
  | .finite negative abs _ => signBit negative + magnitudeBits abs

/-- The number of 64 bits: sign, exponent and significand. -/
def Number.ofBits (n : ℕ) : Number :=
  let negative := decide (2 ^ 63 ≤ n)
  let e : ℕ := n / 2 ^ 52 % 2 ^ 11
  let m : ℕ := n % 2 ^ 52
  if e = 2047 then (if m = 0 then .infinite negative else .nan)
  else if e = 0 then .ofRat negative (m * (2 : ℚ) ^ (-1074 : ℤ))
  else .ofRat negative ((2 ^ 52 + m : ℕ) * (2 : ℚ) ^ ((e : ℤ) - 1075))

/-- `view.setFloat64(offset, n, false)`: the bytes it stores. -/
def setFloat64 (n : Number) : List UInt8 := bytesOf 8 n.bits

/-- `view.getFloat64(0, false)` on eight bytes. -/
def getFloat64 (bytes : List UInt8) : Number := .ofBits (natOfBytes bytes)

@[simp] theorem length_setFloat64 (n : Number) : (setFloat64 n).length = 8 := length_bytesOf 8 _

/-- A positive magnitude on its grid. -/
theorem magnitude_grid {q : ℚ} (h : Representable q) (hq : 0 < q) :
    ∃ m : ℕ, roundEven (q / (2 : ℚ) ^ gridExponent q) = m ∧
      q = m * (2 : ℚ) ^ gridExponent q ∧ m < 2 ^ 53 ∧ (-1074 < gridExponent q → 2 ^ 52 ≤ m) ∧
      -1074 ≤ gridExponent q ∧ gridExponent q ≤ 971 := by
  have heq := round_eq_self h
  rw [round, if_pos hq] at heq
  obtain ⟨hlt, hge⟩ := scaled_bounds hq
  have hdiv : q / (2 : ℚ) ^ gridExponent q = roundEven (q / (2 : ℚ) ^ gridExponent q) := by
    rw [div_eq_iff (two_zpow_pos _).ne']
    exact heq.symm
  rw [hdiv] at hlt hge
  have hm := Nat.cast_lt.mp hlt
  have hnormal : -1074 < gridExponent q → 2 ^ 52 ≤ roundEven (q / (2 : ℚ) ^ gridExponent q) :=
    fun h => Nat.cast_le.mp (hge h)
  refine ⟨_, rfl, heq.symm, hm, hnormal, le_max_right _ _, ?_⟩
  by_contra hbig
  have h52 : ((2 ^ 52 : ℕ) : ℚ) ≤ roundEven (q / (2 : ℚ) ^ gridExponent q) :=
    Nat.cast_le.mpr (hnormal (by omega))
  have hbound : (2 : ℚ) ^ (((52 : ℕ) : ℤ) + gridExponent q) < (2 : ℚ) ^ (1024 : ℤ) := by
    rw [two_zpow_add, ← natCast_two_pow]
    refine lt_of_le_of_lt (mul_le_mul_of_nonneg_right h52 (two_zpow_pos _).le) ?_
    rw [heq]
    exact h.lt
  have := zpow_lt_of hbound
  omega

/-- A magnitude is read back from its bits. -/
theorem ofBits_magnitudeBits (negative : Bool) {abs : ℚ} (h : Representable abs) :
    Number.ofBits (signBit negative + magnitudeBits abs) = .finite negative abs h ∧
      signBit negative + magnitudeBits abs < 2 ^ 64 := by
  have hsign : ∀ n < 2 ^ 63, decide (2 ^ 63 ≤ signBit negative + n) = negative ∧
      (signBit negative + n) / 2 ^ 52 % 2 ^ 11 = n / 2 ^ 52 ∧
      (signBit negative + n) % 2 ^ 52 = n % 2 ^ 52 ∧ signBit negative + n < 2 ^ 64 := by
    intro n hn
    cases negative
    · simp only [signBit, Bool.false_eq_true, ↓reduceIte, decide_eq_false_iff_not]
      omega
    · simp only [signBit, ↓reduceIte, decide_eq_true_eq]
      omega
  rcases h.nonneg.eq_or_lt with rfl | hq
  · obtain ⟨hneg, he, hm, hlt⟩ := hsign 0 (by norm_num)
    rw [magnitudeBits, if_pos rfl]
    refine ⟨?_, hlt⟩
    simp only [Number.ofBits, hneg, he, hm]
    have hround : round (((0 : ℕ) : ℚ) * (2 : ℚ) ^ (-1074 : ℤ)) = 0 := by
      rw [Nat.cast_zero, zero_mul]
      exact round_eq_self h
    exact Number.ofRat_of_round h hround
  · obtain ⟨m, hround, hgrid, hm, hnormal, hlow, hhigh⟩ := magnitude_grid h hq
    have hbits : magnitudeBits abs = (gridExponent abs + 1074).toNat * 2 ^ 52 + m := by
      rw [magnitudeBits, if_neg hq.ne', hround]
    rw [hbits]
    generalize gridExponent abs = g at *
    obtain ⟨hneg, he, hmant, hlt⟩ := hsign ((g + 1074).toNat * 2 ^ 52 + m) (by omega)
    refine ⟨?_, hlt⟩
    simp only [Number.ofBits, hneg, he, hmant]
    rcases Nat.lt_or_ge m (2 ^ 52) with hsub | hsub
    · -- A subnormal magnitude: the lowest grid.
      obtain rfl : g = -1074 := by omega
      rw [show ((-1074 : ℤ) + 1074).toNat * 2 ^ 52 + m = m by omega, Nat.div_eq_of_lt hsub,
        Nat.mod_eq_of_lt hsub, if_neg (by norm_num), if_pos rfl]
      exact Number.ofRat_of_round h (by rw [← hgrid]; exact round_eq_self h)
    · have hdiv : ((g + 1074).toNat * 2 ^ 52 + m) / 2 ^ 52 = (g + 1075).toNat := by omega
      have hmod : 2 ^ 52 + ((g + 1074).toNat * 2 ^ 52 + m) % 2 ^ 52 = m := by omega
      have hexp : (((g + 1075).toNat : ℕ) : ℤ) - 1075 = g := by omega
      rw [hdiv, if_neg (by omega), if_neg (by omega), hmod, hexp]
      exact Number.ofRat_of_round h (by rw [← hgrid]; exact round_eq_self h)

/-- A finite number is read back. -/
theorem getFloat64_setFloat64 (negative : Bool) {abs : ℚ} (h : Representable abs) :
    getFloat64 (setFloat64 (.finite negative abs h)) = .finite negative abs h := by
  obtain ⟨hread, hlt⟩ := ofBits_magnitudeBits negative h
  rw [getFloat64, setFloat64, natOfBytes_bytesOf (by simpa [Number.bits] using hlt)]
  exact hread

end Js
