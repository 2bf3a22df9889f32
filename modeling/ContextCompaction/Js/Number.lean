import Mathlib.Data.Int.Log
import Mathlib.Data.Rat.Floor
import Mathlib.Data.Nat.Digits.Defs
import Mathlib.Data.Nat.Digits.Lemmas
import Mathlib.Data.Nat.Prime.Basic
import Mathlib.Tactic.Linarith
import Mathlib.Tactic.Positivity
import Mathlib.Tactic.FieldSimp
import Mathlib.Tactic.Ring
import ContextCompaction.Js.Text

/-!
# ECMAScript numbers

A number is a binary64 value: a sign with a representable magnitude, an infinity or NaN. The two
zeros are `finite false 0` and `finite true 0`.

* `round`: round to nearest, ties to even; `round_eq_self` on representable values.
* `Number.add`: addition with one rounding.
* `Number.text`: `Number::toString` in base 10, the shortest decimal that rounds to the value.
* `scanNumber`: the number token of JSON; `scanNumber_text` reads back what `text` wrote.
-/

namespace Js

/-- `q` is the magnitude of a finite binary64 number. -/
def Representable (q : ℚ) : Prop :=
  ∃ (m : ℕ) (e : ℤ), m < 2 ^ 53 ∧ -1074 ≤ e ∧ e ≤ 971 ∧ q = m * (2 : ℚ) ^ e

inductive Number where
  | nan
  | infinite (negative : Bool)
  | finite (negative : Bool) (abs : ℚ) (h : Representable abs)
  deriving DecidableEq

/-! ## Rounding -/

/-- The exponent of the grid that a positive `q` is rounded to. -/
def gridExponent (q : ℚ) : ℤ := max (Int.log 2 q - 52) (-1074)

/-- The integer nearest to a nonnegative `q`; the even one of two. -/
def roundEven (q : ℚ) : ℕ :=
  let f := ⌊q⌋.toNat
  if q - f < 1 / 2 then f else if 1 / 2 < q - f then f + 1 else if f % 2 = 0 then f else f + 1

/-- The magnitude that `q` rounds to, if the exponent had no upper bound. -/
def round (q : ℚ) : ℚ :=
  if 0 < q then roundEven (q / (2 : ℚ) ^ gridExponent q) * (2 : ℚ) ^ gridExponent q else 0

theorem roundEven_natCast (n : ℕ) : roundEven (n : ℚ) = n := by
  simp [roundEven]

theorem roundEven_bounds {q : ℚ} (hq : 0 ≤ q) :
    (roundEven q : ℤ) = ⌊q⌋ ∨ (roundEven q : ℤ) = ⌊q⌋ + 1 := by
  have h : ((⌊q⌋.toNat : ℕ) : ℤ) = ⌊q⌋ := Int.toNat_of_nonneg (Int.floor_nonneg.mpr hq)
  unfold roundEven
  simp only
  split_ifs <;> omega

/-- A lower bound by an integer survives rounding. -/
theorem le_roundEven {q : ℚ} {n : ℕ} (h : (n : ℚ) ≤ q) : n ≤ roundEven q := by
  have hq : 0 ≤ q := le_trans (Nat.cast_nonneg n) h
  have hf : (n : ℤ) ≤ ⌊q⌋ := Int.le_floor.mpr (by exact_mod_cast h)
  rcases roundEven_bounds hq with hr | hr <;> omega

/-- So does an upper one. -/
theorem roundEven_le {q : ℚ} {n : ℕ} (hq : 0 ≤ q) (h : q < n) : roundEven q ≤ n := by
  have hf : ⌊q⌋ < (n : ℤ) := Int.floor_lt.mpr (by exact_mod_cast h)
  rcases roundEven_bounds hq with hr | hr <;> omega

theorem two_zpow_pos (e : ℤ) : (0 : ℚ) < (2 : ℚ) ^ e := zpow_pos (by norm_num) e

theorem natCast_two_pow (k : ℕ) : ((2 ^ k : ℕ) : ℚ) = (2 : ℚ) ^ (k : ℤ) := by
  rw [zpow_natCast]; push_cast; rfl

theorem zpow_lt_of {a b : ℤ} (h : (2 : ℚ) ^ a < (2 : ℚ) ^ b) : a < b :=
  (zpow_lt_zpow_iff_right₀ (by norm_num)).mp h

theorem two_zpow_add (a b : ℤ) : (2 : ℚ) ^ (a + b) = (2 : ℚ) ^ a * (2 : ℚ) ^ b :=
  zpow_add₀ (by norm_num) a b

/-- The scaled value lies below `2 ^ 53`, and at or above `2 ^ 52` on a normal grid. -/
theorem scaled_bounds {q : ℚ} (hq : 0 < q) :
    q / (2 : ℚ) ^ gridExponent q < ((2 ^ 53 : ℕ) : ℚ) ∧
      (-1074 < gridExponent q → ((2 ^ 52 : ℕ) : ℚ) ≤ q / (2 : ℚ) ^ gridExponent q) := by
  have hlo := Int.zpow_log_le_self (b := 2) (by norm_num) hq
  have hhi := Int.lt_zpow_succ_log_self (b := 2) (by norm_num) q
  rw [Nat.cast_ofNat] at hlo hhi
  constructor
  · rw [div_lt_iff₀ (two_zpow_pos _), natCast_two_pow, ← two_zpow_add]
    refine lt_of_lt_of_le hhi ?_
    exact zpow_le_zpow_right₀ (by norm_num) (by unfold gridExponent; push_cast; omega)
  · intro h
    have he : gridExponent q = Int.log 2 q - 52 := by unfold gridExponent at *; omega
    rw [le_div_iff₀ (two_zpow_pos _), he, natCast_two_pow, ← two_zpow_add]
    rwa [show ((52 : ℕ) : ℤ) + (Int.log 2 q - 52) = Int.log 2 q by push_cast; ring]

/-- A rounded magnitude below the overflow threshold is representable. -/
theorem representable_round {q : ℚ} (h : round q < (2 : ℚ) ^ (1024 : ℤ)) :
    Representable (round q) := by
  unfold round at *
  by_cases hq : 0 < q
  · rw [if_pos hq] at h ⊢
    obtain ⟨hlt, hge⟩ := scaled_bounds hq
    have hn := roundEven_le (div_nonneg hq.le (two_zpow_pos _).le) hlt
    have hge' : -1074 ≤ gridExponent q := le_max_right _ _
    -- `2 ^ 53` is the next power of two, so it is written with the next exponent.
    rcases Nat.lt_or_ge (roundEven (q / (2 : ℚ) ^ gridExponent q)) (2 ^ 53) with hm | hm
    · refine ⟨_, _, hm, hge', ?_, rfl⟩
      by_contra hbig
      have h52 : ((2 ^ 52 : ℕ) : ℚ) ≤ roundEven (q / (2 : ℚ) ^ gridExponent q) :=
        Nat.cast_le.mpr (le_roundEven (hge (by omega)))
      have hbound : (2 : ℚ) ^ (((52 : ℕ) : ℤ) + gridExponent q) < (2 : ℚ) ^ (1024 : ℤ) := by
        rw [two_zpow_add, ← natCast_two_pow]
        exact lt_of_le_of_lt (mul_le_mul_of_nonneg_right h52 (two_zpow_pos _).le) h
      have := zpow_lt_of hbound
      omega
    · have heq := le_antisymm hn hm
      rw [heq, natCast_two_pow, ← two_zpow_add] at h
      have := zpow_lt_of h
      refine ⟨2 ^ 52, gridExponent q + 1, by norm_num, by omega, by omega, ?_⟩
      rw [heq, natCast_two_pow, natCast_two_pow, ← two_zpow_add, ← two_zpow_add]
      congr 1
      push_cast
      ring
  · rw [if_neg hq]
    exact ⟨0, 0, by norm_num, by norm_num, by norm_num, by simp⟩

theorem Representable.nonneg {q : ℚ} (h : Representable q) : 0 ≤ q := by
  obtain ⟨m, e, -, -, -, rfl⟩ := h
  exact mul_nonneg (Nat.cast_nonneg m) (two_zpow_pos e).le

theorem Representable.lt {q : ℚ} (h : Representable q) : q < (2 : ℚ) ^ (1024 : ℤ) := by
  obtain ⟨m, e, hm, -, he, rfl⟩ := h
  have h1 : (m : ℚ) < (2 : ℚ) ^ ((53 : ℕ) : ℤ) := by
    rw [← natCast_two_pow]; exact Nat.cast_lt.mpr hm
  have h2 : (2 : ℚ) ^ e ≤ (2 : ℚ) ^ (971 : ℤ) := zpow_le_zpow_right₀ (by norm_num) he
  calc (m : ℚ) * (2 : ℚ) ^ e ≤ m * (2 : ℚ) ^ (971 : ℤ) :=
        mul_le_mul_of_nonneg_left h2 (Nat.cast_nonneg m)
    _ < (2 : ℚ) ^ ((53 : ℕ) : ℤ) * (2 : ℚ) ^ (971 : ℤ) :=
        mul_lt_mul_of_pos_right h1 (two_zpow_pos _)
    _ = (2 : ℚ) ^ (1024 : ℤ) := (two_zpow_add _ _).symm

/-- Rounding keeps a representable value. -/
theorem round_eq_self {q : ℚ} (h : Representable q) : round q = q := by
  rcases h.nonneg.eq_or_lt with rfl | hq
  · simp [round]
  obtain ⟨m, e, hm, he, -, hme⟩ := h
  -- The grid is at least as fine as the one `q` is written on.
  have hlog : gridExponent q ≤ e := by
    have hlo := Int.zpow_log_le_self (b := 2) (by norm_num) hq
    rw [Nat.cast_ofNat] at hlo
    have hlt : (2 : ℚ) ^ (Int.log 2 q) < (2 : ℚ) ^ (((53 : ℕ) : ℤ) + e) := by
      refine lt_of_le_of_lt hlo ?_
      rw [hme, two_zpow_add, ← natCast_two_pow]
      exact mul_lt_mul_of_pos_right (Nat.cast_lt.mpr hm) (two_zpow_pos _)
    have := zpow_lt_of hlt
    unfold gridExponent
    omega
  obtain ⟨d, hd⟩ : ∃ d : ℕ, e = gridExponent q + d := ⟨(e - gridExponent q).toNat, by omega⟩
  have hdiv : q / (2 : ℚ) ^ gridExponent q = ((m * 2 ^ d : ℕ) : ℚ) := by
    rw [div_eq_iff (two_zpow_pos _).ne', Nat.cast_mul, natCast_two_pow]
    conv_lhs => rw [hme, hd, two_zpow_add]
    ring
  rw [round, if_pos hq, hdiv, roundEven_natCast, ← hdiv, div_mul_cancel₀ _ (two_zpow_pos _).ne']

/-- The number nearest to a magnitude. -/
def Number.ofRat (negative : Bool) (q : ℚ) : Number :=
  if h : round q < (2 : ℚ) ^ (1024 : ℤ) then .finite negative (round q) (representable_round h)
  else .infinite negative

theorem Number.ofRat_of_round {negative : Bool} {q r : ℚ} (hr : Representable r)
    (h : round q = r) : Number.ofRat negative q = .finite negative r hr := by
  subst h
  exact dif_pos hr.lt

/-- A count as a number. -/
def Number.ofNat (n : ℕ) : Number := .ofRat false n

theorem representable_natCast {n : ℕ} (h : n < 2 ^ 53) : Representable (n : ℚ) :=
  ⟨n, 0, h, by norm_num, by norm_num, by simp⟩

theorem Number.ofNat_eq {n : ℕ} (h : n < 2 ^ 53) :
    Number.ofNat n = .finite false n (representable_natCast h) :=
  Number.ofRat_of_round _ (round_eq_self (representable_natCast h))

theorem Number.ofNat_inj {m n : ℕ} (hm : m < 2 ^ 53) (hn : n < 2 ^ 53) :
    Number.ofNat m = Number.ofNat n ↔ m = n := by
  rw [Number.ofNat_eq hm, Number.ofNat_eq hn]
  simp

/-! ## Sums -/

/-- `a === b` on numbers. -/
def strictEqual : Number → Number → Bool
  | .finite m a _, .finite n b _ => decide (a = b) && (decide (a = 0) || decide (m = n))
  | .infinite m, .infinite n => decide (m = n)
  | _, _ => false

/-- `x === 0`, for either zero. -/
def Number.isZero : Number → Bool
  | .finite _ abs _ => decide (abs = 0)
  | _ => false

/-- The value of a sign and a magnitude. -/
def signed (negative : Bool) (abs : ℚ) : ℚ := if negative then -abs else abs

/-- `x + y`: the exact sum, rounded; a sum of zero is `-0` only if both terms are. -/
def Number.add : Number → Number → Number
  | .nan, _ | _, .nan => .nan
  | .infinite a, .infinite b => if a = b then .infinite a else .nan
  | .infinite a, .finite .. | .finite .., .infinite a => .infinite a
  | .finite a p _, .finite b q _ =>
    let sum := signed a p + signed b q
    if sum = 0 then .ofRat (a && b) 0 else .ofRat (decide (sum < 0)) |sum|

/-! ## Decimals -/

/-- A decimal digit. -/
def isDigit (u : UInt16) : Bool := 48 ≤ u && u ≤ 57

/-- The value of a string of digits. -/
def natOfDigits (ds : Str) : ℕ := ds.foldl (fun n u => n * 10 + (u.toNat - 48)) 0

/-- The digits of `n` in base 10, without leading zeros. -/
def digitsOf (n : ℕ) : Str := ((Nat.digits 10 n).reverse).map fun d => (48 + d).toUInt16

/-- The value `s * 10 ^ p` of a decimal. -/
def decimalValue (d : ℕ × ℤ) : ℚ := d.1 * (10 : ℚ) ^ d.2

/-- A decimal of at most `k` digits that rounds to `q`, the closest one first, if there is one. -/
def shortCandidate (q : ℚ) (k : ℕ) : Option (ℕ × ℤ) :=
  let p : ℤ := Int.log 10 q + 1 - k
  let x := q / (10 : ℚ) ^ p
  let lo := ⌊x⌋.toNat
  let below := x - lo < 1 / 2 ∨ (x - lo = 1 / 2 ∧ lo % 2 = 0)
  ((if below then [lo, lo + 1] else [lo + 1, lo]).find? fun s => round (decimalValue (s, p)) = q).map
    fun s => if s = 10 ^ k then (1, p + k) else (s, p)

/-- The decimal with the fewest digits that rounds to `q`: the integers `s` and `n - k` of
`Number::toString`. Seventeen digits always suffice; the exact expansion stands behind them, so
that the result is right by construction. -/
def shortest (q : ℚ) : ℕ × ℤ :=
  ((List.range 17).findSome? fun k => shortCandidate q (k + 1)).getD
    (q.num.toNat * (10 ^ q.den / q.den), -q.den)

/-- A number token: `frac` and `exp` are left out when they are empty. -/
structure NumberToken where
  negative : Bool
  int : Str
  frac : Str
  exp : Option (Bool × Str)
  deriving DecidableEq

/-- The exponent of a token: the written one, less the digits of the fraction. -/
def NumberToken.exponent (t : NumberToken) : ℤ :=
  (match t.exp with
    | none => 0
    | some (true, ds) => -(natOfDigits ds : ℤ)
    | some (false, ds) => natOfDigits ds) - t.frac.length

def NumberToken.value (t : NumberToken) : Number :=
  .ofRat t.negative (decimalValue (natOfDigits (t.int ++ t.frac), t.exponent))

def fracText (ds : Str) : Str := if ds = [] then [] else 0x2E :: ds

def expText : Option (Bool × Str) → Str
  | none => []
  | some (minus, ds) => 0x65 :: (if minus then 0x2D else 0x2B) :: ds

def NumberToken.text (t : NumberToken) : Str :=
  (if t.negative then [0x2D] else []) ++ t.int ++ fracText t.frac ++ expText t.exp

/-- The layout of `Number::toString` for a positive magnitude `s * 10 ^ p`. -/
def decimalToken (negative : Bool) (d : ℕ × ℤ) : NumberToken :=
  let ds := digitsOf d.1
  let n : ℤ := ds.length + d.2
  if (ds.length : ℤ) ≤ n ∧ n ≤ 21 then
    ⟨negative, ds ++ List.replicate d.2.toNat 0x30, [], none⟩
  else if 0 < n ∧ n ≤ 21 then ⟨negative, ds.take n.toNat, ds.drop n.toNat, none⟩
  else if -6 < n ∧ n ≤ 0 then ⟨negative, [0x30], List.replicate (-n).toNat 0x30 ++ ds, none⟩
  else ⟨negative, ds.take 1, ds.drop 1, some (decide (n - 1 < 0), digitsOf (n - 1).natAbs)⟩

/-- `Number::toString` of a finite number; both zeros are written `0`. -/
def finiteText (negative : Bool) (abs : ℚ) : Str :=
  if abs = 0 then [0x30] else (decimalToken negative (shortest abs)).text

/-! ### The shortest decimal -/

/-- A short candidate rounds to the number. -/
private theorem shortCandidate_round {q : ℚ} {k : ℕ} {d : ℕ × ℤ} (h : shortCandidate q k = some d) :
    round (decimalValue d) = q := by
  unfold shortCandidate at h
  simp only [Option.map_eq_some_iff] at h
  obtain ⟨s, hs, rfl⟩ := h
  have hr := List.find?_some hs
  simp only [decide_eq_true_eq] at hr
  split
  · rename_i hk
    refine Eq.trans (congrArg round ?_) hr
    unfold decimalValue
    rw [hk]
    push_cast
    rw [zpow_add₀ (by norm_num), zpow_natCast]
    ring
  · exact hr

private theorem den_dvd {q : ℚ} (h : Representable q) : q.den ∣ 10 ^ q.den := by
  obtain ⟨m, e, -, -, -, rfl⟩ := h
  -- A denominator divides a power of two, so it is one, with an exponent below itself.
  obtain ⟨k, hk⟩ : ∃ k, (((m : ℚ) * (2 : ℚ) ^ e).den : ℕ) ∣ 2 ^ k := by
    refine ⟨e.natAbs, ?_⟩
    rcases Int.le_total 0 e with he | he
    · obtain ⟨d, rfl⟩ := Int.eq_ofNat_of_zero_le he
      have : (m : ℚ) * (2 : ℚ) ^ (d : ℤ) = ((m * 2 ^ d : ℕ) : ℚ) := by
        rw [zpow_natCast]; push_cast; rfl
      rw [this, Rat.den_natCast]
      exact one_dvd _
    · obtain ⟨d, hd⟩ := Int.eq_ofNat_of_zero_le (Int.neg_nonneg_of_nonpos he)
      have hed : e = -(d : ℤ) := by omega
      have : (m : ℚ) * (2 : ℚ) ^ e = ((m : ℤ) : ℚ) / ((2 ^ d : ℤ) : ℚ) := by
        rw [hed, zpow_neg, zpow_natCast, div_eq_mul_inv]; push_cast; rfl
      rw [this]
      have := Rat.den_dvd (m : ℤ) (2 ^ d)
      rw [hed, Int.natAbs_neg, Int.natAbs_natCast]
      exact_mod_cast this
  obtain ⟨j, -, hj⟩ := (Nat.dvd_prime_pow Nat.prime_two).mp hk
  rw [hj]
  calc 2 ^ j ∣ 2 ^ (2 ^ j) := pow_dvd_pow 2 Nat.lt_two_pow_self.le
    _ ∣ 10 ^ (2 ^ j) := pow_dvd_pow_of_dvd (by norm_num) _

/-- The shortest decimal rounds to the value. -/
theorem round_shortest {q : ℚ} (h : Representable q) : round (decimalValue (shortest q)) = q := by
  unfold shortest
  rcases hs : (List.range 17).findSome? fun k => shortCandidate q (k + 1) with - | d
  · obtain ⟨c, hc⟩ := den_dvd h
    have hnum : ((q.num.toNat : ℕ) : ℚ) = (q.num : ℚ) := by
      rw [← Int.cast_natCast, Int.toNat_of_nonneg (Rat.num_nonneg.mpr h.nonneg)]
    have hden : (q.den : ℚ) ≠ 0 := Nat.cast_ne_zero.mpr q.den_nz
    have hpow : (10 : ℚ) ^ q.den = q.den * c := by exact_mod_cast hc
    have : decimalValue (q.num.toNat * (10 ^ q.den / q.den), -(q.den : ℤ)) = q := by
      unfold decimalValue
      simp only
      rw [hc, Nat.mul_div_cancel_left _ q.den_pos, zpow_neg, zpow_natCast, hpow, Nat.cast_mul, hnum]
      have hc0 : (c : ℚ) ≠ 0 := by
        rintro h0
        rw [h0, mul_zero] at hpow
        exact absurd hpow (by positivity)
      conv_rhs => rw [← Rat.num_div_den q]
      field_simp
    rw [Option.getD_none, this]
    exact round_eq_self h
  · obtain ⟨k, -, hk⟩ := List.exists_of_findSome?_eq_some hs
    exact shortCandidate_round hk

/-! ### Digits -/

private theorem foldl_digits (ds : Str) (n : ℕ) :
    ds.foldl (fun n u => n * 10 + (u.toNat - 48)) n = n * 10 ^ ds.length + natOfDigits ds := by
  unfold natOfDigits
  induction ds generalizing n with
  | nil => simp
  | cons u ds ih =>
    simp only [List.foldl_cons, List.length_cons]
    rw [ih, ih (0 * 10 + (u.toNat - 48))]
    ring

theorem natOfDigits_append (as bs : Str) :
    natOfDigits (as ++ bs) = natOfDigits as * 10 ^ bs.length + natOfDigits bs := by
  conv_lhs => unfold natOfDigits
  rw [List.foldl_append, foldl_digits]
  rfl

theorem natOfDigits_zeros (k : ℕ) : natOfDigits (List.replicate k 0x30) = 0 := by
  induction k with
  | zero => rfl
  | succ k ih =>
    rw [List.replicate_succ, show (0x30 : UInt16) :: List.replicate k 0x30 =
      [0x30] ++ List.replicate k 0x30 from rfl, natOfDigits_append, ih]
    simp [natOfDigits]

private theorem digit_toNat {d : ℕ} (h : d < 10) : ((48 + d).toUInt16).toNat = 48 + d := by
  simp; omega

theorem natOfDigits_digitsOf (n : ℕ) : natOfDigits (digitsOf n) = n := by
  have key : ∀ ds : List ℕ, (∀ d ∈ ds, d < 10) →
      natOfDigits (ds.reverse.map fun d => (48 + d).toUInt16) = Nat.ofDigits 10 ds := by
    intro ds hds
    induction ds with
    | nil => rfl
    | cons d ds ih =>
      have hd := hds d List.mem_cons_self
      rw [List.reverse_cons, List.map_append, natOfDigits_append,
        ih fun e he => hds e (List.mem_cons_of_mem _ he), Nat.ofDigits_cons]
      simp only [List.map_cons, List.map_nil, List.length_cons, List.length_nil, natOfDigits,
        List.foldl_cons, List.foldl_nil, digit_toNat hd]
      omega
  rw [digitsOf, key _ fun d hd => Nat.digits_lt_base (by norm_num) hd, Nat.ofDigits_digits]

theorem isDigit_digitsOf {n : ℕ} {u : UInt16} (h : u ∈ digitsOf n) : isDigit u = true := by
  unfold digitsOf at h
  obtain ⟨d, hd, rfl⟩ := List.mem_map.mp h
  have hlt := Nat.digits_lt_base (by norm_num) (List.mem_reverse.mp hd)
  simp only [isDigit, Bool.and_eq_true, decide_eq_true_eq, UInt16.le_iff_toNat_le,
    digit_toNat hlt, UInt16.reduceToNat]
  omega

theorem digitsOf_ne_nil {n : ℕ} (h : n ≠ 0) : digitsOf n ≠ [] := by
  simp [digitsOf, Nat.digits_ne_nil_iff_ne_zero.mpr h]

/-- The first digit of a positive count is not zero. -/
theorem head_digitsOf {n : ℕ} {u : UInt16} (h : (digitsOf n).head? = some u) : u ≠ 0x30 := by
  unfold digitsOf at h
  rw [List.head?_map, List.head?_reverse, Option.map_eq_some_iff] at h
  obtain ⟨d, hd, rfl⟩ := h
  have hn : n ≠ 0 := by rintro rfl; simp at hd
  have h0 := Nat.getLast_digit_ne_zero 10 hn
  have hlt := Nat.digits_lt_base (b := 10) (by norm_num) (List.mem_of_getLast? hd)
  intro heq
  have := congrArg UInt16.toNat heq
  rw [digit_toNat hlt] at this
  have hd0 : d = 0 := by simpa using this
  rw [List.getLast?_eq_some_getLast (Nat.digits_ne_nil_iff_ne_zero.mpr hn)] at hd
  exact h0 ((Option.some.inj hd).trans hd0)

/-! ### Reading a token -/

/-- The longest run of digits in front, and the rest. -/
def spanDigits (s : Str) : Str × Str := (s.takeWhile isDigit, s.dropWhile isDigit)

/-- A fraction, if a point opens one. -/
def scanFrac : Str → Option (Str × Str)
  | 0x2E :: s => let (ds, rest) := spanDigits s; if ds = [] then none else some (ds, rest)
  | s => some ([], s)

/-- An exponent, if `e` or `E` opens one. -/
def scanExp : Str → Option (Option (Bool × Str) × Str)
  | 0x65 :: s => scanExpDigits s
  | 0x45 :: s => scanExpDigits s
  | s => some (none, s)
where
  scanExpDigits (s : Str) : Option (Option (Bool × Str) × Str) :=
    let (minus, s) := match s with
      | 0x2D :: s => (true, s)
      | 0x2B :: s => (false, s)
      | s => (false, s)
    let (ds, rest) := spanDigits s
    if ds = [] then none else some (some (minus, ds), rest)

/-- A minus sign, if there is one. -/
def scanSign : Str → Bool × Str
  | 0x2D :: s => (true, s)
  | s => (false, s)

/-- A number token of JSON, and what follows it. -/
def scanNumber (s : Str) : Option (Number × Str) := do
  let (negative, s) := scanSign s
  let (int, s) := spanDigits s
  if int = [] ∨ (1 < int.length ∧ int.head? = some 0x30) then none
  let (frac, s) ← scanFrac s
  let (exp, s) ← scanExp s
  some (NumberToken.value ⟨negative, int, frac, exp⟩, s)

/-- Nothing that continues a number token stands in front. -/
def NumberEnds (s : Str) : Prop :=
  ∀ u, s.head? = some u → isDigit u = false ∧ u ≠ 0x2E ∧ u ≠ 0x65 ∧ u ≠ 0x45

/-- A token as JSON admits it. -/
structure NumberToken.Ok (t : NumberToken) : Prop where
  int_digits : ∀ u ∈ t.int, isDigit u = true
  int_ne_nil : t.int ≠ []
  int_head : 1 < t.int.length → t.int.head? ≠ some 0x30
  frac_digits : ∀ u ∈ t.frac, isDigit u = true
  exp_digits : ∀ m ds, t.exp = some (m, ds) → ds ≠ [] ∧ ∀ u ∈ ds, isDigit u = true

private theorem spanDigits_append {ds s : Str} (hds : ∀ u ∈ ds, isDigit u = true)
    (hs : ∀ u, s.head? = some u → isDigit u = false) : spanDigits (ds ++ s) = (ds, s) := by
  unfold spanDigits
  rw [List.takeWhile_append_of_pos hds, List.dropWhile_append_of_pos hds]
  cases s with
  | nil => simp
  | cons u s => simp [hs u rfl]

/-- A written exponent is read back. -/
private theorem scanExp_text {e : Option (Bool × Str)} {s : Str}
    (he : ∀ m ds, e = some (m, ds) → ds ≠ [] ∧ ∀ u ∈ ds, isDigit u = true) (hs : NumberEnds s) :
    scanExp (expText e ++ s) = some (e, s) := by
  rcases e with - | ⟨m, ds⟩
  · cases s with
    | nil => rfl
    | cons u s =>
      obtain ⟨-, -, h1, h2⟩ := hs u rfl
      simp only [expText, List.nil_append]
      unfold scanExp
      split
      · rename_i heq; exact absurd (List.cons.inj heq).1 h1
      · rename_i heq; exact absurd (List.cons.inj heq).1 h2
      · rfl
  · obtain ⟨hne, hds⟩ := he m ds rfl
    have hspan := spanDigits_append (s := s) hds fun u hu => (hs u hu).1
    cases m <;> simp [expText, scanExp, scanExp.scanExpDigits, hspan, hne]

/-- A written fraction is read back. -/
private theorem scanFrac_text {ds s : Str} (hds : ∀ u ∈ ds, isDigit u = true)
    (hs : ∀ u, s.head? = some u → isDigit u = false ∧ u ≠ 0x2E) :
    scanFrac (fracText ds ++ s) = some (ds, s) := by
  unfold fracText
  by_cases hne : ds = []
  · subst hne
    cases s with
    | nil => rfl
    | cons u s =>
      have h := (hs u rfl).2
      simp only [↓reduceIte, List.nil_append]
      unfold scanFrac
      split
      · rename_i heq; exact absurd (List.cons.inj heq).1 h
      · rfl
  · have hspan := spanDigits_append (s := s) hds fun u hu => (hs u hu).1
    simp [hne, scanFrac, hspan]

private theorem scanSign_text (negative : Bool) {int s : Str} (hint : ∀ u ∈ int, isDigit u = true)
    (hne : int ≠ []) :
    scanSign ((if negative then [0x2D] else []) ++ (int ++ s)) = (negative, int ++ s) := by
  cases negative with
  | true => rfl
  | false =>
    obtain ⟨u, us, rfl⟩ := List.exists_cons_of_ne_nil hne
    have hu := hint u List.mem_cons_self
    simp only [Bool.false_eq_true, ↓reduceIte, List.nil_append, List.cons_append]
    unfold scanSign
    split
    · rename_i heq
      rw [(List.cons.inj heq).1] at hu
      exact absurd hu (by decide)
    · rfl

/-- The scanner takes exactly the token. -/
theorem scanNumber_text {t : NumberToken} (ht : t.Ok) {s : Str} (hs : NumberEnds s) :
    scanNumber (t.text ++ s) = some (t.value, s) := by
  have hexp := scanExp_text ht.exp_digits hs
  -- What follows the fraction opens neither a digit nor a point.
  have hafter : ∀ u, (expText t.exp ++ s).head? = some u → isDigit u = false ∧ u ≠ 0x2E := by
    intro u hu
    rcases he : t.exp with - | ⟨m, ds⟩
    · rw [he] at hu
      exact ⟨(hs u hu).1, (hs u hu).2.1⟩
    · rw [he] at hu
      simp only [expText, List.cons_append, List.head?_cons, Option.some.injEq] at hu
      subst hu
      exact ⟨by decide, by decide⟩
  have hfrac := scanFrac_text ht.frac_digits hafter
  have hfollow : ∀ u, (fracText t.frac ++ (expText t.exp ++ s)).head? = some u →
      isDigit u = false := by
    intro u hu
    by_cases hne : t.frac = []
    · simp only [fracText, hne, ↓reduceIte, List.nil_append] at hu
      exact (hafter u hu).1
    · simp only [fracText, hne, ↓reduceIte, List.cons_append, List.head?_cons,
        Option.some.injEq] at hu
      subst hu
      decide
  have hint := spanDigits_append ht.int_digits hfollow
  have hok : ¬ (t.int = [] ∨ (1 < t.int.length ∧ t.int.head? = some 0x30)) := by
    rintro (h | ⟨h1, h2⟩)
    · exact ht.int_ne_nil h
    · exact ht.int_head h1 h2
  unfold scanNumber NumberToken.text
  simp only [List.append_assoc, scanSign_text t.negative ht.int_digits ht.int_ne_nil, hint, hok,
    ↓reduceIte, hfrac, hexp, Option.bind_eq_bind, Option.bind_some]

/-! ### The round trip -/

/-- The digits of a number other than 0 form a token. -/
private theorem decimalToken_ok (negative : Bool) {d : ℕ × ℤ} (hd : d.1 ≠ 0) :
    (decimalToken negative d).Ok := by
  have hdig : ∀ u ∈ digitsOf d.1, isDigit u = true := fun u => isDigit_digitsOf
  have hzero : ∀ k, ∀ u ∈ List.replicate k (0x30 : UInt16), isDigit u = true := by
    intro k u hu
    rw [List.eq_of_mem_replicate hu]
    decide
  have hne := digitsOf_ne_nil hd
  obtain ⟨v, vs, hvs⟩ := List.exists_cons_of_ne_nil hne
  have hv : v ≠ 0x30 := head_digitsOf (n := d.1) (by rw [hvs]; rfl)
  unfold decimalToken
  simp only
  split_ifs with h1 h2 h3
  · refine ⟨?_, by simp [hne], fun _ => by simp [hvs, hv], by simp, by simp⟩
    intro u hu
    exact (List.mem_append.mp hu).elim (hdig u) (hzero _ u)
  · refine ⟨fun u hu => hdig u (List.mem_of_mem_take hu), ?_, fun _ => ?_,
      fun u hu => hdig u (List.mem_of_mem_drop hu), by simp⟩
    · have hpos : ((digitsOf d.1).length + d.2 : ℤ).toNat ≠ 0 := by omega
      rw [ne_eq, List.take_eq_nil_iff]
      exact fun h => h.elim hpos hne
    · obtain ⟨k, hk⟩ : ∃ k, ((digitsOf d.1).length + d.2 : ℤ).toNat = k + 1 :=
        ⟨((digitsOf d.1).length + d.2 : ℤ).toNat - 1, by omega⟩
      rw [hk, hvs]
      simp [hv]
  · refine ⟨by simp; decide, by simp, by simp, ?_, by simp⟩
    intro u hu
    exact (List.mem_append.mp hu).elim (hzero _ u) (hdig u)
  · refine ⟨fun u hu => hdig u (List.mem_of_mem_take hu), by rw [hvs]; simp,
      fun h => ?_, fun u hu => hdig u (List.mem_of_mem_drop hu), ?_⟩
    · simp at h
    · rintro m ds h
      obtain ⟨rfl, rfl⟩ := Prod.mk.inj (Option.some.inj h)
      refine ⟨digitsOf_ne_nil ?_, fun u => isDigit_digitsOf⟩
      have hlen : 0 < (digitsOf d.1).length := List.length_pos_of_ne_nil hne
      omega

/-- Every layout writes the same value. -/
private theorem decimalToken_value (negative : Bool) {d : ℕ × ℤ} (hd : d.1 ≠ 0) :
    (decimalToken negative d).value = .ofRat negative (decimalValue d) := by
  have hdig := natOfDigits_digitsOf d.1
  have hlen : 0 < (digitsOf d.1).length := List.length_pos_of_ne_nil (digitsOf_ne_nil hd)
  have key : ∀ (m : ℕ) (x : ℤ), decimalValue (m, x) = decimalValue d →
      Number.ofRat negative (decimalValue (m, x)) = .ofRat negative (decimalValue d) :=
    fun m x h => by rw [h]
  unfold decimalToken
  simp only
  split_ifs with h1 h2 h3
  · simp only [NumberToken.value, NumberToken.exponent, List.append_nil, List.length_nil]
    apply key
    obtain ⟨k, hk⟩ : ∃ k : ℕ, d.2 = k := ⟨d.2.toNat, by omega⟩
    rw [natOfDigits_append, hdig, natOfDigits_zeros, List.length_replicate]
    unfold decimalValue
    simp [hk]
  · simp only [NumberToken.value, NumberToken.exponent, List.take_append_drop, hdig,
      List.length_drop]
    apply key
    congr 2
    omega
  · simp only [NumberToken.value, NumberToken.exponent, List.length_append, List.length_replicate]
    apply key
    rw [← List.append_assoc, natOfDigits_append, natOfDigits_append, hdig, natOfDigits_zeros]
    simp only [natOfDigits, List.foldl_cons, List.foldl_nil]
    unfold decimalValue
    simp only [UInt16.reduceToNat]
    push_cast
    congr 1
    · ring
    · congr 1
      omega
  · simp only [NumberToken.value, NumberToken.exponent, List.take_append_drop, hdig,
      List.length_drop]
    apply key
    by_cases hneg : ((digitsOf d.1).length + d.2 : ℤ) - 1 < 0
    · simp only [hneg, decide_true, natOfDigits_digitsOf,
        Int.ofNat_natAbs_of_nonpos (Int.le_of_lt hneg)]
      congr 2
      omega
    · simp only [hneg, decide_false, natOfDigits_digitsOf,
        Int.natAbs_of_nonneg (Int.not_lt.mp hneg)]
      congr 2
      omega

/-- The units of a number token. -/
def isNumberUnit (u : UInt16) : Bool :=
  isDigit u || u == 0x2D || u == 0x2B || u == 0x2E || u == 0x65

private theorem isNumberUnit_of_digit {u : UInt16} (h : isDigit u = true) : isNumberUnit u = true := by
  simp [isNumberUnit, h]

theorem NumberToken.Ok.mem_text {t : NumberToken} (ht : t.Ok) {u : UInt16} (hu : u ∈ t.text) :
    isNumberUnit u = true := by
  unfold NumberToken.text at hu
  simp only [List.mem_append] at hu
  rcases hu with ((hu | hu) | hu) | hu
  · by_cases hneg : t.negative = true
    · rw [if_pos hneg, List.mem_singleton] at hu
      subst hu
      decide
    · simp [hneg] at hu
  · exact isNumberUnit_of_digit (ht.int_digits u hu)
  · unfold fracText at hu
    split at hu
    · simp at hu
    · rcases List.mem_cons.mp hu with rfl | hu
      · decide
      · exact isNumberUnit_of_digit (ht.frac_digits u hu)
  · rcases he : t.exp with - | ⟨m, ds⟩ <;> rw [he] at hu
    · simp [expText] at hu
    · simp only [expText, List.mem_cons] at hu
      rcases hu with rfl | rfl | hu
      · decide
      · cases m <;> decide
      · exact isNumberUnit_of_digit ((ht.exp_digits m ds he).2 u hu)

/-- A token opens with a digit or a minus sign. -/
theorem NumberToken.Ok.head_text {t : NumberToken} (ht : t.Ok) :
    ∃ u s, t.text = u :: s ∧ (isDigit u = true ∨ u = 0x2D) := by
  unfold NumberToken.text
  obtain ⟨v, vs, hv⟩ := List.exists_cons_of_ne_nil ht.int_ne_nil
  by_cases hneg : t.negative = true
  · exact ⟨_, _, by rw [if_pos hneg]; rfl, .inr rfl⟩
  · refine ⟨v, vs ++ fracText t.frac ++ expText t.exp, by simp [hneg, hv], .inl ?_⟩
    exact ht.int_digits v (by simp [hv])

private theorem zeroToken_ok : NumberToken.Ok ⟨false, [0x30], [], none⟩ := by
  refine ⟨by simp; decide, by simp, by simp, by simp, by simp⟩

/-- What `finiteText` writes is a token. -/
theorem finiteText_eq_text (negative : Bool) {abs : ℚ} (h : Representable abs) :
    ∃ t : NumberToken, t.Ok ∧ finiteText negative abs = t.text := by
  unfold finiteText
  by_cases h0 : abs = 0
  · exact ⟨_, zeroToken_ok, by simp [h0, NumberToken.text, fracText, expText]⟩
  · refine ⟨_, decimalToken_ok negative ?_, if_neg h0⟩
    intro hd
    have hr := round_shortest h
    rw [decimalValue, hd] at hr
    exact h0 (by simpa [round] using hr.symm)

/-- A finite number reads back as itself; the sign of zero is lost. -/
theorem scanNumber_finiteText (negative : Bool) {abs : ℚ} (h : Representable abs) {s : Str}
    (hs : NumberEnds s) :
    scanNumber (finiteText negative abs ++ s) =
      some (.finite (negative && decide (abs ≠ 0)) abs h, s) := by
  unfold finiteText
  by_cases h0 : abs = 0
  · subst h0
    have hv : NumberToken.value ⟨false, [0x30], [], none⟩ = .finite false 0 h :=
      Number.ofRat_of_round h (by simp [round, decimalValue, natOfDigits])
    have := scanNumber_text zeroToken_ok hs
    rw [hv] at this
    simpa [NumberToken.text, fracText, expText] using this
  · have hr := round_shortest h
    have hd : (shortest abs).1 ≠ 0 := by
      intro hd
      rw [decimalValue, hd] at hr
      exact h0 (by simpa [round] using hr.symm)
    rw [if_neg h0, scanNumber_text (decimalToken_ok negative hd) hs,
      decimalToken_value negative hd,
      Number.ofRat_of_round h hr]
    simp [h0]

end Js
