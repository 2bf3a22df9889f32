import ContextCompaction.Js.Text

/-!
# UTF-8

`utf8` is the encoding that Node uses for a string (`Buffer.from(s, "utf8")`, `hash.update(s)`):
a surrogate that stands alone is written as U+FFFD. `decodeUtf8` is the WHATWG decoder behind
`buffer.toString("utf8")`: each maximal ill-formed part becomes one U+FFFD.

* `decodeUtf8_utf8`: decoding undoes encoding on well-formed strings, whatever bytes follow.
* `lf_mem_decodeUtf8`: a line feed is decoded only from the byte of a line feed.
-/

namespace Js

/-- The code point of a surrogate pair. -/
def pairPoint (hi lo : UInt16) : Nat := 0x10000 + (hi.toNat - 0xD800) * 0x400 + (lo.toNat - 0xDC00)

/-- The bytes of a code point. -/
def encodePoint (n : Nat) : List UInt8 :=
  if n < 0x80 then [n.toUInt8]
  else if n < 0x800 then [(0xC0 + n / 64).toUInt8, (0x80 + n % 64).toUInt8]
  else if n < 0x10000 then
    [(0xE0 + n / 4096).toUInt8, (0x80 + n / 64 % 64).toUInt8, (0x80 + n % 64).toUInt8]
  else
    [(0xF0 + n / 262144).toUInt8, (0x80 + n / 4096 % 64).toUInt8, (0x80 + n / 64 % 64).toUInt8,
      (0x80 + n % 64).toUInt8]

/-- A unit that is not the first half of a pair; a surrogate becomes U+FFFD. -/
def encodeUnit (u : UInt16) : List UInt8 :=
  if isHigh u || isLow u then encodePoint 0xFFFD else encodePoint u.toNat

/-- The UTF-8 bytes of a string. -/
def utf8 : Str → List UInt8
  | [] => []
  | [u] => encodeUnit u
  | u :: v :: s =>
    if isHigh u && isLow v then encodePoint (pairPoint u v) ++ utf8 s
    else encodeUnit u ++ utf8 (v :: s)

/-- `Buffer.byteLength(s, "utf8")`. -/
def byteLength (s : Str) : Nat := (utf8 s).length

/-- No surrogate stands alone (`String.prototype.isWellFormed`). -/
def wellFormed : Str → Bool
  | [] => true
  | [u] => !(isHigh u || isLow u)
  | u :: v :: s =>
    if isHigh u && isLow v then wellFormed s else !(isHigh u || isLow u) && wellFormed (v :: s)

/-- The code units of a code point. -/
def pointUnits (n : Nat) : Str :=
  if n < 0x10000 then [n.toUInt16]
  else [(0xD800 + (n - 0x10000) / 0x400).toUInt16, (0xDC00 + (n - 0x10000) % 0x400).toUInt16]

/-- The decoder between two bytes: at a boundary, or `needed` bytes before the end of a sequence
whose leading bits are `point` and whose next byte lies in `lower..upper`. -/
inductive DecodeState where
  | start
  | more (point needed lower upper : Nat)

/-- One byte at a boundary. -/
def decodeStart (b : Nat) : Str × DecodeState :=
  if b < 0x80 then ([b.toUInt16], .start)
  else if b < 0xC2 then ([0xFFFD], .start)
  else if b < 0xE0 then ([], .more (b - 0xC0) 1 0x80 0xBF)
  else if b < 0xF0 then
    ([], .more (b - 0xE0) 2 (if b = 0xE0 then 0xA0 else 0x80) (if b = 0xED then 0x9F else 0xBF))
  else if b < 0xF5 then
    ([], .more (b - 0xF0) 3 (if b = 0xF0 then 0x90 else 0x80) (if b = 0xF4 then 0x8F else 0xBF))
  else ([0xFFFD], .start)

/-- One byte: what it completes, and the state after it. A byte that cannot continue a sequence
ends it with U+FFFD and is read again at the boundary. -/
def decodeStep : DecodeState → UInt8 → Str × DecodeState
  | .start, b => decodeStart b.toNat
  | .more point needed lower upper, b =>
    if lower ≤ b.toNat ∧ b.toNat ≤ upper then
      let point := point * 64 + (b.toNat - 0x80)
      if needed ≤ 1 then (pointUnits point, .start) else ([], .more point (needed - 1) 0x80 0xBF)
    else
      let (out, state) := decodeStart b.toNat
      (0xFFFD :: out, state)

/-- Decode from a state to the end of the input. -/
def decodeFrom : DecodeState → List UInt8 → Str
  | .start, [] => []
  | .more .., [] => [0xFFFD]
  | state, b :: bytes => (decodeStep state b).1 ++ decodeFrom (decodeStep state b).2 bytes

/-- `buffer.toString("utf8")`. -/
def decodeUtf8 (bytes : List UInt8) : Str := decodeFrom .start bytes

/-! ## Encoding a concatenation -/

@[simp] theorem utf8_nil : utf8 [] = [] := rfl

@[simp] theorem wellFormed_nil : wellFormed [] = true := rfl

private theorem length_encodePoint_le (n : Nat) : (encodePoint n).length ≤ 4 := by
  unfold encodePoint
  split_ifs <;> simp

private theorem length_encodeUnit_le (u : UInt16) : (encodeUnit u).length ≤ 3 := by
  have hlt := u.toNat_lt
  unfold encodeUnit
  by_cases h : (isHigh u || isLow u) = true
  · rw [if_pos h]
    decide
  · rw [if_neg h]
    unfold encodePoint
    split_ifs <;> simp

/-- A unit takes at most three bytes. -/
theorem byteLength_le (s : Str) : byteLength s ≤ 3 * s.length := by
  unfold byteLength
  induction s using utf8.induct with
  | case1 => simp
  | case2 u => simpa [utf8] using length_encodeUnit_le u
  | case3 u v s h ih =>
    have := length_encodePoint_le (pairPoint u v)
    simp only [utf8, h, ↓reduceIte, List.length_append, List.length_cons]
    omega
  | case4 u v s h ih =>
    have := length_encodeUnit_le u
    simp only [utf8, h, Bool.false_eq_true, ↓reduceIte, List.length_append, List.length_cons] at ih ⊢
    omega

private theorem utf8_cons_of_not_high {u : UInt16} (hu : isHigh u = false) (s : Str) :
    utf8 (u :: s) = encodeUnit u ++ utf8 s := by
  cases s with
  | nil => simp [utf8]
  | cons v s => simp [utf8, hu]

/-- Behind well-formed text the encoding goes on by itself. -/
theorem utf8_append {s : Str} (hs : wellFormed s = true) (t : Str) :
    utf8 (s ++ t) = utf8 s ++ utf8 t := by
  induction s using utf8.induct with
  | case1 => rfl
  | case2 u =>
    simp only [wellFormed, Bool.not_eq_true', Bool.or_eq_false_iff] at hs
    exact utf8_cons_of_not_high hs.1 t
  | case3 u v s h ih =>
    simp only [wellFormed, h, ↓reduceIte] at hs
    simp only [List.cons_append, utf8, h, ↓reduceIte, ih hs, List.append_assoc]
  | case4 u v s h ih =>
    simp only [wellFormed, h, Bool.false_eq_true, ↓reduceIte, Bool.and_eq_true] at hs
    have ih := ih hs.2
    simp only [List.cons_append] at ih
    simp only [List.cons_append, utf8, h, Bool.false_eq_true, ↓reduceIte, ih, List.append_assoc]

theorem byteLength_append {s : Str} (hs : wellFormed s = true) (t : Str) :
    byteLength (s ++ t) = byteLength s + byteLength t := by
  rw [byteLength, utf8_append hs, List.length_append]
  rfl

/-- Behind well-formed text it is the rest that decides. -/
theorem wellFormed_append {s : Str} (hs : wellFormed s = true) (t : Str) :
    wellFormed (s ++ t) = wellFormed t := by
  induction s using utf8.induct with
  | case1 => rfl
  | case2 u =>
    simp only [wellFormed, Bool.not_eq_true', Bool.or_eq_false_iff] at hs
    cases t with
    | nil => simp [wellFormed, hs.1, hs.2]
    | cons v t => simp [wellFormed, hs.1, hs.2]
  | case3 u v s h ih =>
    simp only [wellFormed, h, ↓reduceIte] at hs
    simp only [List.cons_append, wellFormed, h, ↓reduceIte, ih hs]
  | case4 u v s h ih =>
    simp only [wellFormed, h, Bool.false_eq_true, ↓reduceIte, Bool.and_eq_true] at hs
    have ih := ih hs.2
    simp only [List.cons_append] at ih
    simp only [List.cons_append, wellFormed, h, Bool.false_eq_true, ↓reduceIte, ih, hs.1,
      Bool.true_and]

/-- A string without surrogates is well formed. -/
theorem wellFormed_of_forall {s : Str} (h : ∀ u ∈ s, isHigh u = false ∧ isLow u = false) :
    wellFormed s = true := by
  induction s with
  | nil => rfl
  | cons u s ih =>
    have hu := h u List.mem_cons_self
    have hs := ih fun v hv => h v (List.mem_cons_of_mem _ hv)
    rw [show u :: s = [u] ++ s from rfl, wellFormed_append (by simp [wellFormed, hu.1, hu.2]), hs]

/-! ## Decoding -/

theorem toNat_byte {k : Nat} (h : k < 256) : k.toUInt8.toNat = k := by
  simpa using h

theorem decodeFrom_cons (state : DecodeState) (b : UInt8) (bytes : List UInt8) :
    decodeFrom state (b :: bytes) =
      (decodeStep state b).1 ++ decodeFrom (decodeStep state b).2 bytes := by
  cases state <;> rfl

/-- A continuation byte inside its bounds that leaves more to read. -/
private theorem decodeFrom_more {point needed lower upper k : Nat} (hk : k < 256)
    (hlo : lower ≤ k) (hup : k ≤ upper) (hn : 1 < needed) (bytes : List UInt8) :
    decodeFrom (.more point needed lower upper) (k.toUInt8 :: bytes) =
      decodeFrom (.more (point * 64 + (k - 0x80)) (needed - 1) 0x80 0xBF) bytes := by
  rw [decodeFrom_cons]
  simp only [decodeStep, toNat_byte hk, hlo, hup, and_self, ↓reduceIte, Nat.not_le.mpr hn,
    List.nil_append]

/-- The last continuation byte. -/
private theorem decodeFrom_last {point lower upper k : Nat} (hk : k < 256) (hlo : lower ≤ k)
    (hup : k ≤ upper) (bytes : List UInt8) :
    decodeFrom (.more point 1 lower upper) (k.toUInt8 :: bytes) =
      pointUnits (point * 64 + (k - 0x80)) ++ decodeFrom .start bytes := by
  rw [decodeFrom_cons]
  simp only [decodeStep, toNat_byte hk, hlo, hup, and_self, ↓reduceIte, Nat.le_refl]

private theorem decodeFrom_start {k : Nat} (hk : k < 256) (bytes : List UInt8) :
    decodeFrom .start (k.toUInt8 :: bytes) =
      (decodeStart k).1 ++ decodeFrom (decodeStart k).2 bytes := by
  rw [decodeFrom_cons]
  simp only [decodeStep, toNat_byte hk]

/-- A Unicode scalar value: a code point that is not a surrogate. -/
def Scalar (n : Nat) : Prop := n < 0xD800 ∨ (0xE000 ≤ n ∧ n < 0x110000)

/-- An encoded code point is decoded to its code units. -/
theorem decodeFrom_encodePoint {n : Nat} (h : Scalar n) (bytes : List UInt8) :
    decodeFrom .start (encodePoint n ++ bytes) = pointUnits n ++ decodeFrom .start bytes := by
  unfold Scalar at h
  unfold encodePoint
  split
  · -- One byte.
    rw [List.singleton_append, decodeFrom_start (by omega)]
    simp [decodeStart, pointUnits, show n < 128 by omega, show n < 65536 by omega]
  split
  · -- Two bytes.
    simp only [List.cons_append, List.nil_append]
    rw [decodeFrom_start (by omega)]
    simp only [decodeStart, show ¬ (0xC0 + n / 64 < 0x80) by omega,
      show ¬ (0xC0 + n / 64 < 0xC2) by omega, show 0xC0 + n / 64 < 0xE0 by omega, ↓reduceIte,
      List.nil_append]
    rw [decodeFrom_last (by omega) (by omega) (by omega)]
    rw [show (0xC0 + n / 64 - 0xC0) * 64 + (0x80 + n % 64 - 0x80) = n by omega]
  split
  · -- Three bytes: `E0` and `ED` narrow the second one.
    simp only [List.cons_append, List.nil_append]
    rw [decodeFrom_start (by omega)]
    simp only [decodeStart, show ¬ (0xE0 + n / 4096 < 0x80) by omega,
      show ¬ (0xE0 + n / 4096 < 0xC2) by omega, show ¬ (0xE0 + n / 4096 < 0xE0) by omega,
      show 0xE0 + n / 4096 < 0xF0 by omega, ↓reduceIte, List.nil_append]
    rw [decodeFrom_more (by omega) (by split <;> omega) (by split <;> omega) (by omega),
      decodeFrom_last (by omega) (by omega) (by omega)]
    rw [show ((0xE0 + n / 4096 - 0xE0) * 64 + (0x80 + n / 64 % 64 - 0x80)) * 64 +
      (0x80 + n % 64 - 0x80) = n by omega]
  · -- Four bytes: `F0` and `F4` narrow the second one.
    simp only [List.cons_append, List.nil_append]
    rw [decodeFrom_start (by omega)]
    simp only [decodeStart, show ¬ (0xF0 + n / 262144 < 0x80) by omega,
      show ¬ (0xF0 + n / 262144 < 0xC2) by omega, show ¬ (0xF0 + n / 262144 < 0xE0) by omega,
      show ¬ (0xF0 + n / 262144 < 0xF0) by omega, show 0xF0 + n / 262144 < 0xF5 by omega,
      ↓reduceIte, List.nil_append]
    rw [decodeFrom_more (by omega) (by split <;> omega) (by split <;> omega) (by omega),
      decodeFrom_more (by omega) (by omega) (by omega) (by omega),
      decodeFrom_last (by omega) (by omega) (by omega)]
    rw [show (((0xF0 + n / 262144 - 0xF0) * 64 + (0x80 + n / 4096 % 64 - 0x80)) * 64 +
      (0x80 + n / 64 % 64 - 0x80)) * 64 + (0x80 + n % 64 - 0x80) = n by omega]

theorem surrogate_iff (u : UInt16) :
    (isHigh u = true ↔ 0xD800 ≤ u.toNat ∧ u.toNat ≤ 0xDBFF) ∧
      (isLow u = true ↔ 0xDC00 ≤ u.toNat ∧ u.toNat ≤ 0xDFFF) := by
  simp [isHigh, isLow, UInt16.le_iff_toNat_le]

theorem toUInt16_toNat (u : UInt16) : u.toNat.toUInt16 = u := by simp

theorem pointUnits_pair {u v : UInt16} (hu : isHigh u = true) (hv : isLow v = true) :
    pointUnits (pairPoint u v) = [u, v] := by
  have h1 := (surrogate_iff u).1.mp hu
  have h2 := (surrogate_iff v).2.mp hv
  unfold pointUnits pairPoint
  rw [if_neg (by omega)]
  rw [show 0xD800 + (0x10000 + (u.toNat - 0xD800) * 0x400 + (v.toNat - 0xDC00) - 0x10000) / 0x400 =
      u.toNat by omega,
    show 0xDC00 + (0x10000 + (u.toNat - 0xD800) * 0x400 + (v.toNat - 0xDC00) - 0x10000) % 0x400 =
      v.toNat by omega, toUInt16_toNat, toUInt16_toNat]

private theorem decodeFrom_encodeUnit {u : UInt16} (hu : isHigh u = false) (hl : isLow u = false)
    (bytes : List UInt8) :
    decodeFrom .start (encodeUnit u ++ bytes) = u :: decodeFrom .start bytes := by
  have h1 := (surrogate_iff u).1
  have h2 := (surrogate_iff u).2
  rw [hu] at h1
  rw [hl] at h2
  have hlt := u.toNat_lt
  simp only [Bool.false_eq_true, false_iff] at h1 h2
  simp only [encodeUnit, hu, hl, Bool.or_self, Bool.false_eq_true, ↓reduceIte]
  rw [decodeFrom_encodePoint (by unfold Scalar; omega)]
  simp only [pointUnits, show u.toNat < 0x10000 by omega, ↓reduceIte, toUInt16_toNat,
    List.singleton_append]

/-- Decoding gives back a well-formed string, whatever follows its bytes. -/
theorem decodeUtf8_utf8_append {s : Str} (hs : wellFormed s = true) (bytes : List UInt8) :
    decodeUtf8 (utf8 s ++ bytes) = s ++ decodeUtf8 bytes := by
  unfold decodeUtf8
  induction s using utf8.induct with
  | case1 => rfl
  | case2 u =>
    simp only [wellFormed, Bool.not_eq_true', Bool.or_eq_false_iff] at hs
    simp only [utf8, decodeFrom_encodeUnit hs.1 hs.2, List.singleton_append]
  | case3 u v s h ih =>
    simp only [wellFormed, h, ↓reduceIte] at hs
    simp only [Bool.and_eq_true] at h
    have h1 := (surrogate_iff u).1.mp h.1
    have h2 := (surrogate_iff v).2.mp h.2
    simp only [utf8, h.1, h.2, Bool.and_self, ↓reduceIte, List.append_assoc]
    rw [decodeFrom_encodePoint (by unfold Scalar pairPoint; omega), ih hs, pointUnits_pair h.1 h.2]
    rfl
  | case4 u v s h ih =>
    simp only [wellFormed, h, Bool.false_eq_true, ↓reduceIte, Bool.and_eq_true, Bool.not_eq_true',
      Bool.or_eq_false_iff] at hs
    simp only [utf8, h, Bool.false_eq_true, ↓reduceIte, List.append_assoc]
    rw [decodeFrom_encodeUnit hs.1.1 hs.1.2, ih hs.2]
    rfl

theorem decodeUtf8_utf8 {s : Str} (hs : wellFormed s = true) : decodeUtf8 (utf8 s) = s := by
  simpa [decodeUtf8, decodeFrom] using decodeUtf8_utf8_append hs []

/-! ## Line feeds -/

/-- What a state inside a sequence promises: the point it completes is neither below 128 nor
beyond the last code point. -/
private def NotAscii : DecodeState → Prop
  | .start => True
  | .more point needed lower upper =>
    0x80 ≤ lower ∧ upper ≤ 0xBF ∧
      ((needed = 1 ∧ 2 ≤ point ∧ point < 0x4400) ∨
        (needed = 2 ∧ point < 0x110 ∧ (1 ≤ point ∨ 0x90 ≤ lower)) ∨
        (needed = 3 ∧ (1 ≤ point ∨ 0x90 ≤ lower) ∧ (point < 4 ∨ (point = 4 ∧ upper ≤ 0x8F))))

private theorem lf_mem_pointUnits {n : Nat} (h : 0x80 ≤ n) (hn : n < 0x110000) :
    (10 : UInt16) ∉ pointUnits n := by
  unfold pointUnits
  split
  · simp only [List.mem_singleton]
    intro h10
    have := congrArg UInt16.toNat h10
    simp [Nat.mod_eq_of_lt (show n < 65536 by omega)] at this
    omega
  · simp only [List.mem_cons, List.not_mem_nil, or_false]
    rintro (h10 | h10)
    · have := congrArg UInt16.toNat h10
      simp at this
      omega
    · have := congrArg UInt16.toNat h10
      simp at this
      omega

private theorem decodeStart_spec {b : Nat} (hb : b < 256) :
    NotAscii (decodeStart b).2 ∧ (10 ∈ (decodeStart b).1 ↔ b = 10) := by
  unfold decodeStart
  split
  · refine ⟨trivial, ?_⟩
    simp only [List.mem_singleton]
    constructor
    · intro h
      have := congrArg UInt16.toNat h
      simp [Nat.mod_eq_of_lt (show b < 65536 by omega)] at this
      exact this.symm
    · rintro rfl; rfl
  split
  · exact ⟨trivial, by simp; omega⟩
  split
  · refine ⟨⟨by omega, by omega, .inl ⟨rfl, by omega, by omega⟩⟩, by simp; omega⟩
  split
  · refine ⟨⟨by split <;> omega, by split <;> omega, .inr (.inl ⟨rfl, by omega, ?_⟩)⟩,
      by simp; omega⟩
    split <;> omega
  split
  · refine ⟨⟨by split <;> omega, by split <;> omega, .inr (.inr ⟨rfl, ?_, ?_⟩)⟩, by simp; omega⟩
    · split <;> omega
    · split <;> omega
  · exact ⟨trivial, by simp; omega⟩

private theorem decodeStep_spec {state : DecodeState} (hs : NotAscii state) (b : UInt8) :
    NotAscii (decodeStep state b).2 ∧ (10 ∈ (decodeStep state b).1 ↔ b.toNat = 10) := by
  have hb := decodeStart_spec b.toNat_lt
  cases state with
  | start => exact hb
  | more point needed lower upper =>
    obtain ⟨hlo, hup, hcase⟩ := hs
    by_cases hin : lower ≤ b.toNat ∧ b.toNat ≤ upper
    · simp only [decodeStep, if_pos hin]
      by_cases hn : needed ≤ 1
      · have hpt := lf_mem_pointUnits (n := point * 64 + (b.toNat - 0x80)) (by omega) (by omega)
        simp only [if_pos hn]
        exact ⟨trivial, ⟨fun h => absurd h hpt, fun h => by omega⟩⟩
      · simp only [if_neg hn]
        refine ⟨⟨by omega, by omega, ?_⟩, by simp; omega⟩
        rcases hcase with h | h | h
        · omega
        · exact .inl ⟨by omega, by omega, by omega⟩
        · exact .inr (.inl ⟨by omega, by omega, by omega⟩)
    · simp only [decodeStep, if_neg hin, List.mem_cons, hb.2]
      exact ⟨hb.1, fun h => h.resolve_left (by decide), .inr⟩

private theorem lf_mem_decodeFrom {state : DecodeState} (hs : NotAscii state)
    (bytes : List UInt8) : 10 ∈ decodeFrom state bytes ↔ 10 ∈ bytes := by
  induction bytes generalizing state with
  | nil => cases state <;> simp [decodeFrom]
  | cons b bytes ih =>
    have hb := decodeStep_spec hs b
    rw [decodeFrom_cons, List.mem_append, hb.2, ih hb.1, List.mem_cons, ← UInt8.toNat_inj]
    exact or_congr ⟨Eq.symm, Eq.symm⟩ Iff.rfl

/-- A line feed is decoded only from the byte of a line feed. -/
theorem lf_mem_decodeUtf8 (bytes : List UInt8) : 10 ∈ decodeUtf8 bytes ↔ 10 ∈ bytes :=
  lf_mem_decodeFrom (show NotAscii .start from trivial) bytes

end Js
