import ContextCompaction.Js.Text

/-!
# base64url

* `toBase64url`: `buffer.toString("base64url")`, without padding.
* `fromBase64url`: `Buffer.from(s, "base64url")`. Both alphabets are accepted and other units are
  skipped, as Node does.
* `fromBase64url_toBase64url`: decoding undoes encoding.
-/

namespace Js

/-- The unit of a six-bit group. -/
def sextetUnit (n : Nat) : UInt16 :=
  if n < 26 then (65 + n).toUInt16
  else if n < 52 then (71 + n).toUInt16
  else if n < 62 then (n - 4).toUInt16
  else if n = 62 then 0x2D
  else 0x5F

/-- The six-bit group of a unit. -/
def unitSextet (u : UInt16) : Option Nat :=
  if 0x41 ≤ u ∧ u ≤ 0x5A then some (u.toNat - 65)
  else if 0x61 ≤ u ∧ u ≤ 0x7A then some (u.toNat - 71)
  else if 0x30 ≤ u ∧ u ≤ 0x39 then some (u.toNat + 4)
  else if u = 0x2D ∨ u = 0x2B then some 62
  else if u = 0x5F ∨ u = 0x2F then some 63
  else none

/-- The six-bit groups of some bytes; the last one is filled with zeros. -/
def sextets : List UInt8 → List Nat
  | a :: b :: c :: bytes =>
    a.toNat / 4 :: (a.toNat % 4 * 16 + b.toNat / 16) :: (b.toNat % 16 * 4 + c.toNat / 64) ::
      c.toNat % 64 :: sextets bytes
  | [a, b] => [a.toNat / 4, a.toNat % 4 * 16 + b.toNat / 16, b.toNat % 16 * 4]
  | [a] => [a.toNat / 4, a.toNat % 4 * 16]
  | [] => []

/-- The bytes of some six-bit groups; bits that make no whole byte are dropped. -/
def bytesOfSextets : List Nat → List UInt8
  | p :: q :: r :: s :: groups =>
    (p * 4 + q / 16).toUInt8 :: (q % 16 * 16 + r / 4).toUInt8 :: (r % 4 * 64 + s).toUInt8 ::
      bytesOfSextets groups
  | [p, q, r] => [(p * 4 + q / 16).toUInt8, (q % 16 * 16 + r / 4).toUInt8]
  | [p, q] => [(p * 4 + q / 16).toUInt8]
  | _ => []

def toBase64url (bytes : List UInt8) : Str := (sextets bytes).map sextetUnit

def fromBase64url (s : Str) : List UInt8 := bytesOfSextets (s.filterMap unitSextet)

private theorem unitSextet_sextetUnit {n : Nat} (h : n < 64) :
    unitSextet (sextetUnit n) = some n := by
  revert n
  decide

private theorem toUInt8_eq {n : Nat} {a : UInt8} (h : n = a.toNat) : n.toUInt8 = a := by
  rw [h]
  exact UInt8.ofNat_toNat

/-- A sextet is below 64. -/
theorem sextets_lt (bytes : List UInt8) : ∀ n ∈ sextets bytes, n < 64 := by
  induction bytes using sextets.induct with
  | case1 a b c bytes ih =>
    have ha := a.toNat_lt
    have hb := b.toNat_lt
    have hc := c.toNat_lt
    intro n hn
    simp only [sextets, List.mem_cons] at hn
    by_cases hrest : n ∈ sextets bytes
    · exact ih n hrest
    · simp only [hrest, or_false] at hn
      omega
  | case2 a b =>
    have ha := a.toNat_lt
    have hb := b.toNat_lt
    intro n hn
    simp only [sextets, List.mem_cons, List.not_mem_nil, or_false] at hn
    omega
  | case3 a =>
    have ha := a.toNat_lt
    intro n hn
    simp only [sextets, List.mem_cons, List.not_mem_nil, or_false] at hn
    omega
  | case4 => simp [sextets]

/-- The bytes are read back from their sextets. -/
theorem bytesOfSextets_sextets (bytes : List UInt8) : bytesOfSextets (sextets bytes) = bytes := by
  induction bytes using sextets.induct with
  | case1 a b c bytes ih =>
    have ha := a.toNat_lt
    have hb := b.toNat_lt
    have hc := c.toNat_lt
    simp only [sextets, bytesOfSextets, ih]
    rw [toUInt8_eq (a := a) (by omega), toUInt8_eq (a := b) (by omega),
      toUInt8_eq (a := c) (by omega)]
  | case2 a b =>
    have ha := a.toNat_lt
    have hb := b.toNat_lt
    simp only [sextets, bytesOfSextets]
    rw [toUInt8_eq (a := a) (by omega), toUInt8_eq (a := b) (by omega)]
  | case3 a =>
    have ha := a.toNat_lt
    simp only [sextets, bytesOfSextets]
    rw [toUInt8_eq (a := a) (by omega)]
  | case4 => rfl

theorem fromBase64url_toBase64url (bytes : List UInt8) :
    fromBase64url (toBase64url bytes) = bytes := by
  have h : (sextets bytes).filterMap (unitSextet ∘ sextetUnit) = sextets bytes := by
    calc (sextets bytes).filterMap (unitSextet ∘ sextetUnit)
        = (sextets bytes).filterMap some :=
          List.filterMap_congr fun n hn => unitSextet_sextetUnit (sextets_lt bytes n hn)
      _ = sextets bytes := List.filterMap_some
  rw [fromBase64url, toBase64url, List.filterMap_map, h, bytesOfSextets_sextets]

end Js
