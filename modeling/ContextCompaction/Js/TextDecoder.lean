import ContextCompaction.Js.StrictUtf8

/-!
# A decoder that is given bytes in parts

`new TextDecoder("utf-8", { ignoreBOM: true })`: `decodeBytes` is `decode(bytes, { stream: true })` and
`decodeFlush` the text of `decode()`, which ends an incomplete character.

* `decodeBytes_append`: the bytes can be cut anywhere.
* `decodeFrom_eq`: the parts and the flush are the whole.
* `wellFormed_decodeBytes`: every part is well formed.
-/

namespace Js

/-- The text that bytes complete, and the state after them. -/
def decodeBytes : DecodeState → List UInt8 → Str × DecodeState
  | state, [] => ([], state)
  | state, b :: bytes =>
    let step := decodeStep state b
    let rest := decodeBytes step.2 bytes
    (step.1 ++ rest.1, rest.2)

/-- What an incomplete character becomes. -/
def decodeFlush : DecodeState → Str
  | .start => []
  | .more .. => [0xFFFD]

theorem decodeBytes_append (state : DecodeState) (a b : List UInt8) :
    decodeBytes state (a ++ b) =
      ((decodeBytes state a).1 ++ (decodeBytes (decodeBytes state a).2 b).1,
        (decodeBytes (decodeBytes state a).2 b).2) := by
  induction a generalizing state with
  | nil => rfl
  | cons x a ih =>
    simp only [List.cons_append, decodeBytes, ih, List.append_assoc]

theorem decodeFrom_eq (state : DecodeState) (bytes : List UInt8) :
    decodeFrom state bytes = (decodeBytes state bytes).1 ++ decodeFlush (decodeBytes state bytes).2 := by
  induction bytes generalizing state with
  | nil => cases state <;> rfl
  | cons b bytes ih =>
    rw [decodeFrom_cons, ih]
    simp only [decodeBytes, List.append_assoc]

/-! ## What is decoded is well formed -/

/-- A state that completes to a scalar value. -/
def Completing : DecodeState → Prop
  | .start => True
  | .more point needed lower upper =>
    0x80 ≤ lower ∧ upper ≤ 0xBF ∧
      ((needed = 1 ∧ (point < 0x360 ∨ (0x380 ≤ point ∧ point < 0x4400))) ∨
        (needed = 2 ∧ (point < 0xD ∨ (0xE ≤ point ∧ point < 0x110) ∨ (point = 0xD ∧ upper ≤ 0x9F))) ∨
        (needed = 3 ∧ (1 ≤ point ∨ 0x90 ≤ lower) ∧ (point < 4 ∨ (point = 4 ∧ upper ≤ 0x8F))))

private theorem decodeStart_completing {b : Nat} (hb : b < 256) :
    wellFormed (decodeStart b).1 = true ∧ Completing (decodeStart b).2 := by
  have hascii : b < 0x80 → wellFormed [b.toUInt16] = true := fun h => by
    have hpoint := (utf8_pointUnits (n := b) (.inl (by omega))).1
    rwa [pointUnits, if_pos (by omega)] at hpoint
  unfold decodeStart
  split_ifs with h1 h2 h3 h4 h5 h6 h7
  all_goals first
    | exact ⟨hascii ‹_›, trivial⟩
    | exact ⟨rfl, trivial⟩
    | exact ⟨rfl, by omega, by omega, by omega⟩

private theorem decodeStep_completing {state : DecodeState} (hs : Completing state) (b : UInt8) :
    wellFormed (decodeStep state b).1 = true ∧ Completing (decodeStep state b).2 := by
  have hb := decodeStart_completing b.toNat_lt
  cases state with
  | start => exact hb
  | more point needed lower upper =>
    obtain ⟨hlo, hup, hcase⟩ := hs
    by_cases hin : lower ≤ b.toNat ∧ b.toNat ≤ upper
    · simp only [decodeStep, if_pos hin]
      split_ifs with hn
      · have hscalar : Scalar (point * 64 + (b.toNat - 0x80)) := by
          unfold Scalar
          omega
        dsimp only
        exact ⟨(utf8_pointUnits hscalar).1, trivial⟩
      · refine ⟨wellFormed_nil, ?_⟩
        unfold Completing
        omega
    · simp only [decodeStep, if_neg hin]
      refine ⟨?_, hb.2⟩
      rw [← List.singleton_append, wellFormed_append (by rfl)]
      exact hb.1

/-- What the decoder gives is well formed, and what it goes on to give is. -/
theorem wellFormed_decodeBytes {state : DecodeState} (hs : Completing state) (bytes : List UInt8) :
    wellFormed (decodeBytes state bytes).1 = true ∧ Completing (decodeBytes state bytes).2 := by
  induction bytes generalizing state with
  | nil => exact ⟨rfl, hs⟩
  | cons b bytes ih =>
    obtain ⟨hwell, hstep⟩ := decodeStep_completing hs b
    obtain ⟨hrest, hstate⟩ := ih hstep
    exact ⟨by rw [decodeBytes, wellFormed_append hwell, hrest], hstate⟩

theorem wellFormed_decodeFlush (state : DecodeState) : wellFormed (decodeFlush state) = true := by
  cases state <;> rfl

end Js
