import ContextCompaction.Cbor.DecoderLaws

/-!
# Round trips

* `cbor_roundTrip`: decoding undoes encoding, and what is decoded can be encoded in no more bytes.
-/

namespace Cbor

open Js

theorem levelsAt_zero (o : ResolvedCborOptions) : levelsAt o 0 = o.maxDepth + 1 := rfl

/-- The bytes that `encodeAll` gives are an item. -/
theorem item_of_encodeAll {o : ResolvedCborOptions} {v : Value} (hv : v.Ok) {bs : List UInt8}
    (h : encodeAll o v = .ok bs) :
    bs.length ≤ o.maxByteLength ∧ Item o (o.maxDepth + 1) bs v.defined := by
  obtain ⟨w, hw, h⟩ := bind_ok.mp h
  obtain rfl := Except.ok.inj h
  obtain ⟨bs, hwrote, hitem⟩ := item_of_encodeValue hv _ 0 w hw
  have hbytes : w.written = bs := hwrote.2
  have hlimit : w.maxByteLength = o.maxByteLength := hwrote.1
  exact ⟨hlimit ▸ w.fits, hbytes ▸ hitem⟩

/-- `decodeAll` accepts exactly the items. -/
theorem decodeAll_ok {o : ResolvedCborOptions} {bs : List UInt8} {v : Value} :
    decodeAll o bs = .ok v ↔ Item o (o.maxDepth + 1) bs v := by
  have hstart : (⟨0, Nat.zero_le bs.length⟩ : CborReader bs).rest = bs := rfl
  rw [decodeAll, bind_pair_ok]
  constructor
  · rintro ⟨u, r, hread, h⟩
    obtain ⟨item, hitem, hrest⟩ := (readItem_ok (o.maxDepth + 1) _ u r).mp hread
    dsimp only at h
    by_cases hend : r.offset = bs.length
    · rw [if_neg (by simpa using hend)] at h
      obtain rfl := Except.ok.inj h
      have hnil : r.rest = [] := by rw [CborReader.rest, hend, List.drop_length]
      rw [hstart, hnil, List.append_nil] at hrest
      exact hrest ▸ hitem
    · rw [if_pos hend] at h
      cases h
  · intro hitem
    refine ⟨v, ⟨bs.length, Nat.le_refl _⟩, (readItem_ok _ _ _ _).mpr ⟨bs, hitem, ?_⟩, by simp⟩
    rw [hstart, CborReader.rest, List.drop_length, List.append_nil]

/-- An item that fits is written again. -/
theorem encodeAll_of_item {o : ResolvedCborOptions} {bs : List UInt8} {v : Value}
    (hlimit : bs.length ≤ o.maxByteLength) (h : Item o (o.maxDepth + 1) bs v) :
    ∃ bs', encodeAll o v = .ok bs' ∧ bs'.length ≤ bs.length := by
  obtain ⟨w, bs', hw, hwrote, hle⟩ := encodeValue_of_item h (levelsAt_zero o).symm
    ⟨o.maxByteLength, [], Nat.zero_le _⟩ (by simpa using hlimit)
  have hbytes : w.written = bs' := hwrote.2
  exact ⟨w.written, bind_ok.mpr ⟨w, hw, rfl⟩, hbytes ▸ hle⟩

/-! ## Calls -/

section

variable {options : CborOptions} {o : ResolvedCborOptions}

theorem decodeCbor_eq (h : resolveOptions options = .ok o) (bs : List UInt8) :
    decodeCbor bs options = if o.maxByteLength < bs.length then
        .error (.cbor ⟨lit "CBOR byte length exceeds configured limit of " ++ decimal o.maxByteLength⟩)
      else (decodeAll o bs).mapError .cbor := by
  unfold decodeCbor
  rw [h]
  rfl

/-- A call accepts exactly the items that its limit admits. -/
theorem decodeCbor_ok (h : resolveOptions options = .ok o) {bs : List UInt8} {v : Value} :
    decodeCbor bs options = .ok v ↔ bs.length ≤ o.maxByteLength ∧ Item o (o.maxDepth + 1) bs v := by
  rw [decodeCbor_eq h]
  by_cases hlimit : o.maxByteLength < bs.length
  · rw [if_pos hlimit]
    exact iff_of_false nofun fun ⟨hle, _⟩ => absurd hle (Nat.not_le.mpr hlimit)
  · rw [if_neg hlimit, mapError_ok, decodeAll_ok]
    exact ⟨fun hitem => ⟨Nat.not_lt.mp hlimit, hitem⟩, fun hitem => hitem.2⟩

theorem encodeCbor_ok (h : resolveOptions options = .ok o) {bs : List UInt8} {v : Value} :
    encodeCbor v options = .ok bs ↔ encodeAll o v = .ok bs := by
  rw [encodeCbor, h]
  exact mapError_ok

/-- With options that resolve, a failure is a `CborError`. -/
theorem decodeCbor_cases (h : resolveOptions options = .ok o) (bs : List UInt8) :
    (∃ error, decodeCbor bs options = .error (.cbor error)) ∨ ∃ v, decodeCbor bs options = .ok v := by
  rw [decodeCbor_eq h]
  by_cases hlimit : o.maxByteLength < bs.length
  · exact .inl ⟨_, if_pos hlimit⟩
  · rw [if_neg hlimit]
    cases decodeAll o bs with
    | error e => exact .inl ⟨e, rfl⟩
    | ok v => exact .inr ⟨v, rfl⟩

end

/-- Only a limit out of range keeps the options from being resolved. -/
theorem resolveOptions_cases (options : CborOptions) :
    (∃ message, resolveOptions options = .error (.range message)) ∨
      ∃ o, resolveOptions options = .ok o := by
  have hlimit : ∀ name value default maximum,
      (∃ message, resolveLimit name value default maximum = .error (.range message)) ∨
        ∃ limit, resolveLimit name value default maximum = .ok limit := by
    intro name value default maximum
    unfold resolveLimit
    dsimp only
    split
    · exact .inr ⟨_, rfl⟩
    · exact .inl ⟨_, rfl⟩
  unfold resolveOptions
  rcases hlimit "maxByteLength" options.maxByteLength DEFAULT_MAX_CBOR_BYTE_LENGTH MAX_UINT32 with
    ⟨message, h⟩ | ⟨bytes, h⟩
  · exact .inl ⟨message, by rw [h]; rfl⟩
  rcases hlimit "maxContainerLength" options.maxContainerLength DEFAULT_MAX_CBOR_CONTAINER_LENGTH
    MAX_UINT32 with ⟨message, h'⟩ | ⟨container, h'⟩
  · exact .inl ⟨message, by rw [h, h']; rfl⟩
  rcases hlimit "maxDepth" options.maxDepth DEFAULT_MAX_CBOR_DEPTH MAX_CONFIGURED_DEPTH with
    ⟨message, h''⟩ | ⟨depth, h''⟩
  · exact .inl ⟨message, by rw [h, h', h'']; rfl⟩
  · exact .inr ⟨_, by rw [h, h', h'']; rfl⟩

theorem start_inside (bytes : List UInt8) : 0 ≤ bytes.length := Nat.zero_le _

/-- The reader stops at the end of the input. -/
def ConsumesAll (options : CborOptions) (bytes : List UInt8) (v : Value) : Prop :=
  ∃ o r, resolveOptions options = .ok o ∧ r.offset = bytes.length ∧
    CborReader.readItem o (o.maxDepth + 1) ⟨0, start_inside bytes⟩ = .ok (v, r)

theorem consumesAll_of_item {options : CborOptions} {o : ResolvedCborOptions}
    (h : resolveOptions options = .ok o) {bs : List UInt8} {v : Value}
    (hitem : Item o (o.maxDepth + 1) bs v) : ConsumesAll options bs v := by
  refine ⟨o, ⟨bs.length, Nat.le_refl _⟩, h, rfl, (readItem_ok _ _ _ _).mpr ⟨bs, hitem, ?_⟩⟩
  simp [CborReader.rest]

/-- Decoding undoes encoding. What is decoded is read to its end, and is encoded again in no more
bytes that stand for it. -/
theorem cbor_roundTrip (options : CborOptions) :
    (∀ v bytes, v.Ok → encodeCbor v options = .ok bytes →
      decodeCbor bytes options = .ok v.defined) ∧
    ∀ bytes, (∃ message, resolveOptions options = .error (.range message) ∧
        decodeCbor bytes options = .error (.range message)) ∨
      (∃ error, decodeCbor bytes options = .error (.cbor error)) ∨
      ∃ v, decodeCbor bytes options = .ok v ∧ ConsumesAll options bytes v ∧
        ∃ bytes', encodeCbor v options = .ok bytes' ∧ bytes'.length ≤ bytes.length ∧
          decodeCbor bytes' options = .ok v := by
  rcases resolveOptions_cases options with ⟨message, h⟩ | ⟨o, h⟩
  · refine ⟨fun v bytes _ hencode => ?_, fun bytes => .inl ⟨message, h, ?_⟩⟩
    · rw [encodeCbor, h] at hencode
      cases hencode
    · unfold decodeCbor
      rw [h]
      rfl
  have hdecode : ∀ v bytes, v.Ok → encodeCbor v options = .ok bytes →
      decodeCbor bytes options = .ok v.defined := fun v bytes hv hencode =>
    (decodeCbor_ok h).mpr (item_of_encodeAll hv ((encodeCbor_ok h).mp hencode))
  refine ⟨hdecode, fun bytes => .inr ?_⟩
  rcases decodeCbor_cases h bytes with herror | ⟨v, hv⟩
  · exact .inl herror
  · obtain ⟨hlimit, hitem⟩ := (decodeCbor_ok h).mp hv
    obtain ⟨hok, hdefined⟩ := hitem.ok
    obtain ⟨bytes', hencode, hle⟩ := encodeAll_of_item hlimit hitem
    have hencode := (encodeCbor_ok h).mpr hencode
    have hagain := hdecode v bytes' hok hencode
    rw [hdefined] at hagain
    exact .inr ⟨v, hv, consumesAll_of_item h hitem, bytes', hencode, hle, hagain⟩

-- An integer that was not written in its shortest form is written in it.
example : ((decodeCbor [0x18, 0x05] {}).toOption.bind fun v => (encodeCbor v {}).toOption) =
    some [0x05] := by decide +kernel

/-- A map with the key `__proto__`, `-0`, a fraction and an entry to leave out. -/
def sampleValue : Value :=
  .obj [(lit "__proto__", .num (.ofRat true 0)), (lit "gone", .undefined),
    (lit "list", .arr [.bytes [0, 255], .str (lit "é"), .num (.ofRat false (3 / 2)), .num (.ofNat 300)])]

theorem ok_sampleValue : sampleValue.Ok := by
  refine .obj (by decide +kernel) ?_ ?_
  · have hnone : ∀ k ∈ [lit "__proto__", lit "gone", lit "list"], indexKey k = none := by decide +kernel
    refine (List.pairwise_of_forall fun _ _ => trivial : List.Pairwise (fun _ _ => True) _).imp_of_mem
      fun {k k'} _ hk' _ j hj => ?_
    rw [hnone k' hk'] at hj
    cases hj
  · rintro f hf
    simp only [List.mem_cons, List.not_mem_nil, or_false] at hf
    rcases hf with rfl | rfl | rfl
    · exact .num _
    · exact .undefined
    · refine .arr fun v hv => ?_
      simp only [List.mem_cons, List.not_mem_nil, or_false] at hv
      rcases hv with rfl | rfl | rfl | rfl
      · exact .bytes _
      · exact .str _
      · exact .num _
      · exact .num _

theorem cbor_roundTrip_sample :
    ∃ bytes, encodeCbor sampleValue {} = .ok bytes ∧ decodeCbor bytes {} = .ok sampleValue.defined := by
  have hencode : (encodeCbor sampleValue {}).isOk = true := by decide +kernel
  cases h : encodeCbor sampleValue {} with
  | error e =>
    rw [h] at hencode
    cases hencode
  | ok bytes => exact ⟨bytes, rfl, (cbor_roundTrip {}).1 sampleValue bytes ok_sampleValue h⟩

/-- Options with a depth that is out of range. -/
def deepOptions : CborOptions := { maxDepth := some (.ofNat 513) }

/-- Such options make a call fail without a `CborError`. -/
theorem not_cborError_deepOptions :
    ¬ ((∃ error, decodeCbor [0xf6] deepOptions = .error (.cbor error)) ∨
      ∃ v, ConsumesAll deepOptions [0xf6] v) := by
  have hrefused : (resolveOptions deepOptions).isOk = false := by decide +kernel
  rcases resolveOptions_cases deepOptions with ⟨message, h⟩ | ⟨o, h⟩
  · rintro (⟨error, herror⟩ | ⟨v, o, r, ho, -⟩)
    · unfold decodeCbor at herror
      rw [h] at herror
      cases herror
    · rw [h] at ho
      cases ho
  · rw [h] at hrefused
    cases hrefused

end Cbor
