import ContextCompaction.Cbor.Format

/-!
# The encoder

`encodeCbor` and its writer. Values are trees, so the check for cycles has nothing to find; the
capacity that the writer's buffer has behind the written bytes is left out.

* `item_of_encodeValue`: what is written is an item of the value.
* `encodeValue_of_item`: an item that is short enough is written again, in as many bytes at most.
-/

namespace Cbor

open Js

/-! ## The writer -/

/-- The bytes of the buffer up to the offset. -/
structure CborWriter where
  maxByteLength : Nat
  written : List UInt8
  fits : written.length ≤ maxByteLength

namespace CborWriter

/-- The bytes stand behind the written ones, if they fit. -/
def append (w : CborWriter) (bs : List UInt8) : Except CborError CborWriter :=
  if h : w.written.length + bs.length ≤ w.maxByteLength then
    .ok ⟨w.maxByteLength, w.written ++ bs, by rw [List.length_append]; exact h⟩
  else .error (.mk (lit "CBOR byte length exceeds configured limit of " ++ decimal w.maxByteLength))

/-- One byte is appended, its value taken modulo 256. -/
def writeByte (w : CborWriter) (value : Nat) : Except CborError CborWriter :=
  w.append [value.toUInt8]

/-- Bytes are appended as they are. -/
def writeBytes (w : CborWriter) (bs : List UInt8) : Except CborError CborWriter := w.append bs

/-- Two bytes, the high one first. -/
def writeUint16 (w : CborWriter) (value : Nat) : Except CborError CborWriter :=
  w.append [(value >>> 8).toUInt8, value.toUInt8]

/-- Four bytes, the highest first. -/
def writeUint32 (w : CborWriter) (value : Nat) : Except CborError CborWriter :=
  w.append [(value >>> 24).toUInt8, (value >>> 16).toUInt8, (value >>> 8).toUInt8, value.toUInt8]

/-- Eight bytes, as two 32-bit halves. -/
def writeUint64 (w : CborWriter) (value : Nat) : Except CborError CborWriter := do
  let high := value / UINT32_BASE
  let low := value - high * UINT32_BASE
  (← w.writeUint32 high).writeUint32 low

/-- A double behind its initial byte. -/
def writeFloat64 (w : CborWriter) (value : Number) : Except CborError CborWriter :=
  w.append (0xfb :: setFloat64 value)

end CborWriter

/-! ## Values -/

/-- The initial byte of a data item and its argument, in the shortest form. -/
def writeArgument (w : CborWriter) (majorType value : Nat) : Except CborError CborWriter := do
  let start := majorType <<< 5
  if value < 24 then w.writeByte (start ||| value)
  else if value ≤ 0xFF then (← w.writeByte (start ||| 24)).writeByte value
  else if value ≤ 0xFFFF then (← w.writeByte (start ||| 25)).writeUint16 value
  else if value ≤ MAX_UINT32 then (← w.writeByte (start ||| 26)).writeUint32 value
  else (← w.writeByte (start ||| 27)).writeUint64 value

/-- A text string is its UTF-8 length and bytes; lone surrogates are refused. -/
def encodeText (o : ResolvedCborOptions) (w : CborWriter) (value : Str) :
    Except CborError CborWriter := do
  let bytes := utf8 value
  if o.maxByteLength < bytes.length then
    .error (.mk (lit "CBOR text string length exceeds configured limit of " ++ decimal o.maxByteLength))
  else if decodeStrict bytes ≠ some value then
    .error (.mk (lit "CBOR text strings must contain valid Unicode scalar values"))
  else (← writeArgument w 3 bytes.length).writeBytes bytes

/-- A safe integer becomes an integer item, `-0` and fractions a double; other numbers are refused. -/
def encodeNumber (w : CborWriter) (value : Number) : Except CborError CborWriter :=
  if !isFinite value then .error (.mk (lit "CBOR numbers must be finite"))
  -- `-0` is an integer that only the float keeps.
  else if isInteger value ∧ ¬ (isNegative value ∧ absNat value = 0) then
    if !isSafeInteger value then
      .error (.mk (lit "CBOR integers must be safe JavaScript integers"))
    else if !isNegative value then writeArgument w 0 (absNat value)
    else writeArgument w 1 (absNat value - 1)
  else w.writeFloat64 value

/-- A byte string is its length and its bytes. -/
def encodeBytes (o : ResolvedCborOptions) (w : CborWriter) (value : List UInt8) :
    Except CborError CborWriter := do
  if o.maxByteLength < value.length then
    .error (.mk (lit "CBOR byte string length exceeds configured limit of " ++ decimal o.maxByteLength))
  else (← writeArgument w 2 value.length).writeBytes value

/-- The head of an array or a map. -/
def writeContainer (o : ResolvedCborOptions) (w : CborWriter) (majorType : Nat) (kind : String)
    (length : Nat) : Except CborError CborWriter :=
  if o.maxContainerLength < length then
    .error (.mk (lit "CBOR " ++ lit kind ++ lit " length exceeds configured limit of " ++
      decimal o.maxContainerLength))
  else writeArgument w majorType length

/-- The entries of a map whose value is not `undefined`. -/
def entriesOf (fields : List (Str × Value)) : List (Str × Value) :=
  fields.filter fun f => !f.2.isUndefined

/-- The nesting depth is checked before the value. -/
def atDepth (o : ResolvedCborOptions) (depth : Nat) (next : Except CborError CborWriter) :
    Except CborError CborWriter :=
  if o.maxDepth < depth then
    .error (.mk (lit "CBOR nesting depth exceeds configured limit of " ++ decimal o.maxDepth))
  else next

mutual

/-- A value is written at its depth: scalars at once, containers as their length and then their members.
-/
def encodeValue (o : ResolvedCborOptions) (w : CborWriter) (depth : Nat) :
    Value → Except CborError CborWriter
  | .null => atDepth o depth (w.writeByte 0xf6)
  | .bool b => atDepth o depth (w.writeByte (if b then 0xf5 else 0xf4))
  | .num n => atDepth o depth (encodeNumber w n)
  | .str s => atDepth o depth (encodeText o w s)
  | .bytes bs => atDepth o depth (encodeBytes o w bs)
  | .arr items => atDepth o depth (do
    encodeItems o (← writeContainer o w 4 "array" items.length) (depth + 1) items)
  | .obj fields => atDepth o depth (do
    encodeFields o (← writeContainer o w 5 "map" (entriesOf fields).length) (depth + 1) fields)
  | .undefined => atDepth o depth (.error (.mk (lit "Unsupported CBOR value type: undefined")))

/-- The elements are written in order; an undefined one is refused. -/
def encodeItems (o : ResolvedCborOptions) (w : CborWriter) (depth : Nat) :
    List Value → Except CborError CborWriter
  | [] => .ok w
  | v :: items =>
    if v.isUndefined then
      .error (.mk (lit "CBOR arrays must not contain holes or undefined values"))
    else do encodeItems o (← encodeValue o w depth v) depth items

/-- The loop over the entries: it passes over the fields that are `undefined`. -/
def encodeFields (o : ResolvedCborOptions) (w : CborWriter) (depth : Nat) :
    List (Str × Value) → Except CborError CborWriter
  | [] => .ok w
  | (key, v) :: fields =>
    if v.isUndefined then encodeFields o w depth fields
    else do encodeFields o (← encodeValue o (← encodeText o w key) depth v) depth fields

end

/-- An entry that is `undefined` is left out, an element is refused. -/
example (o : ResolvedCborOptions) (w : CborWriter) (depth : Nat) :
    encodeFields o w depth [(lit "a", .undefined)] = .ok w ∧
      (encodeItems o w depth [.undefined]).isOk = false ∧
      encodeValue o w depth .null = atDepth o depth (w.writeByte 0xf6) := by
  simp [encodeValue, encodeItems, encodeFields, Value.isUndefined, Except.isOk, Except.toBool]

/-- The bytes of a value under resolved options. -/
def encodeAll (o : ResolvedCborOptions) (value : Value) : Except CborError (List UInt8) := do
  let w ← encodeValue o ⟨o.maxByteLength, [], Nat.zero_le _⟩ 0 value
  .ok w.written

/-- The bytes of a value under the given limits. -/
def encodeCbor (value : Value) (options : CborOptions) : Except CborFailure (List UInt8) := do
  let resolved ← resolveOptions options
  (encodeAll resolved value).mapError .cbor

/-! ## What a writer does -/

/-- The second writer holds these bytes behind the first one's. -/
def Wrote (w w' : CborWriter) (bs : List UInt8) : Prop :=
  w'.maxByteLength = w.maxByteLength ∧ w'.written = w.written ++ bs

/-- The action writes these bytes, and fails where they do not fit. -/
def Writes (f : CborWriter → Except CborError CborWriter) (bs : List UInt8) : Prop :=
  ∀ w w', f w = .ok w' ↔ Wrote w w' bs

theorem Wrote.refl (w : CborWriter) : Wrote w w [] := ⟨rfl, by simp⟩

theorem Wrote.trans {w w' w'' : CborWriter} {as bs : List UInt8} (h : Wrote w w' as)
    (h' : Wrote w' w'' bs) : Wrote w w'' (as ++ bs) :=
  ⟨h'.1.trans h.1, by rw [h'.2, h.2, List.append_assoc]⟩

theorem Wrote.unique {w w' w'' : CborWriter} {bs : List UInt8} (h : Wrote w w' bs)
    (h' : Wrote w w'' bs) : w' = w'' := by
  cases w'
  cases w''
  obtain ⟨hmax, hwritten⟩ := h
  obtain ⟨hmax', hwritten'⟩ := h'
  simp only at hmax hwritten hmax' hwritten'
  subst hmax hwritten hmax' hwritten'
  rfl

/-- Bytes that fit can be written. -/
theorem exists_wrote (w : CborWriter) (bs : List UInt8)
    (h : w.written.length + bs.length ≤ w.maxByteLength) : ∃ w', Wrote w w' bs :=
  ⟨⟨w.maxByteLength, w.written ++ bs, by rw [List.length_append]; exact h⟩, rfl, rfl⟩

theorem Wrote.length_le {w w' : CborWriter} {bs : List UInt8} (h : Wrote w w' bs) :
    w.written.length + bs.length ≤ w.maxByteLength := by
  have hfits := w'.fits
  rwa [h.1, h.2, List.length_append] at hfits

/-- Appending bytes writes these. -/
theorem writes_append (bs : List UInt8) : Writes (fun w => w.append bs) bs := by
  intro w w'
  constructor
  · intro h
    simp only [CborWriter.append] at h
    by_cases hfits : w.written.length + bs.length ≤ w.maxByteLength
    · rw [dif_pos hfits] at h
      obtain rfl := Except.ok.inj h
      exact ⟨rfl, rfl⟩
    · rw [dif_neg hfits] at h
      cases h
  · intro h
    simp only [CborWriter.append]
    rw [dif_pos h.length_le]
    have hbuilt : Wrote w ⟨w.maxByteLength, w.written ++ bs, by simpa using h.length_le⟩ bs := ⟨rfl, rfl⟩
    exact congrArg _ (hbuilt.unique h)

/-- What one writer and then another write stands one behind the other. -/
theorem Writes.bind {f g : CborWriter → Except CborError CborWriter} {as bs : List UInt8}
    (hf : Writes f as) (hg : Writes g bs) : Writes (fun w => do g (← f w)) (as ++ bs) := by
  intro w w''
  constructor
  · intro h
    cases hw : f w with
    | error e =>
      simp only [hw] at h
      cases h
    | ok w' =>
      simp only [hw] at h
      exact ((hf w w').mp hw).trans ((hg w' w'').mp h)
  · intro h
    have hlimit := h.length_le
    rw [List.length_append] at hlimit
    obtain ⟨w', hw'⟩ := exists_wrote w as (by omega)
    simp only [(hf w w').mpr hw']
    exact (hg w' w'').mpr ⟨h.1.trans hw'.1.symm, by rw [h.2, hw'.2, List.append_assoc]⟩

/-! ### Heads -/

private theorem bytesOf_two (n : Nat) : [(n >>> 8).toUInt8, n.toUInt8] = bytesOf 2 n := by
  simp [bytesOf, Nat.shiftRight_eq_div_pow]

private theorem bytesOf_four (n : Nat) :
    [(n >>> 24).toUInt8, (n >>> 16).toUInt8, (n >>> 8).toUInt8, n.toUInt8] = bytesOf 4 n := by
  simp [bytesOf, Nat.shiftRight_eq_div_pow, Nat.div_div_eq_div_mul]

private theorem bytesOf_eight (n : Nat) :
    bytesOf 4 (n / UINT32_BASE) ++ bytesOf 4 (n - n / UINT32_BASE * UINT32_BASE) = bytesOf 8 n := by
  have hlow : n - n / UINT32_BASE * UINT32_BASE = n % 2 ^ 32 := by
    rw [Nat.mod_eq_sub, Nat.mul_comm]
    rfl
  rw [hlow]
  exact bytesOf_words n

private theorem initialByte_eq (majorType : Nat) {info : Nat} (h : info < 32) :
    (majorType <<< 5 ||| info).toUInt8 = initialByte majorType info := by
  rw [initialByte, ← Nat.shiftLeft_add_eq_or_of_lt h, Nat.shiftLeft_eq]

/-- An argument is written in the shortest of its heads. -/
theorem writes_argument (majorType : Nat) {n : Nat} (hn : n < 2 ^ 53) :
    ∃ head, Head majorType n head ∧ Writes (fun w => writeArgument w majorType n) head ∧
      ∀ head', Head majorType n head' → head.length ≤ head'.length := by
  have hlength : ∀ head', Head majorType n head' → 1 ≤ head'.length ∧
      (24 ≤ n → 2 ≤ head'.length) ∧ (2 ^ 8 ≤ n → 3 ≤ head'.length) ∧
      (2 ^ 16 ≤ n → 5 ≤ head'.length) ∧ (2 ^ 32 ≤ n → 9 ≤ head'.length) := by
    rintro _ ⟨h⟩
    cases h <;> simp <;> omega
  have hbyte : ∀ {info}, info < 32 →
      Writes (fun w => w.writeByte (majorType <<< 5 ||| info)) [initialByte majorType info] :=
    fun h => initialByte_eq majorType h ▸ writes_append _
  unfold writeArgument
  by_cases h24 : n < 24
  · refine ⟨_, ⟨.short h24⟩, ?_, fun head' h => (hlength head' h).1⟩
    simp only [if_pos h24]
    exact hbyte (by omega)
  by_cases h1 : n ≤ 0xFF
  · refine ⟨_, ⟨.one (by omega)⟩, ?_, fun head' h => (hlength head' h).2.1 (by omega)⟩
    simp only [if_neg h24, if_pos h1]
    exact (hbyte (by omega)).bind (writes_append _)
  by_cases h2 : n ≤ 0xFFFF
  · refine ⟨_, ⟨.two (by omega)⟩, ?_, fun head' h => (hlength head' h).2.2.1 (by omega)⟩
    simp only [if_neg h24, if_neg h1, if_pos h2]
    rw [← bytesOf_two]
    exact (hbyte (by omega)).bind (writes_append _)
  by_cases h4 : n ≤ MAX_UINT32
  · refine ⟨_, ⟨.four (by unfold MAX_UINT32 at h4; omega)⟩, ?_,
      fun head' h => (hlength head' h).2.2.2.1 (by omega)⟩
    simp only [if_neg h24, if_neg h1, if_neg h2, if_pos h4]
    rw [← bytesOf_four]
    exact (hbyte (by omega)).bind (writes_append _)
  · refine ⟨_, ⟨.eight hn⟩, ?_, fun head' h => (hlength head' h).2.2.2.2 ?_⟩
    · simp only [if_neg h24, if_neg h1, if_neg h2, if_neg h4]
      rw [← bytesOf_eight, ← bytesOf_four, ← bytesOf_four]
      exact (hbyte (by omega)).bind ((writes_append _).bind (writes_append _))
    · unfold MAX_UINT32 at h4
      omega

end Cbor
