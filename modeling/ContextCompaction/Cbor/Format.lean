import ContextCompaction.Js.Float64
import ContextCompaction.Js.OwnOrder
import ContextCompaction.Js.StrictUtf8

/-!
# CBOR items

The values that the codec carries, its options, and the byte strings that stand for a value: the
definite-length subset of CBOR, in any of the five argument widths. `Item` says nothing about an order
of reading or writing; the decoder accepts exactly it, and the encoder writes one item of it.

* `Item`: the items of a value, with the levels of nesting that are left.
-/

namespace Cbor

open Js

/-! ## Numbers -/

/-- `Number.isFinite`. -/
def isFinite : Number → Bool
  | .finite .. => true
  | _ => false

/-- `Number.isInteger(x)` -/
def isInteger : Number → Bool
  | .finite _ abs _ => abs.den == 1
  | _ => false

/-- `Number.isSafeInteger(x)` -/
def isSafeInteger : Number → Bool
  | .finite _ abs _ => abs.den == 1 && decide (abs < 2 ^ 53)
  | _ => false

/-- `|x|` of an integer. -/
def absNat : Number → Nat
  | .finite _ abs _ => abs.num.toNat
  | _ => 0

/-- Finite numbers with the sign bit set, `-0` among them. -/
def isNegative : Number → Bool
  | .finite negative _ _ => negative
  | _ => false

/-! ## Options -/

/-- The weight of the high half of a 64-bit argument. -/
def UINT32_BASE : Nat := 0x100000000
/-- The largest 32-bit argument, and the largest length that can be configured. -/
def MAX_UINT32 : Nat := 0xFFFFFFFF
/-- The largest nesting depth that can be configured. -/
def MAX_CONFIGURED_DEPTH : Nat := 512
/-- The number of bytes of a payload or a string unless configured: 16 MiB. -/
def DEFAULT_MAX_CBOR_BYTE_LENGTH : Nat := 16 * 1024 * 1024
/-- The number of elements of a container unless configured. -/
def DEFAULT_MAX_CBOR_CONTAINER_LENGTH : Nat := 1000000
/-- The nesting depth unless configured. -/
def DEFAULT_MAX_CBOR_DEPTH : Nat := 64

/-- The error class of this format, with its message. -/
structure CborError where
  message : Str

/-- What a call throws: a `RangeError` of its options, or a `CborError`. -/
inductive CborFailure where
  | range (message : Str)
  | cbor (error : CborError)

/-- The limits as a caller gives them; what is left out takes its default. -/
structure CborOptions where
  maxByteLength : Option Number := none
  maxContainerLength : Option Number := none
  maxDepth : Option Number := none

/-- The limits in force, each within its own maximum. -/
structure ResolvedCborOptions where
  maxByteLength : Nat
  maxContainerLength : Nat
  maxDepth : Nat
  byteLength_le : maxByteLength ≤ MAX_UINT32
  containerLength_le : maxContainerLength ≤ MAX_UINT32
  depth_le : maxDepth ≤ MAX_CONFIGURED_DEPTH

/-- A count in a message. -/
def decimal (n : Nat) : Str := (Number.ofNat n).text

/-- A limit is an integer between 0 and its maximum; anything else is a `RangeError` that names it. -/
def resolveLimit (name : String) (value : Option Number) (default maximum : Nat) :
    Except CborFailure {limit : Nat // limit ≤ maximum} :=
  let value := value.getD (.ofNat default)
  if h : isSafeInteger value ∧ (isNegative value = false ∨ absNat value = 0) ∧ absNat value ≤ maximum then
    .ok ⟨absNat value, h.2.2⟩
  else .error (.range (lit name ++ lit " must be an integer between 0 and " ++ decimal maximum))

/-- The three limits are resolved in this order, so that the first bad one is reported. -/
def resolveOptions (options : CborOptions) : Except CborFailure ResolvedCborOptions := do
  let bytes ← resolveLimit "maxByteLength" options.maxByteLength DEFAULT_MAX_CBOR_BYTE_LENGTH MAX_UINT32
  let container ← resolveLimit "maxContainerLength" options.maxContainerLength
    DEFAULT_MAX_CBOR_CONTAINER_LENGTH MAX_UINT32
  let depth ← resolveLimit "maxDepth" options.maxDepth DEFAULT_MAX_CBOR_DEPTH MAX_CONFIGURED_DEPTH
  .ok ⟨bytes, container, depth, bytes.2, container.2, depth.2⟩

/-! ## Values -/

/-- A tree of the types that the encoder knows. A hole of an array is `undefined`. -/
inductive Value where
  | undefined
  | null
  | bool (b : Bool)
  | num (n : Number)
  | str (s : Str)
  | bytes (bs : List UInt8)
  | arr (items : List Value)
  | obj (fields : List (Str × Value))

namespace Value

/-- The value `undefined`, which the format does not have. -/
def isUndefined : Value → Bool
  | undefined => true
  | _ => false

/-- An object has each key once, in the order of own properties. -/
inductive Ok : Value → Prop
  | undefined : Ok .undefined
  | null : Ok .null
  | bool (b : Bool) : Ok (.bool b)
  | num (n : Number) : Ok (.num n)
  | str (s : Str) : Ok (.str s)
  | bytes (bs : List UInt8) : Ok (.bytes bs)
  | arr {items : List Value} (h : ∀ v ∈ items, Ok v) : Ok (.arr items)
  | obj {fields : List (Str × Value)} (hkeys : (fields.map Prod.fst).Nodup)
      (horder : InOwnOrder (fields.map Prod.fst)) (h : ∀ f ∈ fields, Ok f.2) : Ok (.obj fields)

mutual

/-- The value without the map entries that are `undefined`. -/
def defined : Value → Value
  | arr items => arr (definedItems items)
  | obj fields => obj (definedFields fields)
  | undefined => undefined
  | null => null
  | bool b => bool b
  | num n => num n
  | str s => str s
  | bytes bs => bytes bs

/-- The elements of an array without the undefined fields inside them. -/
def definedItems : List Value → List Value
  | [] => []
  | v :: items => v.defined :: definedItems items

/-- The fields of an object without those whose value is undefined, at every depth. -/
def definedFields : List (Str × Value) → List (Str × Value)
  | [] => []
  | (key, v) :: fields =>
    if v.isUndefined then definedFields fields else (key, v.defined) :: definedFields fields

end

example : defined (.arr [.undefined, .obj [(lit "a", .undefined), (lit "b", .null)]]) =
    .arr [.undefined, .obj [(lit "b", .null)]] := by
  simp [defined, definedItems, definedFields, isUndefined]

end Value

/-! ## Arguments -/

/-- What follows an initial byte with the additional information `info`, for an argument `n`. -/
inductive Argument : Nat → Nat → List UInt8 → Prop
  | short {n : Nat} (h : n < 24) : Argument n n []
  | one {n : Nat} (h : n < 2 ^ 8) : Argument 24 n (bytesOf 1 n)
  | two {n : Nat} (h : n < 2 ^ 16) : Argument 25 n (bytesOf 2 n)
  | four {n : Nat} (h : n < 2 ^ 32) : Argument 26 n (bytesOf 4 n)
  | eight {n : Nat} (h : n < 2 ^ 53) : Argument 27 n (bytesOf 8 n)

/-- The initial byte of a major type. -/
def initialByte (majorType info : Nat) : UInt8 := (majorType * 32 + info).toUInt8

/-- A major type with its argument. -/
inductive Head (majorType n : Nat) : List UInt8 → Prop
  | mk {info : Nat} {tail : List UInt8} (h : Argument info n tail) :
    Head majorType n (initialByte majorType info :: tail)

theorem Argument.lt {info n : Nat} {tail : List UInt8} (h : Argument info n tail) : n < 2 ^ 53 := by
  cases h <;> omega

theorem Argument.info_lt {info n : Nat} {tail : List UInt8} (h : Argument info n tail) : info < 28 := by
  cases h <;> omega

theorem Head.lt {majorType n : Nat} {head : List UInt8} (h : Head majorType n head) : n < 2 ^ 53 := by
  cases h with
  | mk h => exact h.lt

/-! ## Items -/

/-- An array element in its bytes. -/
abbrev Element := List UInt8 × Value

/-- A map entry: the key and its item, the value and its item. -/
structure Entry where
  keyItem : List UInt8
  key : Str
  item : List UInt8
  value : Value

/-- The bytes stand for the value, on at most `levels` levels. -/
inductive Item (o : ResolvedCborOptions) : Nat → List UInt8 → Value → Prop
  | null {levels : Nat} : Item o (levels + 1) [initialByte 7 22] .null
  | bool {levels : Nat} (b : Bool) : Item o (levels + 1) [initialByte 7 (if b then 21 else 20)] (.bool b)
  | nonneg {levels n : Nat} {head : List UInt8} (h : Head 0 n head) :
    Item o (levels + 1) head (.num (.ofNat n))
  | neg {levels n : Nat} {head : List UInt8} (h : Head 1 n head) (hn : n + 1 < 2 ^ 53) :
    Item o (levels + 1) head (.num (.ofRat true (n + 1 : Nat)))
  | float {levels : Nat} {bits : List UInt8} {x : Number} (hbits : bits.length = 8)
      (hx : getFloat64 bits = x) (hfinite : isFinite x = true)
      (hsafe : isInteger x = true → isSafeInteger x = true) :
    Item o (levels + 1) (initialByte 7 27 :: bits) (.num x)
  | bytes {levels : Nat} {head bs : List UInt8} (h : Head 2 bs.length head)
      (hlimit : bs.length ≤ o.maxByteLength) : Item o (levels + 1) (head ++ bs) (.bytes bs)
  | text {levels : Nat} {head bs : List UInt8} {s : Str} (h : Head 3 bs.length head)
      (hlimit : bs.length ≤ o.maxByteLength) (hs : decodeStrict bs = some s) :
    Item o (levels + 1) (head ++ bs) (.str s)
  | arr {levels : Nat} {head : List UInt8} {xs : List Element} (h : Head 4 xs.length head)
      (hlimit : xs.length ≤ o.maxContainerLength) (hxs : ∀ x ∈ xs, Item o levels x.1 x.2) :
    Item o (levels + 1) (head ++ xs.flatMap Prod.fst) (.arr (xs.map Prod.snd))
  | map {levels : Nat} {head : List UInt8} {es : List Entry} (h : Head 5 es.length head)
      (hlimit : es.length ≤ o.maxContainerLength) (hnodup : (es.map Entry.key).Nodup)
      (hkeys : ∀ e ∈ es, Item o levels e.keyItem (.str e.key))
      (hvalues : ∀ e ∈ es, Item o levels e.item e.value) :
    Item o (levels + 1) (head ++ es.flatMap fun e => e.keyItem ++ e.item)
      (.obj (ownOrder (es.map fun e => (e.key, e.value))))

end Cbor
