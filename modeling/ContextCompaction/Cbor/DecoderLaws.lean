import ContextCompaction.Cbor.Decoder
import ContextCompaction.Cbor.EncoderLaws

/-!
# What the decoder reads

* `readArgument_ok`, `readItems_ok`, `readEntries_ok`: what each part accepts.
* `readItem_ok`: the reader accepts exactly the items.
-/

namespace Cbor

open Js CborReader

variable {bytes : List UInt8} {o : ResolvedCborOptions}

/-! ## Bytes -/

/-- A place is known by what follows it. -/
theorem rest_inj {r r' : CborReader bytes} (h : r.rest = r'.rest) : r = r' := by
  have hlength := congrArg List.length h
  have hr := r.inside
  have hr' := r'.inside
  simp only [CborReader.rest, List.length_drop] at hlength
  have hoffset : r.offset = r'.offset := by omega
  cases r
  cases r'
  subst hoffset
  rfl

theorem length_rest (r : CborReader bytes) : r.rest.length = bytes.length - r.offset := by
  simp [CborReader.rest]

/-- A read of bytes succeeds exactly when that many are left. -/
theorem readBytes_ok {r r' : CborReader bytes} {n : Nat} {bs : List UInt8} :
    r.readBytes n = .ok (bs, r') ↔ bs.length = n ∧ r.rest = bs ++ r'.rest := by
  unfold CborReader.readBytes
  by_cases hn : n ≤ bytes.length - r.offset
  · rw [dif_pos hn]
    have hcut : r.rest = (bytes.drop r.offset).take n ++
        (⟨r.offset + n, by have := r.inside; omega⟩ : CborReader bytes).rest := by
      simp only [CborReader.rest, ← List.drop_drop, List.take_append_drop]
    have hlength : ((bytes.drop r.offset).take n).length = n := by simpa using hn
    constructor
    · intro h
      obtain ⟨rfl, rfl⟩ := Prod.mk.inj (Except.ok.inj h)
      exact ⟨hlength, hcut⟩
    · rintro ⟨hbs, hrest⟩
      rw [hcut] at hrest
      obtain ⟨rfl, hr⟩ := List.append_inj hrest (hlength.trans hbs.symm)
      rw [rest_inj hr]
  · rw [dif_neg hn]
    refine iff_of_false (fun h => by cases h) ?_
    rintro ⟨hbs, hrest⟩
    refine hn ?_
    have := congrArg List.length hrest
    rw [length_rest, List.length_append] at this
    omega

/-- A read of one byte succeeds exactly when one is left. -/
theorem readByte_ok {r r' : CborReader bytes} {n : Nat} :
    r.readByte = .ok (n, r') ↔ ∃ b : UInt8, b.toNat = n ∧ r.rest = b :: r'.rest := by
  unfold CborReader.readByte
  by_cases hr : r.offset < bytes.length
  · rw [dif_pos hr]
    have hcut : r.rest = bytes[r.offset] :: (⟨r.offset + 1, hr⟩ : CborReader bytes).rest :=
      List.drop_eq_getElem_cons hr
    constructor
    · intro h
      obtain ⟨rfl, rfl⟩ := Prod.mk.inj (Except.ok.inj h)
      exact ⟨_, rfl, hcut⟩
    · rintro ⟨b, rfl, hrest⟩
      rw [hcut] at hrest
      obtain ⟨rfl, htail⟩ := List.cons.inj hrest
      rw [rest_inj htail]
  · rw [dif_neg hr]
    refine iff_of_false nofun fun ⟨b, _, hrest⟩ => hr ?_
    have := congrArg List.length hrest
    rw [length_rest, List.length_cons] at this
    omega

/-- Every suffix of what follows a place stands behind a place. -/
theorem exists_rest {r : CborReader bytes} {as bs : List UInt8} (h : r.rest = as ++ bs) :
    ∃ r' : CborReader bytes, r'.rest = bs := by
  have hlength := congrArg List.length h
  rw [length_rest, List.length_append] at hlength
  have hr := r.inside
  refine ⟨⟨r.offset + as.length, by omega⟩, ?_⟩
  rw [CborReader.rest, ← List.drop_drop]
  rw [CborReader.rest] at h
  rw [h, List.drop_left]

/-! ## Arguments -/

theorem bind_pair_ok {α β : Type} {x : Except CborError (α × CborReader bytes)}
    {f : α × CborReader bytes → Except CborError β} {b : β} :
    (x >>= f) = .ok b ↔ ∃ a r, x = .ok (a, r) ∧ f (a, r) = .ok b := by
  rw [bind_ok]
  exact ⟨fun ⟨⟨a, r⟩, h⟩ => ⟨a, r, h⟩, fun ⟨a, r, h⟩ => ⟨(a, r), h⟩⟩

/-- Bytes of a known number are its digits. -/
theorem eq_bytesOf {bs : List UInt8} {width n : Nat} (hlength : bs.length = width)
    (h : natOfBytes bs = n) : bs = bytesOf width n := by
  subst hlength h
  exact (bytesOf_natOfBytes bs).symm

/-- The number read is the one whose four bytes, highest first, stand next. -/
theorem readUint32_ok {r r' : CborReader bytes} {n : Nat} :
    r.readUint32 = .ok (n, r') ↔ n < 2 ^ 32 ∧ r.rest = bytesOf 4 n ++ r'.rest := by
  have hvalue : ∀ bs : List UInt8, bs.length = 4 →
      byteAt bs 0 * 0x1000000 + byteAt bs 1 * 0x10000 + byteAt bs 2 * 0x100 + byteAt bs 3 =
        natOfBytes bs := by
    intro bs hbs
    obtain ⟨a, b, c, d, rfl⟩ := List.length_eq_four.mp hbs
    simp [byteAt, natOfBytes]
    omega
  unfold CborReader.readUint32
  rw [bind_pair_ok]
  constructor
  · rintro ⟨bs, r₁, hbs, h⟩
    obtain ⟨hlength, hrest⟩ := readBytes_ok.mp hbs
    obtain ⟨hn, rfl⟩ := Prod.mk.inj (Except.ok.inj h)
    rw [hvalue bs hlength] at hn
    refine ⟨?_, by rw [hrest, ← eq_bytesOf hlength hn]⟩
    have hlt := natOfBytes_lt bs
    rw [hlength, hn] at hlt
    omega
  · rintro ⟨hn, hrest⟩
    refine ⟨_, r', readBytes_ok.mpr ⟨length_bytesOf 4 n, hrest⟩, ?_⟩
    dsimp only
    rw [hvalue _ (length_bytesOf 4 n), natOfBytes_bytesOf (by omega)]

/-- The argument read is the one that the bytes behind the initial byte encode. -/
theorem readArgument_ok {r r' : CborReader bytes} {info n : Nat} :
    r.readArgument info = .ok (n, r') ↔ ∃ tail, Argument info n tail ∧ r.rest = tail ++ r'.rest := by
  unfold CborReader.readArgument
  by_cases hshort : info < 24
  · rw [if_pos hshort]
    constructor
    · intro h
      obtain ⟨rfl, rfl⟩ := Prod.mk.inj (Except.ok.inj h)
      exact ⟨[], .short hshort, rfl⟩
    · rintro ⟨tail, harg, hrest⟩
      cases harg with
      | short h => rw [rest_inj (r := r) hrest]
      | _ => omega
  rw [if_neg hshort]
  split
  · -- One byte.
    rw [readByte_ok]
    constructor
    · rintro ⟨b, rfl, hrest⟩
      have hdigit : bytesOf 1 b.toNat = [b] := by simp [bytesOf]
      exact ⟨[b], hdigit ▸ .one b.toNat_lt, hrest⟩
    · rintro ⟨tail, harg, hrest⟩
      cases harg with
      | short h => omega
      | one h => exact ⟨n.toUInt8, by simpa using h, hrest⟩
  · -- Two bytes.
    have hvalue : ∀ bs : List UInt8, bs.length = 2 →
        byteAt bs 0 * 0x100 + byteAt bs 1 = natOfBytes bs := by
      intro bs hbs
      obtain ⟨a, b, rfl⟩ := List.length_eq_two.mp hbs
      simp [byteAt, natOfBytes]
    rw [bind_pair_ok]
    constructor
    · rintro ⟨bs, r₁, hbs, h⟩
      obtain ⟨hlength, hrest⟩ := readBytes_ok.mp hbs
      obtain ⟨hn, rfl⟩ := Prod.mk.inj (Except.ok.inj h)
      rw [hvalue bs hlength] at hn
      have hlt := natOfBytes_lt bs
      rw [hlength, hn] at hlt
      exact ⟨bytesOf 2 n, .two (by omega), by rw [hrest, ← eq_bytesOf hlength hn]⟩
    · rintro ⟨tail, harg, hrest⟩
      cases harg with
      | short h => omega
      | two h =>
        refine ⟨_, r', readBytes_ok.mpr ⟨length_bytesOf 2 n, hrest⟩, ?_⟩
        dsimp only
        rw [hvalue _ (length_bytesOf 2 n), natOfBytes_bytesOf (by omega)]
  · -- Four bytes.
    rw [readUint32_ok]
    constructor
    · rintro ⟨hn, hrest⟩
      exact ⟨_, .four hn, hrest⟩
    · rintro ⟨tail, harg, hrest⟩
      cases harg with
      | short h => omega
      | four h => exact ⟨h, hrest⟩
  · -- Eight bytes: two words, the first of at most 21 bits.
    rw [bind_pair_ok]
    constructor
    · rintro ⟨high, r₁, hhigh, h⟩
      obtain ⟨low, r₂, hlow, h⟩ := bind_pair_ok.mp h
      obtain ⟨hlt, hrest⟩ := readUint32_ok.mp hhigh
      obtain ⟨hlt', hrest'⟩ := readUint32_ok.mp hlow
      dsimp only at h
      by_cases hlarge : 0x1FFFFF < high
      · rw [if_pos hlarge] at h
        cases h
      · rw [if_neg hlarge] at h
        obtain ⟨rfl, rfl⟩ := Prod.mk.inj (Except.ok.inj h)
        unfold UINT32_BASE
        refine ⟨_, .eight (by omega), ?_⟩
        rw [← bytesOf_words, show (high * 0x100000000 + low) / 2 ^ 32 = high by omega,
          show (high * 0x100000000 + low) % 2 ^ 32 = low by omega, hrest, hrest', List.append_assoc]
    · rintro ⟨tail, harg, hrest⟩
      cases harg with
      | short h => omega
      | eight h =>
        rw [← bytesOf_words, List.append_assoc] at hrest
        obtain ⟨r₁, hr₁⟩ := exists_rest hrest
        refine ⟨n / 2 ^ 32, r₁, readUint32_ok.mpr ⟨by omega, by rw [hr₁, hrest]⟩, bind_pair_ok.mpr
          ⟨n % 2 ^ 32, r', readUint32_ok.mpr ⟨by omega, hr₁⟩, ?_⟩⟩
        dsimp only
        rw [if_neg (by omega), show n / 2 ^ 32 * UINT32_BASE + n % 2 ^ 32 = n by
          unfold UINT32_BASE; omega]
  · refine iff_of_false (fun h => by cases h) ?_
    rintro ⟨tail, harg, -⟩
    have := harg.info_lt
    omega
  · refine iff_of_false (fun h => by cases h) ?_
    rintro ⟨tail, harg, -⟩
    cases harg <;> simp_all

/-- A length is an argument within its limit. -/
theorem readLength_ok {r r' : CborReader bytes} {info n : Nat} {kind : String} {limit : Nat} :
    r.readLength info kind limit = .ok (n, r') ↔
      n ≤ limit ∧ ∃ tail, Argument info n tail ∧ r.rest = tail ++ r'.rest := by
  unfold CborReader.readLength
  by_cases hinfo : info = 31
  · rw [if_pos hinfo]
    refine iff_of_false nofun fun ⟨_, tail, harg, _⟩ => ?_
    have := harg.info_lt
    omega
  · rw [if_neg hinfo, bind_pair_ok]
    constructor
    · rintro ⟨length, r₁, hread, h⟩
      dsimp only at h
      by_cases hlimit : limit < length
      · rw [if_pos hlimit] at h
        cases h
      · rw [if_neg hlimit] at h
        obtain ⟨rfl, rfl⟩ := Prod.mk.inj (Except.ok.inj h)
        exact ⟨Nat.not_lt.mp hlimit, readArgument_ok.mp hread⟩
    · rintro ⟨hlimit, hread⟩
      exact ⟨n, r', readArgument_ok.mpr hread, if_neg (Nat.not_lt.mpr hlimit)⟩

/-! ## Containers -/

/-- What reads exactly the items of so many levels. -/
def ReadsItems (o : ResolvedCborOptions) (levels : Nat) (item : ReadsItem bytes) : Prop :=
  ∀ r v r', item r = .ok (v, r') ↔ ∃ bs, Item o levels bs v ∧ r.rest = bs ++ r'.rest

section Containers

variable {levels : Nat} {item : ReadsItem bytes}

/-- The elements read are `n` items, one behind the other. -/
theorem readItems_ok (hitem : ReadsItems o levels item) {n : Nat} {r r' : CborReader bytes}
    {vs : List Value} : readItems item n r = .ok (vs, r') ↔
      ∃ xs : List Element, xs.length = n ∧ xs.map Prod.snd = vs ∧ (∀ x ∈ xs, Item o levels x.1 x.2) ∧
        r.rest = xs.flatMap Prod.fst ++ r'.rest := by
  induction n generalizing r vs with
  | zero =>
    constructor
    · intro h
      obtain ⟨rfl, rfl⟩ := Prod.mk.inj (Except.ok.inj h)
      exact ⟨[], rfl, rfl, by simp, rfl⟩
    · rintro ⟨xs, hlength, rfl, -, hrest⟩
      obtain rfl := List.length_eq_zero_iff.mp hlength
      rw [rest_inj (r := r) hrest]
      rfl
  | succ n ih =>
    rw [readItems, bind_pair_ok]
    constructor
    · rintro ⟨v, r₁, hv, h⟩
      obtain ⟨us, r₂, hus, h⟩ := bind_pair_ok.mp h
      obtain ⟨rfl, rfl⟩ := Prod.mk.inj (Except.ok.inj h)
      obtain ⟨bs, hbs, hrest⟩ := (hitem r v r₁).mp hv
      obtain ⟨xs, rfl, rfl, hxs, hrest'⟩ := ih.mp hus
      refine ⟨(bs, v) :: xs, rfl, rfl, List.forall_mem_cons.mpr ⟨hbs, hxs⟩, ?_⟩
      rw [hrest, hrest', List.flatMap_cons, List.append_assoc]
    · rintro ⟨xs, hlength, rfl, hxs, hrest⟩
      obtain ⟨x, xs, rfl⟩ := List.exists_of_length_succ xs hlength
      rw [List.flatMap_cons, List.append_assoc] at hrest
      obtain ⟨r₁, hr₁⟩ := exists_rest hrest
      obtain ⟨hx, hxs⟩ := List.forall_mem_cons.mp hxs
      exact ⟨x.2, r₁, (hitem r x.2 r₁).mpr ⟨x.1, hx, by rw [hr₁, hrest]⟩, bind_pair_ok.mpr
        ⟨_, r', ih.mpr ⟨xs, by simpa using hlength, rfl, hxs, hr₁⟩, rfl⟩⟩

/-- A key is a text item that no earlier entry has. -/
theorem readKey_ok (hitem : ReadsItems o levels item) {keys : List Str} {r r' : CborReader bytes}
    {key : Str} : readKey item keys r = .ok (key, r') ↔
      key ∉ keys ∧ ∃ bs, Item o levels bs (.str key) ∧ r.rest = bs ++ r'.rest := by
  rw [readKey, bind_pair_ok]
  constructor
  · rintro ⟨v, r₁, hv, h⟩
    cases v with
    | str s =>
      dsimp only at h
      by_cases hs : s ∈ keys
      · rw [if_pos hs] at h
        cases h
      · rw [if_neg hs] at h
        obtain ⟨rfl, rfl⟩ := Prod.mk.inj (Except.ok.inj h)
        exact ⟨hs, (hitem _ _ _).mp hv⟩
    | _ => cases h
  · rintro ⟨hkey, hread⟩
    exact ⟨.str key, r', (hitem _ _ _).mpr hread, if_neg hkey⟩

/-- The entries read are `n` pairs of a text item and an item, one behind the other, whose keys differ
from each other and from the earlier ones. -/
theorem readEntries_ok (hitem : ReadsItems o levels item) {n : Nat} {keys : List Str}
    {r r' : CborReader bytes} {entries : List (Str × Value)} :
    readEntries item n keys r = .ok (entries, r') ↔
      ∃ es : List Entry, es.length = n ∧ es.map (fun e => (e.key, e.value)) = entries ∧
        (es.map Entry.key).Nodup ∧ (∀ e ∈ es, e.key ∉ keys) ∧
        (∀ e ∈ es, Item o levels e.keyItem (.str e.key)) ∧ (∀ e ∈ es, Item o levels e.item e.value) ∧
        r.rest = (es.flatMap fun e => e.keyItem ++ e.item) ++ r'.rest := by
  induction n generalizing r keys entries with
  | zero =>
    constructor
    · intro h
      obtain ⟨rfl, rfl⟩ := Prod.mk.inj (Except.ok.inj h)
      exact ⟨[], rfl, rfl, by simp, by simp, by simp, by simp, rfl⟩
    · rintro ⟨es, hlength, rfl, -, -, -, -, hrest⟩
      obtain rfl := List.length_eq_zero_iff.mp hlength
      rw [rest_inj (r := r) hrest]
      rfl
  | succ n ih =>
    rw [readEntries, bind_pair_ok]
    constructor
    · rintro ⟨key, r₁, hkey, h⟩
      obtain ⟨v, r₂, hv, h⟩ := bind_pair_ok.mp h
      obtain ⟨us, r₃, hus, h⟩ := bind_pair_ok.mp h
      obtain ⟨rfl, rfl⟩ := Prod.mk.inj (Except.ok.inj h)
      obtain ⟨hnew, keyItem, hkeyItem, hrest⟩ := (readKey_ok hitem).mp hkey
      obtain ⟨bs, hbs, hrest'⟩ := (hitem _ _ _).mp hv
      obtain ⟨es, rfl, rfl, hnodup, hfresh, hkeys, hvalues, hrest''⟩ := ih.mp hus
      refine ⟨⟨keyItem, key, bs, v⟩ :: es, rfl, rfl, List.nodup_cons.mpr ⟨?_, hnodup⟩,
        List.forall_mem_cons.mpr ⟨hnew, fun e he hmem => hfresh e he (List.mem_cons_of_mem _ hmem)⟩,
        List.forall_mem_cons.mpr ⟨hkeyItem, hkeys⟩, List.forall_mem_cons.mpr ⟨hbs, hvalues⟩, ?_⟩
      · intro hmem
        obtain ⟨e, he, heq⟩ := List.mem_map.mp hmem
        exact hfresh e he (heq ▸ List.mem_cons_self)
      · rw [hrest, hrest', hrest'', List.flatMap_cons]
        simp only [List.append_assoc]
    · rintro ⟨es, hlength, rfl, hnodup, hfresh, hkeys, hvalues, hrest⟩
      obtain ⟨e, es, rfl⟩ := List.exists_of_length_succ es hlength
      rw [List.map_cons, List.nodup_cons] at hnodup
      rw [List.flatMap_cons, List.append_assoc, List.append_assoc] at hrest
      obtain ⟨hnew, hfresh⟩ := List.forall_mem_cons.mp hfresh
      obtain ⟨hkey, hkeys⟩ := List.forall_mem_cons.mp hkeys
      obtain ⟨hvalue, hvalues⟩ := List.forall_mem_cons.mp hvalues
      obtain ⟨r₁, hr₁⟩ := exists_rest hrest
      obtain ⟨r₂, hr₂⟩ := exists_rest hr₁
      have hnext : ∀ e' ∈ es, e'.key ∉ e.key :: keys := by
        intro e' he' hmem
        rcases List.mem_cons.mp hmem with heq | hmem
        · exact hnodup.1 (List.mem_map.mpr ⟨e', he', heq⟩)
        · exact hfresh e' he' hmem
      exact ⟨e.key, r₁, (readKey_ok hitem).mpr ⟨hnew, e.keyItem, hkey, by rw [hr₁, hrest]⟩,
        bind_pair_ok.mpr ⟨e.value, r₂, (hitem _ _ _).mpr ⟨e.item, hvalue, by rw [hr₂, hr₁]⟩,
          bind_pair_ok.mpr ⟨_, r', ih.mpr ⟨es, by simpa using hlength, rfl, hnodup.2, hnext, hkeys,
            hvalues, hr₂⟩, rfl⟩⟩⟩

/-! ## Items -/

/-- A double is read when it is finite and, as an integer, safe. -/
theorem readFloat64_ok {r r' : CborReader bytes} {v : Value} :
    r.readFloat64 = .ok (v, r') ↔ ∃ bits : List UInt8, ∃ x : Number, bits.length = 8 ∧
      getFloat64 bits = x ∧ isFinite x = true ∧ (isInteger x = true → isSafeInteger x = true) ∧
      v = .num x ∧ r.rest = bits ++ r'.rest := by
  rw [CborReader.readFloat64, bind_pair_ok]
  constructor
  · rintro ⟨bits, r₁, hbits, h⟩
    obtain ⟨hlength, hrest⟩ := readBytes_ok.mp hbits
    dsimp only at h
    by_cases hfinite : isFinite (getFloat64 bits) = true
    · rw [if_neg (by simp [hfinite])] at h
      by_cases hunsafe : (isInteger (getFloat64 bits) && !isSafeInteger (getFloat64 bits)) = true
      · rw [if_pos hunsafe] at h
        cases h
      · rw [if_neg hunsafe] at h
        obtain ⟨rfl, rfl⟩ := Prod.mk.inj (Except.ok.inj h)
        exact ⟨bits, _, hlength, rfl, hfinite, by simpa using hunsafe, rfl, hrest⟩
    · rw [if_pos (by simpa using hfinite)] at h
      cases h
  · rintro ⟨bits, x, hlength, rfl, hfinite, hsafe, rfl, hrest⟩
    refine ⟨bits, r', readBytes_ok.mpr ⟨hlength, hrest⟩, ?_⟩
    dsimp only
    rw [if_neg (by simp [hfinite]), if_neg (by simpa using hsafe)]

/-- The content of a string is as many bytes as its length argument says. -/
theorem readContent_ok {r r' : CborReader bytes} {info : Nat} {kind : String} {limit : Nat}
    {bs : List UInt8} : r.readContent info kind limit = .ok (bs, r') ↔
      bs.length ≤ limit ∧ ∃ tail, Argument info bs.length tail ∧ r.rest = tail ++ bs ++ r'.rest := by
  rw [CborReader.readContent, bind_pair_ok]
  constructor
  · rintro ⟨length, r₁, hread, h⟩
    obtain ⟨hlimit, tail, harg, hrest⟩ := readLength_ok.mp hread
    obtain ⟨rfl, hrest'⟩ := readBytes_ok.mp h
    exact ⟨hlimit, tail, harg, by rw [hrest, hrest', List.append_assoc]⟩
  · rintro ⟨hlimit, tail, harg, hrest⟩
    rw [List.append_assoc] at hrest
    obtain ⟨r₁, hr₁⟩ := exists_rest hrest
    exact ⟨bs.length, r₁, readLength_ok.mpr ⟨hlimit, tail, harg, by rw [hr₁, hrest]⟩,
      readBytes_ok.mpr ⟨rfl, hr₁⟩⟩

/-- `-2 ^ 53` is not safe. -/
theorem isSafeInteger_two_pow : isSafeInteger (.ofRat true ((2 ^ 53 : Nat) : ℚ)) = false := by
  have hrep : Representable ((2 ^ 53 : Nat) : ℚ) :=
    ⟨1, 53, by norm_num, by norm_num, by norm_num, by rw [natCast_two_pow]; simp⟩
  rw [Number.ofRat_of_round hrep (round_eq_self hrep)]
  simp only [isSafeInteger]
  norm_num

/-- What is read behind an initial byte is an item with it. -/
theorem item_of_readMajor (hitem : ReadsItems o levels item) {majorType info : Nat}
    {r r' : CborReader bytes} {v : Value} (h : r.readMajor o item majorType info = .ok (v, r')) :
    ∃ tail, Item o (levels + 1) (initialByte majorType info :: tail) v ∧ r.rest = tail ++ r'.rest := by
  unfold CborReader.readMajor at h
  split at h
  · obtain ⟨n, r₁, hn, h⟩ := bind_pair_ok.mp h
    obtain ⟨rfl, rfl⟩ := Prod.mk.inj (Except.ok.inj h)
    obtain ⟨tail, harg, hrest⟩ := readArgument_ok.mp hn
    exact ⟨tail, .nonneg ⟨harg⟩, hrest⟩
  · obtain ⟨n, r₁, hn, h⟩ := bind_pair_ok.mp h
    obtain ⟨tail, harg, hrest⟩ := readArgument_ok.mp hn
    dsimp only at h
    by_cases hlarge : n + 1 < 2 ^ 53
    · rw [(isSafeInteger_natCast true hlarge).1, if_neg (by simp)] at h
      obtain ⟨rfl, rfl⟩ := Prod.mk.inj (Except.ok.inj h)
      exact ⟨tail, .neg ⟨harg⟩ hlarge, hrest⟩
    · have hlt := harg.lt
      rw [show n + 1 = 2 ^ 53 by omega, isSafeInteger_two_pow, if_pos (by simp)] at h
      cases h
  · obtain ⟨bs, r₁, hbs, h⟩ := bind_pair_ok.mp h
    obtain ⟨rfl, rfl⟩ := Prod.mk.inj (Except.ok.inj h)
    obtain ⟨hlimit, tail, harg, hrest⟩ := readContent_ok.mp hbs
    exact ⟨tail ++ bs, .bytes ⟨harg⟩ hlimit, hrest⟩
  · obtain ⟨bs, r₁, hbs, h⟩ := bind_pair_ok.mp h
    obtain ⟨hlimit, tail, harg, hrest⟩ := readContent_ok.mp hbs
    cases hs : decodeStrict bs with
    | none =>
      simp only [hs] at h
      cases h
    | some s =>
      simp only [hs] at h
      obtain ⟨rfl, rfl⟩ := Prod.mk.inj (Except.ok.inj h)
      exact ⟨tail ++ bs, .text ⟨harg⟩ hlimit hs, hrest⟩
  · obtain ⟨n, r₁, hn, h⟩ := bind_pair_ok.mp h
    obtain ⟨vs, r₂, hvs, h⟩ := bind_pair_ok.mp h
    obtain ⟨rfl, rfl⟩ := Prod.mk.inj (Except.ok.inj h)
    obtain ⟨hlimit, tail, harg, hrest⟩ := readLength_ok.mp hn
    obtain ⟨xs, rfl, rfl, hxs, hrest'⟩ := (readItems_ok hitem).mp hvs
    exact ⟨tail ++ xs.flatMap Prod.fst, .arr ⟨harg⟩ hlimit hxs, by rw [hrest, hrest', List.append_assoc]⟩
  · obtain ⟨n, r₁, hn, h⟩ := bind_pair_ok.mp h
    obtain ⟨vs, r₂, hvs, h⟩ := bind_pair_ok.mp h
    obtain ⟨rfl, rfl⟩ := Prod.mk.inj (Except.ok.inj h)
    obtain ⟨hlimit, tail, harg, hrest⟩ := readLength_ok.mp hn
    obtain ⟨es, rfl, rfl, hnodup, -, hkeys, hvalues, hrest'⟩ := (readEntries_ok hitem).mp hvs
    exact ⟨tail ++ es.flatMap fun e => e.keyItem ++ e.item, .map ⟨harg⟩ hlimit hnodup hkeys hvalues,
      by rw [hrest, hrest', List.append_assoc]⟩
  · cases h
  · unfold CborReader.readSimple at h
    split at h
    · obtain ⟨rfl, rfl⟩ := Prod.mk.inj (Except.ok.inj h)
      exact ⟨[], .bool false, rfl⟩
    · obtain ⟨rfl, rfl⟩ := Prod.mk.inj (Except.ok.inj h)
      exact ⟨[], .bool true, rfl⟩
    · obtain ⟨rfl, rfl⟩ := Prod.mk.inj (Except.ok.inj h)
      exact ⟨[], .null, rfl⟩
    · obtain ⟨bits, x, hlength, hx, hfinite, hsafe, rfl, hrest⟩ := readFloat64_ok.mp h
      exact ⟨bits, .float hlength hx hfinite hsafe, hrest⟩
    · cases h
    · cases h
  · cases h

/-- An item is read behind its initial byte. -/
theorem readMajor_of_item (hitem : ReadsItems o levels item) {bs : List UInt8} {v : Value}
    (h : Item o (levels + 1) bs v) : ∃ majorType info tail, majorType < 8 ∧ info < 32 ∧
      bs = initialByte majorType info :: tail ∧ ∀ r r' : CborReader bytes,
        r.rest = tail ++ r'.rest → r.readMajor o item majorType info = .ok (v, r') := by
  cases h with
  | null => exact ⟨7, 22, [], by omega, by omega, rfl, fun r r' hrest => by rw [rest_inj (r := r) hrest]; rfl⟩
  | bool b =>
    refine ⟨7, if b then 21 else 20, [], by omega, by cases b <;> decide, rfl, fun r r' hrest => ?_⟩
    rw [rest_inj (r := r) hrest]
    cases b <;> rfl
  | @nonneg _ n _ h =>
    obtain ⟨harg⟩ := h
    refine ⟨0, _, _, by omega, harg.info_lt.trans (by omega), rfl, fun r r' hrest => ?_⟩
    exact bind_pair_ok.mpr ⟨_, r', readArgument_ok.mpr ⟨_, harg, hrest⟩, rfl⟩
  | neg h hn =>
    obtain ⟨harg⟩ := h
    refine ⟨1, _, _, by omega, harg.info_lt.trans (by omega), rfl, fun r r' hrest => ?_⟩
    refine bind_pair_ok.mpr ⟨_, r', readArgument_ok.mpr ⟨_, harg, hrest⟩, ?_⟩
    dsimp only
    rw [(isSafeInteger_natCast true hn).1, if_neg (by simp)]
  | float hbits hx hfinite hsafe =>
    refine ⟨7, 27, _, by omega, by omega, rfl, fun r r' hrest => ?_⟩
    exact readFloat64_ok.mpr ⟨_, _, hbits, hx, hfinite, hsafe, rfl, hrest⟩
  | bytes h hlimit =>
    obtain ⟨harg⟩ := h
    refine ⟨2, _, _, by omega, harg.info_lt.trans (by omega), rfl, fun r r' hrest => ?_⟩
    exact bind_pair_ok.mpr ⟨_, r', readContent_ok.mpr ⟨hlimit, _, harg, hrest⟩, rfl⟩
  | text h hlimit hs =>
    obtain ⟨harg⟩ := h
    refine ⟨3, _, _, by omega, harg.info_lt.trans (by omega), rfl, fun r r' hrest => ?_⟩
    refine bind_pair_ok.mpr ⟨_, r', readContent_ok.mpr ⟨hlimit, _, harg, hrest⟩, ?_⟩
    simp only [hs]
  | arr h hlimit hxs =>
    obtain ⟨harg⟩ := h
    refine ⟨4, _, _, by omega, harg.info_lt.trans (by omega), rfl, fun r r' hrest => ?_⟩
    have hrest := hrest.trans (List.append_assoc _ _ _)
    obtain ⟨r₁, hr₁⟩ := exists_rest hrest
    exact bind_pair_ok.mpr ⟨_, r₁, readLength_ok.mpr ⟨hlimit, _, harg, by rw [hr₁, hrest]⟩,
      bind_pair_ok.mpr ⟨_, r', (readItems_ok hitem).mpr ⟨_, rfl, rfl, hxs, hr₁⟩, rfl⟩⟩
  | map h hlimit hnodup hkeys hvalues =>
    obtain ⟨harg⟩ := h
    refine ⟨5, _, _, by omega, harg.info_lt.trans (by omega), rfl, fun r r' hrest => ?_⟩
    have hrest := hrest.trans (List.append_assoc _ _ _)
    obtain ⟨r₁, hr₁⟩ := exists_rest hrest
    exact bind_pair_ok.mpr ⟨_, r₁, readLength_ok.mpr ⟨hlimit, _, harg, by rw [hr₁, hrest]⟩,
      bind_pair_ok.mpr ⟨_, r', (readEntries_ok hitem).mpr ⟨_, rfl, rfl, hnodup, by simp, hkeys, hvalues,
        hr₁⟩, rfl⟩⟩

end Containers

/-- An initial byte in its parts. -/
theorem initialByte_parts {majorType info : Nat} (hmajor : majorType < 8) (hinfo : info < 32) :
    (initialByte majorType info).toNat >>> 5 = majorType ∧
      (initialByte majorType info).toNat &&& 0x1f = info := by
  have hbyte : (initialByte majorType info).toNat = majorType * 32 + info := toNat_byte (by omega)
  rw [hbyte, Nat.shiftRight_eq_div_pow, show 0x1f = 2 ^ 5 - 1 from rfl, Nat.and_two_pow_sub_one_eq_mod]
  omega

theorem initialByte_of_parts (b : UInt8) : initialByte (b.toNat >>> 5) (b.toNat &&& 0x1f) = b := by
  apply UInt8.toNat_inj.mp
  have hb := b.toNat_lt
  rw [initialByte, Nat.shiftRight_eq_div_pow, show 0x1f = 2 ^ 5 - 1 from rfl,
    Nat.and_two_pow_sub_one_eq_mod, toNat_byte (by omega)]
  omega

/-- The reader accepts exactly the items. -/
theorem readItem_ok (levels : Nat) : ReadsItems o levels (readItem o levels : ReadsItem bytes) := by
  induction levels with
  | zero =>
    intro r v r'
    exact iff_of_false nofun fun ⟨bs, h, _⟩ => nomatch h
  | succ levels ih =>
    intro r v r'
    rw [readItem, bind_pair_ok]
    constructor
    · rintro ⟨n, r₁, hn, h⟩
      obtain ⟨b, rfl, hrest⟩ := readByte_ok.mp hn
      obtain ⟨tail, hitem, hrest'⟩ := item_of_readMajor ih h
      rw [initialByte_of_parts] at hitem
      exact ⟨b :: tail, hitem, by rw [hrest, hrest', List.cons_append]⟩
    · rintro ⟨bs, hitem, hrest⟩
      obtain ⟨majorType, info, tail, hmajor, hinfo, rfl, hread⟩ := readMajor_of_item ih hitem
      have hsplit : r.rest = [initialByte majorType info] ++ (tail ++ r'.rest) := hrest
      obtain ⟨r₁, hr₁⟩ := exists_rest hsplit
      obtain ⟨hparts, hparts'⟩ := initialByte_parts hmajor hinfo
      refine ⟨_, r₁, readByte_ok.mpr ⟨_, rfl, by rw [hr₁, hrest]; rfl⟩, ?_⟩
      dsimp only
      rw [hparts, hparts']
      exact hread r₁ r' hr₁

example : (decodeCbor [0x82, 0x01, 0x20] {}).isOk = true := by decide +kernel

end Cbor
