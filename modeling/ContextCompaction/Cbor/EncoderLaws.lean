import Mathlib.Tactic.NormNum
import ContextCompaction.Cbor.Encoder
import ContextCompaction.Js.Except

/-!
# What the encoder writes

* `item_of_encodeValue`: what is written is an item of the value.
* `encodeValue_of_item`: an item that fits is written again, in at most as many bytes.
-/

namespace Cbor

open Js

variable {o : ResolvedCborOptions}

/-! ## Leaves -/

/-- The action writes an item of the value, and none of its items is shorter. -/
def WritesItem (o : ResolvedCborOptions) (f : CborWriter → Except CborError CborWriter) (v : Value) :
    Prop :=
  ∃ bs, Writes f bs ∧ (∀ levels, Item o (levels + 1) bs v) ∧
    ∀ levels bs', Item o levels bs' v → bs.length ≤ bs'.length

theorem Writes.of_eq {f : CborWriter → Except CborError CborWriter} {as bs : List UInt8}
    (h : Writes f as) (heq : as = bs) : Writes f bs := heq ▸ h

theorem writesItem_null : WritesItem o (fun w => w.writeByte 0xf6) .null := by
  refine ⟨[initialByte 7 22], writes_append _, fun _ => .null, fun levels bs' h => ?_⟩
  cases h
  exact Nat.le_refl _

theorem writesItem_bool (b : Bool) :
    WritesItem o (fun w => w.writeByte (if b then 0xf5 else 0xf4)) (.bool b) := by
  refine ⟨[initialByte 7 (if b then 21 else 20)], ?_, fun _ => .bool b, fun levels bs' h => ?_⟩
  · cases b <;> exact writes_append _
  · cases h
    exact Nat.le_refl _

/-! ### Numbers -/

theorem finite_congr {negative : Bool} {p q : ℚ} {hp : Representable p} (h : p = q)
    (hq : Representable q) : Number.finite negative p hp = .finite negative q hq := by
  subst h
  rfl

theorem ofRat_natCast (negative : Bool) {n : Nat} (h : n < 2 ^ 53) :
    Number.ofRat negative (n : ℚ) = .finite negative n (representable_natCast h) :=
  Number.ofRat_of_round _ (round_eq_self (representable_natCast h))

/-- A safe integer is its sign and a natural number. -/
theorem safeInteger_eq {negative : Bool} {abs : ℚ} {h : Representable abs}
    (hsafe : isSafeInteger (.finite negative abs h) = true) :
    ∃ n : Nat, n < 2 ^ 53 ∧ abs = n ∧ absNat (.finite negative abs h) = n := by
  simp only [isSafeInteger, Bool.and_eq_true, beq_iff_eq, decide_eq_true_eq] at hsafe
  obtain ⟨hden, hlt⟩ := hsafe
  have hnum : 0 ≤ abs.num := Rat.num_nonneg.mpr h.nonneg
  have habs : abs = (abs.num.toNat : ℚ) := by
    have hcast : ((abs.num.toNat : ℤ) : ℚ) = abs.num := by rw [Int.toNat_of_nonneg hnum]
    rw [← Int.cast_natCast, hcast]
    exact (Rat.den_eq_one_iff abs).mp hden |>.symm
  refine ⟨abs.num.toNat, ?_, habs, rfl⟩
  rw [habs] at hlt
  exact_mod_cast hlt

theorem isSafeInteger_natCast (negative : Bool) {n : Nat} (h : n < 2 ^ 53) :
    isSafeInteger (.ofRat negative n) = true ∧ absNat (.ofRat negative n) = n ∧
      isNegative (.ofRat negative n) = negative ∧ isFinite (.ofRat negative n) = true ∧
      isInteger (.ofRat negative n) = true := by
  rw [ofRat_natCast negative h]
  have hlt : (n : ℚ) < 2 ^ 53 := by exact_mod_cast h
  simp [isSafeInteger, absNat, isNegative, isFinite, isInteger, hlt]

/-- A head has at most nine bytes. -/
theorem Head.length_le {majorType n : Nat} {head : List UInt8} (h : Head majorType n head) :
    1 ≤ head.length ∧ head.length ≤ 9 := by
  obtain ⟨h⟩ := h
  cases h <;> simp

/-- What `encodeNumber` writes for each kind of number. -/
theorem encodeNumber_eq (w : CborWriter) {n : Number} (hfinite : isFinite n = true)
    (hsafe : isInteger n = true → isSafeInteger n = true) :
    encodeNumber w n =
      if isInteger n = true ∧ ¬ (isNegative n = true ∧ absNat n = 0) then
        if isNegative n = false then writeArgument w 0 (absNat n)
        else writeArgument w 1 (absNat n - 1)
      else w.writeFloat64 n := by
  unfold encodeNumber
  by_cases hint : isInteger n = true ∧ ¬ (isNegative n = true ∧ absNat n = 0)
  · rw [if_neg (by simp [hfinite]), if_pos hint, if_pos hint, if_neg (by simp [hsafe hint.1])]
    cases isNegative n <;> rfl
  · rw [if_neg (by simp [hfinite]), if_neg hint, if_neg hint]

/-- The number of a finite sign and magnitude that the encoder writes as an integer. -/
private theorem eq_ofRat_absNat {n : Number} (hsafe : isSafeInteger n = true) :
    n = .ofRat (isNegative n) (absNat n) ∧ absNat n < 2 ^ 53 := by
  cases n with
  | finite negative abs h =>
    obtain ⟨k, hk, habs, hnat⟩ := safeInteger_eq hsafe
    rw [hnat]
    refine ⟨?_, hk⟩
    rw [isNegative, ofRat_natCast negative hk]
    exact finite_congr habs _
  | _ => cases hsafe

/-- The items of a number. -/
theorem Item.num_cases {levels : Nat} {bs : List UInt8} {n : Number} (h : Item o levels bs (.num n)) :
    (∃ k : Nat, k < 2 ^ 53 ∧ n = .ofRat false k ∧ Head 0 k bs) ∨
      (∃ k, k + 1 < 2 ^ 53 ∧ n = .ofRat true (k + 1 : Nat) ∧ Head 1 k bs) ∨
      (bs.length = 9 ∧ isFinite n = true ∧ (isInteger n = true → isSafeInteger n = true)) := by
  cases h with
  | nonneg h => exact .inl ⟨_, h.lt, rfl, h⟩
  | neg h hn => exact .inr (.inl ⟨_, hn, rfl, h⟩)
  | float hbits hx hfinite hsafe => exact .inr (.inr ⟨by simp [hbits], hfinite, hsafe⟩)

/-- A finite number that is safe, if an integer, is written as an item that holds it. -/
theorem writesItem_number {n : Number} (hfinite : isFinite n = true)
    (hsafe : isInteger n = true → isSafeInteger n = true) :
    WritesItem o (fun w => encodeNumber w n) (.num n) := by
  unfold WritesItem
  simp only [encodeNumber_eq _ hfinite hsafe]
  by_cases hint : isInteger n = true ∧ ¬ (isNegative n = true ∧ absNat n = 0)
  · simp only [if_pos hint]
    obtain ⟨heq, hlt⟩ := eq_ofRat_absNat (hsafe hint.1)
    cases hsign : isNegative n with
    | false =>
      rw [hsign] at heq
      obtain ⟨head, hhead, hwrites, hmin⟩ := writes_argument 0 hlt
      simp only [↓reduceIte]
      refine ⟨head, hwrites, fun levels => ?_, fun levels bs' h => ?_⟩
      · have hitem : Item o (levels + 1) head (.num (.ofNat (absNat n))) := .nonneg hhead
        rwa [Number.ofNat, ← heq] at hitem
      · rcases h.num_cases with ⟨k, hk, rfl, hhead'⟩ | ⟨k, hk, rfl, -⟩ | ⟨hlength, -, -⟩
        · rw [(isSafeInteger_natCast false hk).2.1] at hmin
          exact hmin _ hhead'
        · rw [(isSafeInteger_natCast true hk).2.2.1] at hsign
          cases hsign
        · exact hlength ▸ hhead.length_le.2
    | true =>
      rw [hsign] at heq
      have hpos : absNat n ≠ 0 := fun h => hint.2 ⟨hsign, h⟩
      have hsucc : absNat n - 1 + 1 = absNat n := by omega
      obtain ⟨head, hhead, hwrites, hmin⟩ := writes_argument 1 (n := absNat n - 1) (by omega)
      simp only [Bool.true_eq_false, ↓reduceIte]
      refine ⟨head, hwrites, fun levels => ?_, fun levels bs' h => ?_⟩
      · have hitem : Item o (levels + 1) head (.num (.ofRat true (absNat n - 1 + 1 : Nat))) :=
          .neg hhead (by omega)
        rwa [hsucc, ← heq] at hitem
      · rcases h.num_cases with ⟨k, hk, rfl, -⟩ | ⟨k, hk, rfl, hhead'⟩ | ⟨hlength, -, -⟩
        · rw [(isSafeInteger_natCast false hk).2.2.1] at hsign
          cases hsign
        · rw [(isSafeInteger_natCast true hk).2.1] at hmin
          exact hmin _ hhead'
        · exact hlength ▸ hhead.length_le.2
  · simp only [if_neg hint]
    refine ⟨_, writes_append _, fun levels => ?_, fun levels bs' h => ?_⟩
    · cases n with
      | finite negative abs h =>
        exact .float (length_setFloat64 _) (getFloat64_setFloat64 negative h) hfinite hsafe
      | _ => cases hfinite
    · -- Only the float is an item of `-0` or of a fraction.
      rcases h.num_cases with ⟨k, hk, rfl, -⟩ | ⟨k, hk, rfl, -⟩ | ⟨hlength, -, -⟩
      · obtain ⟨-, hnat, hneg, -, hinteger⟩ := isSafeInteger_natCast false hk
        exact absurd ⟨hinteger, by simp [hneg]⟩ hint
      · obtain ⟨-, hnat, hneg, -, hinteger⟩ := isSafeInteger_natCast true hk
        exact absurd ⟨hinteger, by rw [hnat]; simp⟩ hint
      · simp [hlength]

/-- Only finite numbers are written, and of the integers only safe ones. -/
theorem finite_of_encodeNumber {w w' : CborWriter} {n : Number} (h : encodeNumber w n = .ok w') :
    isFinite n = true ∧ (isInteger n = true → isSafeInteger n = true) := by
  unfold encodeNumber at h
  by_cases hfinite : isFinite n = true
  · refine ⟨hfinite, fun hinteger => ?_⟩
    rw [if_neg (by simp [hfinite])] at h
    by_cases hzero : isNegative n = true ∧ absNat n = 0
    · cases n with
      | finite negative abs hrep =>
        -- `-0` is safe.
        have hden : abs.den = 1 := by simpa [isInteger] using hinteger
        have hnum : abs.num.toNat = 0 := hzero.2
        have hle : abs ≤ 0 := Rat.num_nonpos.mp (by omega)
        simp only [isSafeInteger, hden, beq_self_eq_true, Bool.true_and, decide_eq_true_eq]
        exact lt_of_le_of_lt hle (by norm_num)
      | _ => cases hfinite
    · rw [if_pos ⟨hinteger, hzero⟩] at h
      by_contra hunsafe
      rw [if_pos (by simpa using hunsafe)] at h
      cases h
  · rw [if_pos (by simpa using hfinite)] at h
    cases h

/-! ### Strings -/

/-- A head and what follows it. -/
theorem writes_content (majorType : Nat) {bs : List UInt8} (hlimit : bs.length ≤ MAX_UINT32) :
    ∃ head, Head majorType bs.length head ∧
      Writes (fun w => do (← writeArgument w majorType bs.length).writeBytes bs) (head ++ bs) ∧
      ∀ head', Head majorType bs.length head' → head.length ≤ head'.length := by
  unfold MAX_UINT32 at hlimit
  obtain ⟨head, hhead, hwrites, hmin⟩ := writes_argument majorType (n := bs.length) (by omega)
  exact ⟨head, hhead, hwrites.bind (writes_append bs), hmin⟩

/-- Well-formed text within the limit is written as an item that holds it. -/
theorem writesItem_text {s : Str} (hs : wellFormed s = true)
    (hlimit : (utf8 s).length ≤ o.maxByteLength) :
    WritesItem o (fun w => encodeText o w s) (.str s) := by
  obtain ⟨head, hhead, hwrites, hmin⟩ := writes_content 3
    (hlimit.trans o.byteLength_le)
  unfold WritesItem encodeText
  simp only [if_neg (Nat.not_lt.mpr hlimit), decodeStrict_utf8 hs, ne_eq, not_true_eq_false, ↓reduceIte]
  refine ⟨_, hwrites, fun _ => .text hhead hlimit (decodeStrict_utf8 hs), fun levels bs' h => ?_⟩
  cases h with
  | text hhead' _ hread =>
    obtain ⟨-, rfl⟩ := utf8_of_decodeStrict hread
    have := hmin _ hhead'
    simp only [List.length_append]
    omega

theorem wellFormed_of_encodeText {w w' : CborWriter} {s : Str} (h : encodeText o w s = .ok w') :
    wellFormed s = true ∧ (utf8 s).length ≤ o.maxByteLength := by
  unfold encodeText at h
  by_cases hlimit : o.maxByteLength < (utf8 s).length
  · simp only [if_pos hlimit] at h
    cases h
  · simp only [if_neg hlimit] at h
    by_cases hread : decodeStrict (utf8 s) = some s
    · exact ⟨(utf8_of_decodeStrict hread).1, Nat.not_lt.mp hlimit⟩
    · simp only [ne_eq, hread, not_false_eq_true, ↓reduceIte] at h
      cases h

theorem writesItem_bytes {bs : List UInt8} (hlimit : bs.length ≤ o.maxByteLength) :
    WritesItem o (fun w => encodeBytes o w bs) (.bytes bs) := by
  obtain ⟨head, hhead, hwrites, hmin⟩ := writes_content 2
    (hlimit.trans o.byteLength_le)
  unfold WritesItem encodeBytes
  simp only [if_neg (Nat.not_lt.mpr hlimit)]
  refine ⟨_, hwrites, fun _ => .bytes hhead hlimit, fun levels bs' h => ?_⟩
  cases h with
  | bytes hhead' _ =>
    have := hmin _ hhead'
    simp only [List.length_append]
    omega

theorem le_of_encodeBytes {w w' : CborWriter} {bs : List UInt8} (h : encodeBytes o w bs = .ok w') :
    bs.length ≤ o.maxByteLength := by
  unfold encodeBytes at h
  by_contra hlimit
  rw [if_pos (Nat.not_le.mp hlimit)] at h
  cases h

/-! ## Depth -/

theorem atDepth_ok {depth : Nat} {next : Except CborError CborWriter} {w' : CborWriter} :
    atDepth o depth next = .ok w' ↔ depth ≤ o.maxDepth ∧ next = .ok w' := by
  unfold atDepth
  by_cases h : o.maxDepth < depth
  · rw [if_pos h]
    simp [Nat.not_le.mpr h]
  · rw [if_neg h]
    simp [Nat.not_lt.mp h]

/-- The levels that are left at a depth. -/
def levelsAt (o : ResolvedCborOptions) (depth : Nat) : Nat := o.maxDepth + 1 - depth

theorem levelsAt_eq {depth : Nat} (h : depth ≤ o.maxDepth) :
    levelsAt o depth = levelsAt o (depth + 1) + 1 := by
  unfold levelsAt
  omega

theorem levelsAt_eq_succ {depth levels : Nat} (h : levels + 1 = levelsAt o depth) :
    depth ≤ o.maxDepth ∧ levels = levelsAt o (depth + 1) := by
  unfold levelsAt at *
  omega

/-- A leaf that was written. -/
theorem WritesItem.item {f : CborWriter → Except CborError CborWriter} {v : Value}
    (h : WritesItem o f v) {w w' : CborWriter} {depth : Nat} (hok : atDepth o depth (f w) = .ok w') :
    ∃ bs, Wrote w w' bs ∧ Item o (levelsAt o depth) bs v := by
  obtain ⟨bs, hwrites, hitem, -⟩ := h
  obtain ⟨hdepth, hok⟩ := atDepth_ok.mp hok
  exact ⟨bs, (hwrites w w').mp hok, levelsAt_eq hdepth ▸ hitem _⟩

/-- A leaf that can be written. -/
theorem WritesItem.writes {f : CborWriter → Except CborError CborWriter} {v : Value}
    (h : WritesItem o f v) {levels depth : Nat} (hlevels : levels + 1 = levelsAt o depth)
    {bs : List UInt8} (hitem : Item o (levels + 1) bs v) {w : CborWriter}
    (hfits : w.written.length + bs.length ≤ w.maxByteLength) :
    ∃ w' bs', atDepth o depth (f w) = .ok w' ∧ Wrote w w' bs' ∧ bs'.length ≤ bs.length := by
  obtain ⟨bs', hwrites, -, hmin⟩ := h
  have hle := hmin _ _ hitem
  obtain ⟨w', hw'⟩ := exists_wrote w bs' (by omega)
  exact ⟨w', bs', atDepth_ok.mpr ⟨(levelsAt_eq_succ hlevels).1, (hwrites w w').mpr hw'⟩, hw', hle⟩

/-! ## What is written is an item -/

theorem writeContainer_ok {majorType length : Nat} {kind : String} {w w' : CborWriter}
    (h : writeContainer o w majorType kind length = .ok w') : length ≤ o.maxContainerLength ∧
      writeArgument w majorType length = .ok w' := by
  unfold writeContainer at h
  by_cases hlimit : o.maxContainerLength < length
  · rw [if_pos hlimit] at h
    cases h
  · rw [if_neg hlimit] at h
    exact ⟨Nat.not_lt.mp hlimit, h⟩

theorem length_definedItems (items : List Value) :
    (Value.definedItems items).length = items.length := by
  induction items with
  | nil => rfl
  | cons v items ih => simp [Value.definedItems, ih]

theorem length_definedFields (fields : List (Str × Value)) :
    (Value.definedFields fields).length = (entriesOf fields).length := by
  induction fields with
  | nil => rfl
  | cons f fields ih =>
    obtain ⟨key, v⟩ := f
    unfold entriesOf at *
    cases h : v.isUndefined <;> simp [Value.definedFields, h, ih]

theorem keys_definedFields (fields : List (Str × Value)) :
    ((Value.definedFields fields).map Prod.fst).Sublist (fields.map Prod.fst) := by
  induction fields with
  | nil => exact .slnil
  | cons f fields ih =>
    obtain ⟨key, v⟩ := f
    cases h : v.isUndefined
    · simpa [Value.definedFields, h] using ih
    · simpa [Value.definedFields, h] using ih.cons key

/-- A value whose encoding, wherever it succeeds, is an item. -/
def Sound (o : ResolvedCborOptions) (v : Value) : Prop :=
  ∀ w depth w', encodeValue o w depth v = .ok w' →
    ∃ bs, Wrote w w' bs ∧ Item o (levelsAt o depth) bs v.defined

/-- An array that was written is a sequence of items that hold its elements. -/
theorem items_of_encodeItems {items : List Value} (hsound : ∀ v ∈ items, Sound o v) {w w' : CborWriter}
    {depth : Nat} (h : encodeItems o w depth items = .ok w') :
    ∃ xs : List Element, xs.map Prod.snd = Value.definedItems items ∧
      (∀ x ∈ xs, Item o (levelsAt o depth) x.1 x.2) ∧ Wrote w w' (xs.flatMap Prod.fst) := by
  induction items generalizing w with
  | nil =>
    obtain rfl := Except.ok.inj h
    exact ⟨[], rfl, by simp, .refl w⟩
  | cons v items ih =>
    rw [encodeItems] at h
    by_cases hv : v.isUndefined = true
    · rw [if_pos hv] at h
      cases h
    · rw [if_neg hv] at h
      obtain ⟨w₁, hw₁, h⟩ := bind_ok.mp h
      obtain ⟨bs, hwrote, hitem⟩ := hsound v List.mem_cons_self w depth w₁ hw₁
      obtain ⟨xs, hxs, hitems, hrest⟩ := ih (fun u hu => hsound u (List.mem_cons_of_mem _ hu)) h
      refine ⟨(bs, v.defined) :: xs, ?_, List.forall_mem_cons.mpr ⟨hitem, hitems⟩, ?_⟩
      · rw [List.map_cons, hxs, Value.definedItems]
      · rw [List.flatMap_cons]
        exact hwrote.trans hrest

theorem depth_of_encodeValue {w w' : CborWriter} {depth : Nat} {v : Value}
    (h : encodeValue o w depth v = .ok w') : depth ≤ o.maxDepth := by
  cases v <;> exact (atDepth_ok.mp h).1

/-- An object that was written is a sequence of pairs of items that hold its keys and its defined values.
-/
theorem entries_of_encodeFields {fields : List (Str × Value)} (hsound : ∀ f ∈ fields, Sound o f.2)
    {w w' : CborWriter} {depth : Nat} (h : encodeFields o w depth fields = .ok w') :
    ∃ es : List Entry, es.map (fun e => (e.key, e.value)) = Value.definedFields fields ∧
      (∀ e ∈ es, Item o (levelsAt o depth) e.keyItem (.str e.key)) ∧
      (∀ e ∈ es, Item o (levelsAt o depth) e.item e.value) ∧
      Wrote w w' (es.flatMap fun e => e.keyItem ++ e.item) := by
  induction fields generalizing w with
  | nil =>
    obtain rfl := Except.ok.inj h
    exact ⟨[], rfl, by simp, by simp, .refl w⟩
  | cons f fields ih =>
    obtain ⟨key, v⟩ := f
    rw [encodeFields] at h
    have hrestSound : ∀ g ∈ fields, Sound o g.2 := fun g hg => hsound g (List.mem_cons_of_mem _ hg)
    by_cases hv : v.isUndefined = true
    · rw [if_pos hv] at h
      rw [Value.definedFields, if_pos hv]
      exact ih hrestSound h
    · rw [if_neg hv] at h
      obtain ⟨w₁, hw₁, h⟩ := bind_ok.mp h
      obtain ⟨w₂, hw₂, h⟩ := bind_ok.mp h
      obtain ⟨hwell, hlimit⟩ := wellFormed_of_encodeText hw₁
      have hdepth := depth_of_encodeValue hw₂
      obtain ⟨keyItem, hwroteKey, hkey⟩ := (writesItem_text hwell hlimit).item
        (atDepth_ok.mpr ⟨hdepth, hw₁⟩)
      obtain ⟨item, hwrote, hitem⟩ := hsound (key, v) List.mem_cons_self w₁ depth w₂ hw₂
      obtain ⟨es, hes, hkeys, hvalues, hrest⟩ := ih hrestSound h
      refine ⟨⟨keyItem, key, item, v.defined⟩ :: es, ?_, List.forall_mem_cons.mpr ⟨hkey, hkeys⟩,
        List.forall_mem_cons.mpr ⟨hitem, hvalues⟩, ?_⟩
      · rw [List.map_cons, hes, Value.definedFields, if_neg hv]
      · rw [List.flatMap_cons]
        exact (hwroteKey.trans hwrote).trans hrest

/-- What is written is an item of the value, without its undefined entries. -/
theorem item_of_encodeValue {v : Value} (hv : v.Ok) : Sound o v := by
  induction hv with
  | undefined =>
    intro w depth w' h
    exact nomatch (atDepth_ok.mp h).2
  | null => exact fun w depth w' h => writesItem_null.item h
  | bool b => exact fun w depth w' h => (writesItem_bool b).item h
  | num n =>
    intro w depth w' h
    obtain ⟨hfinite, hsafe⟩ := finite_of_encodeNumber (atDepth_ok.mp h).2
    exact (writesItem_number hfinite hsafe).item h
  | str s =>
    intro w depth w' h
    obtain ⟨hwell, hlimit⟩ := wellFormed_of_encodeText (atDepth_ok.mp h).2
    exact (writesItem_text hwell hlimit).item h
  | bytes bs =>
    intro w depth w' h
    exact (writesItem_bytes (le_of_encodeBytes (atDepth_ok.mp h).2)).item h
  | @arr items _ ih =>
    intro w depth w' h
    obtain ⟨hdepth, h⟩ := atDepth_ok.mp h
    obtain ⟨w₁, hw₁, h⟩ := bind_ok.mp h
    obtain ⟨hlimit, hw₁⟩ := writeContainer_ok hw₁
    have hsafe : items.length < 2 ^ 53 := by
      have := o.containerLength_le
      unfold MAX_UINT32 at this
      omega
    obtain ⟨head, hhead, hwrites, -⟩ := writes_argument 4 hsafe
    obtain ⟨xs, hxs, hitems, hrest⟩ := items_of_encodeItems ih h
    have hlength : xs.length = items.length := by
      rw [← length_definedItems, ← hxs, List.length_map]
    refine ⟨head ++ xs.flatMap Prod.fst, ((hwrites w w₁).mp hw₁).trans hrest, ?_⟩
    rw [levelsAt_eq hdepth, Value.defined, ← hxs]
    exact .arr (hlength ▸ hhead) (hlength ▸ hlimit) hitems
  | @obj fields hkeys horder _ ih =>
    intro w depth w' h
    obtain ⟨hdepth, h⟩ := atDepth_ok.mp h
    obtain ⟨w₁, hw₁, h⟩ := bind_ok.mp h
    obtain ⟨hlimit, hw₁⟩ := writeContainer_ok hw₁
    have hsafe : (entriesOf fields).length < 2 ^ 53 := by
      have := o.containerLength_le
      unfold MAX_UINT32 at this
      omega
    obtain ⟨head, hhead, hwrites, -⟩ := writes_argument 5 hsafe
    obtain ⟨es, hes, hkeyItems, hvalues, hrest⟩ := entries_of_encodeFields ih h
    have hlength : es.length = (entriesOf fields).length := by
      rw [← length_definedFields, ← hes, List.length_map]
    have hkeysOf : es.map Entry.key = (Value.definedFields fields).map Prod.fst := by
      rw [← hes, List.map_map]
      rfl
    have hsub := keys_definedFields fields
    have hitem : Item o (levelsAt o (depth + 1) + 1) (head ++ es.flatMap fun e => e.keyItem ++ e.item)
        (.obj (ownOrder (es.map fun e => (e.key, e.value)))) :=
      .map (hlength ▸ hhead) (hlength ▸ hlimit) (hkeysOf ▸ hkeys.sublist hsub) hkeyItems hvalues
    rw [hes, ownOrder_eq_self (horder.sublist hsub)] at hitem
    refine ⟨_, ((hwrites w w₁).mp hw₁).trans hrest, ?_⟩
    rw [levelsAt_eq hdepth, Value.defined]
    exact hitem

example : (encodeCbor (.obj [(lit "gone", .undefined), (lit "n", .num (.ofNat 300))]) {}).toOption =
    some [0xA1, 0x61, 0x6E, 0x19, 0x01, 0x2C] := by decide +kernel

/-! ## An item is written again -/

/-- A value that is written wherever this many bytes fit. -/
def Fits (o : ResolvedCborOptions) (depth : Nat) (v : Value) (size : Nat) : Prop :=
  ∀ w : CborWriter, w.written.length + size ≤ w.maxByteLength →
    ∃ w' bs, encodeValue o w depth v = .ok w' ∧ Wrote w w' bs ∧ bs.length ≤ size

/-- Elements that fit are written if a payload of theirs has room. -/
theorem encodeItems_of_fits (depth : Nat) {xs : List Element}
    (hfits : ∀ x ∈ xs, Fits o depth x.2 x.1.length ∧ x.2.isUndefined = false) {w : CborWriter}
    (h : w.written.length + (xs.flatMap Prod.fst).length ≤ w.maxByteLength) :
    ∃ w' bs, encodeItems o w depth (xs.map Prod.snd) = .ok w' ∧ Wrote w w' bs ∧
      bs.length ≤ (xs.flatMap Prod.fst).length := by
  induction xs generalizing w with
  | nil => exact ⟨w, [], rfl, .refl w, Nat.le_refl _⟩
  | cons x xs ih =>
    rw [List.flatMap_cons, List.length_append] at h ⊢
    obtain ⟨hx, hdefined⟩ := hfits x List.mem_cons_self
    obtain ⟨w₁, bs, hw₁, hwrote, hle⟩ := hx w (by omega)
    obtain ⟨w₂, cs, hw₂, hrest, hle'⟩ := ih (fun y hy => hfits y (List.mem_cons_of_mem _ hy)) (w := w₁)
      (by rw [hwrote.1, hwrote.2, List.length_append]; omega)
    refine ⟨w₂, bs ++ cs, ?_, hwrote.trans hrest, by rw [List.length_append]; omega⟩
    rw [List.map_cons, encodeItems, hdefined, if_neg (by simp)]
    exact bind_ok.mpr ⟨w₁, hw₁, hw₂⟩

/-- Entries that fit are written if a payload of theirs has room. -/
theorem encodeFields_of_fits (depth : Nat) (es : List Entry)
    (hkeys : ∀ e ∈ es, Fits o depth (.str e.key) e.keyItem.length)
    (hvalues : ∀ e ∈ es, Fits o depth e.value e.item.length ∧ e.value.isUndefined = false)
    {w : CborWriter} (h : w.written.length + (es.flatMap fun e => e.keyItem ++ e.item).length ≤
      w.maxByteLength) :
    ∃ w' bs, encodeFields o w depth (es.map fun e => (e.key, e.value)) = .ok w' ∧ Wrote w w' bs ∧
      bs.length ≤ (es.flatMap fun e => e.keyItem ++ e.item).length := by
  induction es generalizing w with
  | nil => exact ⟨w, [], rfl, .refl w, Nat.le_refl _⟩
  | cons e es ih =>
    rw [List.flatMap_cons, List.length_append, List.length_append] at h ⊢
    obtain ⟨hvalue, hdefined⟩ := hvalues e List.mem_cons_self
    obtain ⟨w₁, bs, hw₁, hwrote, hle⟩ := hkeys e List.mem_cons_self w (by omega)
    obtain ⟨w₂, cs, hw₂, hwrote', hle'⟩ := hvalue w₁
      (by rw [hwrote.1, hwrote.2, List.length_append]; omega)
    have hboth := hwrote.trans hwrote'
    obtain ⟨w₃, ds, hw₃, hrest, hle''⟩ := ih (fun e he => hkeys e (List.mem_cons_of_mem _ he))
      (fun e he => hvalues e (List.mem_cons_of_mem _ he)) (w := w₂)
      (by rw [hboth.1, hboth.2, List.length_append, List.length_append]; omega)
    refine ⟨w₃, bs ++ cs ++ ds, ?_, hboth.trans hrest, by simp only [List.length_append]; omega⟩
    rw [List.map_cons, encodeFields, hdefined, if_neg (by simp)]
    exact bind_ok.mpr ⟨w₁, (atDepth_ok.mp hw₁).2, bind_ok.mpr ⟨w₂, hw₂, hw₃⟩⟩

/-- The head of a container that an item has room for. -/
theorem writeContainer_of_head {majorType length : Nat} (kind : String)
    (hlimit : length ≤ o.maxContainerLength) {head : List UInt8} (hhead : Head majorType length head)
    {w : CborWriter} (h : w.written.length + head.length ≤ w.maxByteLength) :
    ∃ w' bs, writeContainer o w majorType kind length = .ok w' ∧ Wrote w w' bs ∧
      bs.length ≤ head.length := by
  obtain ⟨bs, hbs, hwrites, hmin⟩ := writes_argument majorType hhead.lt
  have hle := hmin _ hhead
  obtain ⟨w', hw'⟩ := exists_wrote w bs (by omega)
  refine ⟨w', bs, ?_, hw', hle⟩
  rw [writeContainer, if_neg (Nat.not_lt.mpr hlimit)]
  exact (hwrites w w').mpr hw'

/-- No item stands for `undefined`. -/
theorem Item.isUndefined {levels : Nat} {bs : List UInt8} {v : Value} (h : Item o levels bs v) :
    v.isUndefined = false := by
  cases h <;> rfl

theorem entriesOf_eq_self {fields : List (Str × Value)} (h : ∀ f ∈ fields, f.2.isUndefined = false) :
    entriesOf fields = fields :=
  List.filter_eq_self.mpr fun f hf => by rw [h f hf]; rfl

/-- The entries of an item's map in the order of own properties. -/
theorem exists_ordered (es : List Entry) :
    ∃ es' : List Entry, es'.Perm es ∧
      es'.map (fun e => (e.key, e.value)) = ownOrder (es.map fun e => (e.key, e.value)) := by
  have hperm := ownOrder_perm (es.map fun e => (e.key, e.value))
  obtain ⟨es', heq, hperm'⟩ : Relation.Comp (· = List.map (fun e : Entry => (e.key, e.value)) ·)
      List.Perm (ownOrder (es.map fun e => (e.key, e.value))) es := by
    rw [List.eq_map_comp_perm]
    exact hperm
  exact ⟨es', hperm', heq.symm⟩

/-- An item is written again, in at most as many bytes. -/
theorem encodeValue_of_item {levels : Nat} {bs : List UInt8} {v : Value} (h : Item o levels bs v) :
    ∀ {depth : Nat}, levels = levelsAt o depth → Fits o depth v bs.length := by
  induction h with
  | null => exact fun hlevels w => writesItem_null.writes hlevels .null
  | bool b => exact fun hlevels w => (writesItem_bool b).writes hlevels (.bool b)
  | @nonneg _ n _ h =>
    obtain ⟨hsafe, -, -, hfinite, -⟩ := isSafeInteger_natCast false h.lt
    exact fun hlevels w => (writesItem_number hfinite fun _ => hsafe).writes hlevels (.nonneg h)
  | neg h hn =>
    obtain ⟨hsafe, -, -, hfinite, -⟩ := isSafeInteger_natCast true hn
    exact fun hlevels w => (writesItem_number hfinite fun _ => hsafe).writes hlevels (.neg h hn)
  | float hbits hx hfinite hsafe =>
    exact fun hlevels w => (writesItem_number hfinite hsafe).writes hlevels
      (.float hbits hx hfinite hsafe)
  | bytes h hlimit => exact fun hlevels w => (writesItem_bytes hlimit).writes hlevels (.bytes h hlimit)
  | text h hlimit hs =>
    obtain ⟨hwell, hunits⟩ := utf8_of_decodeStrict hs
    exact fun hlevels w => (writesItem_text hwell (hunits ▸ hlimit)).writes hlevels
      (.text h hlimit hs)
  | @arr levels head xs h hlimit hxs ih =>
    intro depth hlevels w hfits
    obtain ⟨hdepth, rfl⟩ := levelsAt_eq_succ hlevels
    rw [List.length_append] at hfits ⊢
    obtain ⟨w₁, bs, hw₁, hwrote, hle⟩ := writeContainer_of_head "array" hlimit h (w := w) (by omega)
    obtain ⟨w₂, cs, hw₂, hrest, hle'⟩ := encodeItems_of_fits (depth + 1)
      (fun x hx => ⟨ih x hx rfl, (hxs x hx).isUndefined⟩) (w := w₁)
      (by rw [hwrote.1, hwrote.2, List.length_append]; omega)
    refine ⟨w₂, bs ++ cs, atDepth_ok.mpr ⟨hdepth, bind_ok.mpr ⟨w₁, ?_, hw₂⟩⟩, hwrote.trans hrest,
      by rw [List.length_append]; omega⟩
    rw [List.length_map]
    exact hw₁
  | @map levels head es h hlimit hnodup hkeys hvalues ihKeys ihValues =>
    intro depth hlevels w hfits
    obtain ⟨hdepth, rfl⟩ := levelsAt_eq_succ hlevels
    -- The entries are written in the order of own properties, which changes no length.
    obtain ⟨es', hperm, hes'⟩ := exists_ordered es
    rw [List.length_append, ← (hperm.flatMap_right _).length_eq] at hfits ⊢
    obtain ⟨w₁, bs, hw₁, hwrote, hle⟩ := writeContainer_of_head "map" hlimit h (w := w) (by omega)
    obtain ⟨w₂, cs, hw₂, hrest, hle'⟩ := encodeFields_of_fits (depth + 1) es'
      (fun e he => ihKeys e (hperm.mem_iff.mp he) rfl)
      (fun e he => ⟨ihValues e (hperm.mem_iff.mp he) rfl, (hvalues e (hperm.mem_iff.mp he)).isUndefined⟩)
      (w := w₁) (by rw [hwrote.1, hwrote.2, List.length_append]; omega)
    refine ⟨w₂, bs ++ cs, atDepth_ok.mpr ⟨hdepth, bind_ok.mpr ⟨w₁, ?_, hes' ▸ hw₂⟩⟩,
      hwrote.trans hrest, by rw [List.length_append]; omega⟩
    rw [← hes', entriesOf_eq_self ?_, List.length_map, hperm.length_eq]
    · exact hw₁
    · rintro f hf
      obtain ⟨e, he, rfl⟩ := List.mem_map.mp hf
      exact (hvalues e (hperm.mem_iff.mp he)).isUndefined

/-! ## Decoded values -/

theorem definedItems_eq_self {items : List Value} (h : ∀ v ∈ items, v.defined = v) :
    Value.definedItems items = items := by
  induction items with
  | nil => rfl
  | cons v items ih =>
    rw [Value.definedItems, h v List.mem_cons_self, ih fun u hu => h u (List.mem_cons_of_mem _ hu)]

theorem definedFields_eq_self {fields : List (Str × Value)}
    (h : ∀ f ∈ fields, f.2.defined = f.2 ∧ f.2.isUndefined = false) :
    Value.definedFields fields = fields := by
  induction fields with
  | nil => rfl
  | cons f fields ih =>
    obtain ⟨key, v⟩ := f
    obtain ⟨hv, hdefined⟩ := h _ List.mem_cons_self
    rw [Value.definedFields, if_neg (by simp [hdefined]), hv,
      ih fun g hg => h g (List.mem_cons_of_mem _ hg)]

/-- The value of an item is a value of objects, with nothing undefined in it. -/
theorem Item.ok {levels : Nat} {bs : List UInt8} {v : Value} (h : Item o levels bs v) :
    v.Ok ∧ v.defined = v := by
  induction h with
  | null => exact ⟨.null, rfl⟩
  | bool b => exact ⟨.bool b, rfl⟩
  | nonneg | neg | float => exact ⟨.num _, rfl⟩
  | bytes => exact ⟨.bytes _, rfl⟩
  | text => exact ⟨.str _, rfl⟩
  | @arr levels head xs _ _ _ ih =>
    refine ⟨.arr fun v hv => ?_, ?_⟩
    · obtain ⟨x, hx, rfl⟩ := List.mem_map.mp hv
      exact (ih x hx).1
    · rw [Value.defined, definedItems_eq_self fun v hv => ?_]
      obtain ⟨x, hx, rfl⟩ := List.mem_map.mp hv
      exact (ih x hx).2
  | @map levels head es _ _ hnodup _ hvalues _ ih =>
    have hperm := ownOrder_perm (es.map fun e => (e.key, e.value))
    have hmem : ∀ f ∈ ownOrder (es.map fun e => (e.key, e.value)), ∃ e ∈ es, e.value = f.2 := by
      intro f hf
      obtain ⟨e, he, rfl⟩ := List.mem_map.mp (hperm.mem_iff.mp hf)
      exact ⟨e, he, rfl⟩
    refine ⟨.obj ?_ (inOwnOrder_ownOrder _) fun f hf => ?_, ?_⟩
    · rw [(hperm.map Prod.fst).nodup_iff, List.map_map]
      exact hnodup
    · obtain ⟨e, he, heq⟩ := hmem f hf
      exact heq ▸ (ih e he).1
    · rw [Value.defined, definedFields_eq_self fun f hf => ?_]
      obtain ⟨e, he, heq⟩ := hmem f hf
      exact heq ▸ ⟨(ih e he).2, (hvalues e he).isUndefined⟩

end Cbor
