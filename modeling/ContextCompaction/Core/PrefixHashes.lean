import ContextCompaction.Cbor.EncoderLaws
import ContextCompaction.Core.Preparation

/-!
# Hashes of prefixes

`hashEntryPrefixes` is given its boundaries as numbers, and checks them before it reads a record.

* `hashEntryPrefixesAt`: the function on any numbers.
* `PrefixRun`: what a pass over valid boundaries hands out and returns, or throws.
* `prefixHashes_agree`: the one pass agrees with the hashes of whole lists, and a hash determines
  the text of each value.
-/

namespace Compaction

open Js
open Cbor (isSafeInteger isNegative absNat safeInteger_eq)

/-! ## Boundaries -/

/-- The boundary that a number is, if it passes
`!Number.isSafeInteger(length) || length < 0 || length > entries.length`. -/
def boundary? (count : Nat) (length : Number) : Option Nat :=
  if isSafeInteger length && !(isNegative length && absNat length != 0) && absNat length ≤ count then
    some (absNat length)
  else none

def prefixFault : Failure := .ofText "CONTEXT_SOURCE_PREFIX: invalid source prefix boundary"

/-- `hashEntryPrefixes` and `hashCanonicalRecordPrefixes`, on any numbers. -/
def hashEntryPrefixesAt (sha256 : Sha256) (serialization : Serialization)
    (entries : List SessionRecord) (prefixLengths : List Number) : Logged (List (Nat × Str)) :=
  match prefixLengths.mapM (boundary? entries.length) with
  | none => ⟨[], .error prefixFault⟩
  | some lengths => hashEntryPrefixes sha256 serialization entries lengths

/-- The number is the integer `n`; zero may have either sign. -/
def IsInteger (length : Number) (n : Nat) : Prop :=
  ∃ negative h, length = .finite negative n h ∧ (negative = false ∨ n = 0)

/-- A length is a boundary when it is an integer from 0 to the count. -/
theorem boundary?_eq_some {count n : Nat} {length : Number} (hcount : count < 2 ^ 53) :
    boundary? count length = some n ↔ IsInteger length n ∧ n ≤ count := by
  constructor
  · intro h
    unfold boundary? at h
    split at h
    case isFalse => cases h
    case isTrue hc =>
      simp only [Bool.and_eq_true, Bool.not_eq_true', Bool.and_eq_false_iff, bne_eq_false_iff_eq,
        decide_eq_true_eq] at hc
      obtain ⟨⟨hsafe, hsign⟩, hle⟩ := hc
      cases length with
      | finite negative abs hr =>
        obtain ⟨k, -, rfl, hk⟩ := safeInteger_eq hsafe
        rw [hk] at h hsign hle
        cases h
        exact ⟨⟨negative, hr, rfl, hsign⟩, hle⟩
      | _ => cases hsafe
  · rintro ⟨⟨negative, hr, rfl, hsign⟩, hle⟩
    have hlt : (n : ℚ) < 2 ^ 53 := by exact_mod_cast lt_of_le_of_lt hle hcount
    have hneg : (negative && n != 0) = false := by
      rcases hsign with rfl | rfl
      · rfl
      · simp
    simp [boundary?, isSafeInteger, isNegative, absNat, hlt, hle, hneg]

theorem mapM_eq_none {α β : Type} {f : α → Option β} {xs : List α} :
    xs.mapM f = none ↔ ∃ x ∈ xs, f x = none := by
  induction xs with
  | nil => simp
  | cons x xs ih =>
    rw [List.mapM_cons]
    cases hx : f x <;> cases hxs : xs.mapM f <;> simp [hx, hxs, ← ih]

theorem mapM_eq_some {α β : Type} {f : α → Option β} {xs : List α} {ys : List β} :
    xs.mapM f = some ys ↔ List.Forall₂ (fun x y => f x = some y) xs ys := by
  induction xs generalizing ys with
  | nil => cases ys <;> simp
  | cons x xs ih =>
    rw [List.mapM_cons]
    cases hx : f x <;> cases hxs : xs.mapM f <;> cases ys <;> simp [hx, hxs, ← ih]

theorem exists_left_of_mem {α β : Type} {R : α → β → Prop} {xs : List α} {ys : List β}
    (h : List.Forall₂ R xs ys) {x : α} (hx : x ∈ xs) : ∃ y ∈ ys, R x y := by
  induction h with
  | nil => cases hx
  | cons hr _ ih =>
    rcases List.mem_cons.mp hx with rfl | hx
    · exact ⟨_, List.mem_cons_self, hr⟩
    · obtain ⟨y, hy, hr⟩ := ih hx
      exact ⟨y, List.mem_cons_of_mem _ hy, hr⟩

/-! ## Records that do not serialize -/

/-- Only the canonical serialization throws, and what it throws is a `TypeError`. -/
def IsTypeError (e : Failure) : Prop := ∃ message, e = .typeError message

theorem stringLiteral_error {s : Str} {e : Failure} (h : stringLiteral s = .error e) :
    IsTypeError e := by
  unfold stringLiteral at h
  split at h <;> cases h
  exact ⟨_, rfl⟩

theorem canonicalMembers_error {members : List (Str × Except Failure Str)} {e : Failure}
    (hm : ∀ m ∈ members, ∀ e, m.2 = .error e → IsTypeError e)
    (h : canonicalMembers members = .error e) : IsTypeError e := by
  rcases bind_error.mp h with h | ⟨_, -, h⟩
  · obtain ⟨m, hmem, h⟩ := mapM_error h
    rcases bind_error.mp h with h | ⟨_, -, h⟩
    · exact stringLiteral_error h
    · rcases bind_error.mp h with h | ⟨_, -, h⟩
      · exact hm m (sortMembers_mem.mp hmem) e h
      · cases h
  · cases h

theorem canonicalElements_error {xs : List Json} {e : Failure}
    (hx : ∀ x ∈ xs, ∀ e, canonicalize x = .error e → IsTypeError e)
    (h : canonicalElements xs = .error e) : IsTypeError e := by
  induction xs with
  | nil => cases h
  | cons x xs ih =>
    rw [List.forall_mem_cons] at hx
    rcases bind_error.mp h with h | ⟨_, -, h⟩
    · exact hx.1 e h
    · rcases bind_error.mp h with h | ⟨_, -, h⟩
      · exact ih hx.2 h
      · cases h

/-- Every value without a canonical text fails with a type error. -/
theorem canonicalize_error (v : Json) : ∀ e, canonicalize v = .error e → IsTypeError e := by
  induction v using Json.induct with
  | null => exact fun _ h => by cases h
  | bool b => exact fun _ h => by cases h
  | num n => cases n <;> intro e h <;> cases h <;> exact ⟨_, rfl⟩
  | str s => exact fun _ h => stringLiteral_error h
  | arr xs ih =>
    intro e h
    rcases bind_error.mp h with h | ⟨_, -, h⟩
    · exact canonicalElements_error ih h
    · cases h
  | obj fields ih =>
    intro e h
    rcases bind_error.mp h with h | ⟨_, -, h⟩
    · rw [canonicalFields_eq_map] at h
      apply canonicalMembers_error _ h
      intro m hm e he
      obtain ⟨f, hf, rfl⟩ := List.mem_map.mp hm
      exact ih f hf e he
    · cases h

theorem serializeRecord_error {serialization : Serialization} {entry : SessionRecord} {e : Failure}
    (h : serializeRecord serialization entry = .error e) : IsTypeError e := by
  cases serialization with
  | pi => cases h
  | jcs => exact canonicalize_error _ e h

/-- The records up to the first that does not serialize, if there is one. -/
theorem serializes_or (serialization : Serialization) (entries : List SessionRecord) :
    (∀ entry ∈ entries, Serializes serialization entry) ∨
      ∃ before entry after e, entries = before ++ entry :: after ∧
        (∀ entry ∈ before, Serializes serialization entry) ∧
        serializeRecord serialization entry = .error e := by
  induction entries with
  | nil => exact .inl fun _ h => nomatch h
  | cons entry entries ih =>
    cases he : serializeRecord serialization entry with
    | error e => exact .inr ⟨[], entry, entries, e, rfl, fun _ h => (nomatch h), he⟩
    | ok text =>
      rcases ih with h | ⟨before, bad, after, e, rfl, hbefore, hbad⟩
      · exact .inl (List.forall_mem_cons.mpr ⟨⟨text, he⟩, h⟩)
      · exact .inr ⟨entry :: before, bad, after, e, rfl,
          List.forall_mem_cons.mpr ⟨⟨text, he⟩, hbefore⟩, hbad⟩

theorem map_serializeRecord {serialization : Serialization} {entries : List SessionRecord}
    (h : ∀ entry ∈ entries, Serializes serialization entry) :
    entries.map (serializeRecord serialization) =
      (entries.map (recordText serialization)).map .ok := by
  rw [List.map_map]
  exact List.map_congr_left fun entry he => serializeRecord_eq (h entry he)

section

variable (sha256 : Sha256) {serialization : Serialization} {before after : List SessionRecord}
  {entry : SessionRecord} {e : Failure} (h : ∀ entry ∈ before, Serializes serialization entry)
  (he : serializeRecord serialization entry = .error e)
include h he

/-- The hash of a list throws what its first record that does not serialize throws. -/
theorem hashRecords_error : hashRecords sha256 serialization (before ++ entry :: after) = .error e := by
  cases serialization with
  | pi => cases he
  | jcs =>
    have hm : (before ++ entry :: after).mapM
        (fun record => (serializeCanonicalRecord record).map frame) = .error e := by
      clear sha256
      induction before with
      | nil =>
        rw [serializeRecord] at he
        rw [List.nil_append, List.mapM_cons, he]
        rfl
      | cons first before ih =>
        rw [List.forall_mem_cons] at h
        have hfirst := serializeRecord_eq h.1
        rw [serializeRecord] at hfirst
        rw [List.cons_append, List.mapM_cons, hfirst, ih h.2]
        rfl
    rw [hashRecords, hashCanonicalRecords, hm]
    rfl

/-- So does the pass, which has handed out the records before. -/
theorem prefixLoop_error (requested : List Nat) (index : Nat) (hashed : List UInt8)
    (result : List (Nat × Str)) :
    prefixLoop sha256 serialization requested (before ++ entry :: after) index hashed result =
      ⟨((before.map (recordText serialization)).zipIdx index).map Prod.swap, .error e⟩ := by
  induction before generalizing index hashed result with
  | nil => simp [prefixLoop, he]
  | cons first before ih =>
    rw [List.forall_mem_cons] at h
    simp [prefixLoop, serializeRecord_eq h.1, ih h.2]

end

/-! ## One pass -/

/-- What a pass over boundaries up to `last` hands out and returns, or throws. -/
structure PrefixRun (sha256 : Sha256) (serialization : Serialization) (entries : List SessionRecord)
    (lengths : List Nat) (run : Logged (List (Nat × Str))) : Prop where
  /-- It hands out every record up to the largest boundary once, in order. -/
  handedOut : ∀ found, run.result = .ok found → ∃ texts : List Str,
    (entries.take (lengths.foldl max 0)).map (serializeRecord serialization) = texts.map .ok ∧
      run.serialized = texts.zipIdx.map Prod.swap
  /-- Each boundary has the hash of that prefix, and nothing else has one. -/
  hashes : ∀ found, run.result = .ok found →
    (∀ n ∈ lengths, ∃ hash, mapGet found n = some hash ∧
      hashRecords sha256 serialization (entries.take n) = .ok hash) ∧
    ∀ n, n ∉ lengths → mapGet found n = none
  /-- It throws where a record does not serialize, as the hash of that prefix does. -/
  thrown : ∀ e, run.result = .error e → ∃ (texts : List Str) (rest : List (Except Failure Str)),
    (entries.take (lengths.foldl max 0)).map (serializeRecord serialization) =
        texts.map .ok ++ .error e :: rest ∧
      run.serialized = texts.zipIdx.map Prod.swap ∧
      hashRecords sha256 serialization (entries.take (lengths.foldl max 0)) = .error e

theorem zipIdx_map_swap (entries : List SessionRecord) (f : SessionRecord → Str) :
    (entries.zipIdx.map fun e => (e.2, f e.1)) = (entries.map f).zipIdx.map Prod.swap := by
  rw [List.zipIdx_map, List.map_map]
  rfl

/-- The hashes of the prefixes are those of hashing each prefix by itself. -/
theorem hashEntryPrefixes_run (sha256 : Sha256) (serialization : Serialization)
    {entries : List SessionRecord} {lengths : List Nat} (hb : ∀ n ∈ lengths, n ≤ entries.length) :
    PrefixRun sha256 serialization entries lengths
      (hashEntryPrefixes sha256 serialization entries lengths) := by
  have hlast : lengths.foldl max 0 ≤ entries.length := foldl_max_le (Nat.zero_le _) hb
  have hle := (le_foldl_max lengths 0).2
  have hany : ∀ l : List SessionRecord, (∀ n ∈ lengths, n ≤ l.length) →
      (lengths.any fun length => l.length < length) = false := fun l hl => by simpa using hl
  have htaken : ∀ n ∈ lengths, n ≤ (entries.take (lengths.foldl max 0)).length := fun n hn => by
    rw [List.length_take, Nat.min_eq_left hlast]
    exact hle n hn
  -- Nothing behind the largest boundary is read.
  have hrun : hashEntryPrefixes sha256 serialization entries lengths =
      hashEntryPrefixes sha256 serialization (entries.take (lengths.foldl max 0)) lengths := by
    simp only [hashEntryPrefixes, hany _ hb, hany _ htaken, Bool.false_eq_true, ↓reduceIte,
      List.take_take, Nat.min_self]
  rcases serializes_or serialization (entries.take (lengths.foldl max 0)) with
    h | ⟨before, bad, after, e, heq, hbefore, hbad⟩
  · obtain ⟨hlog, found, hfound, hget⟩ := hashEntryPrefixes_eq sha256 h htaken
    rw [List.take_take, Nat.min_self] at hlog
    rw [hrun]
    refine ⟨fun found' hf => ?_, fun found' hf => ?_, fun e he => ?_⟩
    · exact ⟨_, map_serializeRecord h, by rw [hlog, zipIdx_map_swap]⟩
    · obtain rfl := Except.ok.inj (hfound.symm.trans hf)
      refine ⟨fun n hn => ⟨_, (hget n).trans (if_pos hn), ?_⟩, fun n hn => (hget n).trans (if_neg hn)⟩
      rw [List.take_take, Nat.min_eq_left (hle n hn)]
      apply hashRecords_eq
      intro entry hentry
      rw [← Nat.min_eq_left (hle n hn), ← List.take_take] at hentry
      exact h entry (List.mem_of_mem_take hentry)
    · rw [hfound] at he
      cases he
  · have hloop : hashEntryPrefixes sha256 serialization entries lengths =
        ⟨((before.map (recordText serialization)).zipIdx 0).map Prod.swap, .error e⟩ := by
      rw [hrun]
      simp only [hashEntryPrefixes, hany _ htaken, Bool.false_eq_true, ↓reduceIte, List.take_take,
        Nat.min_self]
      rw [heq, prefixLoop_error sha256 hbefore hbad]
    rw [hloop]
    refine ⟨fun _ hf => (by cases hf), fun _ hf => (by cases hf), fun e' he' => ?_⟩
    cases he'
    refine ⟨_, after.map (serializeRecord serialization), ?_, rfl, ?_⟩
    · rw [heq, List.map_append, map_serializeRecord hbefore, List.map_cons, hbad]
    · rw [heq, hashRecords_error sha256 hbefore hbad]

/-- What the pass over valid boundaries throws is no refusal of a boundary. -/
theorem PrefixRun.isTypeError {sha256 : Sha256} {serialization : Serialization}
    {entries : List SessionRecord} {lengths : List Nat} {run : Logged (List (Nat × Str))}
    (h : PrefixRun sha256 serialization entries lengths run) {e : Failure}
    (he : run.result = .error e) : IsTypeError e := by
  obtain ⟨texts, rest, hmap, -⟩ := h.thrown e he
  have hmem : (.error e : Except Failure Str) ∈
      (entries.take (lengths.foldl max 0)).map (serializeRecord serialization) := by
    rw [hmap]
    simp
  obtain ⟨entry, -, hentry⟩ := List.mem_map.mp hmem
  exact serializeRecord_error hentry

/-- The one pass refuses exactly a boundary that is no integer up to the number of records, and
otherwise agrees with the hashes of whole lists. Without collisions, equal hashes are of lists with
the same texts. -/
theorem prefixHashes_agree (sha256 : Sha256) :
    (∀ serialization entries prefixLengths, entries.length < 2 ^ 53 →
      let run := hashEntryPrefixesAt sha256 serialization entries prefixLengths
      (run.result = .error prefixFault ↔
        ∃ length ∈ prefixLengths, ¬ ∃ n ≤ entries.length, IsInteger length n) ∧
      ∀ lengths, List.Forall₂ (fun length n => IsInteger length n ∧ n ≤ entries.length)
        prefixLengths lengths → PrefixRun sha256 serialization entries lengths run) ∧
    (Function.Injective sha256 → ∀ xs ys, hashValues sha256 xs = hashValues sha256 ys →
      xs.length = ys.length ∧ xs.map stringify = ys.map stringify) := by
  refine ⟨fun serialization entries prefixLengths hcount => ?_, fun hsha xs ys h => ?_⟩
  · have hsome : ∀ length n, boundary? entries.length length = some n ↔
        IsInteger length n ∧ n ≤ entries.length := fun _ _ => boundary?_eq_some hcount
    have hrun : ∀ lengths, List.Forall₂ (fun length n => IsInteger length n ∧ n ≤ entries.length)
        prefixLengths lengths → PrefixRun sha256 serialization entries lengths
          (hashEntryPrefixesAt sha256 serialization entries prefixLengths) := by
      intro lengths h
      have hle : ∀ n ∈ lengths, n ≤ entries.length := fun n hn => by
        obtain ⟨length, -, hint⟩ := exists_left_of_mem h.flip hn
        exact hint.2
      rw [hashEntryPrefixesAt, mapM_eq_some.mpr (h.imp fun length n => (hsome length n).mpr)]
      exact hashEntryPrefixes_run sha256 serialization hle
    refine ⟨⟨fun herr => ?_, fun ⟨length, hlength, hno⟩ => ?_⟩, hrun⟩
    · cases hm : prefixLengths.mapM (boundary? entries.length) with
      | none =>
        obtain ⟨length, hlength, hb⟩ := mapM_eq_none.mp hm
        refine ⟨length, hlength, fun ⟨n, hn, hint⟩ => ?_⟩
        rw [(hsome length n).mpr ⟨hint, hn⟩] at hb
        cases hb
      | some lengths =>
        -- What a valid pass throws is a `TypeError`.
        have hints := (mapM_eq_some.mp hm).imp fun length n => (hsome length n).mp
        obtain ⟨_, h⟩ := (hrun lengths hints).isTypeError herr
        cases h
    · have hnone : boundary? entries.length length = none := by
        rw [Option.eq_none_iff_forall_ne_some]
        exact fun n hb => hno ⟨n, ((hsome length n).mp hb).2, ((hsome length n).mp hb).1⟩
      rw [hashEntryPrefixesAt, mapM_eq_none.mpr ⟨length, hlength, hnone⟩]
  · have hsame := hashValues_inj hsha h
    refine ⟨hsame.length_eq, ?_⟩
    rw [← List.forall₂_eq_eq_eq, List.forall₂_map_left_iff, List.forall₂_map_right_iff]
    exact hsame

/-- A label, as a record of the branch. -/
def labelEntry : SessionRecord where
  fields := [(lit "id", .str (lit "a")), (lit "parentId", .null), (lit "type", .str (lit "label")),
    (lit "timestamp", .str [])]
  typed := by decide +kernel

/-- A hash that keeps the bytes. -/
def byteUnits : Sha256 := List.map UInt8.toUInt16

theorem byteUnits_injective : Function.Injective byteUnits :=
  List.map_injective_iff.mpr fun a b h => by
    rw [← UInt8.toNat_inj, ← UInt8.toNat_toUInt16, h, UInt8.toNat_toUInt16]

theorem isInteger_ofNat {n : Nat} (h : n < 2 ^ 53) : IsInteger (.ofNat n) n :=
  ⟨false, representable_natCast h, Number.ofNat_eq h, .inl rfl⟩

/-- Boundaries out of order and repeated, and two lists whose texts are the same. -/
theorem prefixHashes_agree_sample :
    PrefixRun byteUnits .pi [labelEntry] [1, 0, 1]
        (hashEntryPrefixesAt byteUnits .pi [labelEntry] [.ofNat 1, .ofNat 0, .ofNat 1]) ∧
      [Json.num negativeZero].map stringify = [Json.num (.ofNat 0)].map stringify := by
  have hone : IsInteger (.ofNat 1) 1 ∧ 1 ≤ [labelEntry].length :=
    ⟨isInteger_ofNat (by norm_num), Nat.le_refl 1⟩
  have hzero : IsInteger (.ofNat 0) 0 ∧ 0 ≤ [labelEntry].length :=
    ⟨isInteger_ofNat (by norm_num), Nat.zero_le 1⟩
  refine ⟨((prefixHashes_agree byteUnits).1 .pi [labelEntry] _ (by simp)).2 [1, 0, 1] ?_,
    ((prefixHashes_agree byteUnits).2 byteUnits_injective _ _ (by decide +kernel)).2⟩
  exact .cons hone (.cons hzero (.cons hone .nil))

end Compaction
