import Mathlib.Data.List.Sort
import ContextCompaction.Js.Json

/-!
# `JSON.parse`

A recursive descent parser over code units. The fuel bounds the depth of the recursion; `parse`
gives twice the length of the text, and `parse_stringify` needs no more.

* `mkFields`: the properties of a parsed object. Of equal keys the last value wins at the first
  place, and array indices stand in front in ascending order.
* `parse_stringify`: what is read back, `Json.normal` of the value.
-/

namespace Js

/-! ## Objects -/

/-- The array index that a key spells. -/
def indexKey (k : Str) : Option Nat :=
  if k ≠ [] ∧ k.all isDigit ∧ (k = [0x30] ∨ k.head? ≠ some 0x30) ∧ natOfDigits k < 2 ^ 32 - 1 then
    some (natOfDigits k)
  else none

/-- The order of own properties: array indices first, in ascending order. -/
def ownOrder {β : Type} (fields : List (Str × β)) : List (Str × β) :=
  (fields.filter fun f => (indexKey f.1).isSome).insertionSort
      (fun f g => (indexKey f.1).getD 0 ≤ (indexKey g.1).getD 0) ++
    fields.filter fun f => (indexKey f.1).isNone

/-- The object that a list of members makes. -/
def mkFields {β : Type} (members : List (Str × β)) : List (Str × β) :=
  ownOrder (mapOf members)

/-- Distinct keys that are no array indices keep their order. -/
theorem mkFields_eq_self {β : Type} {members : List (Str × β)} (hd : (members.map Prod.fst).Nodup)
    (hi : ∀ k ∈ members.map Prod.fst, indexKey k = none) : mkFields members = members := by
  have hnone : ∀ f ∈ members, indexKey f.1 = none :=
    fun f hf => hi _ (List.mem_map_of_mem hf)
  unfold mkFields ownOrder
  rw [mapOf_eq_self hd, List.filter_eq_nil_iff.mpr (fun f hf => by simp [hnone f hf]),
    List.filter_eq_self.mpr (fun f hf => by simp [hnone f hf])]
  rfl

/-! ## The parser -/

/-- White space between tokens. -/
def isJsonSpace (u : UInt16) : Bool := u == 0x20 || u == 0x09 || u == 0x0A || u == 0x0D

def skipSpace (s : Str) : Str := s.dropWhile isJsonSpace

/-- The value of a hexadecimal digit, in either case. -/
def hexValue (u : UInt16) : Option Nat :=
  if 0x30 ≤ u ∧ u ≤ 0x39 then some (u.toNat - 0x30)
  else if 0x61 ≤ u ∧ u ≤ 0x66 then some (u.toNat - 87)
  else if 0x41 ≤ u ∧ u ≤ 0x46 then some (u.toNat - 55)
  else none

/-- The unit that a short escape stands for. -/
def shortEscape (u : UInt16) : Option UInt16 :=
  if u = 0x22 ∨ u = 0x5C ∨ u = 0x2F then some u
  else if u = 0x62 then some 0x08
  else if u = 0x66 then some 0x0C
  else if u = 0x6E then some 0x0A
  else if u = 0x72 then some 0x0D
  else if u = 0x74 then some 0x09
  else none

/-- The inside of a string up to its closing quote, and what follows the quote. -/
def parseUnits : Str → Option (Str × Str)
  | [] => none
  | u :: s =>
    if u = 0x22 then some ([], s)
    else if u = 0x5C then
      match s with
      | 0x75 :: a :: b :: c :: d :: s => do
        let a ← hexValue a
        let b ← hexValue b
        let c ← hexValue c
        let d ← hexValue d
        let (t, rest) ← parseUnits s
        some ((a * 4096 + b * 256 + c * 16 + d).toUInt16 :: t, rest)
      | e :: s => do
        let v ← shortEscape e
        let (t, rest) ← parseUnits s
        some (v :: t, rest)
      | [] => none
    else if u < 0x20 then none
    else do
      let (t, rest) ← parseUnits s
      some (u :: t, rest)

/-- What follows a fixed word. -/
def dropWord (word : Str) (s : Str) : Option Str :=
  if word.isPrefixOf s then some (s.drop word.length) else none

mutual

/-- A value at the start of the text, and what follows it. -/
def parseValue : Nat → Str → Option (Json × Str)
  | 0, _ => none
  | _ + 1, [] => none
  | n + 1, u :: s =>
    if u = 0x22 then (parseUnits s).map fun (t, rest) => (.str t, rest)
    else if u = 0x5B then
      if (skipSpace s).head? = some 0x5D then some (.arr [], (skipSpace s).tail)
      else (parseElements n (skipSpace s)).map fun (xs, rest) => (.arr xs, rest)
    else if u = 0x7B then
      if (skipSpace s).head? = some 0x7D then some (.obj [], (skipSpace s).tail)
      else (parseFields n (skipSpace s)).map fun (fields, rest) => (.obj (mkFields fields), rest)
    else if u = 0x74 then (dropWord (lit "true") (u :: s)).map fun rest => (.bool true, rest)
    else if u = 0x66 then (dropWord (lit "false") (u :: s)).map fun rest => (.bool false, rest)
    else if u = 0x6E then (dropWord (lit "null") (u :: s)).map fun rest => (.null, rest)
    else (scanNumber (u :: s)).map fun (n, rest) => (.num n, rest)

/-- The elements of an array from one element on, through the closing bracket. -/
def parseElements : Nat → Str → Option (List Json × Str)
  | 0, _ => none
  | n + 1, s =>
    (parseValue n s).bind fun (x, s) =>
      match skipSpace s with
      | [] => none
      | u :: s =>
        if u = 0x2C then (parseElements n (skipSpace s)).map fun (xs, rest) => (x :: xs, rest)
        else if u = 0x5D then some ([x], s)
        else none

/-- The members of an object from one key on, through the closing brace. -/
def parseFields : Nat → Str → Option (List (Str × Json) × Str)
  | 0, _ => none
  | n + 1, s =>
    (dropWord [0x22] s).bind fun s =>
    (parseUnits s).bind fun (k, s) =>
    (dropWord [0x3A] (skipSpace s)).bind fun s =>
    (parseValue n (skipSpace s)).bind fun (v, s) =>
      match skipSpace s with
      | [] => none
      | u :: s =>
        if u = 0x2C then
          (parseFields n (skipSpace s)).map fun (fields, rest) => ((k, v) :: fields, rest)
        else if u = 0x7D then some ([(k, v)], s)
        else none

end

/-- `JSON.parse`; `none` is a thrown `SyntaxError`. -/
def parse (s : Str) : Option Json :=
  (parseValue (2 * s.length) (skipSpace s)).bind fun (v, rest) =>
    if skipSpace rest = [] then some v else none

/-! ## What survives a round trip -/

mutual

/-- A value after `JSON.parse(JSON.stringify(v))`. -/
def Json.normal : Json → Json
  | .num (.finite negative abs h) => .num (.finite (negative && decide (abs ≠ 0)) abs h)
  | .num _ => .null
  | .arr xs => .arr (normalElements xs)
  | .obj fields => .obj (mkFields (normalFields fields))
  | .null => .null
  | .bool b => .bool b
  | .str s => .str s

def Json.normalElements : List Json → List Json
  | [] => []
  | x :: xs => x.normal :: normalElements xs

def Json.normalFields : List (Str × Json) → List (Str × Json)
  | [] => []
  | (k, v) :: fields => (k, v.normal) :: normalFields fields

end

theorem Json.normalFields_eq_map (fields : List (Str × Json)) :
    Json.normalFields fields = fields.map fun f => (f.1, f.2.normal) := by
  induction fields with
  | nil => rfl
  | cons f fields ih => simp [Json.normalFields, ih]

/-- An object of such values, whose keys are distinct and no array indices, is left as it is. -/
theorem Json.normal_obj {fields : List (Str × Json)} (hd : (fields.map Prod.fst).Nodup)
    (hi : ∀ k ∈ fields.map Prod.fst, indexKey k = none) (hv : ∀ f ∈ fields, f.2.normal = f.2) :
    (Json.obj fields).normal = .obj fields := by
  have hmap : fields.map (fun f => (f.1, f.2.normal)) = fields := by
    calc fields.map (fun f => (f.1, f.2.normal))
        = fields.map id := List.map_congr_left fun f hf => Prod.ext rfl (hv f hf)
      _ = fields := List.map_id fields
  rw [Json.normal, Json.normalFields_eq_map, hmap, mkFields_eq_self hd hi]

@[simp] theorem Json.normal_str (s : Str) : (Json.str s).normal = .str s := by
  rw [Json.normal]

theorem Json.normal_ofNat {n : Nat} (h : n < 2 ^ 53) :
    (Json.num (.ofNat n)).normal = .num (.ofNat n) := by
  rw [Number.ofNat_eq h]
  simp [Json.normal]

/-! ### Strings -/

private theorem hexValue_hexDigit {n : Nat} (h : n < 16) : hexValue (hexDigit n) = some n := by
  revert n
  decide

theorem parseUnits_close (s : Str) : parseUnits (0x22 :: s) = some ([], s) := by
  rw [parseUnits.eq_def]
  simp

private theorem parseUnits_unicodeEscape (u : UInt16) (s : Str) :
    parseUnits (unicodeEscape u ++ s) = (parseUnits s).map fun r => (u :: r.1, r.2) := by
  have hu := u.toNat_lt
  have h1 := hexValue_hexDigit (n := u.toNat / 4096) (by omega)
  have h2 := hexValue_hexDigit (n := u.toNat / 256 % 16) (by omega)
  have h3 := hexValue_hexDigit (n := u.toNat / 16 % 16) (by omega)
  have h4 := hexValue_hexDigit (n := u.toNat % 16) (by omega)
  have hsum : u.toNat / 4096 * 4096 + u.toNat / 256 % 16 * 256 + u.toNat / 16 % 16 * 16 +
      u.toNat % 16 = u.toNat := by omega
  simp only [unicodeEscape, List.cons_append, List.nil_append, parseUnits, h1, h2, h3, h4, hsum,
    Option.bind_eq_bind, Option.bind_some]
  cases parseUnits s <;> simp

theorem parseUnits_plain {u : UInt16} (h1 : u ≠ 0x22) (h2 : u ≠ 0x5C) (h3 : ¬ u < 0x20)
    (s : Str) : parseUnits (u :: s) = (parseUnits s).map fun r => (u :: r.1, r.2) := by
  rw [parseUnits.eq_def]
  simp only [h1, h2, h3, ↓reduceIte, Option.bind_eq_bind]
  cases parseUnits s <;> rfl

private theorem parseUnits_short {e v : UInt16} (h : shortEscape e = some v) (he : e ≠ 0x75)
    (s : Str) : parseUnits (0x5C :: e :: s) = (parseUnits s).map fun r => (v :: r.1, r.2) := by
  rw [parseUnits.eq_def]
  simp only [show (0x5C : UInt16) ≠ 0x22 by decide, ↓reduceIte]
  split
  · rename_i heq
    exact absurd (List.cons.inj heq).1 he
  · rename_i heq
    obtain ⟨rfl, rfl⟩ := List.cons.inj heq
    simp only [h, Option.bind_eq_bind, Option.bind_some]
    cases parseUnits s <;> rfl
  · simp_all

theorem parseUnits_quoteUnit (u : UInt16) (s : Str) :
    parseUnits (quoteUnit u ++ s) = (parseUnits s).map fun r => (u :: r.1, r.2) := by
  unfold quoteUnit
  split_ifs with h1 h2 h3 h4 h5 h6 h7 h8
  iterate 7
    subst_vars
    exact parseUnits_short (by decide) (by decide) s
  · exact parseUnits_unicodeEscape u s
  · simp only [Bool.or_eq_true, not_or, decide_eq_true_eq] at h8
    exact parseUnits_plain h1 h2 h8.1.1 s

/-- A quoted string is read back up to its closing quote. -/
theorem parseUnits_quoteUnits (t s : Str) :
    parseUnits (quoteUnits t ++ 0x22 :: s) = some (t, s) := by
  induction t using quoteUnits.induct with
  | case1 => exact parseUnits_close s
  | case2 u => simp [quoteUnits, parseUnits_quoteUnit, parseUnits_close]
  | case3 u v t h ih =>
    have hu : u ≠ 0x22 ∧ u ≠ 0x5C ∧ ¬ u < 0x20 ∧ v ≠ 0x22 ∧ v ≠ 0x5C ∧ ¬ v < 0x20 := by
      simp only [isHigh, isLow, Bool.and_eq_true, decide_eq_true_eq, UInt16.le_iff_toNat_le,
        UInt16.lt_iff_toNat_lt, ne_eq, ← UInt16.toNat_inj, UInt16.reduceToNat] at h ⊢
      omega
    obtain ⟨h1, h2, h3, h4, h5, h6⟩ := hu
    simp only [quoteUnits, h, ↓reduceIte, List.cons_append, parseUnits_plain h1 h2 h3,
      parseUnits_plain h4 h5 h6, ih, Option.map_some]
  | case4 u v t h ih =>
    simp only [quoteUnits, h, Bool.false_eq_true, ↓reduceIte, List.append_assoc,
      parseUnits_quoteUnit, ih, Option.map_some]

/-! ### Values -/

/-- What may stand behind a value: nothing that would continue a number. -/
theorem numberEnds_cons {u : UInt16} {s : Str}
    (h : isDigit u = false ∧ u ≠ 0x2E ∧ u ≠ 0x65 ∧ u ≠ 0x45) : NumberEnds (u :: s) := by
  rintro v hv
  obtain rfl : u = v := by simpa using hv
  exact h

/-- The first unit of a value. -/
theorem stringify_head (v : Json) :
    ∃ u s, stringify v = u :: s ∧ isJsonSpace u = false ∧ u ≠ 0x5D := by
  cases v with
  | null => exact ⟨_, _, rfl, by decide, by decide⟩
  | bool b => cases b <;> exact ⟨_, _, rfl, by decide, by decide⟩
  | num n =>
    cases n with
    | nan => exact ⟨_, _, rfl, by decide, by decide⟩
    | infinite => exact ⟨_, _, rfl, by decide, by decide⟩
    | finite negative abs h =>
      obtain ⟨t, ht, he⟩ := finiteText_eq_text negative h
      obtain ⟨u, s, hu, hd⟩ := ht.head_text
      refine ⟨u, s, by rw [stringify, Number.json, he, hu], ?_⟩
      rcases hd with hd | rfl
      · simp only [isDigit, Bool.and_eq_true, decide_eq_true_eq, isJsonSpace, Bool.or_eq_false_iff,
          beq_eq_false_iff_ne, ne_eq, UInt16.le_iff_toNat_le, ← UInt16.toNat_inj,
          UInt16.reduceToNat] at hd ⊢
        omega
      · exact ⟨by decide, by decide⟩
  | str s => exact ⟨_, _, rfl, by decide, by decide⟩
  | arr xs => exact ⟨_, _, rfl, by decide, by decide⟩
  | obj fields => exact ⟨_, _, rfl, by decide, by decide⟩

theorem skipSpace_stringify (v : Json) (s : Str) :
    skipSpace (stringify v ++ s) = stringify v ++ s := by
  obtain ⟨u, r, hv, hu, -⟩ := stringify_head v
  simp [hv, skipSpace, hu]

/-- Reading a value back, by any parser with enough fuel. -/
def Reads (v : Json) : Prop :=
  ∀ n s, 2 * (stringify v).length ≤ n + 1 → NumberEnds s →
    parseValue n (stringify v ++ s) = some (v.normal, s)

theorem skipSpace_cons {u : UInt16} (hu : isJsonSpace u = false) (s : Str) :
    skipSpace (u :: s) = u :: s := by
  simp [skipSpace, hu]

private theorem stringify_length_pos (v : Json) : 0 < (stringify v).length := by
  obtain ⟨u, s, hv, -⟩ := stringify_head v
  simp [hv]

/-- Written elements are read back up to the closing bracket. -/
private theorem parseElements_stringify {x : Json} {xs : List Json}
    (h : ∀ y ∈ x :: xs, Reads y) (n : Nat) (s : Str)
    (hn : 2 * (stringifyElements (x :: xs)).length ≤ n) :
    parseElements n (stringifyElements (x :: xs) ++ 0x5D :: s) =
      some (Json.normalElements (x :: xs), s) := by
  have hx := stringify_length_pos x
  induction xs generalizing x n with
  | nil =>
    simp only [stringifyElements, stringifyElementsRest, List.append_nil] at hn ⊢
    obtain ⟨m, rfl⟩ : ∃ m, n = m + 1 := ⟨n - 1, by omega⟩
    have hr := h x List.mem_cons_self m (0x5D :: s) (by omega) (numberEnds_cons (by decide))
    simp [parseElements, hr, skipSpace_cons (show isJsonSpace 0x5D = false by decide),
      Json.normalElements]
  | cons y ys ih =>
    simp only [stringifyElements, stringifyElementsRest, List.append_assoc, List.cons_append,
      List.length_append, List.length_cons] at hn ⊢
    obtain ⟨m, rfl⟩ : ∃ m, n = m + 1 := ⟨n - 1, by omega⟩
    have hr := h x List.mem_cons_self m
      (0x2C :: (stringify y ++ (stringifyElementsRest ys ++ 0x5D :: s))) (by omega)
      (numberEnds_cons (by decide))
    have ih := ih (x := y) (fun z hz => h z (List.mem_cons_of_mem x hz)) m
      (by simp only [stringifyElements, List.length_append]; omega) (stringify_length_pos y)
    simp only [stringifyElements, List.append_assoc] at ih
    simp only [parseElements, hr, Option.bind_some,
      skipSpace_cons (show isJsonSpace 0x2C = false by decide), ↓reduceIte, skipSpace_stringify, ih,
      Option.map_some, Json.normalElements]

/-- Written fields are read back up to the closing brace. -/
private theorem parseFields_stringify {f : Str × Json} {fields : List (Str × Json)}
    (h : ∀ g ∈ f :: fields, Reads g.2) (n : Nat) (s : Str)
    (hn : 2 * (stringifyFields (f :: fields)).length ≤ n) :
    parseFields n (stringifyFields (f :: fields) ++ 0x7D :: s) =
      some (Json.normalFields (f :: fields), s) := by
  induction fields generalizing f n with
  | nil =>
    obtain ⟨k, v⟩ := f
    have hv := stringify_length_pos v
    simp only [stringifyFields, stringifyFieldsRest, List.append_nil, List.length_append,
      List.length_cons, quote, List.cons_append, List.append_assoc, List.nil_append] at hn ⊢
    obtain ⟨m, rfl⟩ : ∃ m, n = m + 1 := ⟨n - 1, by omega⟩
    have hr := h (k, v) List.mem_cons_self m (0x7D :: s) (by simp only; omega)
      (numberEnds_cons (by decide))
    simp only at hr
    simp [parseFields, dropWord, parseUnits_quoteUnits, hr, skipSpace_stringify,
      skipSpace_cons (show isJsonSpace 0x3A = false by decide),
      skipSpace_cons (show isJsonSpace 0x7D = false by decide), Json.normalFields]
  | cons g fields ih =>
    obtain ⟨k, v⟩ := f
    obtain ⟨k', v'⟩ := g
    simp only [stringifyFields, stringifyFieldsRest, List.length_append, List.length_cons, quote,
      List.cons_append, List.append_assoc, List.nil_append] at hn ⊢
    obtain ⟨m, rfl⟩ : ∃ m, n = m + 1 := ⟨n - 1, by omega⟩
    have hr := h (k, v) List.mem_cons_self m
      (0x2C :: 0x22 :: (quoteUnits k' ++ 0x22 :: 0x3A ::
        (stringify v' ++ (stringifyFieldsRest fields ++ 0x7D :: s)))) (by simp only; omega)
      (numberEnds_cons (by decide))
    have ih := ih (f := (k', v')) (fun z hz => h z (List.mem_cons_of_mem _ hz)) m
      (by simp only [stringifyFields, quote, List.length_append, List.length_cons,
        List.length_nil]; omega)
    simp only [stringifyFields, quote, List.cons_append, List.append_assoc, List.nil_append] at ih
    simp only at hr
    simp [parseFields, dropWord, parseUnits_quoteUnits, hr, skipSpace_stringify,
      skipSpace_cons (show isJsonSpace 0x3A = false by decide),
      skipSpace_cons (show isJsonSpace 0x2C = false by decide),
      skipSpace_cons (show isJsonSpace 0x22 = false by decide), Json.normalFields, ih]

private theorem dropWord_append (w s : Str) : dropWord w (w ++ s) = some s := by
  simp [dropWord]

private theorem reads_of_succ {v : Json}
    (h : ∀ m s, 2 * (stringify v).length ≤ m + 2 → NumberEnds s →
      parseValue (m + 1) (stringify v ++ s) = some (v.normal, s)) : Reads v := by
  intro n s hn hs
  have hpos := stringify_length_pos v
  obtain ⟨m, rfl⟩ : ∃ m, n = m + 1 := ⟨n - 1, by omega⟩
  exact h m s hn hs

private theorem parseValue_null (m : Nat) (s : Str) :
    parseValue (m + 1) (lit "null" ++ s) = some (.null, s) := by
  have hd := dropWord_append (lit "null") s
  rw [show lit "null" ++ s = 0x6E :: 0x75 :: 0x6C :: 0x6C :: s from rfl] at hd ⊢
  simp [parseValue, hd]

private theorem parseValue_bool (b : Bool) (m : Nat) (s : Str) :
    parseValue (m + 1) ((if b then lit "true" else lit "false") ++ s) = some (.bool b, s) := by
  cases b with
  | true =>
    have hd := dropWord_append (lit "true") s
    rw [if_pos rfl]
    rw [show lit "true" ++ s = 0x74 :: 0x72 :: 0x75 :: 0x65 :: s from rfl] at hd ⊢
    simp [parseValue, hd]
  | false =>
    have hd := dropWord_append (lit "false") s
    rw [if_neg Bool.false_ne_true]
    rw [show lit "false" ++ s = 0x66 :: 0x61 :: 0x6C :: 0x73 :: 0x65 :: s from rfl] at hd ⊢
    simp [parseValue, hd]

private theorem parseValue_number {n : Number} {m : Nat} {s : Str} {t : NumberToken} (ht : t.Ok)
    (hn : scanNumber (t.text ++ s) = some (n, s)) :
    parseValue (m + 1) (t.text ++ s) = some (.num n, s) := by
  obtain ⟨u, r, hu, hd⟩ := ht.head_text
  have hne : u ≠ 0x22 ∧ u ≠ 0x5B ∧ u ≠ 0x7B ∧ u ≠ 0x74 ∧ u ≠ 0x66 ∧ u ≠ 0x6E := by
    rcases hd with hd | rfl
    · simp only [isDigit, Bool.and_eq_true, decide_eq_true_eq, UInt16.le_iff_toNat_le, ne_eq,
        ← UInt16.toNat_inj, UInt16.reduceToNat] at hd ⊢
      omega
    · decide
  obtain ⟨h1, h2, h3, h4, h5, h6⟩ := hne
  rw [hu, List.cons_append] at hn ⊢
  simp only [parseValue, h1, h2, h3, h4, h5, h6, ↓reduceIte, hn, Option.map_some]

/-- Every written value is read back in its normal form. -/
theorem reads (v : Json) : Reads v := by
  refine reads_of_succ fun m s hm hs => ?_
  induction v generalizing m s with
  | null => exact parseValue_null m s
  | bool b => exact parseValue_bool b m s
  | num x =>
    cases x with
    | nan => exact parseValue_null m s
    | infinite => exact parseValue_null m s
    | finite negative abs h =>
      have hscan := scanNumber_finiteText negative h hs
      obtain ⟨t, ht, he⟩ := finiteText_eq_text negative h
      simp only [stringify, Number.json, Json.normal]
      rw [he] at hscan ⊢
      exact parseValue_number ht hscan
  | str t =>
    simp only [stringify, quote, List.cons_append, List.append_assoc, List.nil_append, parseValue,
      ↓reduceIte, parseUnits_quoteUnits, Option.map_some, Json.normal]
  | arr xs ih =>
    cases xs with
    | nil => rfl
    | cons x xs =>
      have hreads : ∀ y ∈ x :: xs, Reads y := fun y hy => reads_of_succ (ih y hy)
      simp only [stringify, List.cons_append, List.length_cons, List.length_append, List.append_assoc,
        List.nil_append, List.length_nil] at hm ⊢
      have hp := parseElements_stringify hreads m s (by omega)
      obtain ⟨u, r, hu, hsp, hne⟩ := stringify_head x
      have hhead : stringifyElements (x :: xs) = u :: (r ++ stringifyElementsRest xs) := by
        simp [stringifyElements, hu]
      have hskip : skipSpace (stringifyElements (x :: xs) ++ 0x5D :: s) =
          stringifyElements (x :: xs) ++ 0x5D :: s := by
        rw [hhead, List.cons_append, skipSpace_cons hsp]
      have hopen : ((stringifyElements (x :: xs) ++ 0x5D :: s).head? = some 0x5D) = False := by
        simp [hhead, hne]
      have hne : (0x5B : UInt16) ≠ 0x22 := by decide
      simp only [parseValue, hne, hskip, hopen, hp, Json.normal, ↓reduceIte, Option.map_some]
  | obj fields ih =>
    cases fields with
    | nil => rfl
    | cons f fields =>
      have hreads : ∀ g ∈ f :: fields, Reads g.2 := fun g hg => reads_of_succ (ih g hg)
      simp only [stringify, List.cons_append, List.length_cons, List.length_append, List.append_assoc,
        List.nil_append, List.length_nil] at hm ⊢
      have hp := parseFields_stringify hreads m s (by omega)
      have hskip : skipSpace (stringifyFields (f :: fields) ++ 0x7D :: s) =
          stringifyFields (f :: fields) ++ 0x7D :: s := by
        simp [stringifyFields, quote, skipSpace_cons (show isJsonSpace 0x22 = false by decide)]
      have hopen : ((stringifyFields (f :: fields) ++ 0x7D :: s).head? = some 0x7D) = False := by
        simp [stringifyFields, quote]
      have hne : (0x7B : UInt16) ≠ 0x22 ∧ (0x7B : UInt16) ≠ 0x5B := by decide
      simp only [parseValue, hne.1, hne.2, hskip, hopen, hp, Json.normal, ↓reduceIte,
        Option.map_some]

theorem parse_stringify (v : Json) : parse (stringify v) = some v.normal := by
  have hpos := stringify_length_pos v
  have h := reads v (2 * (stringify v).length) [] (by omega) (by simp [NumberEnds])
  have hskip := skipSpace_stringify v []
  simp only [List.append_nil] at h hskip
  unfold parse
  rw [hskip, h]
  rfl

end Js
