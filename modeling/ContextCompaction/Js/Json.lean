import ContextCompaction.Js.Map
import ContextCompaction.Js.Number
import ContextCompaction.Js.Utf8

/-!
# JSON values and `JSON.stringify`

An object is the list of its own properties in their order. `stringify` is the well-formed
`JSON.stringify` of a JSON value: a surrogate that stands alone is escaped, a number that is not
finite is written as `null`, and the sign of zero is lost.

* `printable_stringify`: the text has no control character and no surrogate that stands alone, so
  it is one line for a reader that splits at line feeds, and UTF-8 loses nothing.
-/

namespace Js

inductive Json where
  | null
  | bool (b : Bool)
  | num (n : Number)
  | str (s : Str)
  | arr (xs : List Json)
  | obj (fields : List (Str × Json))

namespace Json

/-- The property of a value, if it is an object that has it. -/
def get? (v : Json) (key : Str) : Option Json :=
  match v with
  | .obj fields => mapGet fields key
  | _ => none

@[simp] theorem get?_obj (fields : List (Str × Json)) (key : Str) :
    (Json.obj fields).get? key = mapGet fields key := rfl

/-- `typeof v === "string"`. -/
def str? : Json → Option Str
  | .str s => some s
  | _ => none

/-- `typeof v === "number"`. -/
def num? : Json → Option Number
  | .num n => some n
  | _ => none

/-- `Array.isArray(v)`. -/
def arr? : Json → Option (List Json)
  | .arr xs => some xs
  | _ => none

/-- `isRecord(v)`: an object that is no array. -/
def obj? : Json → Option (List (Str × Json))
  | .obj fields => some fields
  | _ => none

@[simp] theorem str?_eq_some {v : Json} {s : Str} : v.str? = some s ↔ v = .str s := by
  cases v <;> simp [str?]

@[simp] theorem num?_eq_some {v : Json} {n : Number} : v.num? = some n ↔ v = .num n := by
  cases v <;> simp [num?]

@[simp] theorem arr?_eq_some {v : Json} {xs : List Json} : v.arr? = some xs ↔ v = .arr xs := by
  cases v <;> simp [arr?]

@[simp] theorem obj?_eq_some {v : Json} {fields : List (Str × Json)} :
    v.obj? = some fields ↔ v = .obj fields := by
  cases v <;> simp [obj?]

@[simp] theorem str?_str (s : Str) : (Json.str s).str? = some s := rfl

@[simp] theorem num?_num (n : Number) : (Json.num n).num? = some n := rfl

@[simp] theorem arr?_arr (xs : List Json) : (Json.arr xs).arr? = some xs := rfl

@[simp] theorem obj?_obj (fields : List (Str × Json)) : (Json.obj fields).obj? = some fields := rfl

end Json

/-! ## Strings -/

/-- A hexadecimal digit, in lower case. -/
def hexDigit (n : Nat) : UInt16 := if n < 10 then (48 + n).toUInt16 else (87 + n).toUInt16

/-- The escape `\uXXXX` of a unit. -/
def unicodeEscape (u : UInt16) : Str :=
  [0x5C, 0x75, hexDigit (u.toNat / 4096), hexDigit (u.toNat / 256 % 16),
    hexDigit (u.toNat / 16 % 16), hexDigit (u.toNat % 16)]

/-- A unit that does not start a surrogate pair, as it stands in a JSON string. -/
def quoteUnit (u : UInt16) : Str :=
  if u = 0x22 then [0x5C, 0x22]
  else if u = 0x5C then [0x5C, 0x5C]
  else if u = 0x08 then [0x5C, 0x62]
  else if u = 0x0C then [0x5C, 0x66]
  else if u = 0x0A then [0x5C, 0x6E]
  else if u = 0x0D then [0x5C, 0x72]
  else if u = 0x09 then [0x5C, 0x74]
  else if u < 0x20 || isHigh u || isLow u then unicodeEscape u
  else [u]

/-- The inside of a JSON string. -/
def quoteUnits : Str → Str
  | [] => []
  | [u] => quoteUnit u
  | u :: v :: s =>
    if isHigh u && isLow v then u :: v :: quoteUnits s else quoteUnit u ++ quoteUnits (v :: s)

/-- `JSON.stringify` of a string. -/
def quote (s : Str) : Str := 0x22 :: (quoteUnits s ++ [0x22])

/-- `Number::toString` of a finite number, `null` of another. -/
def Number.json : Number → Str
  | .finite negative abs _ => finiteText negative abs
  | _ => lit "null"

/-- `Number::toString`. -/
def Number.text : Number → Str
  | .nan => lit "NaN"
  | .infinite negative => if negative then lit "-Infinity" else lit "Infinity"
  | .finite negative abs _ => finiteText negative abs

/-! ## Values -/

mutual

/-- `String(v)`. -/
def Json.text : Json → Str
  | .null => lit "null"
  | .bool b => if b then lit "true" else lit "false"
  | .num n => n.text
  | .str s => s
  | .arr xs => join "," (Json.elementTexts xs)
  | .obj _ => lit "[object Object]"

/-- The elements as `join` writes them: `null` is empty. -/
def Json.elementTexts : List Json → List Str
  | [] => []
  | x :: xs => (match x with
      | .null => []
      | x => x.text) :: Json.elementTexts xs

end

mutual

/-- `JSON.stringify` of a JSON value. -/
def stringify : Json → Str
  | .null => lit "null"
  | .bool b => if b then lit "true" else lit "false"
  | .num n => n.json
  | .str s => quote s
  | .arr xs => 0x5B :: (stringifyElements xs ++ [0x5D])
  | .obj fields => 0x7B :: (stringifyFields fields ++ [0x7D])

/-- The elements of an array, with commas between them. -/
def stringifyElements : List Json → Str
  | [] => []
  | x :: xs => stringify x ++ stringifyElementsRest xs

/-- The elements after the first. -/
def stringifyElementsRest : List Json → Str
  | [] => []
  | x :: xs => 0x2C :: (stringify x ++ stringifyElementsRest xs)

/-- The properties of an object, with commas between them. -/
def stringifyFields : List (Str × Json) → Str
  | [] => []
  | (k, v) :: fields => quote k ++ 0x3A :: (stringify v ++ stringifyFieldsRest fields)

/-- The properties after the first. -/
def stringifyFieldsRest : List (Str × Json) → Str
  | [] => []
  | (k, v) :: fields => 0x2C :: (quote k ++ 0x3A :: (stringify v ++ stringifyFieldsRest fields))

end

/-! ## What the text contains -/

/-- Induction over a value, its elements and its properties. -/
@[elab_as_elim, induction_eliminator]
theorem Json.induct {P : Json → Prop} (null : P .null) (bool : ∀ b, P (.bool b))
    (num : ∀ n, P (.num n)) (str : ∀ s, P (.str s)) (arr : ∀ xs, (∀ x ∈ xs, P x) → P (.arr xs))
    (obj : ∀ fields : List (Str × Json), (∀ f ∈ fields, P f.2) → P (.obj fields)) (v : Json) :
    P v :=
  @Json.rec P (fun xs => ∀ x ∈ xs, P x) (fun fs => ∀ f ∈ fs, P f.2) (fun f => P f.2)
    null bool num str arr obj (by simp)
    (fun x xs hx hxs => by simpa using ⟨hx, hxs⟩) (by simp)
    (fun f fs hf hfs => by simpa using ⟨hf, fun a b h => hfs (a, b) h⟩) (fun _ _ h => h) v

/-- Text of units from `0x20` to `0x7F`. -/
def Ascii (s : Str) : Prop := ∀ u ∈ s, 0x20 ≤ u ∧ u < 0x80

instance (s : Str) : Decidable (Ascii s) := List.decidableBAll _ s

/-- Text in which no surrogate stands alone and no control character occurs. -/
def Printable (s : Str) : Prop := wellFormed s = true ∧ ∀ u ∈ s, 0x20 ≤ u

namespace Printable

theorem nil : Printable [] := ⟨rfl, by simp⟩

theorem append {s t : Str} (hs : Printable s) (ht : Printable t) : Printable (s ++ t) := by
  refine ⟨(wellFormed_append hs.1 t).trans ht.1, fun u hu => ?_⟩
  exact (List.mem_append.mp hu).elim (hs.2 u) (ht.2 u)

theorem of_ascii {s : Str} (h : Ascii s) : Printable s := by
  refine ⟨wellFormed_of_forall fun u hu => ?_, fun u hu => (h u hu).1⟩
  have := (h u hu).2
  simp only [isHigh, isLow, Bool.and_eq_false_iff, decide_eq_false_iff_not,
    UInt16.le_iff_toNat_le, UInt16.lt_iff_toNat_lt, UInt16.reduceToNat] at *
  omega

theorem cons {u : UInt16} {s : Str} (hu : 0x20 ≤ u ∧ u < 0x80) (hs : Printable s) :
    Printable (u :: s) :=
  append (s := [u]) (of_ascii (by simpa [Ascii] using hu)) hs

end Printable

private theorem hexDigit_ascii {n : Nat} (h : n < 16) : 0x20 ≤ hexDigit n ∧ hexDigit n < 0x80 := by
  revert n
  decide

private theorem unicodeEscape_ascii (u : UInt16) : Ascii (unicodeEscape u) := by
  have hlt := u.toNat_lt
  intro v hv
  simp only [unicodeEscape, List.mem_cons, List.not_mem_nil, or_false] at hv
  rcases hv with rfl | rfl | rfl | rfl | rfl | rfl
  · decide
  · decide
  all_goals exact hexDigit_ascii (by omega)

theorem printable_quoteUnit (u : UInt16) : Printable (quoteUnit u) := by
  unfold quoteUnit
  split_ifs with h1 h2 h3 h4 h5 h6 h7 h8
  iterate 7 exact .of_ascii (by decide)
  · exact .of_ascii (unicodeEscape_ascii u)
  · simp only [Bool.or_eq_true, not_or, Bool.not_eq_true, decide_eq_false_iff_not] at h8
    obtain ⟨⟨h8, h9⟩, h10⟩ := h8
    exact ⟨by simp [wellFormed, h9, h10], by simpa using h8⟩

theorem printable_quoteUnits (s : Str) : Printable (quoteUnits s) := by
  induction s using quoteUnits.induct with
  | case1 => exact .nil
  | case2 u => exact printable_quoteUnit u
  | case3 u v s h ih =>
    have hpair : Printable [u, v] := by
      refine ⟨by simp [wellFormed, h], ?_⟩
      simp only [isHigh, isLow, Bool.and_eq_true, decide_eq_true_eq, List.mem_cons,
        List.not_mem_nil, or_false, UInt16.le_iff_toNat_le, UInt16.reduceToNat,
        forall_eq_or_imp, forall_eq] at h ⊢
      omega
    simpa [quoteUnits, h] using hpair.append ih
  | case4 u v s h ih =>
    simpa [quoteUnits, h] using (printable_quoteUnit u).append ih

theorem printable_quote (s : Str) : Printable (quote s) :=
  .cons (by decide) ((printable_quoteUnits s).append (.of_ascii (by decide)))

private theorem mem_quoteUnit {u v : UInt16} (hu : 0x80 ≤ u) (hh : isHigh u = false)
    (hl : isLow u = false) : u ∈ quoteUnit v ↔ u = v := by
  have hascii : ∀ s : Str, Ascii s → u ∉ s := fun s hs hm =>
    absurd hu (UInt16.not_le.mpr (hs u hm).2)
  have hsmall : ∀ c : UInt16, c < 0x80 → u ≠ c := fun c hc h =>
    absurd hu (UInt16.not_le.mpr (h ▸ hc))
  unfold quoteUnit
  split_ifs with h1 h2 h3 h4 h5 h6 h7 h8
  iterate 7
    subst v
    exact iff_of_false (hascii _ (by decide)) (hsmall _ (by decide))
  · refine iff_of_false (hascii _ (unicodeEscape_ascii v)) ?_
    rintro rfl
    simp only [hh, hl, Bool.or_false, decide_eq_true_eq] at h8
    exact hsmall u (UInt16.lt_trans h8 (by decide)) rfl
  · exact List.mem_singleton

/-- A unit that JSON leaves as it is stands in the text exactly when it stands in the string. -/
theorem mem_quote {u : UInt16} {s : Str} (hu : 0x80 ≤ u) (hh : isHigh u = false)
    (hl : isLow u = false) : u ∈ quote s ↔ u ∈ s := by
  have hne : u ≠ 0x22 := by
    rintro rfl
    exact absurd hu (by decide)
  have hunits : u ∈ quoteUnits s ↔ u ∈ s := by
    induction s using quoteUnits.induct with
    | case1 => rfl
    | case2 v => simpa [quoteUnits] using mem_quoteUnit hu hh hl
    | case3 v w s h ih => simp [quoteUnits, h, ih]
    | case4 v w s h ih =>
      simp only [quoteUnits, h, Bool.false_eq_true, ↓reduceIte, List.mem_append, mem_quoteUnit hu hh hl, ih,
        List.mem_cons]
  simp [quote, hne, hunits]

theorem printable_json (n : Number) : Printable n.json := by
  cases n with
  | nan => exact .of_ascii (by decide)
  | infinite => exact .of_ascii (show Ascii (lit "null") by decide)
  | finite negative abs h =>
    obtain ⟨t, ht, he⟩ := finiteText_eq_text negative h
    refine .of_ascii fun u hu => ?_
    rw [Number.json, he] at hu
    have := ht.mem_text hu
    simp only [isNumberUnit, isDigit, Bool.or_eq_true, Bool.and_eq_true, decide_eq_true_eq,
      beq_iff_eq, UInt16.le_iff_toNat_le, UInt16.lt_iff_toNat_lt, UInt16.reduceToNat,
      ← UInt16.toNat_inj] at this ⊢
    omega

private theorem printable_elements {xs : List Json} (h : ∀ x ∈ xs, Printable (stringify x)) :
    Printable (stringifyElements xs) ∧ Printable (stringifyElementsRest xs) := by
  induction xs with
  | nil => exact ⟨.nil, .nil⟩
  | cons x xs ih =>
    have hx := h x List.mem_cons_self
    have hr := (ih fun y hy => h y (List.mem_cons_of_mem x hy)).2
    exact ⟨hx.append hr, .cons (by decide) (hx.append hr)⟩

private theorem printable_fields {fields : List (Str × Json)}
    (h : ∀ f ∈ fields, Printable (stringify f.2)) :
    Printable (stringifyFields fields) ∧ Printable (stringifyFieldsRest fields) := by
  induction fields with
  | nil => exact ⟨.nil, .nil⟩
  | cons f fields ih =>
    obtain ⟨k, v⟩ := f
    have hv : Printable (stringify v) := h (k, v) List.mem_cons_self
    have hr := (ih fun g hg => h g (List.mem_cons_of_mem _ hg)).2
    have hf := (printable_quote k).append (.cons (u := 0x3A) (by decide) (hv.append hr))
    exact ⟨hf, .cons (by decide) hf⟩

theorem printable_stringify (v : Json) : Printable (stringify v) := by
  induction v with
  | null => exact .of_ascii (by decide)
  | bool b => cases b <;> exact .of_ascii (by decide)
  | num n => exact printable_json n
  | str s => exact printable_quote s
  | arr xs ih =>
    exact .cons (by decide) ((printable_elements ih).1.append (.of_ascii (by decide)))
  | obj fields ih =>
    exact .cons (by decide) ((printable_fields ih).1.append (.of_ascii (by decide)))

theorem lf_notMem_stringify (v : Json) : 0x0A ∉ stringify v :=
  fun h => absurd ((printable_stringify v).2 _ h) (by decide)

example : stringify (.obj [(lit "a", .arr [.null, .bool true]), (lit "b", .str (lit "\n"))]) =
    lit "\x7b\"a\":[null,true],\"b\":\"\\n\"\x7d" := by decide

end Js
