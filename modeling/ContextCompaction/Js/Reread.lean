import ContextCompaction.Js.JsonOrder
import ContextCompaction.Js.SameText
import ContextCompaction.Js.Schema

/-!
# Values that are written and read back

A value in memory keeps the properties of an object in their own order, so what is read back from
its text has the same text, and the same values under the same keys.

* `stringify_normal`: the text does not change.
* `count?_normal`, `kept_object`: integers stay, and so do values that a schema of strings accepts.
-/

namespace Js

/-- A value in memory: the keys of an object are distinct, and in the order of own properties. -/
inductive Json.Native : Json → Prop
  | null : Json.Native .null
  | bool (b : Bool) : Json.Native (.bool b)
  | num (n : Number) : Json.Native (.num n)
  | str (s : Str) : Json.Native (.str s)
  | arr {xs : List Json} (h : ∀ x ∈ xs, Json.Native x) : Json.Native (.arr xs)
  | obj {fields : List (Str × Json)} (hkeys : (fields.map Prod.fst).Nodup)
      (horder : InOwnOrder (fields.map Prod.fst)) (h : ∀ f ∈ fields, Json.Native f.2) :
      Json.Native (.obj fields)

/-- An object whose keys are no array indices. -/
theorem Json.Native.of_names {fields : List (Str × Json)} (hkeys : (fields.map Prod.fst).Nodup)
    (hnames : ∀ k ∈ fields.map Prod.fst, indexKey k = none) (h : ∀ f ∈ fields, f.2.Native) :
    (Json.obj fields).Native := by
  refine .obj hkeys ?_ h
  refine List.Pairwise.imp_of_mem (R := fun _ _ => True) (fun {k k'} _ hk' _ j hj => ?_)
    (List.pairwise_of_forall fun _ _ => trivial)
  rw [hnames k' hk'] at hj
  cases hj

/-! ## The same text -/

theorem SameText.arr {xs ys : List Json} (h : List.Forall₂ SameText xs ys) :
    SameText (.arr xs) (.arr ys) := by
  have hrest : ∀ {xs ys : List Json}, List.Forall₂ SameText xs ys →
      stringifyElementsRest xs = stringifyElementsRest ys := by
    intro xs ys h
    induction h with
    | nil => rfl
    | cons hxy _ ih => rw [stringifyElementsRest, stringifyElementsRest, hxy, ih]
  rw [SameText, stringify, stringify]
  cases h with
  | nil => rfl
  | cons hxy h => rw [stringifyElements, stringifyElements, hxy, hrest h]

theorem SameText.obj {fs gs : List (Str × Json)} (h : SameFields fs gs) :
    SameText (.obj fs) (.obj gs) := by
  have hrest : ∀ {fs gs : List (Str × Json)}, SameFields fs gs →
      stringifyFieldsRest fs = stringifyFieldsRest gs := by
    intro fs gs h
    induction h with
    | nil => rfl
    | cons hfg _ ih => rw [stringifyFieldsRest, stringifyFieldsRest, hfg.1, hfg.2, ih]
  rw [SameText, stringify, stringify]
  cases h with
  | nil => rfl
  | cons hfg h => rw [stringifyFields, stringifyFields, hfg.1, hfg.2, hrest h]

theorem Json.normalElements_eq_map (xs : List Json) :
    Json.normalElements xs = xs.map Json.normal := by
  induction xs with
  | nil => rfl
  | cons x xs ih => rw [Json.normalElements, ih, List.map_cons]

/-- The properties that are read back, where they stand in their order. -/
theorem normal_fields {fields : List (Str × Json)} (hkeys : (fields.map Prod.fst).Nodup)
    (horder : InOwnOrder (fields.map Prod.fst)) :
    (Json.obj fields).normal = .obj (fields.map fun f => (f.1, f.2.normal)) := by
  have hsame : (fields.map fun f => (f.1, f.2.normal)).map Prod.fst = fields.map Prod.fst := by
    rw [List.map_map]
    rfl
  rw [Json.normal, Json.normalFields_eq_map, mkFields, mapOf_eq_self (hsame ▸ hkeys),
    ownOrder_eq_self (hsame ▸ horder)]

/-- A value has the text of what it is read back as. -/
theorem stringify_normal {v : Json} (h : v.Native) : SameText v v.normal := by
  induction h with
  | num n =>
    cases n with
    | finite negative abs h =>
      have hsame : (Number.finite negative abs h).Same
          (.finite (negative && decide (abs ≠ 0)) abs h) :=
        ⟨rfl, fun hne => by rw [decide_eq_true hne, Bool.and_true]⟩
      exact hsame.json
    | _ => rfl
  | @arr xs _ ih =>
    rw [Json.normal, Json.normalElements_eq_map]
    apply SameText.arr
    rw [List.forall₂_map_right_iff]
    exact List.forall₂_same.mpr ih
  | obj hkeys horder _ ih =>
    rw [normal_fields hkeys horder]
    apply SameText.obj
    rw [SameFields, List.forall₂_map_right_iff]
    exact List.forall₂_same.mpr fun f hf => ⟨rfl, ih f hf⟩
  | _ => rfl

/-- What is read is a value in memory. -/
theorem native_normal (v : Json) : v.normal.Native := by
  induction v with
  | num n =>
    cases n with
    | finite negative abs h => exact .num _
    | _ => exact .null
  | arr xs ih =>
    rw [Json.normal, Json.normalElements_eq_map]
    exact .arr (List.forall_mem_map.mpr ih)
  | obj fields ih =>
    rw [Json.normal, Json.normalFields_eq_map, mkFields]
    refine .obj (((ownOrder_perm _).map Prod.fst).nodup_iff.mpr (nodup_mapOf _))
      (inOwnOrder_ownOrder _) fun f hf => ?_
    have hmem := mem_of_mem_mapOf ((ownOrder_perm _).mem_iff.mp hf)
    obtain ⟨e, he, rfl⟩ := List.mem_map.mp hmem
    exact ih e he
  | null => exact .null
  | bool b => exact .bool b
  | str s => exact .str s

/-- What is read once more has the same text. -/
theorem stringify_normal_normal (v : Json) : SameText v.normal v.normal.normal :=
  stringify_normal (native_normal v)

/-! ## What stays -/

theorem str?_normal (v : Json) : v.normal.str? = v.str? := by
  cases v with
  | num n => cases n <;> rfl
  | _ => rfl

theorem count?_normal (v : Json) : count? v.normal = count? v := by
  cases v with
  | num n =>
    cases n with
    | finite negative abs h => by_cases habs : abs = 0 <;> simp [Json.normal, count?, habs]
    | _ => rfl
  | _ => rfl

/-- The value of a key. -/
theorem get?_normal {v : Json} (h : v.Native) (key : Str) :
    v.normal.get? key = (v.get? key).map Json.normal := by
  cases h with
  | num n => cases n <;> rfl
  | obj hkeys horder _ =>
    rw [normal_fields hkeys horder]
    exact mapGet_map Json.normal _ key
  | _ => rfl

theorem Json.Native.get? {v w : Json} (h : v.Native) {key : Str} (hw : v.get? key = some w) :
    w.Native := by
  cases h with
  | obj _ _ h => exact h _ (mem_of_mapGet hw)
  | _ => cases hw

/-! ## Values of strings -/

/-- What passes a schema stays as it is. -/
def Kept (len : Str → Nat) (schema : Schema) : Prop :=
  ∀ v : Json, v.Native → check len schema v = true → v.normal = v

variable {len : Str → Nat}

theorem kept_string (lo hi : Nat) : Kept len (.string lo hi) := by
  intro v _ h
  obtain ⟨s, rfl, -⟩ := check_string.mp h
  exact Json.normal_str s

theorem kept_array {items : Schema} (h : Kept len items) (lo hi : Nat) (unique : Bool) :
    Kept len (.array items lo hi unique) := by
  intro v hv hcheck
  obtain ⟨xs, rfl, -, hitems, -⟩ := check_array.mp hcheck
  cases hv with
  | arr hnative =>
    have hmap : xs.map Json.normal = xs.map id :=
      List.map_congr_left fun x hx => h x (hnative x hx) (hitems x hx)
    rw [Json.normal, Json.normalElements_eq_map, hmap, List.map_id]

theorem kept_object {properties : List (Str × Bool × Schema)}
    (h : ∀ p ∈ properties, Kept len p.2.2) : Kept len (.object properties) := by
  intro v hv hcheck
  obtain ⟨fields, rfl, hnames, hprops⟩ := check_object.mp hcheck
  cases hv with
  | obj hkeys horder hnative =>
    have hmap : fields.map (fun f => (f.1, f.2.normal)) = fields.map id := by
      refine List.map_congr_left fun f hf => Prod.ext rfl ?_
      obtain ⟨p, hp, hname⟩ := hnames f hf
      have hprop := hprops p hp
      rw [hname, (mem_iff_mapGet hkeys).mp hf] at hprop
      exact h p hp f.2 (hnative f hf) hprop
    rw [normal_fields hkeys horder, hmap, List.map_id]

end Js
