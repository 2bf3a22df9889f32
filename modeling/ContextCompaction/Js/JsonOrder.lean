import ContextCompaction.Js.OwnOrder

/-!
# JSON values up to the order of properties

* `Json.Same`: the same values under the same keys, and `-0` as `0`; an equivalence.
* `Json.Plain`: what JSON text can write without loss: finite numbers, well-formed strings, and
  objects with distinct keys.
* `same_normal`: a plain value and what is parsed back from its text are the same.
* `perm_of_mapGet`: maps with the same entries are rearrangements of each other.
-/

namespace Js

/-! ## Rearranged maps -/

section

variable {κ β : Type} [DecidableEq κ]

theorem mem_iff_mapGet {m : List (κ × β)} (h : (m.map Prod.fst).Nodup) {k : κ} {v : β} :
    (k, v) ∈ m ↔ mapGet m k = some v := by
  refine ⟨fun hm => ?_, mem_of_mapGet⟩
  induction m with
  | nil => cases hm
  | cons e m ih =>
    rw [List.map_cons, List.nodup_cons] at h
    rcases List.mem_cons.mp hm with rfl | hm
    · simp
    · have hne : e.1 ≠ k := by
        rintro rfl
        exact h.1 (List.mem_map.mpr ⟨(e.1, v), hm, rfl⟩)
      rw [mapGet_cons, if_neg hne, ih h.2 hm]

theorem mapGet_perm {m n : List (κ × β)} (h : m.Perm n) (hd : (m.map Prod.fst).Nodup) (k : κ) :
    mapGet m k = mapGet n k := by
  apply Option.ext
  intro v
  rw [← mem_iff_mapGet hd, ← mem_iff_mapGet ((h.map Prod.fst).nodup_iff.mp hd), h.mem_iff]

theorem perm_of_mapGet {m n : List (κ × β)} (hm : (m.map Prod.fst).Nodup)
    (hn : (n.map Prod.fst).Nodup) (h : ∀ k, mapGet m k = mapGet n k) : m.Perm n := by
  refine (List.perm_ext_iff_of_nodup (.of_map _ hm) (.of_map _ hn)).mpr fun e => ?_
  rw [mem_iff_mapGet hm, mem_iff_mapGet hn, h]

theorem mapGet_map {γ : Type} (f : β → γ) (m : List (κ × β)) (k : κ) :
    mapGet (m.map fun e => (e.1, f e.2)) k = (mapGet m k).map f := by
  induction m with
  | nil => rfl
  | cons e m ih =>
    by_cases h : e.1 = k <;> simp [h, ih]

end

/-! ## Equality up to order -/

/-- The same number; the zeros are the same. -/
def Number.Same : Number → Number → Prop
  | .finite m a _, .finite n b _ => a = b ∧ (a ≠ 0 → m = n)
  | a, b => a = b

/-- Equal up to the order of properties and the sign of zero. -/
inductive Json.Same : Json → Json → Prop
  | null : Json.Same .null .null
  | bool (b : Bool) : Json.Same (.bool b) (.bool b)
  | num {a b : Number} (h : a.Same b) : Json.Same (.num a) (.num b)
  | str (s : Str) : Json.Same (.str s) (.str s)
  | arr {xs ys : List Json} (hlen : xs.length = ys.length)
      (h : ∀ (i : Nat) (x y : Json), xs[i]? = some x → ys[i]? = some y → Json.Same x y) :
      Json.Same (.arr xs) (.arr ys)
  | obj {fs gs : List (Str × Json)} (hkeys : ∀ k, (mapGet fs k).isSome = (mapGet gs k).isSome)
      (h : ∀ k x y, mapGet fs k = some x → mapGet gs k = some y → Json.Same x y) :
      Json.Same (.obj fs) (.obj gs)

theorem Number.Same.refl (a : Number) : a.Same a := by
  cases a <;> simp [Number.Same]

theorem Number.Same.symm {a b : Number} (h : a.Same b) : b.Same a := by
  cases a <;> cases b <;> simp_all [Number.Same]

theorem Number.Same.trans {a b c : Number} (h₁ : a.Same b) (h₂ : b.Same c) : a.Same c := by
  cases a <;> cases b <;> cases c <;> simp_all [Number.Same]

/-- The same numbers have the same text. -/
theorem Number.Same.json {a b : Number} (h : a.Same b) : a.json = b.json := by
  cases a <;> cases b <;> simp_all [Number.Same, Number.json]
  rename_i m p _ n _ _
  by_cases hp : p = 0 <;> simp_all [finiteText]

namespace Json.Same

theorem refl (a : Json) : a.Same a := by
  induction a with
  | null => exact .null
  | bool b => exact .bool b
  | num n => exact .num (.refl n)
  | str s => exact .str s
  | arr xs ih =>
    refine .arr rfl fun i x y hx hy => ?_
    obtain rfl := Option.some.inj (hx.symm.trans hy)
    exact ih x (List.mem_of_getElem? hx)
  | obj fields ih =>
    refine .obj (fun _ => rfl) fun k x y hx hy => ?_
    obtain rfl := Option.some.inj (hx.symm.trans hy)
    exact ih _ (mem_of_mapGet hx)

theorem symm {a b : Json} (h : a.Same b) : b.Same a := by
  induction h with
  | null => exact .null
  | bool b => exact .bool b
  | num h => exact .num h.symm
  | str s => exact .str s
  | arr hlen _ ih => exact .arr hlen.symm fun i x y hx hy => ih i y x hy hx
  | obj hkeys _ ih => exact .obj (fun k => (hkeys k).symm) fun k x y hx hy => ih k y x hy hx

theorem trans {a b c : Json} (h₁ : a.Same b) (h₂ : b.Same c) : a.Same c := by
  induction h₁ generalizing c with
  | null => exact h₂
  | bool b => exact h₂
  | num h =>
    cases h₂ with
    | num h' => exact .num (h.trans h')
  | str s => exact h₂
  | @arr xs ys hlen _ ih =>
    cases h₂ with
    | @arr _ zs hlen' h' =>
      refine .arr (hlen.trans hlen') fun i x z hx hz => ?_
      have hi : i < ys.length := by
        have := (List.getElem?_eq_some_iff.mp hx).1
        omega
      have hy := List.getElem?_eq_getElem hi
      exact ih i x _ hx hy (h' i _ z hy hz)
  | @obj fs gs hkeys _ ih =>
    cases h₂ with
    | obj hkeys' h' =>
      refine .obj (fun k => (hkeys k).trans (hkeys' k)) fun k x z hx hz => ?_
      obtain ⟨y, hy⟩ := Option.isSome_iff_exists.mp ((hkeys k).symm.trans (by rw [hx]; rfl))
      exact ih k x y hx hy (h' k y z hy hz)

/-- The values of one key. -/
theorem get {fs gs : List (Str × Json)} (h : (Json.obj fs).Same (.obj gs)) (k : Str) :
    (mapGet fs k = none ∧ mapGet gs k = none) ∨
      ∃ x y, mapGet fs k = some x ∧ mapGet gs k = some y ∧ x.Same y := by
  cases h with
  | obj hkeys h =>
    cases hx : mapGet fs k with
    | none =>
      have hy := hkeys k
      rw [hx] at hy
      exact .inl ⟨rfl, Option.isNone_iff_eq_none.mp (Option.isSome_eq_false_iff.mp hy.symm)⟩
    | some x =>
      obtain ⟨y, hy⟩ := Option.isSome_iff_exists.mp ((hkeys k).symm.trans (by rw [hx]; rfl))
      exact .inr ⟨x, y, rfl, hy, h k x y hx hy⟩

end Json.Same

/-! ## Plain values -/

/-- A value of `null`, booleans, finite numbers, well-formed strings, arrays, and objects with
distinct keys. -/
inductive Json.Plain : Json → Prop
  | null : Json.Plain .null
  | bool (b : Bool) : Json.Plain (.bool b)
  | num (negative : Bool) (abs : ℚ) (h : Representable abs) : Json.Plain (.num (.finite negative abs h))
  | str {s : Str} (h : wellFormed s = true) : Json.Plain (.str s)
  | arr {xs : List Json} (h : ∀ x ∈ xs, Json.Plain x) : Json.Plain (.arr xs)
  | obj {fields : List (Str × Json)} (hkeys : (fields.map Prod.fst).Nodup)
      (hformed : ∀ f ∈ fields, wellFormed f.1 = true) (h : ∀ f ∈ fields, Json.Plain f.2) :
      Json.Plain (.obj fields)

/-- A value whose objects have distinct keys, as those of every ECMAScript object are. -/
inductive Json.Distinct : Json → Prop
  | null : Json.Distinct .null
  | bool (b : Bool) : Json.Distinct (.bool b)
  | num (n : Number) : Json.Distinct (.num n)
  | str (s : Str) : Json.Distinct (.str s)
  | arr {xs : List Json} (h : ∀ x ∈ xs, Json.Distinct x) : Json.Distinct (.arr xs)
  | obj {fields : List (Str × Json)} (hkeys : (fields.map Prod.fst).Nodup)
      (h : ∀ f ∈ fields, Json.Distinct f.2) : Json.Distinct (.obj fields)

/-- The members of an object with distinct keys, under an order that keeps them. -/
theorem Json.Same.of_perm {fs gs : List (Str × Json)} {f : Json → Json} (hd : (fs.map Prod.fst).Nodup)
    (hp : gs.Perm (fs.map fun e => (e.1, f e.2))) (h : ∀ e ∈ fs, e.2.Same (f e.2)) :
    (Json.obj fs).Same (.obj gs) := by
  have hkeys : (fs.map fun e => (e.1, f e.2)).map Prod.fst = fs.map Prod.fst := by
    rw [List.map_map]
    rfl
  have hget : ∀ k, mapGet gs k = (mapGet fs k).map f := fun k => by
    rw [← mapGet_perm hp.symm (hkeys ▸ hd), mapGet_map]
  refine .obj (fun k => by rw [hget, Option.isSome_map]) fun k x y hx hy => ?_
  rw [hget, hx] at hy
  obtain rfl := Option.some.inj hy
  exact h _ (mem_of_mapGet hx)

/-- What is parsed back from the text of a plain value is the same. -/
theorem Json.Plain.same_normal {a : Json} (ha : a.Plain) : a.Same a.normal := by
  induction ha with
  | null => exact .null
  | bool b => exact .bool b
  | num negative abs h => exact .num ⟨rfl, by cases negative <;> simp⟩
  | str h => exact .str _
  | @arr xs _ ih =>
    have hmap : ∀ xs, Json.normalElements xs = xs.map Json.normal := fun xs => by
      induction xs with
      | nil => rfl
      | cons x xs ih => simp [Json.normalElements, ih]
    rw [Json.normal, hmap]
    refine .arr (by simp) fun i x y hx hy => ?_
    rw [List.getElem?_map, hx] at hy
    obtain rfl := Option.some.inj hy
    exact ih x (List.mem_of_getElem? hx)
  | @obj fields hkeys _ _ ih =>
    have hmap := Json.normalFields_eq_map fields
    have hnd : ((Json.normalFields fields).map Prod.fst).Nodup := by
      rw [hmap, List.map_map]
      exact hkeys
    rw [Json.normal]
    refine .of_perm hkeys ?_ ih
    rw [mkFields, mapOf_eq_self hnd, ← hmap]
    exact ownOrder_perm _

end Js
