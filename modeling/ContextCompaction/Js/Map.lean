import Mathlib.Data.List.Induction
import Mathlib.Tactic.Common

/-!
# Maps

A `Map`, and the properties of an object, is the list of its entries in the order in which their
keys were first set.

* `mapGet_mapSet`, `mapGet_mapDelete`: what a write does to each key.
* `mapGet_mapOf`: `new Map(entries)` keeps the last value of a key.
-/

namespace Js

variable {κ β : Type} [DecidableEq κ]

/-- `m.get(k)`. -/
def mapGet : List (κ × β) → κ → Option β
  | [], _ => none
  | (k', v) :: m, k => if k' = k then some v else mapGet m k

/-- `m.set(k, v)`: in place if the key is there, else behind the others. -/
def mapSet : List (κ × β) → κ → β → List (κ × β)
  | [], k, v => [(k, v)]
  | (k', v') :: m, k, v => if k' = k then (k, v) :: m else (k', v') :: mapSet m k v

/-- `if (!m.has(k)) m.set(k, v)`. -/
def mapSetFirst (m : List (κ × β)) (k : κ) (v : β) : List (κ × β) :=
  if (mapGet m k).isSome then m else mapSet m k v

/-- `m.delete(k)`. -/
def mapDelete (m : List (κ × β)) (k : κ) : List (κ × β) := m.filter fun e => e.1 ≠ k

/-- `new Map(entries)`. -/
def mapOf (entries : List (κ × β)) : List (κ × β) := entries.foldl (fun m e => mapSet m e.1 e.2) []

@[simp] theorem mapGet_nil (k : κ) : mapGet ([] : List (κ × β)) k = none := rfl

@[simp] theorem mapGet_cons (e : κ × β) (m : List (κ × β)) (k : κ) :
    mapGet (e :: m) k = if e.1 = k then some e.2 else mapGet m k := rfl

theorem mapGet_mapSet (m : List (κ × β)) (k k' : κ) (v : β) :
    mapGet (mapSet m k v) k' = if k = k' then some v else mapGet m k' := by
  induction m with
  | nil => rfl
  | cons e m ih =>
    obtain ⟨j, w⟩ := e
    by_cases hj : j = k
    · subst hj
      by_cases hk : j = k' <;> simp [mapSet, hk]
    · by_cases hk : j = k'
      · subst hk
        simp [mapSet, hj, Ne.symm hj]
      · simp [mapSet, hj, hk, ih]

@[simp] theorem mapGet_mapSet_self (m : List (κ × β)) (k : κ) (v : β) :
    mapGet (mapSet m k v) k = some v := by
  simp [mapGet_mapSet]

example : mapGet (mapSet [(1, 2)] 1 3) 1 = some 3 := by decide

theorem mapGet_mapSetFirst (m : List (κ × β)) (k k' : κ) (v : β) :
    mapGet (mapSetFirst m k v) k' = (mapGet m k').or (if k = k' then some v else none) := by
  unfold mapSetFirst
  by_cases hk : k = k'
  · subst hk
    cases h : mapGet m k <;> simp [h]
  · cases h : mapGet m k <;> simp [hk, mapGet_mapSet]

theorem mapGet_mapDelete (m : List (κ × β)) (k k' : κ) :
    mapGet (mapDelete m k) k' = if k = k' then none else mapGet m k' := by
  induction m with
  | nil => simp [mapDelete]
  | cons e m ih =>
    obtain ⟨j, w⟩ := e
    simp only [mapDelete, ne_eq, decide_not] at ih ⊢
    by_cases hj : j = k
    · subst hj
      by_cases hk : j = k' <;> simpa [hk] using ih
    · by_cases hk : j = k'
      · subst hk
        simp [hj, Ne.symm hj]
      · simp [hj, hk, ih]

theorem mapGet_eq_none {m : List (κ × β)} {k : κ} : mapGet m k = none ↔ k ∉ m.map Prod.fst := by
  induction m with
  | nil => simp
  | cons e m ih =>
    by_cases h : e.1 = k
    · simp [h]
    · simp only [mapGet_cons, h, ↓reduceIte, ih, List.map_cons, List.mem_cons, Ne.symm h, false_or]

theorem mem_of_mapGet {m : List (κ × β)} {k : κ} {v : β} (h : mapGet m k = some v) : (k, v) ∈ m := by
  induction m with
  | nil => simp at h
  | cons e m ih =>
    obtain ⟨j, w⟩ := e
    by_cases hj : j = k
    · obtain rfl : w = v := by simpa [hj] using h
      exact hj ▸ List.mem_cons_self
    · exact List.mem_cons_of_mem _ (ih (by simpa [hj] using h))

theorem mapGet_append (m n : List (κ × β)) (k : κ) :
    mapGet (m ++ n) k = (mapGet m k).or (mapGet n k) := by
  induction m with
  | nil => simp
  | cons e m ih => by_cases h : e.1 = k <;> simp [h, ih]

theorem mapSet_eq_self {m : List (κ × β)} {k : κ} {v : β} (h : mapGet m k = some v) :
    mapSet m k v = m := by
  induction m with
  | nil => cases h
  | cons e m ih =>
    obtain ⟨k', v'⟩ := e
    by_cases hk : k' = k
    · simp_all [mapGet, mapSet]
    · simp_all [mapGet, mapSet]

theorem keys_mapSet {m : List (κ × β)} {k : κ} {v w : β} (h : mapGet m k = some w) :
    (mapSet m k v).map Prod.fst = m.map Prod.fst := by
  induction m with
  | nil => cases h
  | cons e m ih =>
    obtain ⟨k', v'⟩ := e
    by_cases hk : k' = k
    · simp_all [mapGet, mapSet]
    · simp_all [mapGet, mapSet]

theorem mapSet_of_notMem {m : List (κ × β)} {k : κ} (v : β) (h : k ∉ m.map Prod.fst) :
    mapSet m k v = m ++ [(k, v)] := by
  induction m with
  | nil => rfl
  | cons e m ih =>
    simp only [List.map_cons, List.mem_cons, not_or] at h
    simp only [mapSet, Ne.symm h.1, ↓reduceIte, ih h.2, List.cons_append]

theorem nodup_mapSet {m : List (κ × β)} (h : (m.map Prod.fst).Nodup) (k : κ) (v : β) :
    ((mapSet m k v).map Prod.fst).Nodup := by
  cases hget : mapGet m k with
  | none =>
    have hnew := mapGet_eq_none.mp hget
    rw [mapSet_of_notMem v hnew, List.map_append, List.nodup_append]
    exact ⟨h, by simp, by simpa using fun a b hab heq => hnew (List.mem_map.mpr ⟨(a, b), hab, heq⟩)⟩
  | some w => rwa [keys_mapSet hget]

theorem nodup_mapDelete {m : List (κ × β)} (h : (m.map Prod.fst).Nodup) (k : κ) :
    ((mapDelete m k).map Prod.fst).Nodup :=
  h.sublist (List.filter_sublist.map Prod.fst)

theorem mem_mapSet {m : List (κ × β)} {k : κ} {v : β} {e : κ × β} (h : e ∈ mapSet m k v) :
    e ∈ m ∨ e = (k, v) := by
  induction m with
  | nil => exact .inr (List.mem_singleton.mp h)
  | cons e' m ih =>
    obtain ⟨k', w⟩ := e'
    rw [mapSet] at h
    split at h
    · rcases List.mem_cons.mp h with rfl | h
      · exact .inr rfl
      · exact .inl (List.mem_cons_of_mem _ h)
    · rcases List.mem_cons.mp h with rfl | h
      · exact .inl List.mem_cons_self
      · exact (ih h).imp_left (List.mem_cons_of_mem _)

theorem mapOf_append (m n : List (κ × β)) :
    mapOf (m ++ n) = n.foldl (fun m e => mapSet m e.1 e.2) (mapOf m) := by
  simp [mapOf, List.foldl_append]

@[simp] theorem mapOf_append_singleton (m : List (κ × β)) (e : κ × β) :
    mapOf (m ++ [e]) = mapSet (mapOf m) e.1 e.2 := by
  simp [mapOf_append]

/-- Of several entries with one key the last counts. -/
theorem mapGet_mapOf (entries : List (κ × β)) (k : κ) :
    mapGet (mapOf entries) k = mapGet entries.reverse k := by
  induction entries using List.reverseRecOn with
  | nil => rfl
  | append_singleton m e ih => simp [mapGet_mapSet, ih]

theorem nodup_mapOf (entries : List (κ × β)) : ((mapOf entries).map Prod.fst).Nodup := by
  induction entries using List.reverseRecOn with
  | nil => exact List.nodup_nil
  | append_singleton m e ih =>
    rw [mapOf_append_singleton]
    exact nodup_mapSet ih e.1 e.2

theorem mem_of_mem_mapOf {entries : List (κ × β)} {e : κ × β} (h : e ∈ mapOf entries) :
    e ∈ entries := by
  induction entries using List.reverseRecOn with
  | nil => cases h
  | append_singleton m e' ih =>
    rw [mapOf_append_singleton] at h
    rcases mem_mapSet h with h | rfl
    · exact List.mem_append_left _ (ih h)
    · exact List.mem_append_right _ List.mem_cons_self

/-- Entries with distinct keys are a map as they are. -/
theorem mapOf_eq_self {entries : List (κ × β)} (h : (entries.map Prod.fst).Nodup) :
    mapOf entries = entries := by
  induction entries using List.reverseRecOn with
  | nil => rfl
  | append_singleton m e ih =>
    rw [List.map_append, List.nodup_append] at h
    rw [mapOf_append_singleton, ih h.1,
      mapSet_of_notMem _ fun hk => h.2.2 _ hk _ (by simp) rfl]

end Js
