import ContextCompaction.Js.JsonOrder

/-!
# Patches of maps

A patch sets and removes entries of a map in order. What it leaves stays in its place, and what it adds
comes behind.

* `patch_eq`: the patched map.
* `ext_keys`: maps with the same keys in the same order and the same values are equal.
-/

namespace Js

variable {κ β : Type} [DecidableEq κ] {m : List (κ × β)} {changes : List (κ × Option β)}

/-- One change: a value to set, or none to remove. -/
def applyChange (m : List (κ × β)) (change : κ × Option β) : List (κ × β) :=
  match change.2 with
  | none => mapDelete m change.1
  | some v => mapSet m change.1 v

/-- The changes in order. -/
def patch (m : List (κ × β)) (changes : List (κ × Option β)) : List (κ × β) := changes.foldl applyChange m

/-- What becomes of an entry. -/
def patched (changes : List (κ × Option β)) (e : κ × β) : Option (κ × β) :=
  match mapGet changes e.1 with
  | none => some e
  | some v => v.map (e.1, ·)

/-- What a change adds to a map. -/
def added (m : List (κ × β)) (change : κ × Option β) : Option (κ × β) :=
  if change.1 ∈ m.map Prod.fst then none else change.2.map (change.1, ·)

/-- Setting a key that is there changes its value in place. -/
theorem mapSet_of_mem (hm : (m.map Prod.fst).Nodup) {k : κ} (hk : k ∈ m.map Prod.fst) (v : β) :
    mapSet m k v = m.map fun e => if e.1 = k then (k, v) else e := by
  induction m with
  | nil => cases hk
  | cons e m ih =>
    obtain ⟨k', v'⟩ := e
    rw [List.map_cons, List.nodup_cons] at hm
    by_cases hkey : k' = k
    · subst hkey
      have hrest : m.map (fun e => if e.1 = k' then (k', v) else e) = m := by
        conv_rhs => rw [← List.map_id m]
        exact List.map_congr_left fun e he => if_neg fun heq => hm.1 (List.mem_map.mpr ⟨e, he, heq⟩)
      simp [mapSet, hrest]
    · have hmem : k ∈ m.map Prod.fst := by simpa [Ne.symm hkey] using hk
      simp [mapSet, hkey, ih hm.2 hmem]

private theorem patched_cons_of_ne {change : κ × Option β} {e : κ × β} (h : e.1 ≠ change.1) :
    patched (change :: changes) e = patched changes e := by
  rw [patched, mapGet_cons, if_neg (Ne.symm h), patched]

/-- A patch changes and removes keys in place and adds the new ones at the end. -/
theorem patch_eq (hm : (m.map Prod.fst).Nodup) (hc : (changes.map Prod.fst).Nodup) :
    patch m changes = m.filterMap (patched changes) ++ changes.filterMap (added m) := by
  induction changes generalizing m with
  | nil =>
    rw [List.filterMap_nil, List.append_nil]
    exact List.filterMap_some.symm
  | cons change changes ih =>
    obtain ⟨k, v⟩ := change
    rw [List.map_cons, List.nodup_cons] at hc
    have hnone : mapGet changes k = none := mapGet_eq_none.mpr hc.1
    -- The later changes have other keys.
    have hadded {m' : List (κ × β)} (hkeys : ∀ k' ≠ k, k' ∈ m'.map Prod.fst ↔ k' ∈ m.map Prod.fst) :
        changes.filterMap (added m') = changes.filterMap (added m) := by
      refine List.filterMap_congr fun c hc' => ?_
      have hne : c.1 ≠ k := fun heq => hc.1 (List.mem_map.mpr ⟨c, hc', heq⟩)
      simp only [added, hkeys c.1 hne]
    rw [patch, List.foldl_cons, ← patch]
    cases v with
    | none =>
      have hkept : (mapDelete m k).filterMap (patched changes) = m.filterMap (patched ((k, none) :: changes)) := by
        rw [mapDelete, List.filterMap_filter]
        refine List.filterMap_congr fun e _ => ?_
        by_cases hk : e.1 = k
        · simp [patched, hk]
        · rw [patched_cons_of_ne hk]
          simp [hk]
      rw [applyChange, ih (nodup_mapDelete hm k) hc.2, hadded fun k' hne => by simp [mapDelete, hne], hkept]
      simp [added]
    | some v =>
      rw [applyChange, ih (nodup_mapSet hm k v) hc.2]
      by_cases hk : k ∈ m.map Prod.fst
      · have hset := mapSet_of_mem hm hk v
        have hkept : (mapSet m k v).filterMap (patched changes) = m.filterMap (patched ((k, some v) :: changes)) := by
          rw [hset, List.filterMap_map]
          refine List.filterMap_congr fun e _ => ?_
          by_cases hk : e.1 = k
          · simp [patched, hk, hnone]
          · rw [patched_cons_of_ne hk]
            simp [hk]
        have hkeys : (mapSet m k v).map Prod.fst = m.map Prod.fst := by
          obtain ⟨w, hw⟩ := Option.ne_none_iff_exists'.mp (fun hget => mapGet_eq_none.mp hget hk)
          exact keys_mapSet hw
        rw [hadded fun k' _ => by rw [hkeys], hkept]
        simp [added, hk]
      · have hkept : m.filterMap (patched ((k, some v) :: changes)) = m.filterMap (patched changes) := by
          exact List.filterMap_congr fun e he =>
            patched_cons_of_ne fun heq => hk (List.mem_map.mpr ⟨e, he, heq⟩)
        rw [mapSet_of_notMem v hk, hadded fun k' hne => by simp [hne], hkept]
        simp [added, hk, patched, hnone]

omit [DecidableEq κ] in
theorem keys_map (f : κ × β → Option β) : (m.map fun e => (e.1, f e)).map Prod.fst = m.map Prod.fst := by
  rw [List.map_map]
  rfl

theorem patch_clear (hm : (m.map Prod.fst).Nodup) : patch m (m.map fun e => (e.1, none)) = [] := by
  have hkeys := keys_map (m := m) fun _ => none
  rw [patch_eq hm (hkeys ▸ hm), List.append_eq_nil_iff, List.filterMap_eq_nil_iff, List.filterMap_eq_nil_iff]
  constructor
  · intro e he
    have hget := (mem_iff_mapGet (hkeys ▸ hm)).mp (List.mem_map_of_mem (f := fun e => (e.1, (none : Option β))) he)
    rw [patched, hget]
    rfl
  · intro change hchange
    obtain ⟨e, -, rfl⟩ := List.mem_map.mp hchange
    simp [added]

theorem patch_fill (hm : (m.map Prod.fst).Nodup) : patch [] (m.map fun e => (e.1, some e.2)) = m := by
  have hkeys := keys_map (m := m) fun e => some e.2
  rw [patch_eq (by simp) (hkeys ▸ hm), List.filterMap_nil, List.nil_append, List.filterMap_map]
  exact List.filterMap_some

/-- Maps with the same keys in the same order and the same values are equal. -/
theorem ext_keys {m' : List (κ × β)} (hm' : (m'.map Prod.fst).Nodup) (hkeys : m.map Prod.fst = m'.map Prod.fst)
    (hvalues : ∀ e ∈ m, mapGet m' e.1 = some e.2) : m = m' := by
  induction m generalizing m' with
  | nil => exact (List.map_eq_nil_iff.mp hkeys.symm).symm
  | cons e m ih =>
    obtain ⟨e', m', rfl⟩ : ∃ e' rest, m' = e' :: rest :=
      List.exists_cons_of_ne_nil (by rintro rfl; cases hkeys)
    rw [List.map_cons, List.map_cons, List.cons.injEq] at hkeys
    rw [List.map_cons, List.nodup_cons] at hm'
    have hvalue := hvalues e List.mem_cons_self
    rw [mapGet_cons, if_pos hkeys.1.symm, Option.some.injEq] at hvalue
    rw [Prod.ext hkeys.1 hvalue.symm, ih hm'.2 hkeys.2 fun f hf => ?_]
    have hget := hvalues f (List.mem_cons_of_mem _ hf)
    have hne : e'.1 ≠ f.1 := fun heq => hm'.1 (by rw [← hkeys.2]; exact List.mem_map.mpr ⟨f, hf, heq.symm⟩)
    rwa [mapGet_cons, if_neg hne] at hget

end Js
