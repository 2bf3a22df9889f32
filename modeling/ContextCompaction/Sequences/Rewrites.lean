import Mathlib.Data.List.Nodup

/-!
# Rewrites by key

A run of steps each of which rewrites the value at its own key: keys that no step names keep their
value, and where the steps have distinct keys, a named one is rewritten once, in whatever order they
come.
-/

namespace Sequences

variable {σ ρ κ ν : Type} [DecidableEq κ]

/-- A step rewrites the value at its key, and at no other. -/
def Rewrites (step : σ → ρ → σ) (get : σ → κ → Option ν) (key : ρ → κ) (update : ρ → ν → ν) : Prop :=
  ∀ st r k, get (step st r) k = if key r = k then (get st k).map (update r) else get st k

namespace Rewrites

variable {step : σ → ρ → σ} {get : σ → κ → Option ν} {key : ρ → κ} {update : ρ → ν → ν}

theorem foldl_of_notMem (h : Rewrites step get key update) {rs : List ρ} {k : κ}
    (hk : k ∉ rs.map key) (st : σ) : get (rs.foldl step st) k = get st k := by
  induction rs generalizing st with
  | nil => rfl
  | cons r rs ih =>
    rw [List.map_cons, List.mem_cons, not_or] at hk
    rw [List.foldl_cons, ih hk.2, h st r k, if_neg (Ne.symm hk.1)]

theorem foldl_of_mem (h : Rewrites step get key update) {rs : List ρ} (hnodup : (rs.map key).Nodup)
    {r : ρ} (hr : r ∈ rs) (st : σ) :
    get (rs.foldl step st) (key r) = (get st (key r)).map (update r) := by
  induction rs generalizing st with
  | nil => cases hr
  | cons r' rs ih =>
    rw [List.map_cons, List.nodup_cons] at hnodup
    rw [List.foldl_cons]
    rcases List.mem_cons.mp hr with rfl | hr
    · rw [h.foldl_of_notMem hnodup.1, h st r (key r), if_pos rfl]
    · have hne : key r' ≠ key r := fun e => hnodup.1 (e ▸ List.mem_map_of_mem hr)
      rw [ih hnodup.2 hr, h st r' (key r), if_neg hne]

end Rewrites

end Sequences
