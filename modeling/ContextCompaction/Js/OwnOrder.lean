import ContextCompaction.Js.JsonParse

/-!
# The order of own properties

A list of properties in the order that an object keeps stays so when properties are left out.

* `ownOrder_eq_self`, `inOwnOrder_ownOrder`: the lists in this order are the fixed points.
-/

namespace Js

/-- A key may stand in front of another one. -/
def KeyBefore (k k' : Str) : Prop := ∀ j ∈ indexKey k', ∃ i ∈ indexKey k, i ≤ j

/-- Keys in the order of own properties. -/
def InOwnOrder (keys : List Str) : Prop := keys.Pairwise KeyBefore

variable {β : Type}

theorem ownOrder_perm (fields : List (Str × β)) : (ownOrder fields).Perm fields := by
  have hnone : (fields.filter fun f => (indexKey f.1).isNone) =
      fields.filter fun f => !(indexKey f.1).isSome := by
    simp only [Option.not_isSome]
  rw [ownOrder, hnone]
  exact ((List.perm_insertionSort _ _).append_right _).trans (List.filter_append_perm _ _)

/-- The own order is that of property enumeration. -/
theorem inOwnOrder_ownOrder (fields : List (Str × β)) :
    InOwnOrder ((ownOrder fields).map Prod.fst) := by
  have : Std.Total fun f g : Str × β => (indexKey f.1).getD 0 ≤ (indexKey g.1).getD 0 :=
    ⟨fun f g => Nat.le_total _ _⟩
  have : IsTrans (Str × β) fun f g => (indexKey f.1).getD 0 ≤ (indexKey g.1).getD 0 :=
    ⟨fun f g h hfg hgh => hfg.trans hgh⟩
  rw [InOwnOrder, List.pairwise_map, ownOrder, List.pairwise_append]
  refine ⟨?_, ?_, ?_⟩
  · have hsorted := List.pairwise_insertionSort
      (fun f g : Str × β => (indexKey f.1).getD 0 ≤ (indexKey g.1).getD 0)
      (fields.filter fun f => (indexKey f.1).isSome)
    refine hsorted.imp_of_mem fun {f g} hf _ hle j hj => ?_
    have hsome := (List.mem_filter.mp ((List.mem_insertionSort _).mp hf)).2
    obtain ⟨i, hi⟩ := Option.isSome_iff_exists.mp hsome
    rw [hi, Option.mem_def.mp hj] at hle
    exact ⟨i, hi, hle⟩
  · refine List.Pairwise.imp_of_mem (R := fun _ _ => True) (fun {f g} _ hg _ j hj => ?_)
      (List.pairwise_of_forall fun _ _ => trivial)
    have hnone := (List.mem_filter.mp hg).2
    rw [Option.mem_def.mp hj] at hnone
    cases hnone
  · intro f _ g hg j hj
    have hnone := (List.mem_filter.mp hg).2
    rw [Option.mem_def.mp hj] at hnone
    cases hnone

/-- Fields in that order stay as they are. -/
theorem ownOrder_eq_self {fields : List (Str × β)} (h : InOwnOrder (fields.map Prod.fst)) :
    ownOrder fields = fields := by
  rw [InOwnOrder, List.pairwise_map] at h
  have hsorted : (fields.filter fun f => (indexKey f.1).isSome).Pairwise
      fun f g => (indexKey f.1).getD 0 ≤ (indexKey g.1).getD 0 := by
    refine (h.sublist List.filter_sublist).imp_of_mem fun {f g} _ hg hbefore => ?_
    obtain ⟨j, hj⟩ := Option.isSome_iff_exists.mp (List.mem_filter.mp hg).2
    obtain ⟨i, hi, hle⟩ := hbefore j hj
    rw [hj, Option.mem_def.mp hi]
    exact hle
  rw [ownOrder, hsorted.insertionSort_eq]
  clear hsorted
  induction fields with
  | nil => rfl
  | cons f fields ih =>
    obtain ⟨hfirst, hrest⟩ := List.pairwise_cons.mp h
    cases hf : indexKey f.1 with
    | some i =>
      rw [List.filter_cons_of_pos (by rw [hf]; rfl), List.filter_cons_of_neg (by rw [hf]; simp),
        List.cons_append, ih hrest]
    | none =>
      -- Behind a key that is no index stands none that is one.
      have hnone : ∀ g ∈ fields, indexKey g.1 = none := by
        intro g hg
        by_contra hsome
        obtain ⟨j, hj⟩ := Option.ne_none_iff_exists'.mp hsome
        obtain ⟨i, hi, -⟩ := hfirst g hg j hj
        rw [hf] at hi
        cases hi
      rw [List.filter_eq_nil_iff.mpr, List.filter_eq_self.mpr, List.nil_append]
      · intro g hg
        rcases List.mem_cons.mp hg with rfl | hg
        · rw [hf]
          rfl
        · rw [hnone g hg]
          rfl
      · intro g hg
        rcases List.mem_cons.mp hg with rfl | hg
        · simp [hf]
        · simp [hnone g hg]

end Js
