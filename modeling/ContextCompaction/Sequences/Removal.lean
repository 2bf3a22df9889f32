import Mathlib.Data.List.Basic
import Mathlib.Data.List.Induction
import Mathlib.Data.List.Nodup
import Mathlib.Data.List.Pairwise

/-!
# Removal by position

Items that are removed one after the other, from the last position to the first, leave those at the
other positions.

* `foldl_eraseIdx`, `map_without`: removal from the last position to the first, and by key.
* `Thinned`: a list beside what is left of it, each item at the place that the removals leave it.
-/

namespace Sequences

variable {α κ : Type}

/-- The items whose position is not in `removed`. -/
def without (items : List α) (removed : List Nat) : List α :=
  (items.zipIdx.filter (·.2 ∉ removed)).map Prod.fst

@[simp] theorem without_nil (items : List α) : without items [] = items := by
  simp [without]

theorem without_congr {items : List α} {removed removed' : List Nat}
    (h : ∀ i, i ∈ removed ↔ i ∈ removed') : without items removed = without items removed' := by
  simp only [without, h]

/-- Positions of the front leave the rest alone. -/
theorem without_append {front back : List α} {removed : List Nat}
    (h : ∀ i ∈ removed, i < front.length) :
    without (front ++ back) removed = without front removed ++ back := by
  unfold without
  rw [List.zipIdx_append, List.filter_append, List.map_append]
  congr 1
  rw [List.filter_eq_self.mpr, List.zipIdx_map_fst]
  intro p hp
  have hle := List.le_snd_of_mem_zipIdx hp
  simp only [decide_not, Bool.not_eq_eq_eq_not, Bool.not_true, decide_eq_false_iff_not]
  intro hmem
  have := h _ hmem
  omega

/-- Removals in the front leave the back as it is. -/
theorem foldl_eraseIdx_append {front back : List α} :
    ∀ {removed : List Nat}, removed.Pairwise (· > ·) → (∀ i ∈ removed, i < front.length) →
      removed.foldl List.eraseIdx (front ++ back) = removed.foldl List.eraseIdx front ++ back := by
  intro removed
  induction removed generalizing front with
  | nil => simp
  | cons d rest ih =>
    intro hsorted hlt
    have hd : d < front.length := hlt d (by simp)
    rw [List.foldl_cons, List.foldl_cons, List.eraseIdx_append_of_lt_length hd]
    apply ih (List.Pairwise.of_cons hsorted)
    intro i hi
    have hid : i < d := List.rel_of_pairwise_cons hsorted hi
    rw [List.length_eraseIdx_of_lt hd]
    omega

/-- Removal from the last position to the first. -/
theorem foldl_eraseIdx {items : List α} {removed : List Nat} (hsorted : removed.Pairwise (· > ·))
    (hlt : ∀ i ∈ removed, i < items.length) :
    removed.foldl List.eraseIdx items = without items removed := by
  induction removed generalizing items with
  | nil => simp
  | cons d rest ih =>
    have hd : d < items.length := hlt d (by simp)
    have hbelow : ∀ i ∈ rest, i < (items.take d).length := by
      intro i hi
      have := List.rel_of_pairwise_cons hsorted hi
      rw [List.length_take]
      omega
    have hitems : items = items.take d ++ items[d] :: items.drop (d + 1) := by simp
    have hrest : ∀ {back : List α}, without (items.take d ++ back) rest =
        without (items.take d) rest ++ back := without_append hbelow
    rw [List.foldl_cons, List.eraseIdx_eq_take_drop_succ,
      foldl_eraseIdx_append hsorted.of_cons hbelow, ih hsorted.of_cons hbelow]
    conv_rhs => rw [hitems]
    have hlen : (items.take d).length = d := by simp; omega
    unfold without
    rw [List.zipIdx_append, List.zipIdx_cons, List.filter_append, List.map_append, hlen]
    congr 1
    · congr 1
      apply List.filter_congr
      intro p hp
      have := List.snd_lt_of_mem_zipIdx hp
      rw [hlen] at this
      grind
    · rw [List.filter_cons_of_neg (by simp), List.filter_eq_self.mpr, List.zipIdx_map_fst]
      intro p hp
      have hle := List.le_snd_of_mem_zipIdx hp
      grind

/-- With distinct keys, removal by position is removal by key. -/
theorem map_without {key : α → κ} [DecidableEq κ] {items : List α} {removed : List Nat}
    {keys : List κ} (hnodup : (items.map key).Nodup)
    (hkeys : ∀ k, k ∈ keys ↔ ∃ i ∈ removed, (items[i]?).map key = some k) :
    without items removed = items.filter (key · ∉ keys) := by
  have hz : items = items.zipIdx.map Prod.fst := by simp
  conv_rhs => rw [hz]
  unfold without
  rw [List.filter_map]
  congr 1
  apply List.filter_congr
  rintro ⟨x, i⟩ hp
  have hx : items[i]? = some x := List.mem_zipIdx_iff_getElem?.mp hp
  simp only [Function.comp, decide_eq_decide, not_iff_not]
  rw [hkeys]
  constructor
  · exact fun hi => ⟨i, hi, by rw [hx, Option.map_some]⟩
  · rintro ⟨j, hj, hjx⟩
    have hk : ∀ n, (items.map key)[n]? = (items[n]?).map key := fun n => List.getElem?_map ..
    have hi : i < (items.map key).length := by
      rw [List.length_map]
      exact (List.getElem?_eq_some_iff.mp hx).1
    have heq : (items.map key)[i]? = (items.map key)[j]? := by rw [hk, hk, hjx, hx, Option.map_some]
    rwa [(List.getElem?_inj hi hnodup).mp heq]

/-! ## The places of what stays -/

/-- Where the item at a position stands once the positions in `gone` are left out. -/
def place (gone : Nat → Bool) (i : Nat) : Nat := (List.range i).countP fun k => !gone k

theorem place_succ (gone : Nat → Bool) (i : Nat) :
    place gone (i + 1) = place gone i + if gone i = true then 0 else 1 := by
  rw [place, List.range_succ, List.countP_append, ← place]
  cases h : gone i <;> simp [h]

variable {β : Type}

/-- What a list becomes when the positions in `gone` are left out and each other item becomes one that
`rel` allows at its position: nothing is moved, and nothing is added. -/
structure Thinned (gone : Nat → Bool) (rel : Nat → α → β → Prop) (before : List α) (after : List β) :
    Prop where
  length : after.length = place gone before.length
  kept : ∀ i a, before[i]? = some a → gone i = false → ∃ b, after[place gone i]? = some b ∧ rel i a b

/-- Filtering by index thins a list out. -/
theorem thinned_filter (gone : Nat → Bool) (items : List α) :
    Thinned gone (fun _ a b => b = a) items ((items.zipIdx.filter fun e => !gone e.2).map Prod.fst) := by
  induction items using List.reverseRecOn with
  | nil => exact ⟨rfl, fun i a h => by simp at h⟩
  | append_singleton items x ih =>
    have hsplit : ((items ++ [x]).zipIdx.filter fun e => !gone e.2).map Prod.fst =
        (items.zipIdx.filter fun e => !gone e.2).map Prod.fst ++
          if gone items.length = true then [] else [x] := by
      rw [List.zipIdx_append, List.filter_append, List.map_append]
      cases h : gone items.length <;> simp [h]
    rw [hsplit]
    refine ⟨?_, fun i a hi hgone => ?_⟩
    · rw [List.length_append, ih.length, List.length_append, List.length_singleton, place_succ]
      split_ifs <;> rfl
    · rcases Nat.lt_or_ge i items.length with hlt | hge
      · rw [List.getElem?_append_left hlt] at hi
        obtain ⟨b, hb, hrel⟩ := ih.kept i a hi hgone
        exact ⟨b, by rw [List.getElem?_append_left (List.getElem?_eq_some_iff.mp hb).1, hb], hrel⟩
      · obtain rfl : i = items.length := by
          have := (List.getElem?_eq_some_iff.mp hi).1
          simp only [List.length_append, List.length_singleton] at this
          omega
        rw [List.getElem?_concat_length] at hi
        obtain rfl := Option.some.inj hi
        refine ⟨x, ?_, rfl⟩
        rw [if_neg (by simp [hgone]), ← ih.length, List.getElem?_concat_length]

/-- Items that are rewritten in place before some are left out. -/
theorem Thinned.rewritten {gone : Nat → Bool} {rel : Nat → α → β → Prop} {before : List α}
    {middle after : List β} (h : Thinned gone (fun _ a b => b = a) middle after)
    (hlength : middle.length = before.length)
    (hrel : ∀ i a, before[i]? = some a → gone i = false → ∃ b, middle[i]? = some b ∧ rel i a b) :
    Thinned gone rel before after := by
  refine ⟨hlength ▸ h.length, fun i a hi hgone => ?_⟩
  obtain ⟨b, hb, hab⟩ := hrel i a hi hgone
  obtain ⟨c, hc, rfl⟩ := h.kept i b hb hgone
  exact ⟨c, hc, hab⟩

end Sequences
