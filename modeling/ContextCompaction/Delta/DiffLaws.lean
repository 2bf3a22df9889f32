import ContextCompaction.Delta.Diff
import ContextCompaction.Delta.Turns

/-!
# What a diff compares

* `Strict`: what is assumed of the values that two revisions are built from.
* `sameValue_sound`: what the comparison takes for equal is equal.
* `overlap_spec`, `permutation_spec`: what strings and arrays have in common.
-/

namespace Delta

open Js

/-! ## Values -/

namespace Value

theorem eraseItems_eq_map (items : List Value) : eraseItems items = items.map erase := by
  induction items with
  | nil => rfl
  | cons x xs ih => simp [eraseItems, ih]

theorem eraseFields_eq_map (fields : List (Str × Value)) :
    eraseFields fields = fields.map fun f => (f.1, f.2.erase) := by
  induction fields with
  | nil => rfl
  | cons f fields ih => simp [eraseFields, ih]

@[simp] theorem erase_str (s : Str) : (str s).erase = .str s := by rw [erase]

@[simp] theorem erase_arr (id : Nat) (items : List Value) :
    (arr id items).erase = .arr (items.map erase) := by
  rw [erase, eraseItems_eq_map]

@[simp] theorem erase_obj (id : Nat) (fields : List (Str × Value)) :
    (obj id fields).erase = .obj (fields.map fun f => (f.1, f.2.erase)) := by
  rw [erase, eraseFields_eq_map]

/-- Induction over a value, its elements and its properties. -/
theorem induct {P : Value → Prop} (null : P .null) (bool : ∀ b, P (.bool b)) (num : ∀ n, P (.num n))
    (str : ∀ s, P (.str s)) (arr : ∀ id xs, (∀ x ∈ xs, P x) → P (.arr id xs))
    (obj : ∀ id (fields : List (Str × Value)), (∀ f ∈ fields, P f.2) → P (.obj id fields)) (v : Value) :
    P v :=
  @Value.rec P (fun xs => ∀ x ∈ xs, P x) (fun fs => ∀ f ∈ fs, P f.2) (fun f => P f.2)
    null bool num str arr obj (by simp)
    (fun x xs hx hxs => by simpa using ⟨hx, hxs⟩) (by simp)
    (fun f fs hf hfs => by simpa using ⟨hf, fun a b h => hfs (a, b) h⟩) (fun _ _ h => h) v

end Value

open Value

/-- The values that revisions are built from: with a container its children; an object holds each key once;
and what is identical is equal. -/
structure Strict (S : Value → Prop) : Prop where
  items : ∀ {id : Nat} {xs : List Value}, S (.arr id xs) → ∀ x ∈ xs, S x
  fields : ∀ {id : Nat} {fs : List (Str × Value)}, S (.obj id fs) → ∀ f ∈ fs, S f.2
  keys : ∀ {id : Nat} {fs : List (Str × Value)}, S (.obj id fs) → (fs.map Prod.fst).Nodup
  identical : ∀ {x y : Value}, S x → S y → x.isContainer = true → x.same y = true → x.erase = y.erase

theorem sameArr {xs ys : List Json} (h : List.Forall₂ Json.Same xs ys) :
    (Json.arr xs).Same (.arr ys) := by
  refine .arr h.length_eq fun i x y hx hy => ?_
  obtain ⟨hi, rfl⟩ := List.getElem?_eq_some_iff.mp hx
  obtain ⟨hj, rfl⟩ := List.getElem?_eq_some_iff.mp hy
  exact h.get hi hj

theorem forall₂_of_equalItems {xs ys : List Value} (h : equalItems xs ys = true) :
    List.Forall₂ (fun x y => equalJson x y = true) xs ys := by
  induction xs generalizing ys with
  | nil =>
    cases ys with
    | nil => exact .nil
    | cons y ys => cases h
  | cons x xs ih =>
    cases ys with
    | nil => cases h
    | cons y ys =>
      rw [equalItems, Bool.and_eq_true] at h
      exact .cons h.1 (ih h.2)

theorem exists_of_equalFields {fs gs : List (Str × Value)} (h : equalFields fs gs = true) :
    ∀ f ∈ fs, ∃ y, mapGet gs f.1 = some y ∧ equalJson f.2 y = true := by
  induction fs with
  | nil => simp
  | cons f fs ih =>
    obtain ⟨k, x⟩ := f
    rw [equalFields, Bool.and_eq_true] at h
    rw [List.forall_mem_cons]
    refine ⟨?_, ih h.2⟩
    have hhead := h.1
    split at hhead
    · rename_i y hy
      exact ⟨y, hy, hhead⟩
    · cases hhead

/-- As many distinct keys, each of them the other's, are the same keys. -/
theorem mem_keys_iff {fs gs : List (Str × Value)} (hf : (fs.map Prod.fst).Nodup)
    (hlen : fs.length = gs.length) (hsub : ∀ f ∈ fs, f.1 ∈ gs.map Prod.fst) (k : Str) :
    k ∈ fs.map Prod.fst ↔ k ∈ gs.map Prod.fst := by
  have hsubset : fs.map Prod.fst ⊆ gs.map Prod.fst := by
    intro k hk
    obtain ⟨f, hf, rfl⟩ := List.mem_map.mp hk
    exact hsub f hf
  have hperm : (fs.map Prod.fst).Perm (gs.map Prod.fst) :=
    (List.subperm_of_subset hf hsubset).perm_of_length_le (by simp [hlen])
  exact hperm.mem_iff

theorem isSome_mapGet {κ β : Type} [DecidableEq κ] {m : List (κ × β)} {k : κ} :
    (mapGet m k).isSome = true ↔ k ∈ m.map Prod.fst := by
  rw [← not_iff_not, Bool.not_eq_true, Option.isSome_eq_false_iff, Option.isNone_iff_eq_none,
    mapGet_eq_none]

section

variable {S : Value → Prop} (hS : Strict S)

include hS

/-- Among strict values, identical ones are the same JSON. -/
theorem same_sound {x y : Value} (hx : S x) (hy : S y) (h : x.same y = true) :
    x.erase.Same y.erase := by
  cases x with
  | arr id xs => exact hS.identical hx hy rfl h ▸ .refl _
  | obj id fs => exact hS.identical hx hy rfl h ▸ .refl _
  | null => cases y <;> first | exact .refl _ | cases h
  | bool a => cases y <;> simp_all [Value.same, erase, Json.Same.refl]
  | str s => cases y <;> simp_all [Value.same, Json.Same.refl]
  | num m =>
    cases y with
    | num n =>
      refine .num ?_
      cases m <;> cases n <;> simp_all [Value.same, strictEqual, Number.Same]
      exact fun hne => h.2.resolve_left (h.1 ▸ hne)
    | _ => cases h

/-- What the comparison takes for equal is equal up to the order of keys and the sign of zero. -/
theorem equalJson_sound {x y : Value} (hx : S x) (hy : S y) (h : equalJson x y = true) :
    x.erase.Same y.erase := by
  induction x using Value.induct generalizing y with
  | null => exact same_sound hS hx hy (by simpa [equalJson] using h)
  | bool b => exact same_sound hS hx hy (by simpa [equalJson] using h)
  | num n => exact same_sound hS hx hy (by simpa [equalJson] using h)
  | str s => exact same_sound hS hx hy (by simpa [equalJson] using h)
  | arr i xs ih =>
    cases y with
    | arr j ys =>
      rw [equalJson, Bool.or_eq_true] at h
      rcases h with hid | hitems
      · exact same_sound hS hx hy hid
      · rw [erase_arr, erase_arr]
        refine sameArr ?_
        rw [List.forall₂_map_left_iff, List.forall₂_map_right_iff]
        have hpairs := forall₂_of_equalItems hitems
        have hsx := hS.items hx
        have hsy := hS.items hy
        clear hitems hx hy
        induction hpairs with
        | nil => exact .nil
        | cons hhead _ ihpairs =>
          rw [List.forall_mem_cons] at hsx hsy ih
          exact .cons (ih.1 hsx.1 hsy.1 hhead) (ihpairs ih.2 hsx.2 hsy.2)
    | _ => simp [equalJson, Value.same] at h
  | obj i fs ih =>
    cases y with
    | obj j gs =>
      rw [equalJson, Bool.or_eq_true, Bool.and_eq_true, beq_iff_eq, beq_iff_eq] at h
      rcases h with hid | ⟨hlen, hfields⟩
      · exact same_sound hS hx hy (by simpa [Value.same] using hid)
      · have hpairs := exists_of_equalFields hfields
        rw [erase_obj, erase_obj]
        refine .obj (fun k => ?_) fun k u v hu hv => ?_
        · rw [mapGet_map, mapGet_map, Option.isSome_map, Option.isSome_map, Bool.eq_iff_iff,
            isSome_mapGet, isSome_mapGet]
          refine mem_keys_iff (hS.keys hx) hlen (fun f hf => ?_) k
          obtain ⟨y, hget, -⟩ := hpairs f hf
          exact isSome_mapGet.mp (by rw [hget]; rfl)
        · rw [mapGet_map] at hu hv
          obtain ⟨x, hgetx, rfl⟩ := Option.map_eq_some_iff.mp hu
          obtain ⟨y, hgety, rfl⟩ := Option.map_eq_some_iff.mp hv
          have hmem := mem_of_mapGet hgetx
          obtain ⟨y', hgety', heq⟩ := hpairs _ hmem
          obtain rfl := Option.some.inj (hgety.symm.trans hgety')
          exact ih _ hmem (hS.fields hx _ hmem) (hS.fields hy _ (mem_of_mapGet hgety)) heq
    | _ => simp [equalJson, Value.same] at h

theorem sameValue_sound {x y : Value} (hx : S x) (hy : S y) (h : sameValue x y = true) :
    x.erase.Same y.erase := by
  rcases Bool.or_eq_true _ _ ▸ h with hsame | hequal
  · exact same_sound hS hx hy hsame
  · exact equalJson_sound hS hx hy hequal

end

/-! ## Strings -/

/-- What the probe finds is shared by the end of the one string and the start of the other. -/
theorem probeHead_spec {tail b head : Str} {tries start n : Nat}
    (h : probeHead tail b head tries start = some n) :
    n ≤ b.length ∧ n ≤ tail.length ∧ tail.drop (tail.length - n) = b.take n := by
  induction tries generalizing start with
  | zero => cases h
  | succ tries ih =>
    unfold probeHead at h
    split at h
    · cases h
    · rename_i k hk
      dsimp only at h
      split at h
      · rename_i hfound
        obtain rfl := Option.some.inj h
        have hle := (indexFrom_some hk).2.1
        refine ⟨hfound.1, Nat.sub_le _ _, ?_⟩
        rw [Nat.sub_sub_self hle]
        exact hfound.2
      · exact ih h

/-- The overlap is a suffix of the one and a prefix of the other. -/
theorem overlap_spec (a b : Str) (scan : Nat) :
    overlap a b scan ≤ b.length ∧ overlap a b scan ≤ a.length ∧
      a.drop (a.length - overlap a b scan) = b.take (overlap a b scan) := by
  have hzero : 0 ≤ b.length ∧ 0 ≤ a.length ∧ a.drop (a.length - 0) = b.take 0 := by simp
  unfold overlap
  split
  · exact hzero
  · have hfound : ∀ {head : Str} {n : Nat},
        probeHead (if a.length > scan then a.drop (a.length - scan) else a) b head 8 0 = some n →
          n ≤ b.length ∧ n ≤ a.length ∧ a.drop (a.length - n) = b.take n := by
      intro head n h
      obtain ⟨hb, htail, heq⟩ := probeHead_spec h
      refine ⟨hb, ?_, ?_⟩
      · split at htail
        · rw [List.length_drop] at htail
          omega
        · exact htail
      · rw [← heq]
        split
        · rename_i hlong
          rw [if_pos hlong, List.length_drop] at htail
          rw [List.drop_drop, List.length_drop]
          congr 1
          omega
        · rfl
    dsimp only
    split
    · rename_i n hn
      exact hfound hn
    · split
      · exact hzero
      · cases h : probeHead (if a.length > scan then a.drop (a.length - scan) else a) b (b.take 1) 8 0 with
        | none => exact hzero
        | some n => exact hfound h

/-! ## Permutations -/

/-- The indices that are left. -/
def Positions.rest (positions : Positions) : List Nat := positions.flatMap Prod.snd

/-- Every key is an element, and what stands at its indices is that or identical to it. -/
def Points (before : List Value) (positions : Positions) : Prop :=
  ∀ e ∈ positions, e.1 ∈ before ∧
    ∀ i ∈ e.2, ∃ x, before[i]? = some x ∧ (e.1 = x ∨ e.1.same x = true)

/-- Adding an index keeps the positions pointing at their values. -/
theorem add_spec {before : List Value} {positions : Positions} (h : Points before positions) {v : Value}
    {index : Nat} (hv : before[index]? = some v) :
    (positions.add v index).rest.Perm (index :: positions.rest) ∧ Points before (positions.add v index) := by
  induction positions with
  | nil =>
    refine ⟨.refl _, fun e he => ?_⟩
    obtain rfl := List.mem_singleton.mp he
    refine ⟨List.mem_of_getElem? hv, fun i hi => ?_⟩
    obtain rfl := List.mem_singleton.mp hi
    exact ⟨v, hv, .inl rfl⟩
  | cons e positions ih =>
    obtain ⟨key, indices⟩ := e
    rw [Points, List.forall_mem_cons] at h
    obtain ⟨hperm, hpoints⟩ := ih h.2
    unfold Positions.add
    split
    · rename_i hsame
      constructor
      · show (indices ++ [index] ++ Positions.rest positions).Perm
          (index :: (indices ++ Positions.rest positions))
        rw [List.append_assoc]
        exact List.perm_middle
      · rw [Points, List.forall_mem_cons]
        refine ⟨⟨h.1.1, fun i hi => ?_⟩, h.2⟩
        rcases List.mem_append.mp hi with hi | hi
        · exact h.1.2 i hi
        · rw [List.mem_singleton.mp hi]
          exact ⟨v, hv, .inr hsame⟩
    · constructor
      · show (indices ++ Positions.rest (Positions.add positions v index)).Perm
          (index :: (indices ++ Positions.rest positions))
        exact (hperm.append_left _).trans List.perm_middle
      · rw [Points, List.forall_mem_cons]
        exact ⟨h.1, hpoints⟩

/-- The positions of a list hold each of its indexes once and point at their values. -/
theorem positionsOf_spec {before : List Value} (xs : List Value) {start : Nat} {positions : Positions}
    (h : Points before positions) (hxs : before.drop start = xs) :
    (positionsOf xs start positions).rest.Perm (positions.rest ++ List.range' start xs.length) ∧
      Points before (positionsOf xs start positions) := by
  induction xs generalizing start positions with
  | nil => simp [positionsOf, h]
  | cons x xs ih =>
    have hx : before[start]? = some x := by
      rw [← List.head?_drop, hxs]
      rfl
    have hrest : before.drop (start + 1) = xs := by
      rw [← List.drop_drop, hxs]
      rfl
    obtain ⟨hperm, hpoints⟩ := add_spec h hx
    obtain ⟨hperm', hpoints'⟩ := ih hpoints hrest
    refine ⟨hperm'.trans ?_, hpoints'⟩
    calc (positions.add x start).rest ++ List.range' (start + 1) xs.length
        _ |>.Perm (start :: positions.rest ++ List.range' (start + 1) xs.length) := hperm.append_right _
        _ |>.Perm (positions.rest ++ start :: List.range' (start + 1) xs.length) := List.perm_middle.symm
        _ = positions.rest ++ List.range' start (x :: xs).length := rfl

/-- Taking an index removes it alone. -/
theorem take_spec {positions positions' : Positions} {v : Value} {i : Nat}
    (h : positions.take v = some (i, positions')) :
    positions.rest.Perm (i :: positions'.rest) ∧
      (∃ e ∈ positions, e.1.same v = true ∧ i ∈ e.2) ∧
      ∀ e ∈ positions', ∃ e' ∈ positions, e.1 = e'.1 ∧ e.2 ⊆ e'.2 := by
  induction positions generalizing positions' with
  | nil => cases h
  | cons e positions ih =>
    obtain ⟨key, indices⟩ := e
    unfold Positions.take at h
    split at h
    · rename_i hsame
      dsimp only at h
      split at h
      · cases h
      · rename_i j rest
        obtain ⟨rfl, rfl⟩ := Prod.mk.inj (Option.some.inj h)
        refine ⟨by simp [Positions.rest], ⟨_, List.mem_cons_self, hsame, List.mem_cons_self⟩, ?_⟩
        intro e he
        rcases List.mem_cons.mp he with rfl | he
        · exact ⟨_, List.mem_cons_self, rfl, List.subset_cons_self _ _⟩
        · exact ⟨e, List.mem_cons_of_mem _ he, rfl, List.Subset.refl _⟩
    · obtain ⟨⟨j, rest⟩, htake, heq⟩ := Option.map_eq_some_iff.mp h
      obtain ⟨rfl, rfl⟩ := Prod.mk.inj heq
      obtain ⟨hperm, ⟨e, he, hsame, hmem⟩, hold⟩ := ih htake
      refine ⟨?_, ⟨e, List.mem_cons_of_mem _ he, hsame, hmem⟩, ?_⟩
      · calc Positions.rest ((key, indices) :: positions)
            = indices ++ Positions.rest positions := rfl
          _ |>.Perm (indices ++ j :: Positions.rest rest) := hperm.append_left _
          _ |>.Perm (j :: (indices ++ Positions.rest rest)) := List.perm_middle
      · intro e he
        rcases List.mem_cons.mp he with rfl | he
        · exact ⟨_, List.mem_cons_self, rfl, List.Subset.refl _⟩
        · obtain ⟨e', he', hkey, hsub⟩ := hold e he
          exact ⟨e', List.mem_cons_of_mem _ he', hkey, hsub⟩

theorem Points.of_subset {before : List Value} {positions positions' : Positions}
    (h : Points before positions) (hold : ∀ e ∈ positions', ∃ e' ∈ positions, e.1 = e'.1 ∧ e.2 ⊆ e'.2) :
    Points before positions' := by
  intro e he
  obtain ⟨e', he', hkey, hsub⟩ := hold e he
  obtain ⟨hmem, hindices⟩ := h e' he'
  rw [hkey]
  exact ⟨hmem, fun i hi => hindices i (hsub hi)⟩

section

variable {S : Value → Prop} (hS : Strict S)

include hS

/-- The order that is found uses each index at most once and maps values to the same values. -/
theorem takePositions_spec {before after : List Value} (hbefore : ∀ x ∈ before, S x)
    (hafter : ∀ y ∈ after, S y) {positions : Positions} (h : Points before positions) {order : List Nat}
    (horder : takePositions positions after = some order) :
    (∃ left, positions.rest.Perm (order ++ left)) ∧
      List.Forall₂ (fun i y => ∃ x, before[i]? = some x ∧ x.erase.Same y.erase) order after := by
  induction after generalizing positions order with
  | nil =>
    obtain rfl := Option.some.inj horder
    exact ⟨⟨_, .refl _⟩, .nil⟩
  | cons y after ih =>
    obtain ⟨⟨i, positions'⟩, htake, horder⟩ := Option.bind_eq_some_iff.mp horder
    obtain ⟨rest, hrest, horder⟩ := Option.bind_eq_some_iff.mp horder
    obtain rfl := Option.some.inj horder
    rw [List.forall_mem_cons] at hafter
    obtain ⟨hperm, ⟨e, he, hsame, hmem⟩, hold⟩ := take_spec htake
    obtain ⟨⟨left, hleft⟩, hpairs⟩ := ih hafter.2 (h.of_subset hold) hrest
    obtain ⟨hkey, hindices⟩ := h e he
    obtain ⟨x, hx, hsamex⟩ := hindices i hmem
    have hy := same_sound hS (hbefore _ hkey) hafter.1 hsame
    refine ⟨⟨left, hperm.trans (hleft.cons i)⟩, .cons ⟨x, hx, ?_⟩ hpairs⟩
    rcases hsamex with rfl | hsamex
    · exact hy
    · have hxS := hbefore x (List.mem_of_getElem? hx)
      exact (same_sound hS (hbefore _ hkey) hxS hsamex).symm.trans hy

/-- A permutation is one, and brings an equal element to every index. -/
theorem permutation_spec {before after : List Value} (hbefore : ∀ x ∈ before, S x)
    (hafter : ∀ y ∈ after, S y) {order : List Nat} (h : permutation before after = some order) :
    order.length = before.length ∧ order.Nodup ∧ (∀ i ∈ order, i < before.length) ∧
      List.Forall₂ (fun i y => ∃ x, before[i]? = some x ∧ x.erase.Same y.erase) order after := by
  unfold permutation at h
  split at h
  · cases h
  · rename_i hlen
    have hnone : Points before [] := by simp [Points]
    obtain ⟨hperm, hpoints⟩ := positionsOf_spec before hnone List.drop_zero
    obtain ⟨⟨left, hleft⟩, hpairs⟩ := takePositions_spec hS hbefore hafter hpoints h
    have hrange : (List.range' 0 before.length).Perm (order ++ left) := hperm.symm.trans hleft
    have hnodup : (order ++ left).Nodup := hrange.nodup_iff.mp List.nodup_range'
    refine ⟨hpairs.length_eq.trans (not_not.mp hlen).symm, hnodup.of_append_left, fun i hi => ?_, hpairs⟩
    have hmem := hrange.mem_iff.mpr (List.mem_append_left left hi)
    rw [List.mem_range'_1] at hmem
    omega

end

end Delta
