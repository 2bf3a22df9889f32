import ContextCompaction.Delta.DiffLaws

/-!
# A diff rebuilds the new revision

`Does b b' T`: unless the batch overflows, `b'` is `b` and operations that are valid, replace no root, and
satisfy `T`. `ValueTurn` and `RegionTurn` say what the operations of a value and of an array region do. Both
hold of the differ, by induction on the rounds, which `weight` bounds.

* `diffRevisions_rebuilds`: the applier succeeds on what the differ gives, and comes to the new revision.
-/

namespace Delta

open Js Value

/-! ## What is emitted -/

/-- A valid operation below the root. -/
def Sound (op : Op Nat Value) : Prop := assertValidOp op = .ok () ∧ isReplace op = false

/-- Unless it overflows, a batch has grown by sound operations, which satisfy `T`. -/
def Does (b b' : Batch) (T : List (Op Nat Value) → Prop) : Prop :=
  b'.overflowed = false → b.overflowed = false ∧
    ∃ ops, b'.operations = b.operations ++ ops ∧ (∀ op ∈ ops, Sound op) ∧ T ops

section

variable {b b₁ b₂ : Batch} {T T₁ T₂ : List (Op Nat Value) → Prop}

theorem Does.skip (h : T []) : Does b b T := fun hb => ⟨hb, [], by simp, by simp, h⟩

theorem Does.of_overflowed (h : b.overflowed = true) : Does b b T := fun hb => by
  rw [h] at hb
  cases hb

theorem Does.emit {op : Op Nat Value} (hop : Sound op) (h : T [op]) : Does b (emitOperation b op) T := by
  intro hb
  unfold emitOperation at hb ⊢
  by_cases hover : b.overflowed = true
  · rw [if_pos hover] at hb
    rw [hover] at hb
    cases hb
  · rw [if_neg hover] at hb ⊢
    split at hb
    · cases hb
    · rename_i hroom
      rw [if_neg hroom]
      exact ⟨hb, [op], rfl, by simpa using hop, h⟩

theorem Does.seq (h₁ : Does b b₁ T₁) (h₂ : Does b₁ b₂ T₂)
    (h : ∀ ops₁ ops₂, T₁ ops₁ → T₂ ops₂ → T (ops₁ ++ ops₂)) : Does b b₂ T := by
  intro hb
  obtain ⟨hb₁, ops₂, heq₂, hsound₂, ht₂⟩ := h₂ hb
  obtain ⟨hb₀, ops₁, heq₁, hsound₁, ht₁⟩ := h₁ hb₁
  refine ⟨hb₀, ops₁ ++ ops₂, by rw [heq₂, heq₁, List.append_assoc], fun op hop => ?_, h _ _ ht₁ ht₂⟩
  exact (List.mem_append.mp hop).elim (hsound₁ op) (hsound₂ op)

theorem Does.mono (h : Does b b₁ T₁) (hT : ∀ ops, T₁ ops → T ops) : Does b b₁ T := fun hb => by
  obtain ⟨hb₀, ops, heq, hsound, ht⟩ := h hb
  exact ⟨hb₀, ops, heq, hsound, hT ops ht⟩

end

/-- The triple of operations that hold values with identities. -/
def Turn (path : Path Nat) (ops : List (Op Nat Value)) (v : Json) (Q : Json → Prop) : Prop :=
  Turns path (ops.map (Op.map erase)) v Q

theorem Turn.append {path : Path Nat} {ops ops' : List (Op Nat Value)} {v : Json} {Q Q' : Json → Prop}
    (h : Turn path ops v Q) (h' : ∀ w, Q w → Turn path ops' w Q') : Turn path (ops ++ ops') v Q' := by
  unfold Turn
  rw [List.map_append]
  exact Turns.append h h'

/-- Operations that turn a value into another. -/
def ValueTurn (path : Path Nat) (x y : Value) (ops : List (Op Nat Value)) : Prop :=
  Turn path ops x.erase (·.Same y.erase)

/-- Operations that turn a region of an array into another, wherever the region stands in the array. -/
def RegionTurn (path : Path Nat) (xs ys : List Value) (outputStart : Nat) (ops : List (Op Nat Value)) :
    Prop :=
  ∀ front back : List Json, front.length = outputStart →
    Turn path ops (.arr (front ++ xs.map erase ++ back)) fun v =>
      ∃ outs, List.Forall₂ Json.Same outs (ys.map erase) ∧ v = .arr (front ++ outs ++ back)

theorem safe_index {path : Path Nat} (h : SafePath path) (n : Nat) : SafePath (path ++ [.index n]) := by
  intro seg hseg
  rcases List.mem_append.mp hseg with hseg | hseg
  · exact h seg hseg
  · rw [List.mem_singleton.mp hseg]
    rfl

theorem safe_key {path : Path Nat} (h : SafePath path) {key : Str} (hkey : key ∉ RESERVED_SEGMENTS) :
    SafePath (path ++ [.key key]) := by
  intro seg hseg
  rcases List.mem_append.mp hseg with hseg | hseg
  · exact h seg hseg
  · rw [List.mem_singleton.mp hseg]
    simpa [Seg.safe] using hkey

/-- Operations on a path that may be walked are sound. -/
theorem sound_of_path {op : Op Nat Value} {path : Path Nat} (hpath : op.path? = some path)
    (hsafe : SafePath path) (hne : op.inner = true → path ≠ []) (hpayload : op.PayloadValid) :
    Sound op := by
  refine ⟨assertValidOp_ok.mpr ⟨fun p hp => ?_, hpayload⟩, by cases op <;> simp_all [Op.path?, isReplace]⟩
  obtain rfl := Option.some.inj (hpath.symm.trans hp)
  exact ⟨hne, hsafe⟩

/-! ## Strings and replacements -/

section

variable {path : Path Nat} {b : Batch}

theorem emitSet_does (hsafe : SafePath path) (hpath : path ≠ []) (x y : Value) :
    Does b (emitSet path y b) (ValueTurn path x y) := by
  rw [emitSet, if_neg hpath]
  refine Does.emit (sound_of_path rfl hsafe (fun _ => hpath) trivial) ?_
  exact (Turns.set hpath y.erase).mono fun w hw => hw ▸ .refl _

theorem text_turn {op : Op Nat Value} {s t : Str} (g : Str → Str) (hpath : path ≠ [])
    (hop : edit (op.map erase) = atParent path fun parent key => do
      let current ← (child? parent key).bind Json.str?
      put parent key (.str (g current)))
    (ht : g s = t) : Turn path [op] (.str s) (· = .str t) :=
  Turns.text g hpath hop ht

/-- What is emitted for two strings turns the one into the other. -/
theorem emitString_does (hsafe : SafePath path) (hpath : path ≠ []) (s t : Str) :
    Does b (emitString s t path b) (ValueTurn path (.str s) (.str t)) := by
  have hsame : ∀ {ops}, Turn path ops (.str s) (· = .str t) → ValueTurn path (.str s) (.str t) ops := by
    intro ops h
    unfold ValueTurn
    rw [erase_str, erase_str]
    exact Turns.mono h fun w hw => hw ▸ .refl _
  have hsoundA : ∀ text, Sound (.a path text) := fun _ => sound_of_path rfl hsafe (fun _ => hpath) trivial
  unfold emitString
  split
  · rename_i heq
    exact Does.skip (hsame (Turns.nil (congrArg _ heq)))
  · split
    · rename_i happend
      refine Does.emit (hsoundA _) (hsame (text_turn (· ++ t.drop s.length) hpath rfl ?_))
      rw [← List.take_append_drop s.length t, happend.2]
      simp
    · obtain ⟨hle, hle', hoverlap⟩ := overlap_spec s t DEFAULT_OVERLAP_SCAN
      dsimp only
      generalize overlap s t DEFAULT_OVERLAP_SCAN = shared at hle hle' hoverlap
      split
      · exact Does.emit (sound_of_path rfl hsafe (fun _ => hpath) trivial)
          (hsame (Turns.set hpath _))
      · have htrim : Does b (emitOperation b (.t path (s.length - shared)))
            fun ops => Turn path ops (.str s) (· = .str (t.take shared)) :=
          Does.emit (sound_of_path rfl hsafe (fun _ => hpath) rfl)
            (text_turn (·.drop (s.length - shared)) hpath rfl hoverlap)
        split
        · have happend : ∀ b', Does b' (emitOperation b' (.a path (t.drop shared)))
              fun ops => Turn path ops (.str (t.take shared)) (· = .str t) := fun b' =>
            Does.emit (hsoundA _)
              (text_turn (· ++ t.drop shared) hpath rfl (List.take_append_drop shared t))
          exact htrim.seq (happend _) fun ops₁ ops₂ h₁ h₂ => hsame (h₁.append fun w hw => hw ▸ h₂)
        · rename_i hlong
          refine htrim.mono fun ops h => hsame (Turns.mono h fun w hw => ?_)
          rw [hw, List.take_of_length_le (by omega)]

end

/-! ## Regions -/

theorem region_append {xs : List Value} {i j k : Nat} (hij : i ≤ j) (hjk : j ≤ k) :
    region xs i k = region xs i j ++ region xs j k := by
  have hdrop : xs.drop j = (xs.drop i).drop (j - i) := by rw [List.drop_drop, Nat.add_sub_cancel' hij]
  rw [region, region, region, hdrop, ← List.take_add, show j - i + (k - j) = k - i by omega]

theorem region_self (xs : List Value) (i : Nat) : region xs i i = [] := by simp [region]

theorem region_singleton {xs : List Value} {i : Nat} {x : Value} (h : xs[i]? = some x) :
    region xs i (i + 1) = [x] := by
  obtain ⟨hlt, rfl⟩ := List.getElem?_eq_some_iff.mp h
  rw [region, List.drop_eq_getElem_cons hlt, Nat.add_sub_cancel_left]
  rfl

theorem region_all (xs : List Value) : region xs 0 xs.length = xs := by simp [region]

theorem weightItems_append (xs ys : List Value) :
    weightItems (xs ++ ys) = weightItems xs + weightItems ys := by
  induction xs with
  | nil => simp [weightItems]
  | cons x xs ih => simp [weightItems, ih, Nat.add_assoc]

theorem weight_le_weightFields {f : Str × Value} {fields : List (Str × Value)} (h : f ∈ fields) :
    weight f.2 ≤ weightFields fields := by
  induction fields with
  | nil => cases h
  | cons g fields ih =>
    obtain ⟨k, x⟩ := g
    rw [weightFields]
    rcases List.mem_cons.mp h with rfl | h
    · exact Nat.le_add_right _ _
    · exact (ih h).trans (Nat.le_add_left _ _)

theorem weight_pos (x : Value) : 0 < weight x := by
  cases x <;> simp [weight]

theorem weight_region_le (xs : List Value) {i i' j' j : Nat} (hi : i ≤ i') (hij : i' ≤ j') (hj : j' ≤ j) :
    weightItems (region xs i' j') ≤ weightItems (region xs i j) := by
  rw [region_append hi (hij.trans hj), region_append hij hj, weightItems_append, weightItems_append]
  omega

section

variable {path : Path Nat} {xs ys xs' ys' : List Value} {outputStart : Nat} {ops ops' : List (Op Nat Value)}

/-- Turning one region and then the next turns both. -/
theorem RegionTurn.append (h : RegionTurn path xs ys outputStart ops)
    (h' : RegionTurn path xs' ys' (outputStart + ys.length) ops') :
    RegionTurn path (xs ++ xs') (ys ++ ys') outputStart (ops ++ ops') := by
  intro front back hfront
  have hfirst := h front (xs'.map erase ++ back) hfront
  rw [← List.append_assoc] at hfirst
  rw [List.map_append, ← List.append_assoc]
  refine Turn.append hfirst ?_
  rintro w ⟨outs, houts, rfl⟩
  have hlen : (front ++ outs).length = outputStart + ys.length := by
    rw [List.length_append, hfront, houts.length_eq, List.length_map]
  have hsecond := h' (front ++ outs) back hlen
  rw [← List.append_assoc]
  refine Turns.mono hsecond ?_
  rintro v ⟨outs', houts', rfl⟩
  refine ⟨outs ++ outs', ?_, by simp⟩
  rw [List.map_append]
  exact List.rel_append houts houts'

theorem RegionTurn.keep (h : List.Forall₂ Json.Same (xs.map erase) (ys.map erase)) :
    RegionTurn path xs ys outputStart [] :=
  fun _ _ _ => Turns.nil ⟨_, h, rfl⟩

/-- Turning an element turns the region of that one. -/
theorem RegionTurn.element {x y : Value} (h : ValueTurn (path ++ [.index outputStart]) x y ops) :
    RegionTurn path [x] [y] outputStart ops := by
  intro front back hfront
  have hget : (front ++ [x.erase] ++ back)[outputStart]? = some x.erase := by
    rw [List.append_assoc, ← hfront, List.getElem?_append_right le_rfl]
    simp
  have hchild : child? (ν := Nat) (.arr (front ++ [x].map erase ++ back)) (.index outputStart) =
      some x.erase := hget
  refine Turns.mono (Turns.child h hchild) ?_
  rintro v ⟨c, hc, hput⟩
  refine ⟨[c], .cons hc .nil, ?_⟩
  have hlt : outputStart < (front ++ [x.erase] ++ back).length := (List.getElem?_eq_some_iff.mp hget).1
  rw [put] at hput
  simp only [IndexNumber.index?, Option.bind_some, List.map_cons, List.map_nil, if_pos hlt] at hput
  rw [← Option.some.inj hput, ← hfront, List.append_assoc, List.set_append_right _ _ le_rfl]
  simp

theorem RegionTurn.replace :
    RegionTurn path xs ys outputStart [.p path outputStart xs.length ys] := by
  intro front back hfront
  refine Turns.mono Turns.splice ?_
  rintro v rfl
  refine ⟨ys.map erase, List.forall₂_same.mpr fun _ _ => .refl _, ?_⟩
  congr 1
  simp only [splice, natOf, IndexNumber.index?, Option.getD_some, ← hfront]
  have htake : (front ++ xs.map erase ++ back).take front.length = front := by simp
  have hdrop : (front ++ xs.map erase ++ back).drop (front.length + xs.length) = back :=
    List.drop_left' (by simp)
  rw [htake, hdrop]

end

/-! ## Runs of equal elements -/

theorem runLength_le (test : Nat → Bool) (n : Nat) : runLength test n ≤ n := by
  simpa [runLength] using (List.takeWhile_sublist test (l := List.range n)).length_le

theorem test_of_lt_runLength {test : Nat → Bool} {n k : Nat} (hk : k < runLength test n) :
    test k = true := by
  have hmem : (List.range n)[k]? = some k := by
    rw [List.getElem?_range (hk.trans_le (runLength_le test n))]
  obtain ⟨rest, hrest⟩ := List.takeWhile_prefix test (l := List.range n)
  have hget : ((List.range n).takeWhile test)[k]? = some k := by
    rw [← hrest, List.getElem?_append_left hk] at hmem
    exact hmem
  exact List.all_eq_true.mp List.all_takeWhile k (List.mem_of_getElem? hget)

theorem testAt_elim {test : Value → Value → Bool} {before after : List Value} {i j : Nat}
    (h : testAt test before after i j = true) :
    ∃ x y, before[i]? = some x ∧ after[j]? = some y ∧ test x y = true := by
  unfold testAt at h
  split at h
  · rename_i x y hx hy
    exact ⟨x, y, hx, hy, h⟩
  · cases h

section

variable {S : Value → Prop} (hS : Strict S) {before after : List Value} (hbefore : ∀ x ∈ before, S x)
  (hafter : ∀ y ∈ after, S y)

include hS hbefore hafter

/-- Regions that agree at every offset. -/
theorem sameRegions {i j n : Nat}
    (h : ∀ k < n, testAt sameValue before after (i + k) (j + k) = true) :
    List.Forall₂ Json.Same ((region before i (i + n)).map erase) ((region after j (j + n)).map erase) := by
  induction n with
  | zero => simp [region_self]
  | succ n ih =>
    obtain ⟨x, y, hx, hy, hsame⟩ := testAt_elim (h n (Nat.lt_succ_self n))
    have hhead := ih fun k hk => h k (hk.trans (Nat.lt_succ_self n))
    have hlast := sameValue_sound hS (hbefore x (List.mem_of_getElem? hx))
      (hafter y (List.mem_of_getElem? hy)) hsame
    rw [← Nat.add_assoc, ← Nat.add_assoc, region_append (Nat.le_add_right i n) (Nat.le_succ _),
      region_append (Nat.le_add_right j n) (Nat.le_succ _), region_singleton hx, region_singleton hy,
      List.map_append, List.map_append]
    exact List.rel_append hhead (.cons hlast .nil)

end

end Delta
