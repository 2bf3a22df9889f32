import ContextCompaction.Delta.DiffSound

/-!
# The applier rebuilds the new revision

What each function of the differ does, by induction on its rounds.

* `diffValue_does`, `diffArrayRegion_does`: given rounds for the weight, there is a result, and it is right.
* `diffRevisions_rebuilds`: the applier succeeds on what the differ gives, and comes to the new revision.
-/

namespace Delta

open Js Value

/-! ## Regions -/

/-- In these rounds `dv` finishes for the values of `S` that weigh no more, below a path. -/
def ValueDiffs (S : Value → Prop) (rounds : Nat)
    (dv : Value → Value → Path Nat → Batch → Option Batch) : Prop :=
  ∀ (x y : Value) (path : Path Nat) (b : Batch), S x → S y → SafePath path → path ≠ [] →
    weight x + weight y ≤ rounds → ∃ b', dv x y path b = some b' ∧ Does b b' (ValueTurn path x y)

/-- In these rounds `dr` finishes for the regions of two arrays that weigh less. -/
def RegionDiffs (rounds : Nat) (before after : List Value) (path : Path Nat)
    (dr : Nat → Nat → Nat → Nat → Nat → Batch → Option Batch) : Prop :=
  ∀ (beforeStart beforeEnd afterStart afterEnd outputStart : Nat) (b : Batch),
    beforeStart ≤ beforeEnd → beforeEnd ≤ before.length → afterStart ≤ afterEnd →
      afterEnd ≤ after.length →
      weightItems (region before beforeStart beforeEnd) +
        weightItems (region after afterStart afterEnd) < rounds →
      ∃ b', dr beforeStart beforeEnd afterStart afterEnd outputStart b = some b' ∧
        Does b b' (RegionTurn path (region before beforeStart beforeEnd)
          (region after afterStart afterEnd) outputStart)

section

variable {S : Value → Prop} (hS : Strict S) {before after : List Value} (hbefore : ∀ x ∈ before, S x)
  (hafter : ∀ y ∈ after, S y) {path : Path Nat} (hsafe : SafePath path) {rounds : Nat}
  {dv : Value → Value → Path Nat → Batch → Option Batch} (hdv : ValueDiffs S rounds dv)
  {dr : Nat → Nat → Nat → Nat → Nat → Batch → Option Batch}
  (hdr : RegionDiffs rounds before after path dr)

include hS hbefore hafter hsafe hdv in
theorem diffMatch_does {i j : Nat} {x y : Value} (hx : before[i]? = some x) (hy : after[j]? = some y)
    (outputAt : Nat) (b : Batch) (hrounds : weight x + weight y ≤ rounds) :
    ∃ b', diffMatch dv before after path i j outputAt b = some b' ∧
      Does b b' (RegionTurn path [x] [y] outputAt) := by
  have hxS := hbefore x (List.mem_of_getElem? hx)
  have hyS := hafter y (List.mem_of_getElem? hy)
  simp only [diffMatch, hx, hy]
  split
  · rename_i hsame
    refine ⟨b, rfl, Does.skip (RegionTurn.keep ?_)⟩
    exact .cons (sameValue_sound hS hxS hyS hsame) .nil
  · obtain ⟨b', hb', hdoes⟩ := hdv x y (path ++ [.index outputAt]) b hxS hyS (safe_index hsafe outputAt)
      (by simp) hrounds
    exact ⟨b', hb', hdoes.mono fun _ h => RegionTurn.element h⟩

include hS hbefore hafter hsafe hdv hdr in
/-- The gaps between the matches weigh less than the region does, if there is a match. -/
theorem processArrayMatches_does {beforeEnd afterEnd : Nat} (hbe : beforeEnd ≤ before.length)
    (hae : afterEnd ≤ after.length) (ms : List ArrayMatch) {beforeAt afterAt : Nat}
    (outputAt : Nat) (b : Batch)
    (hba : beforeAt ≤ beforeEnd) (haa : afterAt ≤ afterEnd)
    (hasc : Ascending beforeEnd afterEnd beforeAt afterAt ms)
    (hrounds : weightItems (region before beforeAt beforeEnd) +
      weightItems (region after afterAt afterEnd) + (if ms = [] then 1 else 0) ≤ rounds) :
    ∃ b', processArrayMatches dv dr before after path beforeEnd afterEnd ms beforeAt afterAt outputAt b =
        some b' ∧
      Does b b' (RegionTurn path (region before beforeAt beforeEnd) (region after afterAt afterEnd)
        outputAt) := by
  induction ms generalizing beforeAt afterAt outputAt b with
  | nil =>
    rw [processArrayMatches]
    split
    · rename_i hover
      exact ⟨b, rfl, Does.of_overflowed hover⟩
    · rw [if_pos rfl] at hrounds
      exact hdr _ _ _ _ _ b hba hbe haa hae (by omega)
  | cons m ms ih =>
    obtain ⟨i, j⟩ := m
    obtain ⟨hi, hib, hj, hja, hasc⟩ := hasc
    rw [processArrayMatches]
    split
    · rename_i hover
      exact ⟨b, rfl, Does.of_overflowed hover⟩
    · obtain ⟨x, hx⟩ : ∃ x, before[i]? = some x := ⟨_, List.getElem?_eq_getElem (hib.trans_le hbe)⟩
      obtain ⟨y, hy⟩ : ∃ y, after[j]? = some y := ⟨_, List.getElem?_eq_getElem (hja.trans_le hae)⟩
      -- Both regions are a gap, a matched element and a rest.
      have hsplitx : region before beforeAt beforeEnd =
          region before beforeAt i ++ ([x] ++ region before (i + 1) beforeEnd) := by
        rw [region_append hi hib.le, region_append (j := i + 1) (Nat.le_succ i) hib, region_singleton hx]
      have hsplity : region after afterAt afterEnd =
          region after afterAt j ++ ([y] ++ region after (j + 1) afterEnd) := by
        rw [region_append hj hja.le, region_append (j := j + 1) (Nat.le_succ j) hja, region_singleton hy]
      have hxpos := weight_pos x
      have hypos := weight_pos y
      rw [hsplitx, hsplity] at hrounds ⊢
      simp only [weightItems_append, weightItems] at hrounds
      obtain ⟨b₁, hb₁, hdoes₁⟩ := hdr beforeAt i afterAt j outputAt b hi (hib.le.trans hbe) hj
        (hja.le.trans hae) (by split at hrounds <;> omega)
      obtain ⟨b₂, hb₂, hdoes₂⟩ := diffMatch_does hS hbefore hafter hsafe hdv hx hy
        (outputAt + (j - afterAt)) b₁ (by split at hrounds <;> omega)
      obtain ⟨b₃, hb₃, hdoes₃⟩ := ih (outputAt + (j - afterAt) + 1) b₂
        (Nat.add_one_le_iff.mpr hib) (Nat.add_one_le_iff.mpr hja) hasc
        (by rw [if_neg (by simp)] at hrounds; split <;> omega)
      refine ⟨b₃, ?_, ?_⟩
      · simp [hb₁, hb₂, hb₃]
      · have hlen : (region after afterAt j).length = j - afterAt := length_region _ (hja.le.trans hae)
        refine hdoes₁.seq (hdoes₂.seq hdoes₃ fun ops₁ ops₂ h₁ h₂ => h₁.append h₂) ?_
        intro ops₁ ops₂ h₁ h₂
        refine h₁.append ?_
        rw [hlen]
        exact h₂

theorem ascending_ite {c : Prop} [Decidable c] {beforeEnd afterEnd beforeAt afterAt : Nat}
    {ms ms' : List ArrayMatch} (h : Ascending beforeEnd afterEnd beforeAt afterAt ms)
    (h' : Ascending beforeEnd afterEnd beforeAt afterAt ms') :
    Ascending beforeEnd afterEnd beforeAt afterAt (if c then ms else ms') := by
  split
  · exact h
  · exact h'

/-- The matches of a region ascend in both arrays, by whichever strategy. -/
theorem ascending_regionMatches {beforeStart beforeEnd afterStart afterEnd : Nat}
    (hb : beforeStart ≤ beforeEnd) (hbl : beforeEnd ≤ before.length) (ha : afterStart ≤ afterEnd)
    (hal : afterEnd ≤ after.length) :
    Ascending beforeEnd afterEnd beforeStart afterStart
      (regionMatches before after beforeStart beforeEnd afterStart afterEnd) := by
  unfold regionMatches
  refine ascending_ite ?_ (ascending_ite ?_ (ascending_ite ?_ ?_))
  · split
    · rename_i hcount
      exact ascending_offsets (m := 0) (n := beforeEnd - beforeStart) (by omega) (by omega)
        (List.pairwise_lt_range.sublist List.filter_sublist) fun k hk =>
          ⟨Nat.zero_le k, List.mem_range.mp (List.mem_of_mem_filter hk)⟩
    · trivial
  · cases h : identitySubsequence before beforeStart beforeEnd after afterStart afterEnd with
    | none => trivial
    | some ms => exact ascending_identitySubsequence hb ha h
  · exact ascending_identityAnchors hb hbl ha hal
  · cases h : lcsMatches semanticallyAligned (region before beforeStart beforeEnd)
        (region after afterStart afterEnd) MAX_SEMANTIC_CELLS with
    | none => trivial
    | some ms =>
      have hasc := ascending_lcsMatches h
      rw [length_region _ hbl, length_region _ hal] at hasc
      have hshift := hasc.shift beforeStart afterStart
      rwa [Nat.add_sub_cancel' hb, Nat.add_sub_cancel' ha] at hshift

include hS hbefore hafter hsafe hdv hdr in
/-- What is emitted for a trimmed region turns it into the other. -/
theorem diffTrimmed_does {beforeStart beforeEnd afterStart afterEnd : Nat} (outputStart : Nat) (b : Batch)
    (hb : beforeStart ≤ beforeEnd) (hbl : beforeEnd ≤ before.length) (ha : afterStart ≤ afterEnd)
    (hal : afterEnd ≤ after.length)
    (hrounds : weightItems (region before beforeStart beforeEnd) +
      weightItems (region after afterStart afterEnd) ≤ rounds) :
    ∃ b', diffTrimmed dv dr before after path beforeStart beforeEnd afterStart afterEnd outputStart b =
        some b' ∧
      Does b b' (RegionTurn path (region before beforeStart beforeEnd)
        (region after afterStart afterEnd) outputStart) := by
  have hreplace : Does b
      (emitOperation b (.p path outputStart (beforeEnd - beforeStart) (region after afterStart afterEnd)))
      (RegionTurn path (region before beforeStart beforeEnd) (region after afterStart afterEnd)
        outputStart) := by
    rw [← length_region beforeStart hbl]
    exact Does.emit (sound_of_path rfl hsafe nofun ⟨rfl, rfl⟩) RegionTurn.replace
  unfold diffTrimmed
  dsimp only
  split
  · rename_i hempty
    obtain rfl : beforeStart = beforeEnd := by omega
    obtain rfl : afterStart = afterEnd := by omega
    rw [region_self, region_self]
    exact ⟨b, rfl, Does.skip (RegionTurn.keep .nil)⟩
  · split
    · exact ⟨_, rfl, hreplace⟩
    · split
      · rename_i hmatches
        refine processArrayMatches_does hS hbefore hafter hsafe hdv hdr hbl hal _ outputStart b hb ha
          (ascending_regionMatches hb hbl ha hal) ?_
        rwa [if_neg hmatches]
      · split
        · rename_i hone
          obtain ⟨x, hx⟩ : ∃ x, before[beforeStart]? = some x :=
            ⟨_, List.getElem?_eq_getElem (by omega)⟩
          obtain ⟨y, hy⟩ : ∃ y, after[afterStart]? = some y := ⟨_, List.getElem?_eq_getElem (by omega)⟩
          obtain rfl : beforeEnd = beforeStart + 1 := by omega
          obtain rfl : afterEnd = afterStart + 1 := by omega
          rw [region_singleton hx, region_singleton hy] at hrounds ⊢
          simp only [weightItems, Nat.add_zero] at hrounds
          simp only [hx, hy]
          obtain ⟨b', hb', hdoes⟩ := hdv x y (path ++ [.index outputStart]) b
            (hbefore x (List.mem_of_getElem? hx)) (hafter y (List.mem_of_getElem? hy))
            (safe_index hsafe outputStart) (by simp) hrounds
          exact ⟨b', hb', hdoes.mono fun _ h => RegionTurn.element h⟩
        · exact ⟨_, rfl, hreplace⟩

end

section

variable {S : Value → Prop} (hS : Strict S) {rounds : Nat} (hdv : ValueDiffs S rounds (diffValue rounds))

include hS hdv in
/-- Equal elements at either end stay; what is between them does not weigh more. -/
theorem diffArrayRegion_does {before after : List Value} (hbefore : ∀ x ∈ before, S x)
    (hafter : ∀ y ∈ after, S y) {path : Path Nat} (hsafe : SafePath path)
    (hdr : RegionDiffs rounds before after path (diffArrayRegion rounds before after path)) :
    RegionDiffs (rounds + 1) before after path (diffArrayRegion (rounds + 1) before after path) := by
  intro beforeStart beforeEnd afterStart afterEnd outputStart b hb hbl ha hal hrounds
  rw [diffArrayRegion]
  split
  · rename_i hover
    exact ⟨b, rfl, Does.of_overflowed hover⟩
  · dsimp only
    generalize hatStart : runLength (fun k => testAt sameValue before after (beforeStart + k) (afterStart + k))
      (min (beforeEnd - beforeStart) (afterEnd - afterStart)) = atStart
    generalize hatEnd : runLength
      (fun k => testAt sameValue before after (beforeEnd - 1 - k) (afterEnd - 1 - k))
      (min (beforeEnd - (beforeStart + atStart)) (afterEnd - (afterStart + atStart))) = atEnd
    have hstart := hatStart ▸ runLength_le _ _
    have hend := hatEnd ▸ runLength_le _ _
    have htestStart : ∀ k < atStart,
        testAt sameValue before after (beforeStart + k) (afterStart + k) = true := by
      intro k hk
      rw [← hatStart] at hk
      have htest := test_of_lt_runLength hk
      exact htest
    have htestEnd : ∀ k < atEnd,
        testAt sameValue before after (beforeEnd - atEnd + k) (afterEnd - atEnd + k) = true := by
      intro k hk
      have hback : atEnd - 1 - k < atEnd := by omega
      rw [← hatEnd] at hback
      have htest := test_of_lt_runLength hback
      rw [hatEnd] at htest
      rwa [show beforeEnd - 1 - (atEnd - 1 - k) = beforeEnd - atEnd + k by omega,
        show afterEnd - 1 - (atEnd - 1 - k) = afterEnd - atEnd + k by omega] at htest
    have hsameStart := sameRegions hS hbefore hafter htestStart
    have hsameEnd := sameRegions hS hbefore hafter htestEnd
    rw [show beforeEnd - atEnd + atEnd = beforeEnd by omega,
      show afterEnd - atEnd + atEnd = afterEnd by omega] at hsameEnd
    have hbetween : weightItems (region before (beforeStart + atStart) (beforeEnd - atEnd)) +
        weightItems (region after (afterStart + atStart) (afterEnd - atEnd)) ≤ rounds := by
      refine (Nat.add_le_add (weight_region_le before (i := beforeStart) (j := beforeEnd) ?_ ?_ ?_)
        (weight_region_le after (i := afterStart) (j := afterEnd) ?_ ?_ ?_)).trans
          (Nat.le_of_lt_succ hrounds) <;> omega
    obtain ⟨b', hb', hdoes⟩ := diffTrimmed_does hS hbefore hafter hsafe hdv hdr (outputStart + atStart) b
      (by omega) (by omega) (by omega) (by omega) hbetween
    refine ⟨b', hb', hdoes.mono fun ops h => ?_⟩
    have hlen : (region after afterStart (afterStart + atStart)).length = atStart := by
      rw [length_region _ (by omega), Nat.add_sub_cancel_left]
    have hhead : RegionTurn path (region before beforeStart (beforeStart + atStart))
        (region after afterStart (afterStart + atStart)) outputStart [] := RegionTurn.keep hsameStart
    rw [← hlen] at h
    have hturn := (hhead.append h).append (RegionTurn.keep hsameEnd)
    rw [hlen] at hturn
    rwa [List.nil_append, List.append_nil, ← region_append (by omega) (by omega),
      ← region_append (by omega) (by omega), ← region_append (by omega) (by omega),
      ← region_append (by omega) (by omega)] at hturn

/-! ## Arrays -/

theorem assertPermutation_of_nodup {order : List Nat} (hnodup : order.Nodup)
    (hin : ∀ i ∈ order, i < order.length) : assertPermutation order = .ok () := by
  have hindices : order.map IndexNumber.index? = order.map some := rfl
  have hall : (order.map some).all (fun i => i.any (· < order.length)) = true := by simpa using hin
  have hdistinct : (order.map some).Nodup := hnodup.map (Option.some_injective Nat)
  unfold assertPermutation
  dsimp only
  rw [hindices, hall, decide_eq_true hdistinct]
  rfl

/-- The indices of a permutation are those of elements equal to its values. -/
theorem permute_spec {xs ys : List Value} {order : List Nat}
    (h : List.Forall₂ (fun i y => ∃ x, xs[i]? = some x ∧ x.erase.Same y.erase) order ys) :
    ∃ zs, permute (xs.map erase) order = some zs ∧ List.Forall₂ Json.Same zs (ys.map erase) := by
  induction h with
  | nil => exact ⟨[], rfl, .nil⟩
  | cons hhead _ ih =>
    obtain ⟨x, hx, hsame⟩ := hhead
    obtain ⟨zs, hzs, hrest⟩ := ih
    unfold permute at hzs ⊢
    refine ⟨x.erase :: zs, ?_, .cons hsame hrest⟩
    rw [List.mapM_cons, List.getElem?_map, hx, hzs]
    rfl

/-- A batch that turns one value into the other, or that puts it in place of the root. -/
def Diffed (path : Path Nat) (x y : Value) (b b' : Batch) : Prop :=
  Does b b' (ValueTurn path x y) ∨ path = [] ∧ b' = emitOperation b (.r y)

theorem emitSet_diffed {path : Path Nat} (hsafe : SafePath path) {b : Batch} (x y : Value) :
    Diffed path x y b (emitSet path y b) := by
  by_cases hpath : path = []
  · exact .inr ⟨hpath, by rw [emitSet, if_pos hpath]⟩
  · exact .inl (emitSet_does hsafe hpath x y)

include hS in
/-- What is emitted for two arrays turns the one into the other. -/
theorem diffArray_does {dr : Nat → Nat → Nat → Nat → Nat → Batch → Option Batch} {i j : Nat}
    {xs ys : List Value} (hx : S (.arr i xs)) (hy : S (.arr j ys)) {path : Path Nat}
    (hsafe : SafePath path) (hdr : RegionDiffs rounds xs ys path dr)
    (hrounds : weightItems xs + weightItems ys < rounds) (b : Batch) :
    ∃ b', diffArray dr (.arr i xs) (.arr j ys) xs ys path b = some b' ∧
      Does b b' (ValueTurn path (.arr i xs) (.arr j ys)) := by
  have hxs := hS.items hx
  have hys := hS.items hy
  unfold diffArray
  split
  · rename_i hsame
    refine ⟨b, rfl, Does.skip (Turns.nil ?_)⟩
    exact sameValue_sound hS hx hy hsame
  · dsimp only
    split
    · rename_i order horder
      split at horder
      · obtain ⟨hlen, hnodup, hin, hpairs⟩ := permutation_spec hS hxs hys horder
        refine ⟨_, rfl, Does.emit (sound_of_path rfl hsafe nofun ?_) ?_⟩
        · refine assertPermutation_of_nodup hnodup fun k hk => ?_
          rw [hlen]
          exact hin k hk
        · obtain ⟨zs, hzs, hsame⟩ := permute_spec hpairs
          unfold ValueTurn
          rw [erase_arr, erase_arr]
          have hindices : order.map natOf = order := List.map_id order
          have hturn : Turns path [.m path order] (.arr (xs.map erase)) (· = .arr zs) :=
            Turns.permute (by rw [List.length_map, hlen]) (by rw [hindices]; exact hzs)
          exact hturn.mono fun v hv => hv ▸ sameArr hsame
      · cases horder
    · obtain ⟨b', hb', hdoes⟩ := hdr 0 xs.length 0 ys.length 0 b (Nat.zero_le _) le_rfl (Nat.zero_le _)
        le_rfl (by rwa [region_all, region_all])
      rw [region_all, region_all] at hdoes
      refine ⟨b', hb', hdoes.mono fun ops h => ?_⟩
      have hturn := h [] [] rfl
      simp only [List.nil_append, List.append_nil] at hturn
      unfold ValueTurn
      rw [erase_arr, erase_arr]
      refine Turns.mono hturn ?_
      rintro v ⟨outs, houts, rfl⟩
      exact sameArr houts

end

/-! ## Objects -/

/-- What the keys hold: the ones done an equal value, the others the old one. -/
def Merged (before done : List (Str × Value)) (fields : List (Str × Json)) : Prop :=
  ∀ k, match mapGet done k with
    | some y => ∃ v, mapGet fields k = some v ∧ v.Same y.erase
    | none => mapGet fields k = (mapGet before k).map erase

theorem Merged.set {before done : List (Str × Value)} {fields : List (Str × Json)}
    (h : Merged before done fields) {key : Str} {y : Value} (hkey : mapGet done key = none) {c : Json}
    (hc : c.Same y.erase) : Merged before (done ++ [(key, y)]) (mapSet fields key c) := by
  intro k
  rw [mapGet_append, mapGet_mapSet]
  by_cases hk : key = k
  · subst hk
    simpa [hkey] using hc
  · have hrest := h k
    cases hdone : mapGet done k with
    | none => simpa [hdone, hk] using hrest
    | some y => simpa [hdone, hk] using hrest

/-- What remains to be deleted are keys of `todo` that `after` lacks. -/
structure Pruned (after todo : List (Str × Value)) (fields : List (Str × Json)) : Prop where
  kept : ∀ k y, mapGet after k = some y → ∃ v, mapGet fields k = some v ∧ v.Same y.erase
  gone : ∀ k, mapGet after k = none → k ∉ todo.map Prod.fst → mapGet fields k = none

/-- An object without the keys that are gone is the object after. -/
theorem Pruned.same {after : List (Str × Value)} {fields : List (Str × Json)}
    (h : Pruned after [] fields) : (Json.obj fields).Same (.obj (after.map fun f => (f.1, f.2.erase))) := by
  refine .obj (fun k => ?_) fun k u v hu hv => ?_
  · rw [mapGet_map, Option.isSome_map]
    cases hafter : mapGet after k with
    | none =>
      rw [h.gone k hafter (by simp)]
      rfl
    | some y =>
      obtain ⟨v, hv, -⟩ := h.kept k y hafter
      rw [hv]
      rfl
  · rw [mapGet_map] at hv
    obtain ⟨y, hy, rfl⟩ := Option.map_eq_some_iff.mp hv
    obtain ⟨v, hv, hsame⟩ := h.kept k y hy
    rw [hu] at hv
    exact Option.some.inj hv ▸ hsame

section

variable {path : Path Nat} (hsafe : SafePath path)

include hsafe

/-- What is emitted for the keys that are gone removes them. -/
theorem deleteKeys_does (after todo : List (Str × Value)) (b : Batch)
    (hkeys : ∀ f ∈ todo, f.1 ∉ RESERVED_SEGMENTS) :
    Does b (deleteKeys after path todo b) fun ops => ∀ fields, Pruned after todo fields →
      Turn path ops (.obj fields) (·.Same (.obj (after.map fun f => (f.1, f.2.erase)))) := by
  induction todo generalizing b with
  | nil => exact Does.skip fun fields h => Turns.nil h.same
  | cons f todo ih =>
    obtain ⟨key, x⟩ := f
    rw [List.forall_mem_cons] at hkeys
    rw [deleteKeys]
    split
    · rename_i hover
      exact Does.of_overflowed hover
    · split
      · rename_i hsome
        refine (ih b hkeys.2).mono fun ops hops fields h => hops fields ⟨h.kept, fun k hk hmem => ?_⟩
        refine h.gone k hk fun hcons => ?_
        rcases List.mem_cons.mp hcons with rfl | htodo
        · rw [hk] at hsome
          cases hsome
        · exact hmem htodo
      · rename_i hnone
        have hdelete : Does b (emitOperation b (.d (path ++ [.key key]))) fun ops => ∀ fields,
            Turn path ops (.obj fields) (· = .obj (mapDelete fields key)) :=
          Does.emit (sound_of_path rfl (safe_key hsafe hkeys.1) (by simp) trivial) fun fields =>
            Turns.deleteKey key fields
        refine hdelete.seq (ih _ hkeys.2) fun ops₁ ops₂ h₁ h₂ fields h => ?_
        refine (h₁ fields).append ?_
        rintro w rfl
        refine h₂ _ ⟨fun k y hy => ?_, fun k hk hmem => ?_⟩
        · rw [mapGet_mapDelete, if_neg fun heq => hnone (by rw [heq, hy]; rfl)]
          exact h.kept k y hy
        · rw [mapGet_mapDelete]
          split
          · rfl
          · rename_i hne
            refine h.gone k hk fun hcons => ?_
            exact (List.mem_cons.mp hcons).elim (fun heq => hne heq.symm) hmem

/-- A key that is not done gets an equal value. -/
theorem diffKey_does {S : Value → Prop} {rounds : Nat}
    {dv : Value → Value → Path Nat → Batch → Option Batch} (hdv : ValueDiffs S rounds dv)
    {before done : List (Str × Value)} (hbefore : ∀ f ∈ before, S f.2) {key : Str} {y : Value} (b : Batch)
    (hy : S y) (hkey : key ∉ RESERVED_SEGMENTS) (hnew : mapGet done key = none)
    (hrounds : weightFields before + weight y ≤ rounds) :
    ∃ b', diffKey dv before path key y b = some b' ∧ Does b b' fun ops => ∀ fields,
      Merged before done fields → Turn path ops (.obj fields) fun v =>
        ∃ fields', v = .obj fields' ∧ Merged before (done ++ [(key, y)]) fields' := by
  have hsafe' := safe_key hsafe hkey
  unfold diffKey
  cases hx : mapGet before key with
  | none =>
    have hset : emitSet (path ++ [.key key]) y b = emitOperation b (.s (path ++ [.key key]) y) := by
      rw [emitSet, if_neg (by simp)]
    refine ⟨_, rfl, hset ▸ Does.emit (sound_of_path rfl hsafe' (by simp) trivial) ?_⟩
    intro fields h
    refine Turns.mono (Turns.setKey key fields y.erase) ?_
    rintro w rfl
    exact ⟨_, rfl, h.set hnew (.refl _)⟩
  | some x =>
    have hweight := weight_le_weightFields (mem_of_mapGet hx)
    obtain ⟨b', hb', hdoes⟩ := hdv x y (path ++ [.key key]) b (hbefore _ (mem_of_mapGet hx)) hy hsafe'
      (by simp) ((Nat.add_le_add_right hweight _).trans hrounds)
    refine ⟨b', hb', hdoes.mono fun ops hops fields h => ?_⟩
    have hchild : child? (ν := Nat) (.obj fields) (.key key) = some x.erase := by
      have hold := h key
      rw [hnew, hx] at hold
      exact hold
    refine Turns.mono (Turns.child hops hchild) ?_
    rintro v ⟨c, hc, hput⟩
    exact ⟨_, (Option.some.inj hput).symm, h.set hnew hc⟩

/-- What is emitted for the keys after merges their values. -/
theorem diffKeys_does {S : Value → Prop} {rounds : Nat}
    {dv : Value → Value → Path Nat → Batch → Option Batch} (hdv : ValueDiffs S rounds dv)
    {before : List (Str × Value)} (hbefore : ∀ f ∈ before, S f.2) (after : List (Str × Value))
    (done : List (Str × Value)) (b : Batch) (hafter : ∀ f ∈ after, S f.2)
    (hkeys : ∀ f ∈ after, f.1 ∉ RESERVED_SEGMENTS) (hnodup : ((done ++ after).map Prod.fst).Nodup)
    (hrounds : weightFields before + weightFields after ≤ rounds) :
    ∃ b', diffKeys dv before path after b = some b' ∧ Does b b' fun ops => ∀ fields,
      Merged before done fields → Turn path ops (.obj fields) fun v =>
        ∃ fields', v = .obj fields' ∧ Merged before (done ++ after) fields' := by
  induction after generalizing done b with
  | nil => exact ⟨b, rfl, Does.skip fun fields h => Turns.nil ⟨fields, rfl, by rwa [List.append_nil]⟩⟩
  | cons f after ih =>
    obtain ⟨key, y⟩ := f
    rw [List.forall_mem_cons] at hafter hkeys
    rw [weightFields] at hrounds
    rw [diffKeys]
    split
    · rename_i hover
      exact ⟨b, rfl, Does.of_overflowed hover⟩
    · have hnew : mapGet done key = none := by
        rw [mapGet_eq_none]
        intro hmem
        rw [List.map_append, List.map_cons] at hnodup
        exact (List.nodup_append.mp hnodup).2.2 key hmem key List.mem_cons_self rfl
      obtain ⟨b₁, hb₁, hdoes₁⟩ := diffKey_does (y := y) hsafe hdv hbefore b hafter.1 hkeys.1 hnew
        (by omega)
      obtain ⟨b₂, hb₂, hdoes₂⟩ := ih (done ++ [(key, y)]) b₁ hafter.2 hkeys.2 (by simpa using hnodup)
        (by omega)
      refine ⟨b₂, Option.bind_eq_some_iff.mpr ⟨b₁, hb₁, hb₂⟩, ?_⟩
      refine hdoes₁.seq hdoes₂ fun ops₁ ops₂ h₁ h₂ fields h => ?_
      refine (h₁ fields h).append ?_
      rintro w ⟨fields', rfl, h'⟩
      refine Turns.mono (h₂ fields' h') ?_
      rintro v ⟨fields'', rfl, h''⟩
      exact ⟨fields'', rfl, by simpa using h''⟩

/-- Reserved keys cannot be walked to: then the whole object is set. -/
theorem diffObject_does {S : Value → Prop} (hS : Strict S) {rounds : Nat}
    {dv : Value → Value → Path Nat → Batch → Option Batch} (hdv : ValueDiffs S rounds dv) {i j : Nat}
    {fs gs : List (Str × Value)} (hx : S (.obj i fs)) (hy : S (.obj j gs)) (b : Batch)
    (hrounds : weightFields fs + weightFields gs ≤ rounds) :
    ∃ b', diffObject dv (.obj i fs) (.obj j gs) fs gs path b = some b' ∧
      Diffed path (.obj i fs) (.obj j gs) b b' := by
  unfold diffObject
  split
  · refine ⟨_, rfl, ?_⟩
    split
    · rename_i hequal
      exact .inl (Does.skip (Turns.nil (equalJson_sound hS hx hy hequal)))
    · exact emitSet_diffed hsafe _ _
  · rename_i hreserved
    have hkeys : (∀ f ∈ fs, f.1 ∉ RESERVED_SEGMENTS) ∧ ∀ f ∈ gs, f.1 ∉ RESERVED_SEGMENTS := by
      simpa using hreserved
    obtain ⟨b₁, hb₁, hdoes₁⟩ := diffKeys_does hsafe hdv (hS.fields hx) gs [] b (hS.fields hy) hkeys.2
      (hS.keys hy) hrounds
    refine ⟨_, Option.bind_eq_some_iff.mpr ⟨b₁, hb₁, rfl⟩, .inl ?_⟩
    refine hdoes₁.seq (deleteKeys_does hsafe gs fs b₁ hkeys.1) fun ops₁ ops₂ h₁ h₂ => ?_
    unfold ValueTurn
    rw [erase_obj, erase_obj]
    have hold : Merged fs [] (fs.map fun f => (f.1, f.2.erase)) := fun k => mapGet_map _ _ _
    refine (h₁ _ hold).append ?_
    rintro w ⟨fields, rfl, hmerged⟩
    refine h₂ fields ⟨fun k y hk => ?_, fun k hk hmem => ?_⟩
    · have hkey := hmerged k
      rwa [List.nil_append, hk] at hkey
    · have hkey := hmerged k
      rw [List.nil_append, hk] at hkey
      rw [hkey, mapGet_eq_none.mpr hmem]
      rfl

end

/-! ## Values -/

section

variable {S : Value → Prop} (hS : Strict S)

include hS

/-- One round of the differ, given that the rounds below are right. -/
theorem diffValue_step {rounds : Nat} (hdv : ValueDiffs S rounds (diffValue rounds))
    (hdr : ∀ {before after : List Value} {path : Path Nat}, (∀ x ∈ before, S x) → (∀ y ∈ after, S y) →
      SafePath path → RegionDiffs rounds before after path (diffArrayRegion rounds before after path))
    {x y : Value} (hx : S x) (hy : S y) {path : Path Nat} (hsafe : SafePath path) (b : Batch)
    (hrounds : weight x + weight y ≤ rounds + 1) :
    ∃ b', diffValue (rounds + 1) x y path b = some b' ∧ Diffed path x y b b' := by
  rw [diffValue.eq_def]
  dsimp only
  split
  · rename_i hskip
    refine ⟨b, rfl, .inl ?_⟩
    rcases (Bool.or_eq_true _ _).mp hskip with hsame | hover
    · exact Does.skip (Turns.nil (same_sound hS hx hy hsame))
    · exact Does.of_overflowed hover
  · split
    · by_cases hpath : path = []
      · rw [if_neg (not_not.mpr hpath)]
        exact ⟨_, rfl, emitSet_diffed hsafe _ _⟩
      · rw [if_pos hpath]
        exact ⟨_, rfl, .inl (emitString_does hsafe hpath _ _)⟩
    · rename_i i xs j ys
      rw [weight, weight] at hrounds
      obtain ⟨b', hb', hdoes⟩ := diffArray_does hS hx hy hsafe (hdr (hS.items hx) (hS.items hy) hsafe)
        (by omega) b
      exact ⟨b', hb', .inl hdoes⟩
    · rename_i i fs j gs
      rw [weight, weight] at hrounds
      exact diffObject_does hsafe hS hdv hx hy b (by omega)
    · exact ⟨_, rfl, emitSet_diffed hsafe _ _⟩

/-- What is emitted for two values, or two regions, turns the one into the other, given rounds for their
weights. -/
theorem differ_does (rounds : Nat) :
    ValueDiffs S rounds (diffValue rounds) ∧
      ∀ {before after : List Value} {path : Path Nat}, (∀ x ∈ before, S x) → (∀ y ∈ after, S y) →
        SafePath path → RegionDiffs rounds before after path (diffArrayRegion rounds before after path) := by
  induction rounds with
  | zero =>
    refine ⟨fun x y path b _ _ _ _ hrounds => ?_, fun _ _ _ => ?_⟩
    · have := weight_pos x
      omega
    · intro _ _ _ _ _ b _ _ _ _ hrounds
      omega
  | succ rounds ih =>
    obtain ⟨hdv, hdr⟩ := ih
    refine ⟨fun x y path b hx hy hsafe hpath hrounds => ?_, fun hbefore hafter hsafe =>
      diffArrayRegion_does hS hdv hbefore hafter hsafe (hdr hbefore hafter hsafe)⟩
    obtain ⟨b', hb', hdiffed⟩ := diffValue_step hS hdv hdr hx hy hsafe b hrounds
    exact ⟨b', hb', hdiffed.resolve_right fun h => hpath h.1⟩

end

/-! ## Revisions -/

theorem edits_of_turn {ops : List (Op Nat Value)} {v : Json} {Q : Json → Prop} (h : Turn [] ops v Q) :
    ∃ w, edits (ops.map (Op.map erase)) v = some w ∧ Q w := by
  obtain ⟨w, r, hedits, hset, hw⟩ := h v rfl
  exact ⟨r, hedits, Option.some.inj hset ▸ hw⟩

theorem assertValidOp_map {op : Op Nat Value} (h : assertValidOp op = .ok ()) :
    assertValidOp (op.map erase) = .ok () := by
  cases op <;> exact h

/-- What a batch of operations leads to, and what it may hold. -/
def Rebuilds (before after : Value) (ops : List (Op Nat Value)) : Prop :=
  (∃ v, applyImmutable before.erase (ops.map (Op.map erase)) = .ok v ∧ v.Same after.erase) ∧
    (∀ op ∈ ops, assertValidOp op = .ok ()) ∧ ∀ op ∈ ops, isReplace op = true → ops = [op]

theorem rebuilds_replace (before after : Value) : Rebuilds before after [.r after] := by
  refine ⟨⟨after.erase, applyImmutable_of_edits ?_ rfl, .refl _⟩, ?_, ?_⟩
  · simp [Op.map, assertValidOp]
  · simp [assertValidOp]
  · simp

theorem rebuilds_of_sound {before after : Value} {ops : List (Op Nat Value)}
    (hsound : ∀ op ∈ ops, Sound op) (hturn : ValueTurn [] before after ops) :
    Rebuilds before after ops := by
  obtain ⟨v, hedits, hsame⟩ := edits_of_turn hturn
  refine ⟨⟨v, applyImmutable_of_edits ?_ hedits, hsame⟩, fun op hop => (hsound op hop).1, ?_⟩
  · intro op hop
    obtain ⟨op', hop', rfl⟩ := List.mem_map.mp hop
    exact assertValidOp_map (hsound op' hop').1
  · intro op hop hreplace
    rw [(hsound op hop).2] at hreplace
    cases hreplace

/-- For any two revisions the differ terminates; the applier accepts what it gives, and turns the old
revision into the new one, up to the order of keys and the sign of zero. -/
theorem diffRevisions_rebuilds {S : Value → Prop} (hS : Strict S) {before after : Value}
    (hbefore : S before) (hafter : S after) :
    ∃ ops, diffRevisions before after = some ops ∧ Rebuilds before after ops := by
  obtain ⟨b, hb, hdiffed⟩ : ∃ b, diffValue (weight before + weight after) before after [] ⟨[], false⟩ =
      some b ∧ Diffed [] before after ⟨[], false⟩ b := by
    obtain ⟨rounds, hrounds⟩ := Nat.exists_eq_add_one.mpr
      (Nat.add_pos_left (weight_pos before) (weight after))
    obtain ⟨hdv, hdr⟩ := differ_does hS rounds
    rw [hrounds]
    exact diffValue_step hS hdv hdr hbefore hafter (by simp [SafePath]) _ hrounds.le
  have hreplace := rebuilds_replace before after
  -- A batch that has not overflowed is right whatever it costs.
  have hops : b.overflowed = false → Rebuilds before after b.operations := by
    intro hover
    rcases hdiffed with hdoes | ⟨-, rfl⟩
    · obtain ⟨-, ops, heq, hsound, hturn⟩ := hdoes hover
      rw [heq, List.nil_append]
      exact rebuilds_of_sound hsound hturn
    · exact hreplace
  unfold diffRevisions
  rw [hb]
  simp only [Option.bind_eq_bind, Option.bind_some]
  split
  · exact ⟨_, rfl, hreplace⟩
  · rename_i hover
    have hbatch := hops (Bool.not_eq_true _ ▸ hover)
    split
    · exact ⟨_, rfl, hbatch⟩
    · split
      · exact ⟨_, rfl, hbatch⟩
      · refine ⟨_, rfl, ?_⟩
        split
        · exact hreplace
        · exact hbatch

/-- Two arrays that share an object. -/
def sampleShared : Value := .obj 2 [(lit "k", .null)]

/-- An array that holds one shared container. -/
def sampleBefore : Value := .arr 0 [sampleShared]

/-- The same container behind a new string, in a new array. -/
def sampleAfter : Value := .arr 1 [.str (lit "a"), sampleShared]

/-- The values of the two revisions, and `null`. -/
def samples : List Value := [.null, .str (lit "a"), sampleShared, sampleBefore, sampleAfter]

theorem strict_samples : Strict (· ∈ samples) where
  items h := by
    simp only [samples, sampleShared, sampleBefore, sampleAfter] at h ⊢
    grind
  fields h := by
    simp only [samples, sampleShared, sampleBefore, sampleAfter] at h ⊢
    grind
  keys h := by
    simp only [samples, sampleShared, sampleBefore, sampleAfter] at h
    grind
  identical hx hy hcontainer hsame := by
    simp only [samples, List.mem_cons, List.not_mem_nil, or_false] at hx hy
    rcases hx with rfl | rfl | rfl | rfl | rfl <;> rcases hy with rfl | rfl | rfl | rfl | rfl <;>
      first | rfl | exact absurd hcontainer (by decide) | exact absurd hsame (by decide)

theorem diffRevisions_rebuilds_sample :
    ∃ ops, diffRevisions sampleBefore sampleAfter = some ops ∧ Rebuilds sampleBefore sampleAfter ops :=
  diffRevisions_rebuilds strict_samples (by simp [samples]) (by simp [samples])

end Delta
