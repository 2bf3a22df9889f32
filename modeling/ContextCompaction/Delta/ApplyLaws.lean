import ContextCompaction.Delta.Apply

/-!
# What the applier does

Copying gives an operation owned containers to write to, and the writes come to its edit; where the edit
is not possible, an error is thrown, and never is a shared container written to.

* `perform_meets`: an operation in place.
* `applyImmutableOp_meets`: the same, behind the copies.
* `applyImmutable_of_edits`: the applier does the edits of a batch.
-/

namespace Delta

open Js

variable {ν : Type} [IndexNumber ν]

/-! ## Containers -/

theorem mapSet_map {κ β γ : Type} [DecidableEq κ] (f : β → γ) (m : List (κ × β)) (k : κ) (v : β) :
    mapSet (m.map fun e => (e.1, f e.2)) k (f v) = (mapSet m k v).map fun e => (e.1, f e.2) := by
  induction m with
  | nil => rfl
  | cons e m ih =>
    by_cases hk : e.1 = k <;> simp [mapSet, hk, ih]

theorem mapDelete_map {κ β γ : Type} [DecidableEq κ] (f : β → γ) (m : List (κ × β)) (k : κ) :
    mapDelete (m.map fun e => (e.1, f e.2)) k = (mapDelete m k).map fun e => (e.1, f e.2) := by
  simp [mapDelete, List.filter_map, Function.comp_def]

theorem index?_eq {n : ν} {i : Nat} (h : IndexNumber.index? n = some i) : natOf n = i := by
  simp [natOf, h]

/-- Writing what is there changes nothing. -/
theorem put_of_child? {v c : Json} {seg : Seg ν} (h : child? v seg = some c) : put v seg c = some v := by
  cases v with
  | arr xs =>
    cases seg with
    | key name => cases h
    | index n =>
      obtain ⟨i, hi, hget⟩ := Option.bind_eq_some_iff.mp h
      obtain ⟨hlt, hget⟩ := List.getElem?_eq_some_iff.mp hget
      simp [put, hi, hlt, ← hget]
  | obj fields => simpa [put] using mapSet_eq_self h
  | _ => cases h

namespace Held

def Owned : Held → Prop
  | .shared _ => False
  | _ => True

theorem erase_child? (h : Held) (seg : Seg ν) :
    (h.child? seg).map erase = Delta.child? h.erase seg := by
  cases h with
  | shared v => simp [child?, Function.comp_def]
  | arr items =>
    cases seg with
    | key name => rfl
    | index n =>
      cases hn : IndexNumber.index? n <;> simp [child?, Delta.child?, hn]
  | obj fields => simp [child?, Delta.child?, mapGet_map]

theorem exists_child? {h : Held} {seg : Seg ν} {c : Json} (hc : Delta.child? h.erase seg = some c) :
    ∃ child, h.child? seg = some child ∧ child.erase = c :=
  Option.map_eq_some_iff.mp ((erase_child? h seg).trans hc)

/-- What is no container has no copy. -/
theorem own?_spec (h : Held) :
    (h.own? = none ∧ h.isObj = false) ∨ ∃ h', h.own? = some h' ∧ h'.erase = h.erase ∧ h'.Owned := by
  cases h with
  | shared v =>
    cases v with
    | arr xs => exact .inr ⟨_, rfl, by simp [Function.comp_def], trivial⟩
    | obj fields => exact .inr ⟨_, rfl, by simp [Function.comp_def], trivial⟩
    | _ => exact .inl ⟨rfl, rfl⟩
  | arr items => exact .inr ⟨_, rfl, rfl, trivial⟩
  | obj fields => exact .inr ⟨_, rfl, rfl, trivial⟩

theorem own?_ok {h : Held} (hobj : h.isObj = true) :
    ∃ h', h.own? = some h' ∧ h'.erase = h.erase ∧ h'.Owned := by
  rcases own?_spec h with ⟨-, hnot⟩ | hown
  · rw [hobj] at hnot
    cases hnot
  · exact hown

theorem isObj_of_child? {h : Held} {seg : Seg ν} {c : Json} (hc : Delta.child? h.erase seg = some c) :
    h.isObj = true := by
  unfold isObj
  cases hv : h.erase with
  | arr xs => rfl
  | obj fields => rfl
  | _ => rw [hv] at hc; cases hc

theorem hasOwn_of_child? {h : Held} {seg : Seg ν} {c : Json} (hc : Delta.child? h.erase seg = some c) :
    h.hasOwn seg = true := by
  unfold hasOwn
  split
  · rename_i hv
    rw [hv] at hc
    cases hc
  · rw [hc]
    rfl

/-- A child that is set is found again, and its parent is owned. -/
theorem child?_set {h : Held} {seg : Seg ν} {c : Json} (ho : h.Owned)
    (hc : Delta.child? h.erase seg = some c) (x : Held) :
    (h.set seg x).child? seg = some x ∧ (h.set seg x).Owned := by
  cases h with
  | shared v => cases ho
  | arr items =>
    cases seg with
    | key name => simp [Delta.child?] at hc
    | index n =>
      rw [erase_arr] at hc
      obtain ⟨i, hi, hget⟩ := Option.bind_eq_some_iff.mp hc
      obtain ⟨hlt, -⟩ := List.getElem?_eq_some_iff.mp hget
      rw [List.length_map] at hlt
      exact ⟨by simp [set, child?, hi, index?_eq hi, hlt], trivial⟩
  | obj fields => exact ⟨by simp [set, child?], trivial⟩

/-- Setting a child of a held value is putting it into the JSON value. -/
theorem put_erase_set {h : Held} {seg : Seg ν} {c : Json} (ho : h.Owned)
    (hc : Delta.child? h.erase seg = some c) (x : Held) :
    put h.erase seg x.erase = some (h.set seg x).erase := by
  cases h with
  | shared v => cases ho
  | arr items =>
    cases seg with
    | key name => simp [Delta.child?] at hc
    | index n =>
      rw [erase_arr] at hc
      obtain ⟨i, hi, hget⟩ := Option.bind_eq_some_iff.mp hc
      obtain ⟨hlt, -⟩ := List.getElem?_eq_some_iff.mp hget
      simp only [List.length_map] at hlt
      simp [put, set, hi, index?_eq hi, hlt]
  | obj fields => simp [put, set, mapSet_map]

/-- A write in place to an owned container. -/
theorem write_ok {h : Held} {seg : Seg ν} {w : Json} (ho : h.Owned) {x : Held}
    (hput : put h.erase seg x.erase = some w) : ∃ h', h.write seg x = .ok h' ∧ h'.erase = w := by
  cases h with
  | shared v => cases ho
  | arr items =>
    cases seg with
    | key name => simp [put] at hput
    | index n =>
      rw [erase_arr] at hput
      obtain ⟨i, hi, hput⟩ := Option.bind_eq_some_iff.mp hput
      refine ⟨_, by rw [write, hi], ?_⟩
      split at hput
      · rename_i hlt
        rw [List.length_map] at hlt
        obtain rfl := Option.some.inj hput
        simp [hlt]
      · split at hput
        · rename_i heq
          rw [List.length_map] at heq
          obtain rfl := Option.some.inj hput
          simp [heq]
        · cases hput
  | obj fields =>
    refine ⟨_, rfl, ?_⟩
    rw [erase_obj] at hput ⊢
    obtain rfl := Option.some.inj hput
    rw [mapSet_map]

end Held

/-! ## Outcomes -/

section

omit [IndexNumber ν]

/-- An outcome beside an edit: the value that it gives, or an error that is thrown where it gives none. -/
inductive Meets : Except (ApplyError ν) Json → Option Json → Prop where
  | ok (w : Json) : Meets (.ok w) (some w)
  | thrown (e : DeltaError ν) : Meets (.error (.thrown e)) none

namespace Meets

variable {x : Except (ApplyError ν) Held} {y : Option Json}

theorem of_ok {h : Held} {w : Json} (herase : h.erase = w) :
    Meets ((.ok h : Except (ApplyError ν) Held).map Held.erase) (some w) := herase ▸ .ok h.erase

theorem of_thrown (e : DeltaError ν) :
    Meets ((.error (.thrown e) : Except (ApplyError ν) Held).map Held.erase) none := .thrown e

theorem inv (h : Meets (x.map Held.erase) y) :
    (∃ h', x = .ok h' ∧ y = some h'.erase) ∨ ∃ e, x = .error (.thrown e) ∧ y = none := by
  cases x with
  | ok h' =>
    change Meets (.ok h'.erase) y at h
    cases h
    exact .inl ⟨h', rfl, rfl⟩
  | error e =>
    change Meets (.error e) y at h
    cases h
    exact .inr ⟨_, rfl, rfl⟩

theorem bind {k : Held → Except (ApplyError ν) Held} {l : Json → Option Json}
    (h : Meets (x.map Held.erase) y) (hk : ∀ h', Meets ((k h').map Held.erase) (l h'.erase)) :
    Meets ((x >>= k).map Held.erase) (y.bind l) := by
  rcases h.inv with ⟨h', rfl, rfl⟩ | ⟨e, rfl, rfl⟩
  · exact hk h'
  · exact of_thrown e

end Meets

end

/-! ## Paths -/

/-- The containers along a path are owned, as far as the path leads. -/
def OwnedTo : Path ν → Held → Prop
  | [], h => h.isObj = true → h.Owned
  | seg :: path, h => (h.isObj = true → h.Owned) ∧ ∀ child, h.child? seg = some child → OwnedTo path child

theorem OwnedTo.owned {path : Path ν} {h : Held} (ho : OwnedTo path h) (hobj : h.isObj = true) :
    h.Owned := by
  cases path with
  | nil => exact ho hobj
  | cons seg path => exact ho.1 hobj

/-- The copies: the value stays, and the path is owned; without a container at its end there is none. -/
theorem copyContainers_spec (whole path : Path ν) (h : Held) :
    (∃ h', copyContainers whole path h = .ok h' ∧ h'.erase = h.erase ∧ OwnedTo path h') ∨
      (∃ e, copyContainers whole path h = .error e) ∧
        ∀ c, getAt path h.erase = some c → isContainer c = false := by
  induction path generalizing h with
  | nil =>
    rcases Held.own?_spec h with ⟨hown, hobj⟩ | ⟨h', hown, herase, ho⟩
    · refine .inr ⟨⟨_, by rw [copyContainers, hown]⟩, fun c hc => ?_⟩
      obtain rfl := Option.some.inj hc
      exact hobj
    · exact .inl ⟨h', by rw [copyContainers, hown], herase, fun _ => ho⟩
  | cons seg path ih =>
    cases hc : child? h.erase seg with
    | none =>
      refine .inr ⟨?_, fun c hget => by rw [getAt, hc] at hget; cases hget⟩
      rw [copyContainers]
      rcases Held.own?_spec h with ⟨hown, -⟩ | ⟨h₁, hown, herase, -⟩
      · exact ⟨_, by rw [hown]⟩
      · have hnone : h₁.child? seg = none := by
          have := Held.erase_child? h₁ seg
          rwa [herase, hc, Option.map_eq_none_iff] at this
        rw [hown]
        dsimp only
        split_ifs
        · exact ⟨_, rfl⟩
        · split
          · exact ⟨_, rfl⟩
          · exact ⟨_, by rw [hnone]⟩
    | some c =>
      obtain ⟨h₁, hown, herase, ho⟩ := Held.own?_ok (Held.isObj_of_child? hc)
      rw [← herase] at hc
      obtain ⟨child, hchild, rfl⟩ := Held.exists_child? hc
      have hcopy : copyContainers whole (seg :: path) h =
          (copyContainers whole path child).bind fun child => .ok (h₁.set seg child) := by
        rw [copyContainers, hown]
        dsimp only
        rw [if_neg (by simp [Held.hasOwn_of_child? hc])]
        split
        · cases hchild
        · rw [hchild]
          rfl
      rcases ih child with ⟨child', hok, hsame, hpath⟩ | ⟨⟨e, herror⟩, hnone⟩
      · have hput := Held.put_erase_set ho hc child'
        rw [hsame, put_of_child? hc] at hput
        obtain ⟨hset, howned⟩ := Held.child?_set ho hc child'
        refine .inl ⟨h₁.set seg child', by rw [hcopy, hok]; rfl, by rw [← Option.some.inj hput, herase],
          fun _ => howned, fun x hx => ?_⟩
        obtain rfl := Option.some.inj (hset.symm.trans hx)
        exact hpath
      · refine .inr ⟨⟨e, by rw [hcopy, herror]; rfl⟩, fun c hget => hnone c ?_⟩
        rw [← herase, getAt, hc] at hget
        exact hget

theorem walkStep_ok {whole : Path ν} {h child : Held} {seg : Seg ν} {c : Json}
    (hc : child? h.erase seg = some c) (hchild : h.child? seg = some child) :
    walkStep whole h seg = .ok child := by
  unfold walkStep
  rw [if_neg (by simp [Held.isObj_of_child? hc])]
  split
  · rename_i name harray
    cases h with
    | shared v => cases v <;> simp_all [Held.isArray, child?]
    | arr items => cases hchild
    | obj fields => cases harray
  · rw [hchild]

theorem walkStep_error (whole : Path ν) {h : Held} {seg : Seg ν} (hc : child? h.erase seg = none) :
    ∃ e, walkStep whole h seg = .error e := by
  have hnone : h.child? seg = none := by
    have := Held.erase_child? h seg
    rwa [hc, Option.map_eq_none_iff] at this
  unfold walkStep
  split_ifs
  · exact ⟨_, rfl⟩
  · split
    · exact ⟨_, rfl⟩
    · exact ⟨_, by rw [hnone]⟩

/-- In place, at the end of an owned path. -/
theorem mutateAt_meets {whole path : Path ν} {f : Held → Except (ApplyError ν) Held}
    {g : Json → Option Json} {h : Held} (ho : OwnedTo path h)
    (hf : ∀ t : Held, t.Owned → Meets ((f t).map Held.erase) (g t.erase))
    (hg : ∀ v, isContainer v = false → g v = none) :
    Meets ((mutateAt whole f path h).map Held.erase) (modifyAt g path h.erase) := by
  induction path generalizing h with
  | nil =>
    rw [mutateAt, modifyAt]
    by_cases hobj : h.isObj = true
    · rw [if_pos hobj]
      exact hf h (ho hobj)
    · rw [if_neg hobj, hg _ (Bool.not_eq_true _ ▸ hobj)]
      exact .of_thrown _
  | cons seg path ih =>
    rw [modifyAt, mutateAt]
    cases hc : child? h.erase seg with
    | none =>
      obtain ⟨e, herror⟩ := walkStep_error whole hc
      rw [herror]
      exact .of_thrown e
    | some c =>
      obtain ⟨child, hchild, rfl⟩ := Held.exists_child? hc
      rw [walkStep_ok hc hchild]
      refine (ih (ho.2 child hchild)).bind fun child' => ?_
      have howned := ho.1 (Held.isObj_of_child? hc)
      -- A property that is there may be written.
      obtain ⟨w, hput⟩ : ∃ w, put h.erase seg child'.erase = some w :=
        ⟨_, Held.put_erase_set howned hc child'⟩
      obtain ⟨h', hwrite, herase⟩ := Held.write_ok howned hput
      rw [hput, hwrite]
      exact .of_ok herase

/-! ## Operations -/

theorem getAt_of_modifyAt {path : Path ν} {g : Json → Option Json} {v w : Json}
    (hmodify : modifyAt g path v = some w) :
    ∃ c c', getAt path v = some c ∧ g c = some c' := by
  induction path generalizing v w with
  | nil => exact ⟨v, w, rfl, hmodify⟩
  | cons seg path ih =>
    obtain ⟨child, hc, hmodify⟩ := Option.bind_eq_some_iff.mp hmodify
    obtain ⟨child', hc', -⟩ := Option.bind_eq_some_iff.mp hmodify
    obtain ⟨c, c', hget, hg⟩ := ih hc'
    exact ⟨c, c', by rw [getAt, hc]; exact hget, hg⟩

theorem isContainer_of_put {v x w : Json} {seg : Seg ν} (h : put v seg x = some w) :
    isContainer v = true := by
  cases v with
  | arr xs => rfl
  | obj fields => rfl
  | _ => cases h

theorem isContainer_of_remove {v w : Json} {seg : Seg ν} (h : remove v seg = some w) :
    isContainer v = true := by
  cases v with
  | arr xs => rfl
  | obj fields => rfl
  | _ => cases h

/-- A key under which something can be put passes the check. -/
theorem checkKey_of_put {h : Held} {seg : Seg ν} {x w : Json} (hput : put h.erase seg x = some w) :
    checkKey h seg = .ok () := by
  unfold checkKey
  split
  · rename_i xs n hv
    rw [hv] at hput
    obtain ⟨i, hi, hput⟩ := Option.bind_eq_some_iff.mp hput
    have hle : i ≤ xs.length := by
      split at hput
      · omega
      · split at hput
        · omega
        · cases hput
    rw [if_pos (by simp [hi, hle])]
  · rename_i xs name hv
    rw [hv] at hput
    cases hput
  · rfl

theorem checkKey_thrown (t : Held) (key : Seg ν) :
    checkKey t key = .ok () ∨ ∃ e, checkKey t key = .error (.thrown e) := by
  unfold checkKey
  split
  · split_ifs
    · exact .inl rfl
    · exact .inr ⟨_, rfl⟩
  · exact .inr ⟨_, rfl⟩
  · exact .inl rfl

/-- A key under which nothing can be put is refused. -/
theorem checkKey_error {t : Held} {key : Seg ν} {x : Json} (ho : t.Owned)
    (hput : put t.erase key x = none) : ∃ e, checkKey t key = .error (.thrown e) := by
  cases t with
  | shared v => cases ho
  | arr items =>
    rw [Held.erase_arr] at hput
    cases key with
    | key name => exact ⟨_, by simp only [checkKey, Held.erase_arr]; rfl⟩
    | index n =>
      have hbeyond : (IndexNumber.index? n).any (· ≤ (items.map Held.erase).length) = false := by
        cases hn : IndexNumber.index? n with
        | none => rfl
        | some i =>
          simp only [put, hn, Option.bind_some] at hput
          split_ifs at hput
          simp only [Option.any_some, decide_eq_false_iff_not]
          omega
      exact ⟨.unsafePath (.index n), by simp only [checkKey, Held.erase_arr, hbeyond]; rfl⟩
  | obj fields =>
    rw [Held.erase_obj] at hput
    cases hput

/-- A checked write in place. -/
theorem write_meets {t : Held} (ho : t.Owned) (key : Seg ν) (x : Held) :
    Meets ((do
      checkKey t key
      t.write key x : Except (ApplyError ν) Held).map Held.erase) (put t.erase key x.erase) := by
  cases hput : put t.erase key x.erase with
  | some w =>
    obtain ⟨t', hwrite, herase⟩ := Held.write_ok ho hput
    rw [checkKey_of_put hput]
    change Meets ((t.write key x).map Held.erase) (some w)
    rw [hwrite]
    exact .of_ok herase
  | none =>
    obtain ⟨e, herror⟩ := checkKey_error ho hput
    rw [herror]
    exact .of_thrown e

/-- A checked deletion in place. -/
theorem delete_meets (path : Path ν) {t : Held} (ho : t.Owned) (key : Seg ν) :
    Meets ((do
      checkKey t key
      t.delete path key : Except (ApplyError ν) Held).map Held.erase) (remove t.erase key) := by
  cases t with
  | shared v => cases ho
  | arr items =>
    cases key with
    | key name =>
      simp only [checkKey, Held.erase_arr]
      exact .of_thrown _
    | index n =>
      simp only [checkKey, Held.erase_arr, remove, Held.delete, List.length_map]
      cases IndexNumber.index? n with
      | none => exact .of_thrown _
      | some i =>
        by_cases hlt : i < items.length
        · simp only [Option.any_some, Nat.le_of_lt hlt, decide_true, ↓reduceIte, Option.bind_some, hlt]
          exact .of_ok (by simp [List.eraseIdx_map])
        · simp only [Option.any_some, Option.bind_some, hlt, ↓reduceIte]
          split_ifs
          · exact .of_thrown _
          · exact .of_thrown _
  | obj fields =>
    simp only [checkKey, Held.erase_obj]
    exact .of_ok (by rw [Held.erase_obj, mapDelete_map])

theorem readText_spec (path : Path ν) (t : Held) (key : Seg ν) :
    readText path t key = match (child? t.erase key).bind Json.str? with
      | some current => .ok current
      | none => .error (.thrown (.path path)) := by
  rw [readText, ← Held.erase_child? t key, Option.bind_map]
  rfl

/-- A string under a key rewritten in place. -/
theorem rewrite_meets (path : Path ν) (rewrite : Str → Str) {t : Held} (ho : t.Owned) (key : Seg ν) :
    Meets ((do
      checkKey t key
      let current ← readText path t key
      t.write key (.shared (.str (rewrite current))) : Except (ApplyError ν) Held).map Held.erase) (do
        let current ← (child? t.erase key).bind Json.str?
        put t.erase key (.str (rewrite current))) := by
  rw [readText_spec]
  cases hread : (child? t.erase key).bind Json.str? with
  | none =>
    rcases checkKey_thrown t key with hcheck | ⟨e, herror⟩
    · rw [hcheck]
      exact .of_thrown _
    · rw [herror]
      exact .of_thrown e
  | some current =>
    have hwrite := write_meets ho key (.shared (.str (rewrite current)))
    rwa [Held.erase_shared] at hwrite

/-- In place, at the parent of a path's end. -/
theorem mutateParent_meets {path : Path ν} {f : Held → Seg ν → Except (ApplyError ν) Held}
    {g : Json → Seg ν → Option Json} {h : Held} (ho : OwnedTo path.dropLast h)
    (hf : ∀ (t : Held) key, t.Owned → Meets ((do
      checkKey t key
      f t key : Except (ApplyError ν) Held).map Held.erase) (g t.erase key))
    (hg : ∀ v key, isContainer v = false → g v key = none) :
    Meets ((mutateParent path f h).map Held.erase) (atParent path g h.erase) := by
  unfold mutateParent atParent
  cases path.getLast? with
  | none => exact .of_thrown _
  | some key => exact mutateAt_meets ho (fun t ht => hf t key ht) fun v => hg v key

theorem mutateArray_meets {path : Path ν} {f : List Held → Except (ApplyError ν) (List Held)}
    {g : List Json → Option (List Json)} {h : Held} (ho : OwnedTo path h)
    (hf : ∀ xs, Meets (((f xs).map Held.arr).map Held.erase) ((g (xs.map Held.erase)).map Json.arr)) :
    Meets ((mutateArray path f h).map Held.erase)
      (modifyAt (fun v => v.arr?.bind fun xs => (g xs).map Json.arr) path h.erase) := by
  refine mutateAt_meets ho (fun t ht => ?_) fun v hv => ?_
  · cases t with
    | shared v => cases ht
    | obj fields => exact .of_thrown _
    | arr items =>
      rw [Held.erase_arr, Json.arr?_arr]
      rw [if_neg (by simp [Held.isArray]), Option.bind_some]
      exact hf items
  · cases v <;> first | rfl | cases hv

theorem permute_map {α β : Type} (f : α → β) (xs : List α) (permutation : List Nat) :
    permute (xs.map f) permutation = (permute xs permutation).map (List.map f) := by
  unfold permute
  induction permutation with
  | nil => rfl
  | cons i permutation ih =>
    rw [List.mapM_cons, List.mapM_cons, ih, List.getElem?_map]
    cases xs[i]? <;> cases permutation.mapM fun i => xs[i]? <;> rfl

theorem splice_map {α β : Type} (f : α → β) (xs items : List α) (index remove : Nat) :
    splice (xs.map f) index remove (items.map f) = (splice xs index remove items).map f := by
  simp [splice, List.map_take, List.map_drop]

/-- An operation that edits a value finds containers on its path. -/
theorem getAt_containers {op : Op ν Json} {v w : Json} (hreplace : isReplace op = false)
    (hedit : edit op v = some w) : ∃ c, getAt op.containers v = some c ∧ isContainer c = true := by
  have harray : ∀ {path : Path ν} {g : List Json → Option Json},
      modifyAt (fun v => v.arr?.bind g) path v = some w →
        ∃ c, getAt path v = some c ∧ isContainer c = true := by
    intro path g h
    obtain ⟨c, c', hget, hg⟩ := getAt_of_modifyAt h
    obtain ⟨xs, hxs, -⟩ := Option.bind_eq_some_iff.mp hg
    exact ⟨c, hget, by rw [Json.arr?_eq_some.mp hxs]; rfl⟩
  have hparent : ∀ {path : Path ν} {g : Json → Seg ν → Option Json},
      (∀ c key c', g c key = some c' → isContainer c = true) → atParent path g v = some w →
        ∃ c, getAt path.dropLast v = some c ∧ isContainer c = true := by
    intro path g hg h
    unfold atParent at h
    cases hkey : path.getLast? with
    | none => rw [hkey] at h; cases h
    | some key =>
      rw [hkey] at h
      obtain ⟨c, c', hget, hc⟩ := getAt_of_modifyAt h
      exact ⟨c, hget, hg c key c' hc⟩
  cases op with
  | r value => cases hreplace
  | s path value => exact hparent (fun _ _ _ => isContainer_of_put) hedit
  | d path => exact hparent (fun _ _ _ => isContainer_of_remove) hedit
  | a path text =>
    refine hparent (fun c key c' h => ?_) hedit
    obtain ⟨_, -, hput⟩ := Option.bind_eq_some_iff.mp h
    exact isContainer_of_put hput
  | t path count =>
    refine hparent (fun c key c' h => ?_) hedit
    obtain ⟨_, -, hput⟩ := Option.bind_eq_some_iff.mp h
    exact isContainer_of_put hput
  | p path index remove items => exact harray hedit
  | m path permutation => exact harray hedit

/-- An operation in place, where its path is owned. -/
theorem perform_meets {h : Held} {op : Op ν Json} (ho : OwnedTo op.containers h) :
    Meets ((perform h op).map Held.erase) (edit op h.erase) := by
  have hput : ∀ {v : Json} {key : Seg ν} {x : Json}, isContainer v = false → put v key x = none :=
    fun {v} _ _ hv => by cases v <;> first | rfl | cases hv
  have hchild : ∀ {v : Json} {key : Seg ν}, isContainer v = false → child? v key = none :=
    fun {v} _ hv => by cases v <;> first | rfl | cases hv
  cases op with
  | r value => exact .of_ok (Held.erase_shared value)
  | s path value =>
    refine mutateParent_meets ho (fun t key ht => ?_) fun v key hv => hput hv
    have hwrite := write_meets ht key (.shared value)
    rwa [Held.erase_shared] at hwrite
  | d path =>
    refine mutateParent_meets ho (fun t key ht => delete_meets path ht key) fun v key hv => ?_
    cases v <;> first | rfl | cases hv
  | a path text =>
    refine mutateParent_meets ho (fun t key ht => rewrite_meets path (· ++ text) ht key)
      fun v key hv => ?_
    rw [hchild hv]
    rfl
  | t path count =>
    refine mutateParent_meets ho (fun t key ht => rewrite_meets path (·.drop (natOf count)) ht key)
      fun v key hv => ?_
    rw [hchild hv]
    rfl
  | p path index remove items =>
    refine mutateArray_meets (g := fun xs => some (splice xs (natOf index) (natOf remove) items)) ho
      fun xs => ?_
    have hitems : (items.map Held.shared).map Held.erase = items := by simp [Function.comp_def]
    refine .of_ok ?_
    rw [Held.erase_arr, ← splice_map, hitems]
  | m path permutation =>
    have hedit : edit (.m path permutation) h.erase = modifyAt (fun v => v.arr?.bind fun xs =>
        (if xs.length ≠ permutation.length then none else permute xs (permutation.map natOf)).map
          Json.arr) path h.erase := by
      rw [edit]
      congr 1
      funext v
      cases v with
      | arr xs =>
        by_cases hlen : xs.length = permutation.length
        · simp only [Json.arr?_arr, Option.bind_eq_bind, Option.bind_some, hlen, ne_eq,
            not_true_eq_false, ↓reduceIte]
          cases permute xs (permutation.map natOf) <;> rfl
        · simp [hlen]
      | _ => rfl
    rw [hedit]
    refine mutateArray_meets (g := fun xs => if xs.length ≠ permutation.length then none
      else permute xs (permutation.map natOf)) ho fun xs => ?_
    rw [List.length_map]
    split_ifs
    · exact .of_thrown _
    · rw [permute_map]
      cases permute xs (permutation.map natOf) with
      | none => exact .of_thrown _
      | some ys => exact .of_ok (Held.erase_arr ys)

/-! ## Replay -/

/-- The edit of a valid operation. -/
def validEdit (op : Op ν Json) (v : Json) : Option Json :=
  match assertValidOp op with
  | .ok _ => edit op v
  | .error _ => none

theorem validEdit_of_valid {op : Op ν Json} (h : assertValidOp op = .ok ()) (v : Json) :
    validEdit op v = edit op v := by
  rw [validEdit, h]

theorem applyOp_meets {h : Held} {op : Op ν Json} (ho : OwnedTo op.containers h) :
    Meets ((applyOp h op).map Held.erase) (validEdit op h.erase) := by
  unfold applyOp validEdit
  cases assertValidOp op with
  | error e => exact .of_thrown e
  | ok u => exact perform_meets ho

/-- One operation of a replay: its edit, with every write to an owned container. -/
theorem applyImmutableOp_meets (h : Held) (op : Op ν Json) :
    Meets ((applyImmutableOp h op).map Held.erase) (validEdit op h.erase) := by
  unfold applyImmutableOp
  cases hvalid : assertValidOp op with
  | error e =>
    rw [validEdit, hvalid]
    exact .of_thrown e
  | ok u =>
    change Meets ((if isReplace op = true then applyOp h op else _).map Held.erase) _
    by_cases hreplace : isReplace op = true
    · rw [if_pos hreplace]
      cases op with
      | r value => exact .of_ok (Held.erase_shared value)
      | _ => cases hreplace
    · rw [if_neg hreplace]
      rcases copyContainers_spec op.containers op.containers h with
        ⟨h₁, hcopy, herase, ho⟩ | ⟨⟨e, herror⟩, hnone⟩
      · rw [hcopy, ← herase]
        exact applyOp_meets ho
      · have hedit : edit op h.erase = none := by
          by_contra hsome
          obtain ⟨w, hw⟩ := Option.ne_none_iff_exists'.mp hsome
          obtain ⟨c, hget, hc⟩ := getAt_containers (Bool.not_eq_true _ ▸ hreplace) hw
          rw [hnone c hget] at hc
          cases hc
        rw [herror, validEdit_of_valid hvalid, hedit]
        exact .of_thrown e

/-- Operations one after the other. -/
theorem foldlM_meets {step : Held → Op ν Json → Except (ApplyError ν) Held}
    (hstep : ∀ h op, Meets ((step h op).map Held.erase) (validEdit op h.erase)) (ops : List (Op ν Json))
    (h : Held) : Meets ((ops.foldlM step h).map Held.erase)
      (ops.foldlM (fun v op => validEdit op v) h.erase) := by
  induction ops generalizing h with
  | nil => exact .of_ok rfl
  | cons op ops ih =>
    rw [List.foldlM_cons, List.foldlM_cons]
    exact (hstep h op).bind fun h' => ih h'

/-- A replay over some batches does the edits of their operations. -/
theorem applyImmutableBatches_meets (v : Json) (batches : List (List (Op ν Json))) :
    Meets (applyImmutableBatches v batches) (batches.flatten.foldlM (fun v op => validEdit op v) v) := by
  have hfold : batches.foldlM (fun root ops => ops.foldlM applyImmutableOp root) (Held.shared v) =
      batches.flatten.foldlM applyImmutableOp (Held.shared v) := by
    generalize Held.shared v = h
    induction batches generalizing h with
    | nil => rfl
    | cons ops batches ih =>
      rw [List.foldlM_cons, List.flatten_cons, List.foldlM_append]
      congr 1
      funext h'
      exact ih h'
  have hmeets := foldlM_meets applyImmutableOp_meets batches.flatten (Held.shared v)
  rw [Held.erase_shared] at hmeets
  rw [applyImmutableBatches, hfold]
  exact hmeets

/-- The applier does the edits of a batch. -/
theorem applyImmutable_of_edits {ops : List (Op ν Json)} (hvalid : ∀ op ∈ ops, assertValidOp op = .ok ())
    {v w : Json} (hedits : edits ops v = some w) : applyImmutable v ops = .ok w := by
  have hfold : ops.foldlM (fun v op => validEdit op v) v = some w := by
    induction ops generalizing v with
    | nil => exact hedits
    | cons op ops ih =>
      rw [List.forall_mem_cons] at hvalid
      obtain ⟨v₁, hedit, hrest⟩ := Option.bind_eq_some_iff.mp hedits
      rw [List.foldlM_cons, validEdit_of_valid hvalid.1, hedit]
      exact ih hvalid.2 hrest
  have hmeets := applyImmutableBatches_meets v [ops]
  rw [List.flatten_singleton, hfold] at hmeets
  unfold applyImmutable
  cases hrun : applyImmutableBatches v [ops] <;> rw [hrun] at hmeets <;> cases hmeets
  rfl

end Delta
