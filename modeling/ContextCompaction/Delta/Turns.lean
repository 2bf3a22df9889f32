import ContextCompaction.Delta.ApplyLaws

/-!
# Triples for edits

`Turns path ops v Q`: in every value that has `v` at `path`, the edits succeed and leave there a value of
`Q`, and everything else as it was.

* `Turns.append`, `Turns.child`: batches run one after the other, and inside a container.
* `Turns.set`, `Turns.splice` and the others: what a single operation does.
-/

namespace Delta

open Js

variable {ν : Type} [IndexNumber ν]

/-! ## Paths -/

theorem mapSet_mapSet {κ β : Type} [DecidableEq κ] (m : List (κ × β)) (k : κ) (v w : β) :
    mapSet (mapSet m k v) k w = mapSet m k w := by
  induction m with
  | nil => simp [mapSet]
  | cons e m ih => by_cases hk : e.1 = k <;> simp [mapSet, hk, ih]

theorem put_isSome {v c : Json} {seg : Seg ν} (h : child? v seg = some c) (x : Json) :
    ∃ w, put v seg x = some w := by
  cases v with
  | arr xs =>
    cases seg with
    | key name => cases h
    | index n =>
      obtain ⟨i, hi, hget⟩ := Option.bind_eq_some_iff.mp h
      obtain ⟨hlt, -⟩ := List.getElem?_eq_some_iff.mp hget
      exact ⟨_, by rw [put, hi, Option.bind_some, if_pos hlt]⟩
  | obj fields => exact ⟨_, rfl⟩
  | _ => cases h

/-- What was written is there. -/
theorem child?_put {v c x w : Json} {seg : Seg ν} (h : child? v seg = some c)
    (hput : put v seg x = some w) : child? w seg = some x := by
  cases v with
  | arr xs =>
    cases seg with
    | key name => cases h
    | index n =>
      obtain ⟨i, hi, hget⟩ := Option.bind_eq_some_iff.mp h
      obtain ⟨hlt, -⟩ := List.getElem?_eq_some_iff.mp hget
      rw [put, hi, Option.bind_some, if_pos hlt] at hput
      obtain rfl := Option.some.inj hput
      simp [child?, hi, hlt]
  | obj fields =>
    obtain rfl := Option.some.inj hput
    simp [child?]
  | _ => cases h

/-- The second of two writes counts. -/
theorem put_put {v c x y w : Json} {seg : Seg ν} (h : child? v seg = some c)
    (hput : put v seg x = some w) : put w seg y = put v seg y := by
  cases v with
  | arr xs =>
    cases seg with
    | key name => cases h
    | index n =>
      obtain ⟨i, hi, hget⟩ := Option.bind_eq_some_iff.mp h
      obtain ⟨hlt, -⟩ := List.getElem?_eq_some_iff.mp hget
      rw [put, hi, Option.bind_some, if_pos hlt] at hput
      obtain rfl := Option.some.inj hput
      simp [put, hi, hlt]
  | obj fields =>
    obtain rfl := Option.some.inj hput
    simp [put, mapSet_mapSet]
  | _ => cases h

theorem getAt_append (path rest : Path ν) (r : Json) :
    getAt (path ++ rest) r = (getAt path r).bind (getAt rest) := by
  induction path generalizing r with
  | nil => rfl
  | cons seg path ih =>
    simp only [List.cons_append, getAt, Option.bind_assoc]
    congr 1
    funext child
    exact ih child

theorem modifyAt_append (f : Json → Option Json) (path rest : Path ν) (r : Json) :
    modifyAt f (path ++ rest) r = modifyAt (modifyAt f rest) path r := by
  induction path generalizing r with
  | nil => rfl
  | cons seg path ih => simp [modifyAt, ih]

section

variable {path : Path ν} {r r' v w : Json}

theorem modifyAt_eq_setAt {f : Json → Option Json} (hget : getAt path r = some v) :
    modifyAt f path r = (f v).bind (setAt path · r) := by
  induction path generalizing r with
  | nil =>
    obtain rfl := Option.some.inj hget
    simp [modifyAt, setAt]
  | cons seg path ih =>
    obtain ⟨child, hchild, hget⟩ := Option.bind_eq_some_iff.mp hget
    simp only [setAt, modifyAt, hchild]
    simp only [Option.bind_eq_bind, Option.bind_some]
    rw [ih hget, Option.bind_assoc]
    rfl

theorem setAt_isSome (hget : getAt path r = some v) (w : Json) : ∃ r', setAt path w r = some r' := by
  induction path generalizing r with
  | nil => exact ⟨w, rfl⟩
  | cons seg path ih =>
    obtain ⟨child, hchild, hget⟩ := Option.bind_eq_some_iff.mp hget
    obtain ⟨child', hchild'⟩ := ih hget
    obtain ⟨r', hput⟩ := put_isSome hchild child'
    exact ⟨r', Option.bind_eq_some_iff.mpr ⟨child, hchild, Option.bind_eq_some_iff.mpr ⟨child', hchild', hput⟩⟩⟩

/-- What is at the path put there again. -/
theorem setAt_getAt (hget : getAt path r = some v) : setAt path v r = some r := by
  induction path generalizing r with
  | nil => exact hget.symm
  | cons seg path ih =>
    obtain ⟨child, hchild, hget⟩ := Option.bind_eq_some_iff.mp hget
    exact Option.bind_eq_some_iff.mpr
      ⟨child, hchild, Option.bind_eq_some_iff.mpr ⟨child, ih hget, put_of_child? hchild⟩⟩

theorem getAt_setAt (hset : setAt path w r = some r') : getAt path r' = some w := by
  induction path generalizing r r' with
  | nil => exact hset.symm
  | cons seg path ih =>
    obtain ⟨child, hchild, hset⟩ := Option.bind_eq_some_iff.mp hset
    obtain ⟨child', hchild', hput⟩ := Option.bind_eq_some_iff.mp hset
    exact Option.bind_eq_some_iff.mpr ⟨child', child?_put hchild hput, ih hchild'⟩

theorem setAt_setAt {x : Json} (hset : setAt path w r = some r') : setAt path x r' = setAt path x r := by
  induction path generalizing r r' with
  | nil => rfl
  | cons seg path ih =>
    obtain ⟨child, hchild, hset⟩ := Option.bind_eq_some_iff.mp hset
    obtain ⟨child', hchild', hput⟩ := Option.bind_eq_some_iff.mp hset
    have hinner : setAt path x child' = setAt path x child := ih hchild'
    unfold setAt at hinner ⊢
    simp only [modifyAt, hchild, child?_put hchild hput, Option.bind_eq_bind, Option.bind_some, hinner]
    cases modifyAt (fun _ => some x) path child with
    | none => rfl
    | some y => exact put_put hchild hput

end

/-! ## Triples -/

/-- In every value that has `v` at `path`, the edits succeed and put a value of `Q` there. -/
def Turns (path : Path ν) (ops : List (Op ν Json)) (v : Json) (Q : Json → Prop) : Prop :=
  ∀ r, getAt path r = some v → ∃ w r', edits ops r = some r' ∧ setAt path w r = some r' ∧ Q w

section

variable {path : Path ν} {ops ops' : List (Op ν Json)} {v w : Json} {Q Q' : Json → Prop}

theorem edits_append (ops ops' : List (Op ν Json)) (v : Json) :
    edits (ops ++ ops') v = (edits ops v).bind (edits ops') := by
  induction ops generalizing v with
  | nil => rfl
  | cons op ops ih =>
    simp only [List.cons_append, edits, Option.bind_assoc]
    congr 1
    funext w
    exact ih w

theorem Turns.nil (h : Q v) : Turns path [] v Q := fun r hget =>
  ⟨v, r, rfl, setAt_getAt hget, h⟩

theorem Turns.append (h : Turns path ops v Q) (h' : ∀ w, Q w → Turns path ops' w Q') :
    Turns path (ops ++ ops') v Q' := by
  intro r hget
  obtain ⟨w, r', hedits, hset, hw⟩ := h r hget
  obtain ⟨w', r'', hedits', hset', hw'⟩ := h' w hw r' (getAt_setAt hset)
  exact ⟨w', r'', by rw [edits_append, hedits]; exact hedits', by rw [← setAt_setAt hset, hset'], hw'⟩

theorem Turns.mono (h : Turns path ops v Q) (hQ : ∀ w, Q w → Q' w) : Turns path ops v Q' := by
  intro r hget
  obtain ⟨w, r', hedits, hset, hw⟩ := h r hget
  exact ⟨w, r', hedits, hset, hQ w hw⟩

/-- Inside a container. -/
theorem Turns.child {seg : Seg ν} {c : Json} (h : Turns (path ++ [seg]) ops c Q)
    (hc : child? v seg = some c) :
    Turns path ops v fun v' => ∃ c', Q c' ∧ put v seg c' = some v' := by
  intro r hget
  have hget' : getAt (path ++ [seg]) r = some c := by
    rw [getAt_append, hget]
    simp [getAt, hc]
  obtain ⟨c', r', hedits, hset, hc'⟩ := h r hget'
  obtain ⟨v', hput⟩ := put_isSome hc c'
  refine ⟨v', r', hedits, ?_, c', hc', hput⟩
  unfold setAt at hset
  rw [modifyAt_append, modifyAt_eq_setAt hget] at hset
  simpa [modifyAt, hc, hput] using hset

theorem Turns.of_modifyAt {op : Op ν Json} {f : Json → Option Json} (hop : edit op = modifyAt f path)
    (hf : f v = some w) : Turns path [op] v (· = w) := by
  intro r hget
  obtain ⟨r', hset⟩ := setAt_isSome hget w
  refine ⟨w, r', ?_, hset, rfl⟩
  rw [edits, hop, modifyAt_eq_setAt hget, hf]
  simp [hset, edits]

/-! ### Single operations -/

theorem atParent_concat (path : Path ν) (seg : Seg ν) (f : Json → Seg ν → Option Json) :
    atParent (path ++ [seg]) f = modifyAt (f · seg) path := by
  funext r
  simp [atParent]

/-- A property that is there is replaced. -/
theorem Turns.set (hpath : path ≠ []) (w : Json) : Turns path [.s path w] v (· = w) := by
  obtain ⟨parent, seg, rfl⟩ := List.eq_nil_or_concat path |>.resolve_left hpath
  intro r hget
  rw [List.concat_eq_append] at hget ⊢
  have hparent := hget
  rw [getAt_append] at hparent
  obtain ⟨u, hu, hchild⟩ := Option.bind_eq_some_iff.mp hparent
  obtain ⟨c, hc, -⟩ := Option.bind_eq_some_iff.mp hchild
  obtain ⟨r', hset⟩ := setAt_isSome hget w
  refine ⟨w, r', ?_, hset, rfl⟩
  rw [edits, edit, atParent_concat, modifyAt_eq_setAt hu]
  unfold setAt at hset
  rw [modifyAt_append, modifyAt_eq_setAt hu] at hset
  have hput : modifyAt (fun _ => some w) [seg] u = put u seg w := by simp [modifyAt, hc]
  rw [← hput, hset]
  rfl

theorem Turns.setKey (key : Str) (fields : List (Str × Json)) (w : Json) :
    Turns path [.s (path ++ [.key key]) w] (.obj fields) (· = .obj (mapSet fields key w)) :=
  Turns.of_modifyAt (f := (put · (.key key) w)) (atParent_concat _ _ _) rfl

theorem Turns.deleteKey (key : Str) (fields : List (Str × Json)) :
    Turns path [.d (path ++ [.key key])] (.obj fields) (· = .obj (mapDelete fields key)) :=
  Turns.of_modifyAt (f := (remove · (.key key))) (atParent_concat _ _ _) rfl

/-- An operation on the string at a path. -/
theorem Turns.text {op : Op ν Json} {s t : Str} (g : Str → Str) (hpath : path ≠ [])
    (hop : edit op = atParent path fun parent key => do
      let current ← (child? parent key).bind Json.str?
      put parent key (.str (g current)))
    (ht : g s = t) : Turns path [op] (.str s) (· = .str t) := by
  intro r hget
  obtain ⟨w, r', hedits, hset, rfl⟩ := Turns.set hpath (.str t) r hget
  refine ⟨_, r', ?_, hset, rfl⟩
  obtain ⟨parent, seg, rfl⟩ := List.eq_nil_or_concat path |>.resolve_left hpath
  rw [List.concat_eq_append] at *
  rw [getAt_append] at hget
  obtain ⟨u, hu, hchild⟩ := Option.bind_eq_some_iff.mp hget
  obtain ⟨c, hc, hstr⟩ := Option.bind_eq_some_iff.mp hchild
  obtain rfl := Option.some.inj hstr
  rw [edits, edit, atParent_concat, modifyAt_eq_setAt hu] at hedits
  rw [edits, hop, atParent_concat, modifyAt_eq_setAt hu, hc]
  simpa [ht] using hedits

theorem Turns.splice {index removed : ν} {xs items : List Json} :
    Turns path [.p path index removed items] (.arr xs)
      (· = .arr (Delta.splice xs (natOf index) (natOf removed) items)) :=
  Turns.of_modifyAt rfl rfl

theorem Turns.permute {permutation : List ν} {xs ys : List Json}
    (hlen : xs.length = permutation.length) (h : Delta.permute xs (permutation.map natOf) = some ys) :
    Turns path [.m path permutation] (.arr xs) (· = .arr ys) :=
  Turns.of_modifyAt rfl (by simp [hlen, h])

end

end Delta
