import ContextCompaction.Delta.ApplyLaws
import ContextCompaction.Js.Arrays

/-!
# The trusted applier

`applyImmutableTrusted` checks nothing of an operation but what it trips over, reads properties plainly
and splices by moving the elements itself. What leaves the JSON values (a hole, a property of an array
that is no index) is a fault of its own.

* `spliceTrusted_eq`: within the array it is the native splice.
* `trustedOp_of_edit`: where an operation is valid and possible, it does its edit.
-/

namespace Delta

open Js

variable {ν : Type} [IndexNumber ν]

/-- How an application that trusts its operations can still go wrong. -/
inductive TrustedError where
  | type (message : String)
  /-- An array length that is negative. -/
  | range
  /-- A value that is not JSON. -/
  | outside
  | sharedWrite

/-- The array index that a property key is. -/
def Seg.index? : Seg ν → Option Nat
  | .index n => IndexNumber.index? n
  | .key name => indexKey name

/-- `target[key]`. What an object inherits under a key that is not reserved is a function, and neither a
container nor a string. -/
def read (h : Held) (key : Seg ν) : Option Held :=
  match h with
  | .shared (.arr xs) => key.index?.bind fun i => xs[i]?.map .shared
  | .arr items => key.index?.bind fun i => items[i]?
  | h => h.child? key

/-- A child of an owned container is set; one of a shared container must not be. -/
def defineData (h : Held) (key : Seg ν) (x : Held) : Except TrustedError Held :=
  match h with
  | .arr items =>
    match key.index?.bind fun i => dense? (defineIndex (items.map some) i x) with
    | some items => .ok (.arr items)
    | none => .error .outside
  | .obj fields => .ok (.obj (mapSet fields key.name x))
  | .shared _ => .error .sharedWrite

/-- The containers along a path are copied unless they are owned, and the last is changed in place. -/
def copyPath (f : Held → Except TrustedError Held) (message : String) :
    Path ν → Held → Except TrustedError Held
  | path, h =>
    match h.own? with
    | none => .error (.type message)
    | some h =>
      match path with
      | [] => f h
      | segment :: path =>
        match read h segment with
        | none => .error (.type "Trusted operation path is not a container")
        | some child => do
          let child ← copyPath f "Trusted operation path is not a container" path child
          defineData h segment child

/-- `remove` elements at `start` give way to `items`: the tail is moved first and the items are then
written over. -/
def spliceTrusted {α : Type} (target : List α) (start remove : Nat) (items : List α) :
    Except TrustedError (List (Option α)) :=
  let oldLength := target.length
  let slots := target.map some
  if remove < items.length then
    let slots := copyWithin (setLength slots (oldLength + (items.length - remove)))
      (start + items.length) (start + remove) oldLength
    .ok (defineFrom slots start items)
  else if items.length < remove then
    let slots := copyWithin slots (start + items.length) (start + remove) oldLength
    if oldLength < remove - items.length then .error .range
    else .ok (defineFrom (setLength slots (oldLength - (remove - items.length))) start items)
  else .ok (defineFrom slots start items)

/-- The element at each index is the one the permutation names. -/
def permuteTrusted {α : Type} (target : List α) (permutation : List Nat) :
    Except TrustedError (List (Option α)) :=
  if target.length ≠ permutation.length then .error (.type "Trusted permutation length mismatch")
  else .ok (permutation.map fun i => target[i]?)

/-- An array changed in place, while it stays a JSON value. -/
def changeArray (f : List Held → Except TrustedError (List (Option Held))) (message : String) :
    Held → Except TrustedError Held
  | .arr items => do
    match dense? (← f items) with
    | some items => .ok (.arr items)
    | none => .error .outside
  | .obj _ => .error (.type message)
  | .shared _ => .error .sharedWrite

/-- A valid index or count; any other leaves the JSON values. -/
def trustedIndex (n : ν) : Except TrustedError Nat :=
  match IndexNumber.index? n with
  | some i => .ok i
  | none => .error .outside

/-- At the parent of a path's end. -/
def trustedParent (path : Path ν) (f : Held → Seg ν → Except TrustedError Held) (root : Held) :
    Except TrustedError Held :=
  match path.getLast? with
  | none => .error .outside
  | some key => copyPath (f · key) "Trusted operation root is not a container" path.dropLast root

/-- The string under a key, for `a` and `t`. -/
def trustedText (message : String) (target : Held) (key : Seg ν) : Except TrustedError Str :=
  match (read target key).bind fun child => child.erase.str? with
  | some current => .ok current
  | none => .error (.type message)

/-- One round of `applyImmutableTrusted`. -/
def trustedOp (root : Held) : Op ν Json → Except TrustedError Held
  | .r value => .ok (.shared value)
  | .p path index remove items => do
    let index ← trustedIndex index
    let remove ← trustedIndex remove
    copyPath (changeArray (fun xs => spliceTrusted xs index remove (items.map .shared))
      "Trusted array operation target is not an array")
      "Trusted operation root is not a container" path root
  | .m path permutation => do
    let permutation ← permutation.mapM trustedIndex
    copyPath (changeArray (fun xs => permuteTrusted xs permutation)
      "Trusted array operation target is not an array")
      "Trusted operation root is not a container" path root
  | .s path value => trustedParent path (fun target key => defineData target key (.shared value)) root
  | .d path =>
    trustedParent path (fun target key =>
      match target, key with
      | .arr items, .index n => do
        let i ← trustedIndex n
        changeArray (fun xs => spliceTrusted xs i 1 []) "Trusted array deletion key is not numeric"
          (.arr items)
      | .arr _, .key _ => .error (.type "Trusted array deletion key is not numeric")
      | .obj fields, key => .ok (.obj (mapDelete fields key.name))
      | .shared _, _ => .error .sharedWrite) root
  | .a path text =>
    trustedParent path (fun target key => do
      let current ← trustedText "Trusted append target is not a string" target key
      defineData target key (.shared (.str (current ++ text)))) root
  | .t path count =>
    trustedParent path (fun target key => do
      let current ← trustedText "Trusted truncate target is not a string" target key
      let count ← trustedIndex count
      defineData target key (.shared (.str (current.drop count)))) root

/-- A batch is applied without any check of its operations, the target staying as it is. -/
def applyImmutableTrusted (target : Json) (operations : List (Op ν Json)) : Except TrustedError Json := do
  let root ← operations.foldlM trustedOp (Held.shared target)
  pure root.erase

/-! ## Splices -/

/-- Within the array the elements are moved to where a native splice puts them. -/
theorem spliceTrusted_eq {α : Type} {target items : List α} {start remove : Nat}
    (h : start + remove ≤ target.length) :
    spliceTrusted target start remove items = .ok ((splice target start remove items).map some) := by
  have hslots : (target.map some).length = target.length := List.length_map ..
  have hfront : ((target.map some).take start).length = start := by
    rw [List.length_take, hslots]
    omega
  have hresult : (splice target start remove items).map some =
      (target.map some).take start ++ items.map some ++ (target.map some).drop (start + remove) := by
    simp only [splice, List.map_append, List.map_take, List.map_drop]
  have hwrite : ∀ room : List (Option α), room.length = items.length →
      defineFrom ((target.map some).take start ++ room ++ (target.map some).drop (start + remove)) start
        items = (splice target start remove items).map some := by
    intro room hroom
    rw [hresult]
    conv_lhs => arg 2; rw [← hfront]
    exact defineFrom_room hroom
  unfold spliceTrusted
  dsimp only
  split_ifs with hgrow hshrink hrange
  · -- more items than are taken away: the rest moves up
    obtain ⟨more, hmore⟩ := Nat.exists_eq_add_of_le (Nat.le_of_lt hgrow)
    obtain ⟨room, hroom, hmoved⟩ := copyWithin_grow more
      (show start + remove ≤ (target.map some).length by omega)
    rw [hmore, Nat.add_sub_cancel_left, ← Nat.add_assoc]
    rw [hslots] at hmoved
    rw [hmoved, hwrite room (by omega)]
  · omega
  · -- fewer: the rest moves down
    obtain ⟨fewer, hfewer⟩ := Nat.exists_eq_add_of_le (Nat.le_of_lt hshrink)
    have hmoved := copyWithin_shrink
      (show start + items.length + fewer ≤ (target.map some).length by omega)
    rw [hslots] at hmoved
    rw [hfewer, Nat.add_sub_cancel_left, ← Nat.add_assoc, hmoved, List.take_add, Nat.add_assoc, ← hfewer,
      hwrite]
    rw [List.length_take, List.length_drop, hslots]
    omega
  · have hsame : remove = items.length := by omega
    have hself : (target.map some).take start ++ ((target.map some).drop start).take remove ++
        (target.map some).drop (start + remove) = target.map some := by
      rw [← List.take_add, List.take_append_drop]
    rw [← hwrite (((target.map some).drop start).take remove), hself]
    rw [List.length_take, List.length_drop, hslots]
    omega

/-! ## Paths -/

theorem read_ok {h child : Held} {seg : Seg ν} (ho : h.Owned) (hchild : h.child? seg = some child) :
    read h seg = some child := by
  cases h with
  | shared v => cases ho
  | arr items =>
    cases seg with
    | key name => cases hchild
    | index n => exact hchild
  | obj fields => exact hchild

/-- A child that can be put into an owned container is defined in it. -/
theorem defineData_ok {h x : Held} {seg : Seg ν} {w : Json} (ho : h.Owned)
    (hput : put h.erase seg x.erase = some w) :
    ∃ h', defineData h seg x = .ok h' ∧ h'.erase = w := by
  cases h with
  | shared v => cases ho
  | arr items =>
    rw [Held.erase_arr] at hput
    cases seg with
    | key name => cases hput
    | index n =>
      obtain ⟨i, hi, hput⟩ := Option.bind_eq_some_iff.mp hput
      have hdense : ∀ items' : List Held, defineIndex (items.map some) i x = items'.map some →
          defineData (.arr items) (.index n) x = .ok (.arr items') := by
        intro items' hitems
        rw [defineData, Seg.index?, hi, Option.bind_some, hitems, dense?_map_some]
      simp only [List.length_map] at hput
      split_ifs at hput with hlt heq
      · obtain rfl := Option.some.inj hput
        refine ⟨_, hdense (items.set i x) ?_, by simp⟩
        rw [defineIndex, if_pos (by simpa using hlt), List.map_set]
      · obtain rfl := Option.some.inj hput
        refine ⟨_, hdense (items ++ [x]) ?_, by simp⟩
        rw [defineIndex, if_neg (by simpa using hlt)]
        simp [heq]
  | obj fields =>
    rw [Held.erase_obj] at hput
    obtain rfl := Option.some.inj hput
    exact ⟨_, rfl, by rw [Held.erase_obj, mapSet_map]⟩

/-- The copies, and a change at the end of the path. -/
theorem copyPath_ok {f : Held → Except TrustedError Held} {g : Json → Option Json} {path : Path ν}
    {h : Held} {w : Json} (message : String) (hedit : modifyAt g path h.erase = some w)
    (hg : ∀ c c', g c = some c' → isContainer c = true)
    (hf : ∀ (t : Held) w, t.Owned → getAt path h.erase = some t.erase → g t.erase = some w →
      ∃ t', f t = .ok t' ∧ t'.erase = w) :
    ∃ h', copyPath f message path h = .ok h' ∧ h'.erase = w := by
  induction path generalizing h w message with
  | nil =>
    obtain ⟨h₁, hown, herase, ho⟩ := Held.own?_ok (hg _ _ hedit)
    rw [modifyAt, ← herase] at hedit
    obtain ⟨t', hrun, hw⟩ := hf h₁ w ho (by rw [getAt, herase]) hedit
    exact ⟨t', by rw [copyPath, hown]; exact hrun, hw⟩
  | cons seg path ih =>
    obtain ⟨c, hc, hrest⟩ := Option.bind_eq_some_iff.mp hedit
    obtain ⟨c', hchanged, hput⟩ := Option.bind_eq_some_iff.mp hrest
    obtain ⟨h₁, hown, herase, ho⟩ := Held.own?_ok (Held.isObj_of_child? hc)
    have hc₁ := hc
    rw [← herase] at hc₁ hput
    obtain ⟨child, hchild, rfl⟩ := Held.exists_child? hc₁
    obtain ⟨child', hcopy, rfl⟩ := ih "Trusted operation path is not a container" hchanged
      fun t w ht hget => hf t w ht (by rw [getAt, hc]; exact hget)
    obtain ⟨h', hdefine, hw⟩ := defineData_ok ho hput
    refine ⟨h', ?_, hw⟩
    rw [copyPath, hown]
    dsimp only
    rw [read_ok ho hchild]
    exact bind_ok.mpr ⟨child', hcopy, hdefine⟩

theorem trustedParent_ok {path : Path ν} {f : Held → Seg ν → Except TrustedError Held}
    {g : Json → Seg ν → Option Json} {h : Held} {w : Json} (hedit : atParent path g h.erase = some w)
    (hg : ∀ c key c', g c key = some c' → isContainer c = true)
    (hf : ∀ (t : Held) key w, t.Owned → g t.erase key = some w → ∃ t', f t key = .ok t' ∧ t'.erase = w) :
    ∃ h', trustedParent path f h = .ok h' ∧ h'.erase = w := by
  unfold atParent at hedit
  unfold trustedParent
  cases hkey : path.getLast? with
  | none =>
    rw [hkey] at hedit
    cases hedit
  | some key =>
    rw [hkey] at hedit
    exact copyPath_ok _ hedit (fun c c' => hg c key c') fun t w ht _ => hf t key w ht

/-! ## Operations -/

/-- A splice lies within its array. -/
def FitsIn : Op ν Json → Json → Prop
  | .p path index remove _, v =>
    ∀ xs, getAt path v = some (.arr xs) → natOf index + natOf remove ≤ xs.length
  | _, _ => True

theorem trustedIndex_ok {n : ν} (h : (IndexNumber.index? n).isSome = true) :
    trustedIndex n = .ok (natOf n) := by
  obtain ⟨i, hi⟩ := Option.isSome_iff_exists.mp h
  rw [trustedIndex, hi, index?_eq hi]

theorem index_of_permutation {permutation : List ν} (h : assertPermutation permutation = .ok ()) :
    ∀ n ∈ permutation, (IndexNumber.index? n).isSome = true := by
  intro n hn
  simp only [assertPermutation] at h
  split_ifs at h with hok
  rw [Bool.and_eq_true, List.all_eq_true] at hok
  exact Option.isSome_of_any (hok.1 _ (List.mem_map_of_mem hn))

theorem changeArray_ok {f : List Held → Except TrustedError (List (Option Held))} {message : String}
    {items items' : List Held} (h : f items = .ok (items'.map some)) :
    changeArray f message (.arr items) = .ok (.arr items') := by
  rw [changeArray, h]
  change (match dense? (items'.map some) with
    | some items => Except.ok (Held.arr items)
    | none => .error TrustedError.outside) = _
  rw [dense?_map_some]

theorem trustedText_ok {t : Held} {key : Seg ν} {current : Str} (message : String) (ho : t.Owned)
    (hread : (child? t.erase key).bind Json.str? = some current) :
    trustedText message t key = .ok current := by
  obtain ⟨c, hc, hstr⟩ := Option.bind_eq_some_iff.mp hread
  obtain ⟨child, hchild, rfl⟩ := Held.exists_child? hc
  rw [trustedText, read_ok ho hchild, Option.bind_some, hstr]

theorem permute_some {α : Type} {xs ys : List α} {permutation : List Nat}
    (h : permute xs permutation = some ys) : permutation.map (fun i => xs[i]?) = ys.map some := by
  unfold permute at h
  induction permutation generalizing ys with
  | nil =>
    obtain rfl := Option.some.inj h
    rfl
  | cons i permutation ih =>
    rw [List.mapM_cons] at h
    obtain ⟨y, hy, h⟩ := Option.bind_eq_some_iff.mp h
    obtain ⟨zs, hzs, h⟩ := Option.bind_eq_some_iff.mp h
    obtain rfl := Option.some.inj h
    rw [List.map_cons, hy, ih hzs, List.map_cons]

theorem isContainer_of_arr {c c' : Json} {g : List Json → Option Json} (h : c.arr?.bind g = some c') :
    isContainer c = true := by
  obtain ⟨xs, hxs, -⟩ := Option.bind_eq_some_iff.mp h
  rw [Json.arr?_eq_some.mp hxs]
  rfl

/-- A string under a key rewritten. -/
theorem trustedRewrite_ok (rewrite : Str → Str) {t : Held} {key : Seg ν} {w : Json} (ho : t.Owned)
    (h : ((child? t.erase key).bind Json.str?).bind (fun current =>
      put t.erase key (.str (rewrite current))) = some w) :
    ∃ current t', (∀ message, trustedText message t key = .ok current) ∧
      defineData t key (.shared (.str (rewrite current))) = .ok t' ∧ t'.erase = w := by
  obtain ⟨current, hread, hput⟩ := Option.bind_eq_some_iff.mp h
  rw [← Held.erase_shared (.str (rewrite current))] at hput
  obtain ⟨t', hdefine, hw⟩ := defineData_ok ho hput
  exact ⟨current, t', fun message => trustedText_ok message ho hread, hdefine, hw⟩

/-- Where an operation is valid, possible and within its array, the trusted applier does its edit. -/
theorem trustedOp_of_edit {h : Held} {op : Op ν Json} {w : Json} (hvalid : assertValidOp op = .ok ())
    (hedit : edit op h.erase = some w) (hfits : FitsIn op h.erase) :
    ∃ h', trustedOp h op = .ok h' ∧ h'.erase = w := by
  have hpayload := (assertValidOp_ok.mp hvalid).2
  cases op with
  | r value => exact ⟨.shared value, rfl, by simpa [edit] using hedit⟩
  | s path value =>
    refine trustedParent_ok hedit (fun c key c' => isContainer_of_put) fun t key w ht hput => ?_
    exact defineData_ok ht (by simpa using hput)
  | d path =>
    refine trustedParent_ok hedit (fun c key c' => isContainer_of_remove) fun t key w ht hremove => ?_
    cases t with
    | shared v => cases ht
    | arr items =>
      rw [Held.erase_arr] at hremove
      cases key with
      | key name => cases hremove
      | index n =>
        obtain ⟨i, hi, hremove⟩ := Option.bind_eq_some_iff.mp hremove
        rw [List.length_map] at hremove
        split_ifs at hremove with hlt
        obtain rfl := Option.some.inj hremove
        have hsplice : spliceTrusted items i 1 [] = .ok ((items.eraseIdx i).map some) := by
          rw [spliceTrusted_eq hlt, splice, List.append_nil, List.eraseIdx_eq_take_drop_succ]
        have hindex : trustedIndex n = .ok i := by rw [trustedIndex, hi]
        exact ⟨.arr (items.eraseIdx i), bind_ok.mpr ⟨i, hindex, changeArray_ok hsplice⟩,
          by simp [List.eraseIdx_map]⟩
    | obj fields =>
      rw [Held.erase_obj] at hremove
      obtain rfl := Option.some.inj hremove
      exact ⟨_, rfl, by rw [Held.erase_obj, mapDelete_map]⟩
  | a path text =>
    refine trustedParent_ok hedit (fun c key c' hc => ?_) fun t key w ht hg => ?_
    · obtain ⟨_, -, hput⟩ := Option.bind_eq_some_iff.mp hc
      exact isContainer_of_put hput
    · obtain ⟨current, t', hread, hdefine, hw⟩ := trustedRewrite_ok (· ++ text) ht hg
      exact ⟨t', bind_ok.mpr ⟨current, hread _, hdefine⟩, hw⟩
  | t path count =>
    refine trustedParent_ok hedit (fun c key c' hc => ?_) fun t key w ht hg => ?_
    · obtain ⟨_, -, hput⟩ := Option.bind_eq_some_iff.mp hc
      exact isContainer_of_put hput
    · obtain ⟨current, t', hread, hdefine, hw⟩ :=
        trustedRewrite_ok (·.drop (natOf count)) ht hg
      exact ⟨t', bind_ok.mpr ⟨current, hread _, bind_ok.mpr ⟨_, trustedIndex_ok hpayload, hdefine⟩⟩, hw⟩
  | p path index remove items =>
    have hchange : ∃ h', copyPath (changeArray (fun xs => spliceTrusted xs (natOf index) (natOf remove)
        (items.map .shared)) "Trusted array operation target is not an array")
        "Trusted operation root is not a container" path h = .ok h' ∧ h'.erase = w := by
      refine copyPath_ok _ hedit (fun c c' => isContainer_of_arr) fun t w ht hget hg => ?_
      obtain ⟨xs, hxs, hg⟩ := Option.bind_eq_some_iff.mp hg
      obtain rfl := Option.some.inj hg
      cases t with
      | shared v => cases ht
      | obj fields => simp at hxs
      | arr held =>
        rw [Held.erase_arr] at hget hxs
        obtain rfl := Option.some.inj hxs
        have hle := hfits _ hget
        rw [List.length_map] at hle
        refine ⟨_, changeArray_ok (spliceTrusted_eq hle), ?_⟩
        rw [Held.erase_arr, ← splice_map]
        simp [Function.comp_def]
    obtain ⟨h', hcopy, hw⟩ := hchange
    exact ⟨h', bind_ok.mpr ⟨_, trustedIndex_ok hpayload.1, bind_ok.mpr ⟨_, trustedIndex_ok hpayload.2,
      hcopy⟩⟩, hw⟩
  | m path permutation =>
    have hchange : ∃ h', copyPath (changeArray (fun xs => permuteTrusted xs (permutation.map natOf))
        "Trusted array operation target is not an array")
        "Trusted operation root is not a container" path h = .ok h' ∧ h'.erase = w := by
      refine copyPath_ok _ hedit (fun c c' => isContainer_of_arr) fun t w ht _ hg => ?_
      obtain ⟨xs, hxs, hg⟩ := Option.bind_eq_some_iff.mp hg
      split_ifs at hg with hlen
      obtain ⟨ys, hys, hg⟩ := Option.bind_eq_some_iff.mp hg
      obtain rfl := Option.some.inj hg
      cases t with
      | shared v => cases ht
      | obj fields => simp at hxs
      | arr held =>
        rw [Held.erase_arr] at hxs
        obtain rfl := Option.some.inj hxs
        rw [permute_map] at hys
        obtain ⟨zs, hzs, rfl⟩ := Option.map_eq_some_iff.mp hys
        rw [List.length_map] at hlen
        have hpermute : permuteTrusted held (permutation.map natOf) = .ok (zs.map some) := by
          rw [permuteTrusted, if_neg (by simpa using hlen), permute_some hzs]
        exact ⟨_, changeArray_ok hpermute, by rw [Held.erase_arr]⟩
    have hindices : permutation.mapM trustedIndex = .ok (permutation.map natOf) := by
      have hall := index_of_permutation hpayload
      clear hedit hfits hvalid hpayload hchange
      induction permutation with
      | nil => rfl
      | cons n permutation ih =>
        rw [List.forall_mem_cons] at hall
        rw [List.mapM_cons, trustedIndex_ok hall.1, ih hall.2]
        rfl
    obtain ⟨h', hcopy, hw⟩ := hchange
    exact ⟨h', bind_ok.mpr ⟨_, hindices, hcopy⟩, hw⟩

end Delta
