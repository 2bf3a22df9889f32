import ContextCompaction.Delta.Trusted

/-!
# The appliers agree

`apply` writes in place to a value that is its own, with the payloads that it adopts: where no two
payloads share a container, every container on a path may be written. The other appliers work on a value
that others hold too; of each, a write to a container that is not its own would be a fault.

* `splice_chunks`: an insertion in chunks is one insertion.
* `apply_meets`: in place, a batch does its edits.
* `appliers_agree`: the four appliers succeed together, and come to the same value.
-/

namespace Delta

open Js

variable {ν : Type} [IndexNumber ν]

/-! ## Chunks -/

/-- The number of items that one call of `splice` takes. -/
def CHUNK_SIZE : Nat := 10000

/-- The items of `p` from an offset on, a chunk at a time. -/
def insertChunks {α : Type} (index : Nat) (items : List α) : Nat → Nat → List α → List α
  | 0, _, xs => xs
  | rounds + 1, offset, xs =>
    if offset < items.length then
      insertChunks index items rounds (offset + CHUNK_SIZE)
        (splice xs (index + offset) 0 ((items.drop offset).take CHUNK_SIZE))
    else xs

/-- Inserting chunk by chunk is inserting at once. -/
theorem insertChunks_eq {α : Type} (index : Nat) (items xs : List α) {rounds offset : Nat}
    (h : items.length ≤ offset + rounds) :
    insertChunks index items rounds offset (splice xs index 0 (items.take offset)) =
      splice xs index 0 items := by
  induction rounds generalizing offset with
  | zero => rw [insertChunks, List.take_of_length_le (by omega)]
  | succ rounds ih =>
    rw [insertChunks]
    by_cases hlt : offset < items.length
    · have hfront : (xs.take index ++ items.take offset).length ≤ index + offset := by
        rw [List.length_append, List.length_take, List.length_take]
        omega
      -- The chunks so far end where the next one begins, also where the index is clamped.
      have hnext : splice (splice xs index 0 (items.take offset)) (index + offset) 0
          ((items.drop offset).take CHUNK_SIZE) = splice xs index 0 (items.take (offset + CHUNK_SIZE)) := by
        by_cases hindex : index ≤ xs.length
        · have hlength : (xs.take index ++ items.take offset).length = index + offset := by
            rw [List.length_append, List.length_take, List.length_take]
            omega
          simp only [splice, Nat.add_zero]
          rw [List.take_left' hlength, List.drop_left' hlength, List.take_add, ← List.append_assoc]
        · have htake : xs.take index = xs := List.take_of_length_le (by omega)
          have hdrop : xs.drop index = [] := List.drop_of_length_le (by omega)
          rw [htake] at hfront
          simp only [splice, Nat.add_zero, htake, hdrop, List.append_nil, List.take_of_length_le hfront,
            List.drop_of_length_le hfront, List.take_add, List.append_assoc]
      rw [if_pos hlt, hnext]
      exact ih (by rw [CHUNK_SIZE]; omega)
    · rw [if_neg hlt, List.take_of_length_le (by omega)]

/-- A removal and the insertions come to one native splice. -/
theorem splice_chunks {α : Type} (xs items : List α) (index remove : Nat) :
    insertChunks index items items.length 0 (splice xs index remove []) = splice xs index remove items := by
  have hremoved : splice (splice xs index remove []) index 0 (items.take 0) = splice xs index remove [] := by
    rw [List.take_zero, splice, List.append_nil, Nat.add_zero, List.take_append_drop]
  rw [← hremoved, insertChunks_eq index items _ (by omega)]
  by_cases hindex : index ≤ xs.length
  · have hlength : (xs.take index).length = index := by rw [List.length_take]; omega
    simp only [splice, List.append_nil, Nat.add_zero, List.take_left' hlength, List.drop_left' hlength]
  · have htake : xs.take index = xs := List.take_of_length_le (by omega)
    have hdrop : ∀ k, xs.drop (index + k) = [] := fun k => List.drop_of_length_le (by omega)
    simp only [splice, htake, hdrop, List.append_nil, Nat.add_zero, List.drop_of_length_le (Nat.le_of_not_le hindex)]

/-! ## In place -/

namespace Held

mutual

/-- A value whose containers are all owned. -/
def whole : Json → Held
  | .arr xs => .arr (wholeItems xs)
  | .obj fields => .obj (wholeFields fields)
  | v => .shared v

/-- The elements of an array, each owned throughout. -/
def wholeItems : List Json → List Held
  | [] => []
  | x :: xs => whole x :: wholeItems xs

/-- The fields of an object, each owned throughout. -/
def wholeFields : List (Str × Json) → List (Str × Held)
  | [] => []
  | (k, x) :: fields => (k, whole x) :: wholeFields fields

end

theorem wholeItems_eq_map (xs : List Json) : wholeItems xs = xs.map whole := by
  induction xs with
  | nil => rfl
  | cons x xs ih => rw [wholeItems, ih, List.map_cons]

theorem wholeFields_eq_map (fields : List (Str × Json)) :
    wholeFields fields = fields.map fun f => (f.1, whole f.2) := by
  induction fields with
  | nil => rfl
  | cons f fields ih => rw [wholeFields, ih, List.map_cons]

theorem whole_arr (xs : List Json) : whole (.arr xs) = .arr (xs.map whole) := by
  rw [whole, wholeItems_eq_map]

theorem whole_obj (fields : List (Str × Json)) :
    whole (.obj fields) = .obj (fields.map fun f => (f.1, whole f.2)) := by
  rw [whole, wholeFields_eq_map]

@[simp] theorem erase_whole (v : Json) : (whole v).erase = v := by
  induction v using Json.induct with
  | arr xs ih =>
    have hsame : xs.map (erase ∘ whole) = xs.map id := List.map_congr_left fun x hx => ih x hx
    rw [whole_arr, erase_arr, List.map_map, hsame, List.map_id]
  | obj fields ih =>
    have hsame : fields.map ((fun f => (f.1, f.2.erase)) ∘ fun f => (f.1, whole f.2)) = fields.map id :=
      List.map_congr_left fun f hf => Prod.ext rfl (ih f hf)
    rw [whole_obj, erase_obj, List.map_map, hsame, List.map_id]
  | _ => rw [whole, erase_shared] <;> exact nofun

theorem whole_child? (v : Json) (seg : Seg ν) : (whole v).child? seg = (Delta.child? v seg).map whole := by
  cases v with
  | arr xs =>
    rw [whole_arr]
    cases seg with
    | key name => rfl
    | index n => cases hn : IndexNumber.index? n <;> simp [child?, Delta.child?, hn]
  | obj fields => rw [whole_obj, child?, Delta.child?, mapGet_map]
  | _ => rfl

end Held

theorem ownedTo_whole (path : Path ν) (v : Json) : OwnedTo path (Held.whole v) := by
  have howned : ∀ v, (Held.whole v).isObj = true → (Held.whole v).Owned := by
    intro v hobj
    cases v with
    | arr xs => exact trivial
    | obj fields => exact trivial
    | _ => cases hobj
  induction path generalizing v with
  | nil => exact howned v
  | cons seg path ih =>
    refine ⟨howned v, fun child hchild => ?_⟩
    rw [Held.whole_child?] at hchild
    obtain ⟨c, -, rfl⟩ := Option.map_eq_some_iff.mp hchild
    exact ih c

/-- One operation on a value that the consumer owns, adopted payloads included. -/
def applyStep (v : Json) (op : Op ν Json) : Except (ApplyError ν) Json :=
  (applyOp (Held.whole v) op).map Held.erase

/-- A batch changes its target in place, operation by operation. -/
def apply (target : Json) (ops : List (Op ν Json)) : Except (ApplyError ν) Json :=
  ops.foldlM applyStep target

theorem applyStep_meets (v : Json) (op : Op ν Json) : Meets (applyStep v op) (validEdit op v) := by
  have hmeets := applyOp_meets (ownedTo_whole op.containers v)
  rwa [Held.erase_whole] at hmeets

/-! ## Runs -/

omit [IndexNumber ν] in
/-- Rounds one after the other. -/
theorem Meets.foldlM {β : Type} {step : Json → β → Except (ApplyError ν) Json}
    {next : Json → β → Option Json} (hstep : ∀ v b, Meets (step v b) (next v b)) (bs : List β)
    (v : Json) : Meets (bs.foldlM step v) (bs.foldlM next v) := by
  induction bs generalizing v with
  | nil => exact .ok v
  | cons b bs ih =>
    rw [List.foldlM_cons, List.foldlM_cons]
    have h := hstep v b
    cases hrun : step v b with
    | ok w =>
      rw [hrun] at h
      generalize next v b = y at h
      cases h
      exact ih w
    | error e =>
      rw [hrun] at h
      generalize next v b = y at h
      cases h
      exact .thrown _

/-- The edits of a batch. -/
def batchEdit (v : Json) (ops : List (Op ν Json)) : Option Json :=
  ops.foldlM (fun v op => validEdit op v) v

theorem batchEdit_flatten (v : Json) (batches : List (List (Op ν Json))) :
    batchEdit v batches.flatten = batches.foldlM batchEdit v := by
  induction batches generalizing v with
  | nil => rfl
  | cons ops batches ih =>
    rw [batchEdit, List.flatten_cons, List.foldlM_append, List.foldlM_cons]
    congr 1
    funext w
    exact ih w

theorem apply_meets (v : Json) (ops : List (Op ν Json)) : Meets (apply v ops) (batchEdit v ops) :=
  .foldlM applyStep_meets ops v

theorem applyImmutable_meets (v : Json) (ops : List (Op ν Json)) :
    Meets (applyImmutable v ops) (batchEdit v ops) := by
  have hmeets := applyImmutableBatches_meets v [ops]
  rwa [List.flatten_singleton] at hmeets

namespace Meets

variable {x x' : Except (ApplyError ν) Json} {y : Option Json}

omit [IndexNumber ν] in
theorem ok_iff (h : Meets x y) (w : Json) : x = .ok w ↔ y = some w := by
  cases h with
  | ok v => simp
  | thrown e => simp

omit [IndexNumber ν] in
theorem not_sharedWrite (h : Meets x y) : x ≠ .error .sharedWrite := by
  cases h <;> simp

end Meets

/-! ## The trusted applier -/

/-- Every splice lies within its array as it is at that point. -/
def SplicesFit (v : Json) : List (Op ν Json) → Prop
  | [] => True
  | op :: ops => FitsIn op v ∧ ∀ w, applyStep v op = .ok w → SplicesFit w ops

/-- What the checked appliers accept, the trusted one does as well. -/
theorem applyImmutableTrusted_of_edits {ops : List (Op ν Json)} {v w : Json} (hfits : SplicesFit v ops)
    (h : batchEdit v ops = some w) : applyImmutableTrusted v ops = .ok w := by
  have hrun : ∀ root : Held, root.erase = v →
      ∃ root', ops.foldlM trustedOp root = .ok root' ∧ root'.erase = w := by
    induction ops generalizing v with
    | nil => exact fun root hroot => ⟨root, rfl, hroot.trans (Option.some.inj h)⟩
    | cons op ops ih =>
      rintro root rfl
      rw [batchEdit, List.foldlM_cons] at h
      obtain ⟨v₁, hstep, hrest⟩ := Option.bind_eq_some_iff.mp h
      obtain ⟨hfit, hmore⟩ := hfits
      have happly := ((applyStep_meets root.erase op).ok_iff v₁).mpr hstep
      unfold validEdit at hstep
      split at hstep
      · rename_i hvalid
        obtain ⟨root₁, htrusted, herase⟩ := trustedOp_of_edit hvalid hstep hfit
        obtain ⟨root', hrun, hw⟩ := ih (hmore v₁ happly) hrest root₁ herase
        exact ⟨root', by rw [List.foldlM_cons]; exact bind_ok.mpr ⟨root₁, htrusted, hrun⟩, hw⟩
      · cases hstep
  obtain ⟨root', hfold, rfl⟩ := hrun (.shared v) (Held.erase_shared v)
  exact bind_ok.mpr ⟨root', hfold, rfl⟩

/-- In place batch by batch, copied batch by batch and copied once for all batches, the same operations
succeed with the same value, and only containers that are the replay's own are written; where they
succeed with splices within their arrays, so does the trusted applier. -/
theorem appliers_agree (v : Json) (batches : List (List (Op ν Json))) :
    (∀ w, batches.foldlM apply v = .ok w ↔ applyImmutableBatches v batches = .ok w) ∧
      (∀ w, batches.foldlM applyImmutable v = .ok w ↔ applyImmutableBatches v batches = .ok w) ∧
      batches.foldlM applyImmutable v ≠ .error .sharedWrite ∧
      applyImmutableBatches v batches ≠ .error .sharedWrite ∧
      ∀ w, applyImmutableBatches v batches = .ok w → SplicesFit v batches.flatten →
        applyImmutableTrusted v batches.flatten = .ok w := by
  have hplace : Meets (batches.foldlM apply v) (batches.foldlM batchEdit v) := .foldlM apply_meets _ _
  have hcopied : Meets (batches.foldlM applyImmutable v) (batches.foldlM batchEdit v) :=
    .foldlM applyImmutable_meets _ _
  have honce := applyImmutableBatches_meets v batches
  rw [← batchEdit, batchEdit_flatten] at honce
  refine ⟨fun w => ?_, fun w => ?_, hcopied.not_sharedWrite, honce.not_sharedWrite, fun w hw hfits => ?_⟩
  · rw [hplace.ok_iff, honce.ok_iff]
  · rw [hcopied.ok_iff, honce.ok_iff]
  · rw [honce.ok_iff, ← batchEdit_flatten] at hw
    exact applyImmutableTrusted_of_edits hfits hw

/-- An item in the middle of a list, then the list turned around. -/
def turnedBatches : List (List (Op Nat Json)) :=
  [[.p [] 1 0 [.str (lit "a")]], [.m [] [2, 1, 0]]]

theorem appliers_agree_sample :
    applyImmutableTrusted (.arr [.null, .bool true]) turnedBatches.flatten =
      .ok (.arr [.bool true, .str (lit "a"), .null]) := by
  have hstep : ∀ w, applyStep (.arr [.null, .bool true]) (.p [] 1 0 [.str (lit "a")] : Op Nat Json) = .ok w →
      SplicesFit w ([.m [] [2, 1, 0]] : List (Op Nat Json)) := fun w _ => ⟨trivial, fun _ _ => trivial⟩
  refine (appliers_agree _ turnedBatches).2.2.2.2 _ rfl ⟨fun xs hxs => ?_, hstep⟩
  obtain rfl := Json.arr.inj (Option.some.inj hxs)
  decide

end Delta
