import ContextCompaction.Js.Except
import ContextCompaction.Js.JsonOrder
import ContextCompaction.Js.Schema

/-!
# Operations on revisions

The operations that one revision of a value differs from the next by. A path's indices and an
operation's counts are of any type that can stand for an array index: ECMAScript numbers where they
cross a boundary, natural numbers where they come out of an array.

* `assertValidOp`: what every applier asks of an operation.
* `Op.Same`: equal operations, up to the sign of a zero in the path.
-/

namespace Delta

open Js

/-! ## Tuples -/

/-- What an index or a count is given as. -/
class IndexNumber (ν : Type) where
  /-- The nonnegative integer that it is. -/
  index? : ν → Option Nat
  /-- `String(n)` -/
  text : ν → Str

instance : IndexNumber Number := ⟨fun n => count? (.num n), Number.text⟩

instance : IndexNumber Nat := ⟨some, fun n => lit n.repr⟩

/-- A segment of a path: a key of an object or an index of an array. -/
inductive Seg (ν : Type) where
  | key (name : Str)
  | index (n : ν)
  deriving DecidableEq

/-- A path from the root of a value to one of its descendants. -/
abbrev Path (ν : Type) := List (Seg ν)

/-- Tuples are the form. `r` is the only one that replaces a whole value. -/
inductive Op (ν α : Type) where
  | r (value : α)
  | s (path : Path ν) (value : α)
  | d (path : Path ν)
  | a (path : Path ν) (text : Str)
  | t (path : Path ν) (count : ν)
  | p (path : Path ν) (index remove : ν) (items : List α)
  /-- `new[i] = old[permutation[i]]` -/
  | m (path : Path ν) (permutation : List ν)
  deriving DecidableEq

variable {ν α : Type}

/-- Only the replacement has no path and resets the codec. -/
def isReplace : Op ν α → Bool
  | .r _ => true
  | _ => false

/-- A batch begins with a replacement. -/
def isBase (ops : List (Op ν α)) : Bool := ops.head?.any isReplace

/-! ## Validation -/

/-- What is thrown for an operation that is not well formed or does not fit its target. -/
inductive DeltaError (ν : Type) where
  | type (message : Str)
  | unsafePath (segment : Seg ν)
  | path (path : Path ν)
  | pathId (id : Nat)
  deriving DecidableEq

/-- The keys that no path may name. -/
def RESERVED_SEGMENTS : List Str := [lit "__proto__", lit "constructor", lit "prototype"]

section

variable [IndexNumber ν]

/-- A segment is safe when it is an index or a key that is not reserved. -/
def Seg.safe : Seg ν → Bool
  | .key name => name ∉ RESERVED_SEGMENTS
  | .index n => (IndexNumber.index? n).isSome

/-- Every segment of the path is safe. -/
def SafePath (path : Path ν) : Prop := ∀ seg ∈ path, seg.safe = true

/-- A path is refused at its first segment that is not safe. -/
def assertSafePath (path : Path ν) : Except (DeltaError ν) Unit :=
  match path.find? fun seg => !seg.safe with
  | none => .ok ()
  | some seg => .error (.unsafePath seg)

/-- A path argument is safe and, where the operation asks for it, not empty. -/
def assertPathArg (p : Path ν) (nonEmpty : Bool) : Except (DeltaError ν) Unit :=
  if nonEmpty && p.isEmpty then .error (.type (lit "path is empty")) else assertSafePath p

/-- Every index once, below the length. -/
def assertPermutation (value : List ν) : Except (DeltaError ν) Unit :=
  let indices := value.map IndexNumber.index?
  if indices.all (fun i => i.any (· < value.length)) && decide indices.Nodup then .ok ()
  else .error (.type (lit "m permutation is not a bijection"))

/-- A number is refused unless it is an index. -/
def assertIndex (n : ν) (message : Str) : Except (DeltaError ν) Unit :=
  if (IndexNumber.index? n).isSome then .ok () else .error (.type message)

/-- The checks that the type leaves: a tuple's arity and its members' types are those of `Op`. -/
def assertValidOp : Op ν α → Except (DeltaError ν) Unit
  | .r _ => .ok ()
  | .s path _ => assertPathArg path true
  | .d path => assertPathArg path true
  | .a path _ => assertPathArg path true
  | .t path count => do
    assertIndex count (lit "t shape")
    assertPathArg path true
  | .p path index remove _ => do
    assertPathArg path false
    assertIndex index (lit "p index")
    assertIndex remove (lit "p remove")
  | .m path permutation => do
    assertPathArg path false
    assertPermutation permutation

end

/-! ## Parts -/

/-- The path that an operation names. -/
def Op.path? : Op ν α → Option (Path ν)
  | .r _ => none
  | .s path _ | .d path | .a path _ | .t path _ | .p path _ _ _ | .m path _ => some path

/-- `s`, `d`, `a` and `t` cannot target the root. -/
def Op.inner : Op ν α → Bool
  | .s .. | .d _ | .a .. | .t .. => true
  | _ => false

/-- The operation at another path. -/
def Op.at (path : Path ν) : Op ν α → Op ν α
  | .r value => .r value
  | .s _ value => .s path value
  | .d _ => .d path
  | .a _ text => .a path text
  | .t _ count => .t path count
  | .p _ index remove items => .p path index remove items
  | .m _ permutation => .m path permutation

/-- What else an operation holds passes its checks. -/
def Op.PayloadValid [IndexNumber ν] : Op ν α → Prop
  | .t _ count => (IndexNumber.index? count).isSome = true
  | .p _ index remove _ =>
    (IndexNumber.index? index).isSome = true ∧ (IndexNumber.index? remove).isSome = true
  | .m _ permutation => assertPermutation permutation = .ok ()
  | _ => True

/-- The operation on values of another type. -/
def Op.map {β : Type} (f : α → β) : Op ν α → Op ν β
  | .r value => .r (f value)
  | .s path value => .s path (f value)
  | .d path => .d path
  | .a path text => .a path text
  | .t path count => .t path count
  | .p path index remove items => .p path index remove (items.map f)
  | .m path permutation => .m path permutation

theorem Op.at_path {op : Op ν α} {path : Path ν} (h : op.path? = some path) : op.at path = op := by
  cases op <;> simp_all [path?, Op.at]

section

variable [IndexNumber ν]

theorem assertSafePath_ok {path : Path ν} :
    assertSafePath path = .ok () ↔ ∀ seg ∈ path, seg.safe = true := by
  unfold assertSafePath
  split
  · rename_i h
    simpa using h
  · rename_i seg h
    obtain ⟨hbad, hmem⟩ := (⟨by simpa using List.find?_some h, List.mem_of_find?_eq_some h⟩ :
      seg.safe = false ∧ seg ∈ path)
    exact ⟨nofun, fun hall => by rw [hall seg hmem] at hbad; cases hbad⟩

theorem assertPathArg_ok {path : Path ν} {nonEmpty : Bool} :
    assertPathArg path nonEmpty = .ok () ↔
      (nonEmpty = true → path ≠ []) ∧ ∀ seg ∈ path, seg.safe = true := by
  unfold assertPathArg
  split
  · rename_i h
    obtain ⟨hne, hnil⟩ : nonEmpty = true ∧ path = [] := by simpa using h
    simp [hne, hnil]
  · rename_i h
    rw [assertSafePath_ok]
    exact ⟨fun hall => ⟨fun hne hnil => h (by simp [hne, hnil]), hall⟩, And.right⟩

theorem assertIndex_ok {n : ν} {message : Str} :
    assertIndex n message = .ok () ↔ (IndexNumber.index? n).isSome = true := by
  unfold assertIndex
  split <;> simp [*]

/-- A valid operation has a path that may be walked, and a payload that passes its checks. -/
theorem assertValidOp_ok {op : Op ν α} :
    assertValidOp op = .ok () ↔
      (∀ path ∈ op.path?, (op.inner = true → path ≠ []) ∧ ∀ seg ∈ path, seg.safe = true) ∧
        op.PayloadValid := by
  cases op with
  | r value => simp [assertValidOp, Op.path?, Op.PayloadValid]
  | s path value => simp [assertValidOp, assertPathArg_ok, Op.path?, Op.PayloadValid, Op.inner]
  | d path => simp [assertValidOp, assertPathArg_ok, Op.path?, Op.PayloadValid, Op.inner]
  | a path text => simp [assertValidOp, assertPathArg_ok, Op.path?, Op.PayloadValid, Op.inner]
  | t path count =>
    rw [assertValidOp, andThen_ok, assertIndex_ok, assertPathArg_ok]
    simp only [Op.path?, Op.PayloadValid, Op.inner, Option.mem_some_iff, forall_eq']
    exact and_comm
  | p path index remove items =>
    rw [assertValidOp, andThen_ok, andThen_ok, assertIndex_ok, assertIndex_ok, assertPathArg_ok]
    simp [Op.path?, Op.PayloadValid, Op.inner]
  | m path permutation =>
    rw [assertValidOp, andThen_ok, assertPathArg_ok]
    simp [Op.path?, Op.PayloadValid, Op.inner]

end

/-! ## Equality up to the sign of zero -/

/-- The same segment; the zeros are the same. -/
inductive Seg.Same : Seg Number → Seg Number → Prop
  | key (name : Str) : Seg.Same (.key name) (.key name)
  | index {m n : Number} (h : m.Same n) : Seg.Same (.index m) (.index n)

/-- Paths that differ at most in the sign of a zero. -/
abbrev SamePath : Path Number → Path Number → Prop := List.Forall₂ Seg.Same

/-- The same operation, but for the sign of a zero in its path. -/
def Op.Same (op op' : Op Number α) : Prop :=
  op = op' ∨ ∃ path path', op.path? = some path ∧ SamePath path path' ∧ op' = op.at path'

end Delta
