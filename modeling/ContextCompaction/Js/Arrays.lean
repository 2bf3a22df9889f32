import Mathlib.Data.List.Basic
import Mathlib.Tactic.Common

/-!
# Arrays with holes

What `length`, `copyWithin` and a definition by index do to an array whose elements may be missing.

* `copyWithin_grow`, `copyWithin_shrink`: making room for items, and closing a gap.
* `defineFrom_eq`: items written over a part of an array.
-/

namespace Js

variable {α : Type}

/-- `xs.length = n`; what is added are holes. -/
def setLength (xs : List (Option α)) (n : Nat) : List (Option α) :=
  xs.take n ++ List.replicate (n - xs.length) none

/-- `xs.copyWithin(target, start, last)` for indices that are not negative. -/
def copyWithin (xs : List (Option α)) (target start last : Nat) : List (Option α) :=
  let count := min (min last xs.length - start) (xs.length - target)
  xs.take target ++ (xs.drop start).take count ++ xs.drop (target + count)

/-- `Object.defineProperty(xs, i, …)` -/
def defineIndex (xs : List (Option α)) (i : Nat) (v : α) : List (Option α) :=
  if i < xs.length then xs.set i (some v)
  else xs ++ List.replicate (i - xs.length) none ++ [some v]

/-- Items defined from an index on. -/
def defineFrom (xs : List (Option α)) : Nat → List α → List (Option α)
  | _, [] => xs
  | i, v :: items => defineFrom (defineIndex xs i v) (i + 1) items

/-- The elements of an array without holes. -/
def dense? (xs : List (Option α)) : Option (List α) := xs.mapM id

@[simp] theorem dense?_map_some (xs : List α) : dense? (xs.map some) = some xs := by
  unfold dense?
  induction xs with
  | nil => rfl
  | cons x xs ih => simp [ih]

/-- Items are written over the elements from an index on. -/
theorem defineFrom_eq {xs : List (Option α)} {items : List α} {i : Nat}
    (h : i + items.length ≤ xs.length) :
    defineFrom xs i items = xs.take i ++ items.map some ++ xs.drop (i + items.length) := by
  induction items generalizing xs i with
  | nil => simp [defineFrom]
  | cons v items ih =>
    rw [List.length_cons] at h
    have hlt : i < xs.length := by omega
    have hset : defineIndex xs i v = xs.take i ++ some v :: xs.drop (i + 1) := by
      rw [defineIndex, if_pos hlt, List.set_eq_take_append_cons_drop, if_pos hlt]
    have hlength : (xs.take i).length = i := by rw [List.length_take]; omega
    rw [defineFrom, ih (by rw [hset, List.length_append, List.length_cons, List.length_drop]; omega),
      hset]
    have htake : (xs.take i ++ some v :: xs.drop (i + 1)).take (i + 1) = xs.take i ++ [some v] := by
      rw [List.take_append, hlength, List.take_of_length_le (by omega)]
      simp
    have hdrop : (xs.take i ++ some v :: xs.drop (i + 1)).drop (i + 1 + items.length) =
        xs.drop (i + (items.length + 1)) := by
      rw [List.drop_append, hlength, List.drop_of_length_le (by omega),
        show i + 1 + items.length - i = items.length + 1 by omega, List.drop_succ_cons, List.drop_drop,
        List.nil_append]
      congr 1
      omega
    rw [htake, hdrop]
    simp

/-- Items written into the room that is there for them. -/
theorem defineFrom_room {front room back : List (Option α)} {items : List α}
    (h : room.length = items.length) : defineFrom (front ++ room ++ back) front.length items =
      front ++ items.map some ++ back := by
  have hfront : (front ++ room ++ back).take front.length = front := by
    rw [List.append_assoc, List.take_left]
  have hback : (front ++ room ++ back).drop (front.length + items.length) = back := by
    rw [← h, ← List.length_append, List.drop_left]
  rw [defineFrom_eq (by simp only [List.length_append]; omega), hfront, hback]

/-- Behind some elements that are taken away, as many more are made room for. -/
theorem copyWithin_grow {xs : List (Option α)} {start remove : Nat} (more : Nat)
    (h : start + remove ≤ xs.length) :
    ∃ room, room.length = remove + more ∧
      copyWithin (setLength xs (xs.length + more)) (start + remove + more) (start + remove) xs.length =
        xs.take start ++ room ++ xs.drop (start + remove) := by
  have hset : setLength xs (xs.length + more) = xs ++ List.replicate more none := by
    rw [setLength, List.take_of_length_le (by omega), Nat.add_sub_cancel_left]
  have hlength : (xs ++ List.replicate more none).length = xs.length + more := by simp
  have hcount : min (min xs.length (xs.length + more) - (start + remove))
      (xs.length + more - (start + remove + more)) = xs.length - (start + remove) := by omega
  refine ⟨((xs ++ List.replicate more none).drop start).take (remove + more), ?_, ?_⟩
  · rw [List.length_take, List.length_drop, hlength]
    omega
  · rw [hset, copyWithin, hlength, hcount]
    have hend : (xs ++ List.replicate more none).drop
        (start + remove + more + (xs.length - (start + remove))) = [] :=
      List.drop_of_length_le (by rw [hlength]; omega)
    have hmoved : ((xs ++ List.replicate more none).drop (start + remove)).take
        (xs.length - (start + remove)) = xs.drop (start + remove) := by
      rw [List.drop_append_of_le_length h]
      exact List.take_left' (by rw [List.length_drop])
    have hfront : (xs ++ List.replicate more none).take (start + remove + more) =
        xs.take start ++ ((xs ++ List.replicate more none).drop start).take (remove + more) := by
      rw [Nat.add_assoc, List.take_add, List.take_append_of_le_length (by omega)]
    rw [hend, hmoved, hfront, List.append_nil]

/-- A gap closed. -/
theorem copyWithin_shrink {xs : List (Option α)} {start keep fewer : Nat}
    (h : start + keep + fewer ≤ xs.length) :
    setLength (copyWithin xs (start + keep) (start + keep + fewer) xs.length) (xs.length - fewer) =
      xs.take (start + keep) ++ xs.drop (start + keep + fewer) := by
  have hcount : min (min xs.length xs.length - (start + keep + fewer))
      (xs.length - (start + keep)) = xs.length - (start + keep + fewer) := by omega
  rw [copyWithin, hcount]
  rw [List.take_of_length_le (l := xs.drop (start + keep + fewer)) (Nat.le_of_eq List.length_drop)]
  have hlength : (xs.take (start + keep) ++ xs.drop (start + keep + fewer)).length =
      xs.length - fewer := by
    rw [List.length_append, List.length_take, List.length_drop]
    omega
  rw [setLength, List.take_left' hlength]
  have hnone : xs.length - fewer - (xs.take (start + keep) ++ xs.drop (start + keep + fewer) ++
      xs.drop (start + keep + (xs.length - (start + keep + fewer)))).length = 0 := by
    rw [List.length_append, hlength]
    omega
  rw [hnone, List.replicate_zero, List.append_nil]

end Js
