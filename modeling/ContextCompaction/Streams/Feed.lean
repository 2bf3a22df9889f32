import ContextCompaction.Js.Except

/-!
# Streams that arrive in chunks

A machine that takes one element at a time gives what the element completes, or fails. Fed chunks, it
completes what it completes of the elements that they make up.

* `feed_append`: a stream is fed in parts.
* `feedChunks_take`: what the first chunks complete.
* `feedChunks_flatten`: the chunks complete what their elements complete, and fail where they fail.
-/

namespace Streams

variable {σ β α ε : Type}

/-- The state after some elements, and what they complete. -/
def feed (step : σ → β → Except ε (σ × List α)) : σ → List β → Except ε (σ × List α)
  | s, [] => .ok (s, [])
  | s, b :: bs => do
    let r ← step s b
    let r' ← feed step r.1 bs
    .ok (r'.1, r.2 ++ r'.2)

/-- The state after some chunks, and what each completes. -/
def feedChunks (step : σ → β → Except ε (σ × List α)) :
    σ → List (List β) → Except ε (σ × List (List α))
  | s, [] => .ok (s, [])
  | s, c :: cs => do
    let r ← feed step s c
    let r' ← feedChunks step r.1 cs
    .ok (r'.1, r.2 :: r'.2)

variable {step : σ → β → Except ε (σ × List α)} {s : σ}

@[simp] theorem feed_nil : feed step s [] = .ok (s, []) := rfl

@[simp] theorem feedChunks_nil : feedChunks step s [] = .ok (s, []) := rfl

theorem feed_append (a b : List β) :
    feed step s (a ++ b) = (feed step s a).bind fun r =>
      (feed step r.1 b).map fun r' => (r'.1, r.2 ++ r'.2) := by
  induction a generalizing s with
  | nil =>
    cases h : feed step s b <;> simp [h, Except.bind, Except.map]
  | cons x a ih =>
    simp only [List.cons_append, feed, bind, Except.bind]
    cases step s x with
    | error => rfl
    | ok r =>
      simp only [ih]
      cases feed step r.1 a with
      | error => rfl
      | ok r' =>
        cases h : feed step r'.1 b <;> simp [h, Except.bind, Except.map]

theorem feed_append_ok {a b : List β} {r : σ × List α} (h : feed step s a = .ok r) :
    feed step s (a ++ b) = (feed step r.1 b).map fun r' => (r'.1, r.2 ++ r'.2) := by
  rw [feed_append, h]
  rfl

theorem feed_append_error {a b : List β} {e : ε} (h : feed step s a = .error e) :
    feed step s (a ++ b) = .error e := by
  rw [feed_append, h]
  rfl

/-- Fed in chunks, a stream completes the same and fails with the same. -/
theorem feedChunks_flatten (cs : List (List β)) :
    (feedChunks step s cs).map (fun r => (r.1, r.2.flatten)) = feed step s cs.flatten := by
  induction cs generalizing s with
  | nil => rfl
  | cons c cs ih =>
    rw [List.flatten_cons]
    cases h : feed step s c with
    | error e =>
      rw [feed_append_error h]
      simp only [feedChunks, h]
      rfl
    | ok r =>
      rw [feed_append_ok h, ← ih]
      simp only [feedChunks, h, bind, Except.bind]
      cases feedChunks step r.1 cs <;> rfl

/-- What the first chunks complete. -/
theorem feedChunks_take {cs : List (List β)} {r : σ × List (List α)} (h : feedChunks step s cs = .ok r)
    (i : Nat) : ∃ s', feed step s (cs.take i).flatten = .ok (s', (r.2.take i).flatten) := by
  induction cs generalizing s r i with
  | nil =>
    obtain rfl := Except.ok.inj h
    exact ⟨s, by simp⟩
  | cons c cs ih =>
    obtain ⟨first, hfirst, h⟩ := Js.bind_ok.mp h
    obtain ⟨rest, hrest, h⟩ := Js.bind_ok.mp h
    obtain rfl := Except.ok.inj h
    cases i with
    | zero => exact ⟨s, rfl⟩
    | succ i =>
      obtain ⟨s', hs'⟩ := ih hrest i
      refine ⟨s', ?_⟩
      rw [List.take_succ_cons, List.flatten_cons, feed_append_ok hfirst, hs']
      rfl

theorem feedChunks_length {cs : List (List β)} {r : σ × List (List α)}
    (h : feedChunks step s cs = .ok r) : r.2.length = cs.length := by
  induction cs generalizing s r with
  | nil =>
    obtain rfl := Except.ok.inj h
    rfl
  | cons c cs ih =>
    obtain ⟨first, -, h⟩ := Js.bind_ok.mp h
    obtain ⟨rest, hrest, h⟩ := Js.bind_ok.mp h
    obtain rfl := Except.ok.inj h
    simpa using ih hrest

/-- A stream that is taken is taken in any chunks. -/
theorem feedChunks_of_feed {cs : List (List β)} {s' : σ} {xs : List α}
    (h : feed step s cs.flatten = .ok (s', xs)) :
    ∃ outs, feedChunks step s cs = .ok (s', outs) ∧ outs.flatten = xs := by
  rw [← feedChunks_flatten] at h
  obtain ⟨r, hr, heq⟩ := Js.map_ok.mp h
  obtain ⟨rfl, rfl⟩ := Prod.mk.inj heq
  exact ⟨r.2, hr, rfl⟩

end Streams
