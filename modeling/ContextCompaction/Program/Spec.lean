import Mathlib.Control.Basic
import Mathlib.Order.Defs.Unbundled
import Mathlib.Tactic.SplitIfs

/-!
# Programs with a state that may throw

`Prog σ ε α` runs on a state and ends with a value or an error; what it did to the state before an
error stays.

* `Ends m s Q`: started in `s`, the program ends in a result and a state that satisfy `Q`.
* `Keeps R m`: from any state, the program ends in a state that `R` relates to the first one. For
  a preorder `R` this composes.
* `Returns m P`: from any state, a value that the program returns satisfies `P`.
-/

namespace Program

abbrev Prog (σ ε α : Type) := ExceptT ε (StateM σ) α

variable {σ ε α β : Type}

/-- The result and the last state. -/
def exec (m : Prog σ ε α) (s : σ) : Except ε α × σ := m.run.run s

/-- Run a program and hand out its error as a value. -/
def attempt (m : Prog σ ε α) : Prog σ ε (Except ε α) := fun s => let r := exec m s; (.ok r.1, r.2)

/-- Throw unless a condition fails. -/
def refuseIf (c : Prop) [Decidable c] (e : ε) : Prog σ ε Unit := if c then throw e else pure ()

/-- A pure computation that may fail. -/
def fromExcept (r : Except ε α) : Prog σ ε α := fun s => (r, s)

theorem exec_bind_ok {m : Prog σ ε α} {f : α → Prog σ ε β} {s s' : σ} {a : α}
    (h : exec m s = (.ok a, s')) : exec (m >>= f) s = exec (f a) s' := by
  change (ExceptT.bindCont f (exec m s).1).run (exec m s).2 = _
  rw [h]
  rfl

theorem exec_bind_error {m : Prog σ ε α} {f : α → Prog σ ε β} {s s' : σ} {e : ε}
    (h : exec m s = (.error e, s')) : exec (m >>= f) s = (.error e, s') := by
  change (ExceptT.bindCont f (exec m s).1).run (exec m s).2 = _
  rw [h]
  rfl

/-- Where a program ends. -/
def Ends (m : Prog σ ε α) (s : σ) (Q : Except ε α → σ → Prop) : Prop := Q (exec m s).1 (exec m s).2

variable {m : Prog σ ε α} {s : σ} {Q R : Except ε α → σ → Prop}

theorem Ends.mono (h : Ends m s R) (himp : ∀ r s', R r s' → Q r s') : Ends m s Q := himp _ _ h

theorem ends_pure {a : α} (h : Q (.ok a) s) : Ends (pure a) s Q := h

theorem ends_throw {e : ε} (h : Q (.error e) s) : Ends (throw e) s Q := h

theorem ends_fromExcept {r : Except ε α} (h : Q r s) : Ends (fromExcept r) s Q := h

/-- The second program starts where the first ends. -/
theorem Ends.bind {f : α → Prog σ ε β} {Q : Except ε β → σ → Prop} (h : Ends m s R)
    (hok : ∀ a s', R (.ok a) s' → Ends (f a) s' Q)
    (herror : ∀ e s', R (.error e) s' → Q (.error e) s') : Ends (m >>= f) s Q := by
  unfold Ends at h
  cases hm : exec m s with
  | mk r s' =>
    rw [hm] at h
    cases r with
    | ok a =>
      have := hok a s' h
      rwa [Ends, ← exec_bind_ok hm] at this
    | error e =>
      rw [Ends, exec_bind_error hm]
      exact herror e s' h

theorem ends_get_bind {f : σ → Prog σ ε β} {Q : Except ε β → σ → Prop} (h : Ends (f s) s Q) :
    Ends (get >>= f) s Q := h

theorem ends_modify_bind {g : σ → σ} {f : Unit → Prog σ ε β} {Q : Except ε β → σ → Prop}
    (h : Ends (f ()) (g s) Q) : Ends (modify g >>= f) s Q := h

theorem ends_refuseIf_bind {c : Prop} [Decidable c] {e : ε} {f : Unit → Prog σ ε β}
    {Q : Except ε β → σ → Prop} (hok : ¬ c → Ends (f ()) s Q) (herror : c → Q (.error e) s) :
    Ends (refuseIf c e >>= f) s Q := by
  unfold refuseIf
  split_ifs with hc
  · exact herror hc
  · exact hok hc

/-- A program that is attempted always goes on. -/
theorem ends_attempt_bind {f : Except ε α → Prog σ ε β} {Q : Except ε β → σ → Prop}
    (h : Ends m s fun r s' => Ends (f r) s' Q) : Ends (attempt m >>= f) s Q := h

/-! ## Runs that return -/

/-- What holds of a value that the program returns and of the state it leaves. -/
def Yields (m : Prog σ ε α) (s : σ) (P : α → σ → Prop) : Prop :=
  ∀ a s', exec m s = (.ok a, s') → P a s'

section

variable {P : α → σ → Prop}

theorem yields_pure {a : α} (h : P a s) : Yields (pure a : Prog σ ε α) s P := by
  rintro _ _ ⟨⟩
  exact h

theorem yields_throw {e : ε} : Yields (throw e : Prog σ ε α) s P := by
  rintro _ _ ⟨⟩

theorem Yields.mono {Q : α → σ → Prop} (h : Yields m s Q) (himp : ∀ a s', Q a s' → P a s') :
    Yields m s P :=
  fun a s' hm => himp a s' (h a s' hm)

theorem Yields.and {Q : α → σ → Prop} (hp : Yields m s P) (hq : Yields m s Q) :
    Yields m s fun a s' => P a s' ∧ Q a s' :=
  fun a s' hm => ⟨hp a s' hm, hq a s' hm⟩

/-- A sequence succeeds when its first part does and then its second. -/
theorem exec_bind_eq_ok {f : α → Prog σ ε β} {b : β} {s' : σ} :
    exec (m >>= f) s = (.ok b, s') ↔
      ∃ a t, exec m s = (.ok a, t) ∧ exec (f a) t = (.ok b, s') := by
  cases hm : exec m s with
  | mk r t =>
    cases r with
    | ok a =>
      rw [exec_bind_ok hm]
      constructor
      · exact fun h => ⟨a, t, rfl, h⟩
      · rintro ⟨_, _, ⟨⟩, h⟩
        exact h
    | error e =>
      rw [exec_bind_error hm]
      simp

/-- The second program starts where the first one has returned. -/
theorem Yields.bind {f : α → Prog σ ε β} {P : β → σ → Prop} {Q : α → σ → Prop} (h : Yields m s Q)
    (hf : ∀ a t, Q a t → Yields (f a) t P) : Yields (m >>= f) s P := by
  intro b s' hb
  obtain ⟨a, t, hm, hfa⟩ := exec_bind_eq_ok.mp hb
  exact hf a t (h a t hm) b s' hfa

theorem yields_get_bind {f : σ → Prog σ ε β} {P : β → σ → Prop} (h : Yields (f s) s P) :
    Yields (get >>= f) s P := h

theorem yields_modify {g : σ → σ} {P : Unit → σ → Prop} (h : P () (g s)) :
    Yields (modify g : Prog σ ε Unit) s P := by
  rintro _ _ ⟨⟩
  exact h

theorem yields_modify_bind {g : σ → σ} {f : Unit → Prog σ ε β} {P : β → σ → Prop}
    (h : Yields (f ()) (g s) P) : Yields (modify g >>= f) s P := h

theorem yields_refuseIf_bind {c : Prop} [Decidable c] {e : ε} {f : Unit → Prog σ ε β}
    {P : β → σ → Prop} (h : ¬ c → Yields (f ()) s P) : Yields (refuseIf c e >>= f) s P := by
  unfold refuseIf
  split_ifs with hc
  · intro b s' hb
    cases hb
  · exact h hc

end

/-! ## Every run -/

def Keeps (R : σ → σ → Prop) (m : Prog σ ε α) : Prop := ∀ s, R s (exec m s).2

def Returns (m : Prog σ ε α) (P : α → Prop) : Prop := ∀ s a, (exec m s).1 = .ok a → P a

section

variable {R : σ → σ → Prop} {m : Prog σ ε α}

theorem Keeps.ends (h : Keeps R m) (s : σ) : Ends m s fun _ s' => R s s' := h s

theorem keeps_of_ends (h : ∀ s, Ends m s fun _ s' => R s s') : Keeps R m := h

theorem Keeps.mono {S : σ → σ → Prop} (h : Keeps R m) (himp : ∀ s s', R s s' → S s s') : Keeps S m :=
  fun s => himp _ _ (h s)

section

variable [Std.Refl R]

theorem keeps_pure (a : α) : Keeps R (pure a : Prog σ ε α) := fun s => Std.Refl.refl s

theorem keeps_throw (e : ε) : Keeps R (throw e : Prog σ ε α) := fun s => Std.Refl.refl s

theorem keeps_fromExcept (r : Except ε α) : Keeps R (fromExcept r) := fun s => Std.Refl.refl s

theorem keeps_refuseIf (c : Prop) [Decidable c] (e : ε) : Keeps R (refuseIf c e) := by
  unfold refuseIf
  split
  · exact keeps_throw e
  · exact keeps_pure ()

theorem keeps_get : Keeps R (get : Prog σ ε σ) := fun s => Std.Refl.refl s

end

theorem keeps_attempt (h : Keeps R m) : Keeps R (attempt m) := h

theorem Keeps.bind [IsTrans σ R] {f : α → Prog σ ε β} (h : Keeps R m) (hf : ∀ a, Keeps R (f a)) :
    Keeps R (m >>= f) := by
  intro s
  have hends : Ends (m >>= f) s fun _ s' => R s s' :=
    (h.ends s).bind (fun a s' hs => IsTrans.trans s s' _ hs (hf a s')) fun _ _ hs => hs
  exact hends

theorem keeps_modify {f : σ → σ} (h : ∀ s, R s (f s)) : Keeps R (modify f : Prog σ ε Unit) := h

end

section

variable {P : α → Prop} {m : Prog σ ε α}

theorem Returns.ends (h : Returns m P) (s : σ) : Ends m s fun r _ => ∀ a, r = .ok a → P a := h s

theorem returns_pure {a : α} (h : P a) : Returns (pure a : Prog σ ε α) P := by
  rintro s _ ⟨⟩
  exact h

theorem returns_throw (e : ε) : Returns (throw e : Prog σ ε α) P := by
  rintro s _ ⟨⟩

/-- What the first part returns is known of the second. -/
theorem Returns.bind {m : Prog σ ε β} {f : β → Prog σ ε α} {Q : β → Prop} (h : Returns m Q)
    (hf : ∀ b, Q b → Returns (f b) P) : Returns (m >>= f) P := by
  intro s
  have hends : Ends (m >>= f) s fun r _ => ∀ a, r = .ok a → P a :=
    (h.ends s).bind (fun b s' hb => hf b (hb b rfl) s') fun e s' _ a ha => by cases ha
  exact hends

/-- Only the value of the last part is returned. -/
theorem returns_bind {m : Prog σ ε β} {f : β → Prog σ ε α} (hf : ∀ b, Returns (f b) P) :
    Returns (m >>= f) P :=
  Returns.bind (Q := fun _ => True) (fun _ _ _ => trivial) fun b _ => hf b

end

end Program
