import Mathlib.Logic.Function.Basic
import Mathlib.Logic.Relation

/-!
# Scripts that interleave

Each thread runs scripts: code between atomic calls on a state that all threads share. Between two
calls of one thread the others may call and the environment may act. A thread may stop at any
point, and a stopped thread never goes on.

* `Safe`: the thread makes each call under the call's guard and returns what its postcondition
  says, whatever the others do under their guards in between. `safe_ask` and `safe_bind` are the
  rules; an assertion that is carried over a call has to be `Stable`.
* `Sound.good_move`: where every script is safe, the invariant of the shared state, the threads'
  own assertions and the safety of the scripts that run are kept by every move of a world.
-/

namespace Interleaving

open Relation Function

/-! ## Scripts -/

/-- Code between atomic calls. -/
inductive Script (Call : Type) (Ret : Call → Type) (α : Type) : Type
  | ret (a : α)
  | ask (c : Call) (k : Ret c → Script Call Ret α)

variable {Call : Type} {Ret : Call → Type} {α β ε : Type}

namespace Script

def bind : Script Call Ret α → (α → Script Call Ret β) → Script Call Ret β
  | ret a, f => f a
  | ask c k, f => ask c fun r => (k r).bind f

instance : Monad (Script Call Ret) where
  pure := ret
  bind := bind

/-- A single call. -/
def call (c : Call) : Script Call Ret (Ret c) := ask c ret

end Script

/-! ## Worlds -/

/-- What the threads of a world may run: the effect of each call of a thread, the environment's own
steps, which threads still run, the scripts by role, and the memory that a result leaves. -/
structure Protocol (σ T Role Call : Type) (Ret : Call → Type) (ε L : Type) where
  act : T → σ → (c : Call) → Ret c → σ → Prop
  env : σ → σ → Prop
  runs : T → σ → Prop
  script : Role → T → L → Option (Script Call Ret (Except ε L))
  after : Role → L → Except ε L → L

/-- The shared state, each thread's memory, and the script that it is running. -/
structure World (σ T Role Call : Type) (Ret : Call → Type) (ε L : Type) where
  shared : σ
  memory : T → L
  running : T → Option (Role × Script Call Ret (Except ε L))

/-- A step of a thread, and the result with which it ended a script, if it did. -/
structure Event (T Role ε L : Type) where
  thread : T
  role : Role
  result : Option (Except ε L)

section Worlds

variable {σ T Role L : Type} (P : Protocol σ T Role Call Ret ε L)

/-- The result of a script that has come to its end. -/
def Script.result : Script Call Ret α → Option α
  | ret a => some a
  | ask _ _ => none

section Steps

variable [DecidableEq T]

/-- A thread goes on with a script, or keeps what the script has returned. -/
def Protocol.settle (w : World σ T Role Call Ret ε L) (t : T) (ρ : Role)
    (p : Script Call Ret (Except ε L)) : World σ T Role Call Ret ε L :=
  match p with
  | .ret a => { w with memory := update w.memory t (P.after ρ (w.memory t) a)
                       running := update w.running t none }
  | .ask c k => { w with running := update w.running t (some (ρ, .ask c k)) }

/-- A thread begins a script, or makes the next call of the one that it is running. -/
inductive Protocol.Step : World σ T Role Call Ret ε L → Event T Role ε L →
    World σ T Role Call Ret ε L → Prop
  | start {w t ρ p} (hidle : w.running t = none) (hruns : P.runs t w.shared)
      (hp : P.script ρ t (w.memory t) = some p) : Step w ⟨t, ρ, p.result⟩ (P.settle w t ρ p)
  | call {w t ρ c k r s'} (hp : w.running t = some (ρ, .ask c k)) (hruns : P.runs t w.shared)
      (hact : P.act t w.shared c r s') :
      Step w ⟨t, ρ, (k r).result⟩ (P.settle { w with shared := s' } t ρ (k r))

/-- A step of a thread or of the environment. -/
inductive Protocol.Move : World σ T Role Call Ret ε L → World σ T Role Call Ret ε L → Prop
  | step {w e w'} : P.Step w e w' → Move w w'
  | env {w s'} : P.env w.shared s' → Move w { w with shared := s' }

@[simp] theorem settle_shared (w : World σ T Role Call Ret ε L) (t : T) (ρ : Role)
    (p : Script Call Ret (Except ε L)) : (P.settle w t ρ p).shared = w.shared := by
  cases p <;> rfl

theorem settle_memory_other (w : World σ T Role Call Ret ε L) {t u : T} (h : u ≠ t) (ρ : Role)
    (p : Script Call Ret (Except ε L)) : (P.settle w t ρ p).memory u = w.memory u := by
  cases p <;> simp [Protocol.settle, h]

theorem settle_running_other (w : World σ T Role Call Ret ε L) {t u : T} (h : u ≠ t) (ρ : Role)
    (p : Script Call Ret (Except ε L)) : (P.settle w t ρ p).running u = w.running u := by
  cases p <;> simp [Protocol.settle, h]

end Steps

/-! ## Safety -/

/-- What a proof says of a protocol: the invariant of the shared state, the guard of each call by
role, what a thread's memory promises, and what holds when a script returns. -/
structure Discipline (σ T Role Call ε L : Type) where
  inv : σ → Prop
  guard : Role → T → σ → Call → Prop
  holds : T → L → σ → Prop
  post : Role → T → L → Except ε L → σ → Prop

variable (D : Discipline σ T Role Call ε L)

/-- A step that a thread `t` that runs on may see between two of its calls. -/
def Rely (t : T) (s s' : σ) : Prop :=
  D.inv s ∧ D.inv s' ∧ P.runs t s' ∧ (P.env s s' ∨
    ∃ u ρ c r, u ≠ t ∧ P.runs u s ∧ D.guard ρ u s c ∧ P.act u s c r s')

/-- No other thread and no step of the environment makes the assertion of `t` false. -/
def Stable (t : T) (A : σ → Prop) : Prop := ∀ s s', Rely P D t s s' → A s → A s'

/-- Whatever the others do, the script of `t` keeps `K` until it ends, makes its calls under their
guards, and ends with `Q`. -/
def Safe (ρ : Role) (t : T) (K : σ → Prop) (Q : α → σ → Prop) :
    Script Call Ret α → σ → Prop
  | .ret a, s => Q a s
  | .ask c k, s => ∀ s₁, ReflTransGen (Rely P D t) s s₁ → D.inv s₁ → P.runs t s₁ →
      K s₁ ∧ D.guard ρ t s₁ c ∧ ∀ r s₂, P.act t s₁ c r s₂ → D.inv s₂ → Safe ρ t K Q (k r) s₂

/-- The conditions under which a discipline holds of every run of a protocol. -/
structure Sound : Prop where
  runs_act : ∀ t u s c r s', P.act u s c r s' → P.runs t s' → P.runs t s
  runs_env : ∀ t s s', P.env s s' → P.runs t s' → P.runs t s
  inv_act : ∀ ρ t s c r s', D.inv s → P.runs t s → D.guard ρ t s c → P.act t s c r s' → D.inv s'
  inv_env : ∀ s s', D.inv s → P.env s s' → D.inv s'
  holds_stable : ∀ t ℓ, Stable P D t (D.holds t ℓ)
  post_holds : ∀ ρ t ℓ a s, D.post ρ t ℓ a s → D.holds t (P.after ρ ℓ a) s
  script_safe : ∀ ρ t ℓ p s, P.script ρ t ℓ = some p → D.inv s → P.runs t s → D.holds t ℓ s →
    Safe P D ρ t (D.holds t ℓ) (D.post ρ t ℓ) p s

variable {P D} {ρ : Role} {t : T} {K : σ → Prop} {Q : α → σ → Prop} {s s' : σ}

theorem Stable.and {A B : σ → Prop} (hA : Stable P D t A) (hB : Stable P D t B) :
    Stable P D t fun s => A s ∧ B s :=
  fun s s' h hs => ⟨hA s s' h hs.1, hB s s' h hs.2⟩

theorem Stable.const (p : Prop) : Stable P D t fun _ => p := fun _ _ _ hp => hp

theorem Stable.imp {p : Prop} {A : σ → Prop} (hA : Stable P D t A) : Stable P D t fun s => p → A s :=
  fun s s' h hs hp => hA s s' h (hs hp)

theorem Stable.run {A : σ → Prop} (hA : Stable P D t A) (hs : A s)
    (h : ReflTransGen (Rely P D t) s s') : A s' := by
  induction h with
  | refl => exact hs
  | tail _ hstep ih => exact hA _ _ hstep ih

/-- A call, from an assertion that the others keep. -/
theorem safe_ask {A : σ → Prop} (hA : Stable P D t A) (hs : A s) {c : Call}
    {k : Ret c → Script Call Ret α}
    (h : ∀ s, D.inv s → P.runs t s → A s → K s ∧ D.guard ρ t s c ∧
      ∀ r s', P.act t s c r s' → D.inv s' → Safe P D ρ t K Q (k r) s') :
    Safe P D ρ t K Q (.ask c k) s :=
  fun s₁ hpath hinv hruns => h s₁ hinv hruns (hA.run hs hpath)

/-- A script that waits for its next call does not see the steps of the others. -/
theorem Safe.rely {c : Call} {k : Ret c → Script Call Ret α}
    (h : Safe P D ρ t K Q (.ask c k) s) (hstep : Rely P D t s s') :
    Safe P D ρ t K Q (.ask c k) s' :=
  fun s₁ hpath => h s₁ (.head hstep hpath)

theorem Safe.mono {R : α → σ → Prop} {p : Script Call Ret α} (h : Safe P D ρ t K R p s)
    (himp : ∀ a s, R a s → Q a s) : Safe P D ρ t K Q p s := by
  induction p generalizing s with
  | ret a => exact himp a s h
  | ask c k ih =>
    intro s₁ hpath hinv hruns
    obtain ⟨hK, hguard, hnext⟩ := h s₁ hpath hinv hruns
    exact ⟨hK, hguard, fun r s₂ hact hinv₂ => ih r (hnext r s₂ hact hinv₂)⟩

/-- The second script starts where the first one ends. -/
theorem safe_bind {R : α → σ → Prop} {Q : β → σ → Prop} {p : Script Call Ret α}
    {f : α → Script Call Ret β} (h : Safe P D ρ t K R p s)
    (hf : ∀ a s, R a s → Safe P D ρ t K Q (f a) s) : Safe P D ρ t K Q (p.bind f) s := by
  induction p generalizing s with
  | ret a => exact hf a s h
  | ask c k ih =>
    intro s₁ hpath hinv hruns
    obtain ⟨hK, hguard, hnext⟩ := h s₁ hpath hinv hruns
    exact ⟨hK, hguard, fun r s₂ hact hinv₂ => ih r (hnext r s₂ hact hinv₂)⟩

/-- The second script starts where the first one returns a value; an error ends both. -/
theorem safe_exceptBind {R : Except ε α → σ → Prop} {Q : Except ε β → σ → Prop}
    {m : ExceptT ε (Script Call Ret) α} {f : α → ExceptT ε (Script Call Ret) β}
    (h : Safe P D ρ t K R m.run s) (hok : ∀ a s, R (.ok a) s → Safe P D ρ t K Q (f a).run s)
    (herror : ∀ e s, R (.error e) s → Q (.error e) s) : Safe P D ρ t K Q (m >>= f).run s := by
  refine safe_bind (f := ExceptT.bindCont f) h fun a s hR => ?_
  cases a with
  | ok a => exact hok a s hR
  | error e => exact herror e s hR

theorem safe_exceptMap {R : Except ε α → σ → Prop} {Q : Except ε β → σ → Prop}
    {m : ExceptT ε (Script Call Ret) α} {f : α → β} (h : Safe P D ρ t K R m.run s)
    (hok : ∀ a s, R (.ok a) s → Q (.ok (f a)) s) (herror : ∀ e s, R (.error e) s → Q (.error e) s) :
    Safe P D ρ t K Q (f <$> m).run s := by
  refine safe_bind h fun a s hR => ?_
  cases a with
  | ok a => exact hok a s hR
  | error e => exact herror e s hR

/-! ## Runs of a world -/

variable (P D) in
/-- The shared state keeps the invariant, and of each thread that runs its memory tells the truth
and its script is safe. -/
structure Good (w : World σ T Role Call Ret ε L) : Prop where
  inv : D.inv w.shared
  holds : ∀ t, P.runs t w.shared → D.holds t (w.memory t) w.shared
  safe : ∀ t ρ p, P.runs t w.shared → w.running t = some (ρ, p) →
    (∃ c k, p = .ask c k) ∧ Safe P D ρ t (D.holds t (w.memory t)) (D.post ρ t (w.memory t)) p w.shared

variable {w w' : World σ T Role Call Ret ε L} {e : Event T Role ε L}

/-- A thread that does not move is left as it was by a step that it may see. -/
private theorem good_other (hD : Sound P D) (hw : Good P D w) {u : T} {s' : σ}
    (hback : P.runs u s' → P.runs u w.shared)
    (hrely : P.runs u s' → Rely P D u w.shared s') (hruns : P.runs u s') :
    D.holds u (w.memory u) s' ∧ ∀ ρ p, w.running u = some (ρ, p) →
      (∃ c k, p = .ask c k) ∧ Safe P D ρ u (D.holds u (w.memory u)) (D.post ρ u (w.memory u)) p s' := by
  refine ⟨hD.holds_stable u _ _ _ (hrely hruns) (hw.holds u (hback hruns)), fun ρ p hp => ?_⟩
  obtain ⟨⟨c, k, rfl⟩, hsafe⟩ := hw.safe u ρ p (hback hruns) hp
  exact ⟨⟨c, k, rfl⟩, hsafe.rely (hrely hruns)⟩

variable [DecidableEq T]

/-- A thread that goes on with a safe script. -/
private theorem good_settle (hD : Sound P D) {w : World σ T Role Call Ret ε L}
    {p : Script Call Ret (Except ε L)} (hinv : D.inv w.shared)
    (hp : P.runs t w.shared →
      Safe P D ρ t (D.holds t (w.memory t)) (D.post ρ t (w.memory t)) p w.shared)
    (hother : ∀ u, u ≠ t → P.runs u w.shared → D.holds u (w.memory u) w.shared ∧
      ∀ ρ p, w.running u = some (ρ, p) → (∃ c k, p = .ask c k) ∧
        Safe P D ρ u (D.holds u (w.memory u)) (D.post ρ u (w.memory u)) p w.shared) :
    Good P D (P.settle w t ρ p) := by
  constructor
  · rw [settle_shared]
    exact hinv
  · intro u hruns
    rw [settle_shared] at hruns ⊢
    by_cases hu : u = t
    · subst hu
      have hsafe := hp hruns
      cases p with
      | ret a =>
        simp only [Protocol.settle, update_self]
        exact hD.post_holds ρ u _ a _ hsafe
      | ask c k => exact (hsafe _ .refl hinv hruns).1
    · rw [settle_memory_other P w hu]
      exact (hother u hu hruns).1
  · intro u ρ' p' hruns hrun
    rw [settle_shared] at hruns ⊢
    by_cases hu : u = t
    · subst hu
      cases p with
      | ret a => simp [Protocol.settle] at hrun
      | ask c k =>
        simp only [Protocol.settle, update_self, Option.some.injEq, Prod.mk.injEq] at hrun ⊢
        obtain ⟨rfl, rfl⟩ := hrun
        exact ⟨⟨c, k, rfl⟩, hp hruns⟩
    · rw [settle_running_other P w hu] at hrun
      rw [settle_memory_other P w hu]
      exact (hother u hu hruns).2 ρ' p' hrun

theorem Sound.good_step (hD : Sound P D) (hw : Good P D w) (h : P.Step w e w') : Good P D w' := by
  cases h with
  | @start t ρ p hidle hruns hp =>
    refine good_settle hD hw.inv (fun _ => ?_) fun u hu hru => ⟨hw.holds u hru, ?_⟩
    · exact hD.script_safe ρ t _ p _ hp hw.inv hruns (hw.holds t hruns)
    · exact fun ρ p hp => hw.safe u ρ p hru hp
  | @call t ρ c k r s' hp hruns hact =>
    obtain ⟨-, hsafe⟩ := hw.safe t ρ _ hruns hp
    obtain ⟨-, hguard, hnext⟩ := hsafe _ .refl hw.inv hruns
    have hinv := hD.inv_act ρ t _ c r s' hw.inv hruns hguard hact
    refine good_settle hD hinv (fun _ => hnext r s' hact hinv) fun u hu hru => ?_
    exact good_other hD hw (hD.runs_act u t _ c r s' hact)
      (fun hru => ⟨hw.inv, hinv, hru, .inr ⟨t, ρ, c, r, hu.symm, hruns, hguard, hact⟩⟩) hru

theorem Sound.good_move (hD : Sound P D) (hw : Good P D w) (h : P.Move w w') : Good P D w' := by
  cases h with
  | step h => exact hD.good_step hw h
  | @env s' h =>
    have hinv := hD.inv_env _ _ hw.inv h
    have hother := fun u => good_other hD hw (u := u) (hD.runs_env u _ s' h)
      fun hru => ⟨hw.inv, hinv, hru, .inl h⟩
    exact ⟨hinv, fun u hru => (hother u hru).1, fun u ρ p hru hp => (hother u hru).2 ρ p hp⟩

/-- A step leaves the shared state or is a call under its guard. -/
theorem Good.guarded (hw : Good P D w) (h : P.Step w e w') :
    w'.shared = w.shared ∨ ∃ c r, P.runs e.thread w.shared ∧ D.guard e.role e.thread w.shared c ∧
      P.act e.thread w.shared c r w'.shared := by
  cases h with
  | start => exact .inl (settle_shared P ..)
  | @call t ρ c k r s' hp hruns hact =>
    obtain ⟨-, hsafe⟩ := hw.safe t ρ _ hruns hp
    obtain ⟨-, hguard, -⟩ := hsafe _ .refl hw.inv hruns
    exact .inr ⟨c, r, hruns, hguard, by rwa [settle_shared]⟩

/-- What a script has returned satisfies its postcondition, and the thread remembers it. -/
theorem Sound.returned (hD : Sound P D) (hw : Good P D w) (h : P.Step w e w') {a : Except ε L}
    (ha : e.result = some a) :
    P.runs e.thread w.shared ∧ D.post e.role e.thread (w.memory e.thread) a w'.shared ∧
      w'.memory e.thread = P.after e.role (w.memory e.thread) a := by
  cases h with
  | @start t ρ p hidle hruns hp =>
    have hsafe := hD.script_safe ρ t _ p _ hp hw.inv hruns (hw.holds t hruns)
    cases p with
    | ask c k => cases ha
    | ret b =>
      obtain rfl := Option.some.inj ha
      exact ⟨hruns, hsafe, by simp [Protocol.settle]⟩
  | @call t ρ c k r s' hp hruns hact =>
    obtain ⟨-, hsafe⟩ := hw.safe t ρ _ hruns hp
    obtain ⟨-, hguard, hnext⟩ := hsafe _ .refl hw.inv hruns
    have hnext := hnext r s' hact (hD.inv_act ρ t _ c r s' hw.inv hruns hguard hact)
    cases hk : k r with
    | ask c' k' =>
      rw [hk] at ha
      cases ha
    | ret b =>
      rw [hk] at ha hnext
      obtain rfl := Option.some.inj ha
      exact ⟨hruns, by rwa [settle_shared], by simp [Protocol.settle]⟩

/-! ## Uninterrupted runs -/

/-- The thread makes all calls of the script one after the other. -/
inductive Protocol.Execs (P : Protocol σ T Role Call Ret ε L) (t : T) {α : Type} :
    Script Call Ret α → σ → α → σ → Prop
  | ret {a s} : Execs P t (.ret a) s a s
  | ask {c k r s s' a s''} : P.runs t s → P.act t s c r s' → Execs P t (k r) s' a s'' →
      Execs P t (.ask c k) s a s''

omit [DecidableEq T] in
theorem Protocol.Execs.bind {p : Script Call Ret α} {f : α → Script Call Ret β} {s s' s'' : σ} {a : α}
    {b : β} (h : P.Execs t p s a s') (hf : P.Execs t (f a) s' b s'') :
    P.Execs t (p.bind f) s b s'' := by
  induction h with
  | ret => exact hf
  | ask hruns hact _ ih => exact .ask hruns hact (ih hf)

omit [DecidableEq T] in
theorem Protocol.Execs.exceptBind {m : ExceptT ε (Script Call Ret) α}
    {f : α → ExceptT ε (Script Call Ret) β} {s s' s'' : σ} {a : α} {b : Except ε β}
    (h : P.Execs t m.run s (.ok a) s') (hf : P.Execs t (f a).run s' b s'') :
    P.Execs t (m >>= f).run s b s'' :=
  Protocol.Execs.bind (f := ExceptT.bindCont f) h hf

/-- A world has an uninterrupted run of a script. -/
theorem Protocol.Execs.moves {p : Script Call Ret (Except ε L)} {s s' : σ} {a : Except ε L}
    (h : P.Execs t p s a s') (ρ : Role) (w : World σ T Role Call Ret ε L) :
    ReflTransGen P.Move (P.settle { w with shared := s } t ρ p)
      (P.settle { w with shared := s' } t ρ (.ret a)) := by
  induction h with
  | ret => exact .refl
  | @ask c k r s₀ s₁ a s₂ hruns hact _ ih =>
    have hp : (P.settle { w with shared := s₀ } t ρ (.ask c k)).running t = some (ρ, .ask c k) := by
      simp [Protocol.settle]
    refine .head (.step (.call hp hruns hact)) ?_
    have hsettle : ∀ p, P.settle { P.settle { w with shared := s₀ } t ρ (.ask c k) with
        shared := s₁ } t ρ p = P.settle { w with shared := s₁ } t ρ p := by
      intro p
      cases p <;> simp [Protocol.settle]
    rw [hsettle]
    exact ih

end Worlds

end Interleaving
