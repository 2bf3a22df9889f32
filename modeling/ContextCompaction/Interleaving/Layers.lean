import ContextCompaction.Interleaving.Scripts

/-!
# A second discipline over a sound one

What a sound discipline says of a protocol is used again where more is to be proved of some of its
runs.

* `Protocol.only`: the runs whose steps all meet a condition on the call or on the role.
* `Layer`: the guards, promises and postconditions that a second proof adds. A thread answers for
  the guards of the layer alone, and relies on both disciplines (`Discipline.beside`).
* `Sound.also`: a layer whose scripts are safe is sound together with what it lies on.
* `Script.Calls`, `Safe.of_calls`: a script that makes calls of one kind only.
* `Protocol.Advances`: the calls of a script that is not run to its end.
-/

namespace Interleaving

open Relation Function

variable {σ T Role Call ε L α β : Type} {Ret : Call → Type}

/-! ## Runs whose steps meet a condition -/

/-- The steps of a protocol whose calls may be made and whose roles may begin. -/
def Protocol.only (P : Protocol σ T Role Call Ret ε L) (may : T → σ → Call → Prop)
    (begins : Role → Bool) : Protocol σ T Role Call Ret ε L where
  act t s c r s' := may t s c ∧ P.act t s c r s'
  env := P.env
  runs := P.runs
  script ρ t ℓ := if begins ρ then P.script ρ t ℓ else none
  after := P.after

section Only

variable {P : Protocol σ T Role Call Ret ε L} {may : T → σ → Call → Prop} {begins : Role → Bool}
  {w w' : World σ T Role Call Ret ε L} {e : Event T Role ε L}

theorem only_script {ρ : Role} {t : T} {ℓ : L} {p : Script Call Ret (Except ε L)} :
    (P.only may begins).script ρ t ℓ = some p ↔ begins ρ = true ∧ P.script ρ t ℓ = some p := by
  simp only [Protocol.only, Option.ite_none_right_eq_some]

variable [DecidableEq T]

@[simp] theorem only_settle (w : World σ T Role Call Ret ε L) (t : T) (ρ : Role)
    (p : Script Call Ret (Except ε L)) : (P.only may begins).settle w t ρ p = P.settle w t ρ p := by
  cases p <;> rfl

theorem Protocol.Step.of_only (h : (P.only may begins).Step w e w') : P.Step w e w' := by
  cases h with
  | start hidle hruns hp =>
    rw [only_settle]
    exact .start hidle hruns (only_script.mp hp).2
  | call hp hruns hact =>
    rw [only_settle]
    exact .call hp hruns hact.2

theorem Protocol.Move.of_only (h : (P.only may begins).Move w w') : P.Move w w' := by
  cases h with
  | step h => exact .step h.of_only
  | env h => exact .env h

end Only

/-! ## Layers -/

/-- What a second proof adds to a discipline. -/
structure Layer (σ T Role Call ε L : Type) where
  guard : Role → T → σ → Call → Prop
  holds : T → L → σ → Prop
  post : Role → T → L → Except ε L → σ → Prop

/-- Both disciplines. -/
def Discipline.and (D : Discipline σ T Role Call ε L) (E : Layer σ T Role Call ε L) :
    Discipline σ T Role Call ε L where
  inv := D.inv
  guard ρ t s c := D.guard ρ t s c ∧ E.guard ρ t s c
  holds t ℓ s := D.holds t ℓ s ∧ E.holds t ℓ s
  post ρ t ℓ a s := D.post ρ t ℓ a s ∧ E.post ρ t ℓ a s

/-- What the thread `t` has to show of the layer: the others keep both disciplines. -/
def Discipline.beside (D : Discipline σ T Role Call ε L) (E : Layer σ T Role Call ε L) (t : T) :
    Discipline σ T Role Call ε L where
  inv := D.inv
  guard ρ u s c := (u ≠ t → D.guard ρ u s c) ∧ E.guard ρ u s c
  holds := E.holds
  post := E.post

variable {P : Protocol σ T Role Call Ret ε L} {D : Discipline σ T Role Call ε L}
  {E : Layer σ T Role Call ε L} {may : T → σ → Call → Prop} {begins : Role → Bool} {ρ : Role} {t : T}
  {s s' : σ}

private theorem Rely.first (h : Rely (P.only may begins) (D.beside E t) t s s') :
    Rely P D t s s' := by
  obtain ⟨hinv, hinv', hruns, h | ⟨u, ρ, c, r, hne, hu, hguard, hact⟩⟩ := h
  · exact ⟨hinv, hinv', hruns, .inl h⟩
  · exact ⟨hinv, hinv', hruns, .inr ⟨u, ρ, c, r, hne, hu, hguard.1 hne, hact.2⟩⟩

private theorem Rely.beside (h : Rely (P.only may begins) (D.and E) t s s') :
    Rely (P.only may begins) (D.beside E t) t s s' := by
  obtain ⟨hinv, hinv', hruns, h | ⟨u, ρ, c, r, hne, hu, hguard, hact⟩⟩ := h
  · exact ⟨hinv, hinv', hruns, .inl h⟩
  · exact ⟨hinv, hinv', hruns, .inr ⟨u, ρ, c, r, hne, hu, ⟨fun _ => hguard.1, hguard.2⟩, hact⟩⟩

/-- What is stable under the first discipline is stable for the layer. -/
theorem Stable.layer {A : σ → Prop} (hA : Stable P D t A) :
    Stable (P.only may begins) (D.beside E t) t A :=
  fun s s' hrely hs => hA s s' hrely.first hs

/-- What a script ends with under the first discipline, it ends with under the layer. -/
theorem Safe.alongside {K₁ K₂ : σ → Prop} {Q₁ Q₂ : α → σ → Prop} {p : Script Call Ret α}
    (h₁ : Safe P D ρ t K₁ Q₁ p s)
    (h₂ : Safe (P.only may begins) (D.beside E t) ρ t K₂ Q₂ p s) :
    Safe (P.only may begins) (D.beside E t) ρ t K₂ (fun a s => Q₁ a s ∧ Q₂ a s) p s := by
  induction p generalizing s with
  | ret a => exact ⟨h₁, h₂⟩
  | ask c k ih =>
    intro s₁ hpath hinv hruns
    obtain ⟨-, -, hnext₁⟩ := h₁ s₁ (hpath.lift id fun _ _ => Rely.first) hinv hruns
    obtain ⟨hK₂, hguard₂, hnext₂⟩ := h₂ s₁ hpath hinv hruns
    exact ⟨hK₂, hguard₂, fun r s₂ hact hinv₂ =>
      ih r (hnext₁ r s₂ hact.2 hinv₂) (hnext₂ r s₂ hact hinv₂)⟩

/-- A script that is safe for each of the disciplines is safe for both. -/
theorem Safe.both {K₁ K₂ : σ → Prop} {Q₁ Q₂ : α → σ → Prop} {p : Script Call Ret α}
    (h₁ : Safe P D ρ t K₁ Q₁ p s)
    (h₂ : Safe (P.only may begins) (D.beside E t) ρ t K₂ Q₂ p s) :
    Safe (P.only may begins) (D.and E) ρ t (fun s => K₁ s ∧ K₂ s) (fun a s => Q₁ a s ∧ Q₂ a s)
      p s := by
  induction p generalizing s with
  | ret a => exact ⟨h₁, h₂⟩
  | ask c k ih =>
    intro s₁ hpath hinv hruns
    obtain ⟨hK₁, hguard₁, hnext₁⟩ := h₁ s₁ (hpath.lift id fun _ _ h => h.beside.first) hinv hruns
    obtain ⟨hK₂, hguard₂, hnext₂⟩ := h₂ s₁ (hpath.lift id fun _ _ => Rely.beside) hinv hruns
    exact ⟨⟨hK₁, hK₂⟩, ⟨hguard₁, hguard₂.2⟩, fun r s₂ hact hinv₂ =>
      ih r (hnext₁ r s₂ hact.2 hinv₂) (hnext₂ r s₂ hact hinv₂)⟩

/-- The conditions under which a layer holds of the runs that meet the condition. -/
structure Layer.Sound (P : Protocol σ T Role Call Ret ε L) (D : Discipline σ T Role Call ε L)
    (E : Layer σ T Role Call ε L) (may : T → σ → Call → Prop) (begins : Role → Bool) : Prop where
  holds_stable : ∀ t ℓ, Stable (P.only may begins) (D.beside E t) t (E.holds t ℓ)
  post_holds : ∀ ρ t ℓ a s, E.post ρ t ℓ a s → E.holds t (P.after ρ ℓ a) s
  script_safe : ∀ ρ t ℓ p s, begins ρ = true → P.script ρ t ℓ = some p → D.holds t ℓ s →
    E.holds t ℓ s →
    Safe (P.only may begins) (D.beside E t) ρ t (E.holds t ℓ) (E.post ρ t ℓ) p s

theorem Sound.also (hD : Sound P D) (hE : E.Sound P D may begins) :
    Sound (P.only may begins) (D.and E) where
  runs_act t u s c r s' hact := hD.runs_act t u s c r s' hact.2
  runs_env := hD.runs_env
  inv_act ρ t s c r s' hinv hruns hguard hact := hD.inv_act ρ t s c r s' hinv hruns hguard.1 hact.2
  inv_env := hD.inv_env
  holds_stable t ℓ s s' hrely hs :=
    ⟨hD.holds_stable t ℓ s s' hrely.beside.first hs.1, hE.holds_stable t ℓ s s' hrely.beside hs.2⟩
  post_holds ρ t ℓ a s h := ⟨hD.post_holds ρ t ℓ a s h.1, hE.post_holds ρ t ℓ a s h.2⟩
  script_safe ρ t ℓ p s hp hinv hruns hs := by
    obtain ⟨hbegins, hp⟩ := only_script.mp hp
    exact (hD.script_safe ρ t ℓ p s hp hinv hruns hs.1).both
      (hE.script_safe ρ t ℓ p s hbegins hp hs.1 hs.2)

/-! ## Scripts that make calls of one kind -/

/-- Every call is of one kind, and every result satisfies `q`. -/
def Script.Calls (ok : Call → Prop) (q : α → Prop) : Script Call Ret α → Prop
  | ret a => q a
  | ask c k => ok c ∧ ∀ r, (k r).Calls ok q

theorem calls_bind {ok : Call → Prop} {q : α → Prop} {q' : β → Prop} {p : Script Call Ret α}
    {f : α → Script Call Ret β} (hp : p.Calls ok q) (hf : ∀ a, q a → (f a).Calls ok q') :
    (p.bind f).Calls ok q' := by
  induction p with
  | ret a => exact hf a hp
  | ask c k ih => exact ⟨hp.1, fun r => ih r (hp.2 r)⟩

theorem calls_exceptBind {ok : Call → Prop} {q : Except ε α → Prop} {q' : Except ε β → Prop}
    {m : ExceptT ε (Script Call Ret) α} {f : α → ExceptT ε (Script Call Ret) β}
    (hm : m.run.Calls ok q) (hf : ∀ a, q (.ok a) → (f a).run.Calls ok q')
    (herror : ∀ e, q (.error e) → q' (.error e)) : (m >>= f).run.Calls ok q' := by
  refine calls_bind (f := ExceptT.bindCont f) hm fun a ha => ?_
  cases a with
  | ok a => exact hf a ha
  | error e => exact herror e ha

/-- An assertion that the others keep and that these calls keep holds to the end. -/
theorem Safe.of_calls {ok : Call → Prop} {q : α → Prop} {A K : σ → Prop} (hA : Stable P D t A)
    (hok : ∀ s c, ok c → A s → K s ∧ D.guard ρ t s c ∧ ∀ r s', P.act t s c r s' → A s')
    {p : Script Call Ret α} (hp : p.Calls ok q) (hs : A s) :
    Safe P D ρ t K (fun a s => A s ∧ q a) p s := by
  induction p generalizing s with
  | ret a => exact ⟨hs, hp⟩
  | ask c k ih =>
    refine safe_ask hA hs fun s _ _ hs => ?_
    obtain ⟨hK, hguard, hnext⟩ := hok s c hp.1 hs
    exact ⟨hK, hguard, fun r s' hact _ => ih r (hp.2 r) (hnext r s' hact)⟩

/-! ## Scripts begun from memory -/

/-- Every script that runs was begun with the memory that its thread still has. -/
def Begun (P : Protocol σ T Role Call Ret ε L) (w : World σ T Role Call Ret ε L) : Prop :=
  ∀ t ρ p, w.running t = some (ρ, p) → ∃ c k, P.script ρ t (w.memory t) = some (.ask c k)

section Begun

variable [DecidableEq T] {w w' : World σ T Role Call Ret ε L}

/-- Settling a script that was begun with its thread's memory leaves all scripts begun so. -/
private theorem Begun.settle (hw : Begun P w) {p : Script Call Ret (Except ε L)}
    (hp : ∃ q, P.script ρ t (w.memory t) = some q ∧ ∀ a, q = .ret a → p = .ret a) :
    Begun P (P.settle w t ρ p) := by
  intro u ρ' p' hu
  by_cases hut : u = t
  · subst hut
    cases p with
    | ret a => simp [Protocol.settle] at hu
    | ask c k =>
      simp only [Protocol.settle, update_self, Option.some.injEq, Prod.mk.injEq] at hu ⊢
      obtain ⟨rfl, -⟩ := hu
      obtain ⟨q, hq, hret⟩ := hp
      cases q with
      | ret a => cases hret a rfl
      | ask c k => exact ⟨c, k, hq⟩
  · rw [settle_running_other P w hut] at hu
    rw [settle_memory_other P w hut]
    exact hw u ρ' p' hu

theorem Begun.move (hw : Begun P w) (h : P.Move w w') : Begun P w' := by
  cases h with
  | env h => exact hw
  | step h =>
    cases h with
    | start hidle hruns hp => exact hw.settle ⟨_, hp, fun _ h => h⟩
    | @call t ρ c k r s' hp hruns hact =>
      obtain ⟨c', k', hq⟩ := hw t ρ _ hp
      exact Begun.settle (w := { w with shared := s' }) hw ⟨_, hq, fun _ h => nomatch h⟩

/-- The script of a step was begun with the memory that the thread has before the step; a step that
changes the shared state is a call. -/
theorem Begun.script (hw : Begun P w) {e : Event T Role ε L} (h : P.Step w e w') :
    ∃ p, P.script e.role e.thread (w.memory e.thread) = some p ∧
      (w'.shared = w.shared ∨ ∃ c k, p = .ask c k) := by
  cases h with
  | start hidle hruns hp => exact ⟨_, hp, .inl (settle_shared P ..)⟩
  | call hp hruns hact =>
    obtain ⟨c, k, hq⟩ := hw _ _ _ hp
    exact ⟨_, hq, .inr ⟨c, k, rfl⟩⟩

/-- A thread's memory changes when a script of its own returns. -/
theorem step_memory {e : Event T Role ε L} (h : P.Step w e w') (u : T) :
    w'.memory u = w.memory u ∨ u = e.thread ∧ ∃ a, e.result = some a := by
  have hsettle : ∀ (w : World σ T Role Call Ret ε L) t ρ (p : Script Call Ret (Except ε L)),
      (P.settle w t ρ p).memory u = w.memory u ∨ u = t ∧ ∃ a, p.result = some a := by
    intro w t ρ p
    by_cases hut : u = t
    · cases p with
      | ret a => exact .inr ⟨hut, a, rfl⟩
      | ask c k => exact .inl rfl
    · exact .inl (settle_memory_other P w hut ρ p)
  cases h with
  | start => exact hsettle _ _ _ _
  | call => exact hsettle { w with shared := _ } _ _ _

end Begun

/-! ## A part of a script -/

/-- The thread makes some calls of the script one after the other. -/
inductive Protocol.Advances (P : Protocol σ T Role Call Ret ε L) (t : T) {α : Type} :
    Script Call Ret α → σ → Script Call Ret α → σ → Prop
  | refl {p s} : Advances P t p s p s
  | ask {c k r s s' q s''} : P.runs t s → P.act t s c r s' → Advances P t (k r) s' q s'' →
      Advances P t (.ask c k) s q s''

theorem Protocol.Execs.advances {p : Script Call Ret α} {a : α} {s' : σ}
    (h : P.Execs t p s a s') {f : α → Script Call Ret β} {q : Script Call Ret β} {s'' : σ}
    (hf : P.Advances t (f a) s' q s'') : P.Advances t (p.bind f) s q s'' := by
  induction h with
  | ret => exact hf
  | ask hruns hact _ ih => exact .ask hruns hact (ih hf)

theorem Protocol.Execs.exceptAdvances {m : ExceptT ε (Script Call Ret) α}
    {f : α → ExceptT ε (Script Call Ret) β} {s' s'' : σ} {a : α}
    {q : Script Call Ret (Except ε β)} (h : P.Execs t m.run s (.ok a) s')
    (hf : P.Advances t (f a).run s' q s'') : P.Advances t (m >>= f).run s q s'' :=
  Protocol.Execs.advances (f := ExceptT.bindCont f) h hf

theorem Protocol.Advances.bind {p q : Script Call Ret α} {f : α → Script Call Ret β} {s' : σ}
    (h : P.Advances t p s q s') : P.Advances t (p.bind f) s (q.bind f) s' := by
  induction h with
  | refl => exact .refl
  | ask hruns hact _ ih => exact .ask hruns hact ih

theorem Protocol.Execs.toAdvances {p : Script Call Ret α} {a : α} {s' : σ}
    (h : P.Execs t p s a s') : P.Advances t p s (.ret a) s' := by
  induction h with
  | ret => exact .refl
  | ask hruns hact _ ih => exact .ask hruns hact ih

/-- A run whose calls all meet the condition. -/
theorem Protocol.Execs.only {ok : Call → Prop} {q : α → Prop} {p : Script Call Ret α} {a : α}
    {s' : σ} (h : P.Execs t p s a s') (hp : p.Calls ok q) (hok : ∀ s c, ok c → may t s c) :
    (P.only may begins).Execs t p s a s' := by
  induction h with
  | ret => exact .ret
  | ask hruns hact _ ih => exact .ask hruns ⟨hok _ _ hp.1, hact⟩ (ih (hp.2 _))

/-- A world in which the thread has the script has a run in which it makes the calls. -/
theorem Protocol.Advances.moves [DecidableEq T] {w : World σ T Role Call Ret ε L} {c : Call}
    {k : Ret c → Script Call Ret (Except ε L)} {q : Script Call Ret (Except ε L)}
    (h : P.Advances t (.ask c k) w.shared q s') (hp : w.running t = some (ρ, .ask c k)) :
    ReflTransGen P.Move w (P.settle { w with shared := s' } t ρ q) := by
  have hself : ∀ p : Script Call Ret (Except ε L), p = .ask c k → P.settle w t ρ p = w := by
    rintro p rfl
    simp only [Protocol.settle, ← hp, update_eq_self]
  suffices hrun : ∀ p s q s', P.Advances t p s q s' →
      ReflTransGen P.Move (P.settle { w with shared := s } t ρ p)
        (P.settle { w with shared := s' } t ρ q) by
    have hrun := hrun _ _ _ _ h
    rwa [hself _ rfl] at hrun
  intro p s q s' h
  induction h with
  | refl => exact .refl
  | @ask c k r s₀ s₁ q s₂ hruns hact _ ih =>
    have hp : (P.settle { w with shared := s₀ } t ρ (.ask c k)).running t = some (ρ, .ask c k) := by
      simp [Protocol.settle]
    refine .head (.step (.call hp hruns hact)) ?_
    have hsettle : ∀ p, P.settle { P.settle { w with shared := s₀ } t ρ (.ask c k) with
        shared := s₁ } t ρ p = P.settle { w with shared := s₁ } t ρ p := by
      intro p
      cases p <;> simp [Protocol.settle]
    rw [hsettle]
    exact ih

/-- A thread without a script has a run in which it begins one and makes the calls. -/
theorem Protocol.Advances.begun [DecidableEq T] {w : World σ T Role Call Ret ε L}
    {p q : Script Call Ret (Except ε L)} (h : P.Advances t p w.shared q s')
    (hidle : w.running t = none) (hruns : P.runs t w.shared)
    (hp : P.script ρ t (w.memory t) = some p) :
    ReflTransGen P.Move w (P.settle { w with shared := s' } t ρ q) := by
  refine .head (.step (.start hidle hruns hp)) ?_
  cases p with
  | ret a =>
    cases h
    exact .refl
  | ask c k =>
    have hmoves := Protocol.Advances.moves (ρ := ρ) (w := P.settle w t ρ (.ask c k)) h
      (by simp [Protocol.settle])
    have hsettle : P.settle { P.settle w t ρ (.ask c k) with shared := s' } t ρ q =
        P.settle { w with shared := s' } t ρ q := by
      cases q <;> simp [Protocol.settle]
    rwa [hsettle] at hmoves

end Interleaving
