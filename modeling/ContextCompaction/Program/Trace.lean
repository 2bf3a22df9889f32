import ContextCompaction.Program.Spec

/-!
# Programs that talk to a host

`query` puts a question to a host, which answers by the whole history, and appends the question and
its answer to the history. A program built from such questions only appends.

* `Safe fair good p m post`: if `p` holds and the host is fair, then everything that `m` appends is
  good, however `m` ends, and what it returns satisfies `post`.
-/

namespace Program

variable {ι ε α β : Type}

/-- A question, its answer, and the event that records both. -/
def query (answer : List ι → α) (event : α → ι) : Prog (List ι) ε α := fun l =>
  (.ok (answer l), l ++ [event (answer l)])

/-- From any history, what is appended is good if it is fair. -/
def Safe (fair good : ι → Prop) (p : Prop) (m : Prog (List ι) ε α) (post : α → Prop) : Prop :=
  ∀ l, ∃ t, (exec m l).2 = l ++ t ∧ (p → (∀ e ∈ t, fair e) →
    (∀ e ∈ t, good e) ∧ ∀ a, (exec m l).1 = .ok a → post a)

variable {fair good : ι → Prop} {p q : Prop} {m : Prog (List ι) ε α} {post next : α → Prop}

/-- A run from an empty history. -/
theorem Safe.exec (h : Safe fair good p m post) (hp : p)
    (hfair : ∀ e ∈ (exec m []).2, fair e) : ∀ e ∈ (exec m []).2, good e := by
  obtain ⟨t, ht, himp⟩ := h []
  rw [List.nil_append] at ht
  rw [ht] at hfair ⊢
  exact (himp hp hfair).1

theorem Safe.mono (h : Safe fair good q m next) (hpre : p → q) (hpost : p → ∀ a, next a → post a) :
    Safe fair good p m post := fun l => by
  obtain ⟨t, ht, hsafe⟩ := h l
  refine ⟨t, ht, fun hp hfair => ?_⟩
  obtain ⟨hgood, hnext⟩ := hsafe (hpre hp) hfair
  exact ⟨hgood, fun a ha => hpost hp a (hnext a ha)⟩

theorem safe_pure {a : α} (h : p → post a) : Safe fair good p (pure a : Prog (List ι) ε α) post :=
  fun l => ⟨[], (List.append_nil l).symm, fun hp _ =>
    ⟨fun _ he => absurd he List.not_mem_nil, fun _ heq => Except.ok.inj heq ▸ h hp⟩⟩

theorem safe_throw {e : ε} : Safe fair good p (throw e : Prog (List ι) ε α) post := fun l =>
  ⟨[], (List.append_nil l).symm, fun _ _ =>
    ⟨fun _ he => absurd he List.not_mem_nil, fun _ heq => by cases heq⟩⟩

/-- What would follow an error does not matter. -/
theorem safe_throw_bind {e : ε} {f : α → Prog (List ι) ε β} {post : β → Prop} :
    Safe fair good p ((throw e : Prog (List ι) ε α) >>= f) post := fun l =>
  ⟨[], (List.append_nil l).symm, fun _ _ =>
    ⟨fun _ he => absurd he List.not_mem_nil, fun _ heq => by cases heq⟩⟩

/-- The answer to a question is good and fit for what follows if it is fair. -/
theorem safe_query {answer : List ι → α} {event : α → ι}
    (h : p → ∀ a, fair (event a) → good (event a) ∧ post a) :
    Safe fair good p (query answer event : Prog (List ι) ε α) post := fun l =>
  ⟨[event (answer l)], rfl, fun hp hfair => by
    obtain ⟨hgood, hpost⟩ := h hp (answer l) (hfair _ List.mem_cons_self)
    exact ⟨List.forall_mem_singleton.mpr hgood, fun _ heq => Except.ok.inj heq ▸ hpost⟩⟩

/-- The second program appends to what the first one has appended. -/
theorem Safe.bind {f : α → Prog (List ι) ε β} {post : β → Prop} (h : Safe fair good p m next)
    (hf : ∀ a, Safe fair good (p ∧ next a) (f a) post) : Safe fair good p (m >>= f) post := by
  intro l
  obtain ⟨t, ht, hsafe⟩ := h l
  obtain ⟨r, l', hm⟩ : ∃ r l', Program.exec m l = (r, l') := ⟨_, _, rfl⟩
  rw [hm] at ht hsafe
  obtain rfl : l' = l ++ t := ht
  cases r with
  | error e =>
    refine ⟨t, by rw [exec_bind_error hm], fun hp hfair => ⟨(hsafe hp hfair).1, fun a heq => ?_⟩⟩
    rw [exec_bind_error hm] at heq
    cases heq
  | ok a =>
    obtain ⟨u, hu, hrest⟩ := hf a (l ++ t)
    rw [exec_bind_ok hm]
    refine ⟨t ++ u, by rw [hu, List.append_assoc], fun hp hfair => ?_⟩
    rw [List.forall_mem_append] at hfair
    obtain ⟨hgood, hnext⟩ := hsafe hp hfair.1
    obtain ⟨hgood', hpost⟩ := hrest ⟨hp, hnext a rfl⟩ hfair.2
    exact ⟨List.forall_mem_append.mpr ⟨hgood, hgood'⟩, hpost⟩

end Program
