import ContextCompaction.Interleaving.Layers
import ContextCompaction.Lease.Exclusive

/-!
# Locks that are marked for recovery

`requireRecovery` writes a mark into the owner file, and `acquire` refuses a lock with the mark. But
`acquire` reads the owner file twice, and looks for the mark in the first reading only.

* `careful`: the runs in which no second reading has found the mark.
* `recovery`: what they rely on, over the discipline of all runs. The owner file of the lock that is
  moved away has no mark.
* `recovery_kept`: in these runs a marked lock stays.
* `recovery_lost`: a run in which it does not.
-/

namespace Lease

open Js Interleaving Function

variable {file : Str} {drawn : Draws} {s s' : Files} {n u k : Str} {operation : Operation}

/-! ## The condition -/

/-- No reason is empty. -/
def Operation.reasoned : Operation → Bool
  | .requireRecovery reason => reason ≠ []
  | _ => true

/-- The owner of whom `acquire` asks whether it is dead has no mark. The question is asked twice,
after each reading of the owner file. -/
def AsksUnmarked (c : Call) : Prop := ∀ owner, c = .isDead owner → owner.recovery? = none

/-- The runs in which no second reading of an owner file has found a mark that the first one had not
found. -/
def careful (file : Str) (drawn : Draws) : Protocol Files Str Operation Call Call.Ret Str Status :=
  (protocol file drawn).only (fun _ _ => AsksUnmarked) Operation.reasoned

/-- The owner file of the lock `d` has the mark. -/
def Marked (file : Str) (d : Dir) (s : Files) : Prop := s.lock = some d ∧ ∃ f owner,
  s.entry d = some f ∧ ownerAt (lockPath file) (s.text f) = .ok owner ∧ owner.recovery? ≠ none

/-! ## The layer -/

/-- The mark of the lease, if it has one. -/
def Status.recovery? : Status → Option Json
  | .lease held => held.owner.recovery?
  | _ => none

/-- The record is one that `requireRecovery` writes. -/
def Owner.Reasoned (owner : Owner) : Prop :=
  ∃ reason, reason ≠ [] ∧ owner.recoveryRequired = some (.str reason)

/-- No file of the lease `n` has a mark. -/
def Clean (file : Str) (n : Str) (s : Files) : Prop := ∀ f owner, s.author f = some n →
  ownerAt (lockPath file) (s.text f) = .ok owner → owner.recovery? = none

/-- The owner file of the lock has no mark. -/
def Unmarked (file : Str) (s : Files) : Prop := ∀ d f owner, s.lock = some d → s.entry d = some f →
  ownerAt (lockPath file) (s.text f) = .ok owner → owner.recovery? = none

def recovery (file : Str) : Layer Files Str Operation Call Str Status where
  guard operation _ s
    | .renameLock _ => Unmarked file s
    | .write f b => operation ≠ .acquire →
        ∃ owner : Owner, owner.Reasoned ∧ s.text f ++ [b] <+: owner.bytes
    | _ => True
  holds n status s := status.recovery? = none → Clean file n s
  post operation n status a s :=
    ((after operation status a).recovery? = none → Clean file n s) ∧
    (status.recovery? ≠ none → (after operation status a).recovery? ≠ none) ∧
    (operation = .acquire → ∀ status', a = .ok status' →
      ∃ lease, status' = .lease lease ∧ lease.released = false)

/-- An operation that is safe for the layer. -/
abbrev SafeLayer {α : Type} (file : Str) (drawn : Draws) (operation : Operation) (n : Str)
    (K : Files → Prop) (Q : Except Str α → Files → Prop) (m : Op α) (s : Files) : Prop :=
  Safe (careful file drawn) ((discipline file drawn).beside (recovery file) n) operation n K Q m.run s

abbrev SteadyLayer (file : Str) (drawn : Draws) (n : Str) (A : Files → Prop) : Prop :=
  Stable (careful file drawn) ((discipline file drawn).beside (recovery file) n) n A

/-! ## Marks that are read -/

theorem Owner.Reasoned.recovery {owner : Owner} (h : owner.Reasoned) : owner.recovery? ≠ none := by
  obtain ⟨reason, hne, hmark⟩ := h
  simp [Owner.recovery?, hmark, truthy, hne]

-- The empty text is falsy, so it marks nothing.
example : ({ twoProcesses.owner (lit "a") with recoveryRequired := some (.str []) } : Owner).recovery? =
    none := by decide +kernel

theorem unmarked_of_prefix {path : Str} {owner read : Owner} {bytes : List UInt8}
    (hb : bytes <+: owner.bytes) (hnone : owner.recoveryRequired = none)
    (h : ownerAt path bytes = .ok read) : read.recovery? = none := by
  obtain ⟨-, -, hmark⟩ := ownerAt_of_prefix hb h
  simp [Owner.recovery?, hmark, hnone]

theorem marked_of_prefix {path : Str} {owner read : Owner} {bytes : List UInt8}
    (hb : bytes <+: owner.bytes) (hmarked : owner.Reasoned) (h : ownerAt path bytes = .ok read) :
    read.recovery? ≠ none := by
  obtain ⟨-, -, hmark⟩ := ownerAt_of_prefix hb h
  obtain ⟨reason, hne, hreason⟩ := hmarked
  exact Owner.Reasoned.recovery ⟨reason, hne, by rw [hmark, hreason]; rfl⟩

theorem Clean.setText (h : Clean file n s) {f : File} {bytes : List UInt8}
    (hb : ∀ read, ownerAt (lockPath file) bytes = .ok read → read.recovery? = none) :
    Clean file n { s with text := update s.text f bytes } := by
  intro g owner hg hread
  by_cases hgf : g = f
  · subst hgf
    exact hb owner (by simpa using hread)
  · exact h g owner hg (by simpa [hgf] using hread)

theorem Clean.create (h : Clean file n s) (d : Dir) (f : File) : Clean file n (s.create n d f) := by
  intro g owner hg hread
  by_cases hgf : g = f
  · subst hgf
    simp [Files.create, ownerAt_nil] at hread
  · exact h g owner (by simpa [Files.create, hgf] using hg) (by simpa [Files.create, hgf] using hread)

theorem clean_stable : Steady file drawn n (Clean file n) := by
  refine stable_of file (fun s s' h hA => ?_) fun s s' u operation c hinv hn hne hu hguard h hA => ?_
  · obtain ⟨p, rfl⟩ := h
    exact hA
  · intro f owner hf hread
    have hold := h.author_of hne hf
    exact hA f owner hold (by rwa [text_other hinv hne hguard h hold] at hread)

/-! ## Calls that leave the owner files -/

/-- The call neither writes an owner file nor moves the lock away. -/
def Call.Quiet : Call → Prop
  | .createOwner | .truncateOwner | .write _ _ | .renameLock _ | .isDead _ => False
  | _ => True

theorem Clean.quiet {c : Call} {r : c.Ret} (hc : c.Quiet) (hact : act n s c r s')
    (h : Clean file n s) : Clean file n s' := by
  rcases act_effect hact with rfl | heffect
  · exact h
  cases heffect with
  | renameLock => exact hc.elim
  | createOwner => exact hc.elim
  | truncateNew => exact hc.elim
  | truncateOwner => exact hc.elim
  | write => exact hc.elim
  | _ => exact h

theorem holds_layer_stable (n : Str) (status : Status) :
    SteadyLayer file drawn n ((recovery file).holds n status) :=
  Stable.imp clean_stable.layer

theorem quiet_safe {α : Type} {q : α → Prop} {status : Status} {p : Script Call Call.Ret α}
    (hp : p.Calls Call.Quiet q) (hs : (recovery file).holds n status s) :
    Safe (careful file drawn) ((discipline file drawn).beside (recovery file) n) operation n
      ((recovery file).holds n status) (fun a s => (recovery file).holds n status s ∧ q a) p s := by
  refine Safe.of_calls (holds_layer_stable n status)
    (fun s c hc hA => ⟨hA, ⟨absurd rfl, ?_⟩, ?_⟩) hp hs
  · cases c <;> trivial
  · exact fun r s' hact hnone => (hA hnone).quiet hc hact.2

variable {α : Type}

theorem orThrow_calls {m : Script Call Call.Ret (Except SystemError α)}
    (hm : m.Calls Call.Quiet fun _ => True) : (Op.orThrow m).run.Calls Call.Quiet fun _ => True :=
  calls_bind hm fun _ _ => trivial

theorem readOwner_calls : (readOwner file).run.Calls Call.Quiet fun _ => True := by
  refine calls_exceptBind (orThrow_calls ⟨trivial, fun _ => trivial⟩) (fun f _ => ?_)
    fun _ _ => trivial
  refine calls_exceptBind (orThrow_calls ⟨trivial, fun _ => trivial⟩) (fun bytes _ => ?_)
    fun _ _ => trivial
  cases ownerAt (lockPath file) bytes <;> trivial

theorem assert_calls (lease : SessionLease) :
    (assert file lease).run.Calls Call.Quiet fun _ => True := by
  unfold assert
  split
  · trivial
  · refine calls_exceptBind readOwner_calls (fun current _ => ?_) fun _ _ => trivial
    split <;> trivial

theorem removeRetired_calls (nonce : Str) :
    (removeRetired nonce).run.Calls Call.Quiet fun _ => True :=
  calls_exceptBind (orThrow_calls ⟨trivial, fun _ => trivial⟩)
    (fun _ _ => orThrow_calls ⟨trivial, fun _ => trivial⟩) fun _ _ => trivial

/-- A release leaves the record of the lease. -/
theorem release_calls (lease : SessionLease) : (release file lease).run.Calls Call.Quiet
    fun r => ∀ lease', r = .ok lease' → lease'.owner = lease.owner := by
  have herror : ∀ e : Str, True → ∀ lease' : SessionLease, .error e = Except.ok lease' →
      lease'.owner = lease.owner := fun _ _ _ h => nomatch h
  unfold release
  split
  · exact fun lease' h => Except.ok.inj h ▸ rfl
  refine calls_exceptBind (assert_calls lease) (fun _ _ => ?_) herror
  refine calls_exceptBind (orThrow_calls ⟨trivial, fun _ => trivial⟩) (fun _ _ => ?_) herror
  refine calls_exceptBind (orThrow_calls ⟨trivial, fun _ => trivial⟩) (fun _ _ => ?_) herror
  exact fun lease' h => Except.ok.inj h ▸ rfl

/-! ## Writing an owner file -/

section Writes

variable {status : Status} {owner : Owner}

/-- Until the last byte is written, the file cannot be read. -/
theorem writeBytes_layer (hrole : operation = .acquire ∨ owner.Reasoned) {f : File}
    {rest : List UInt8} :
    ∀ {s written}, (rest ≠ [] ∨ owner.recoveryRequired = none → (recovery file).holds n status s) →
      Wrote n f written s → written ++ rest = owner.bytes →
      SafeLayer file drawn operation n ((recovery file).holds n status)
        (fun _ s => owner.recoveryRequired = none → (recovery file).holds n status s)
        (writeBytes f rest) s := by
  induction rest with
  | nil => exact fun hs _ _ hnone => hs (.inr hnone)
  | cons b rest ih =>
    intro s written hs hw hrest
    have hprefix : written ++ [b] <+: owner.bytes := ⟨rest, by rw [← hrest, List.append_assoc]; rfl⟩
    refine safe_exceptBind (R := fun r s =>
      (rest ≠ [] ∨ owner.recoveryRequired = none → (recovery file).holds n status s) ∧
      (r = .ok () → Wrote n f (written ++ [b]) s)) ?_ (fun _ s h => ?_)
      fun e s h hnone => h.1 (.inr hnone)
    · refine safe_ask ((holds_layer_stable n status).and wrote_stable.layer)
        ⟨hs (.inl (List.cons_ne_nil b rest)), hw⟩ fun s _ _ hA => ?_
      obtain ⟨hs, hauthor, htext⟩ := hA
      refine ⟨hs, ⟨absurd rfl, fun hne => ⟨owner, hrole.resolve_left hne, by rwa [htext]⟩⟩, ?_⟩
      rintro r s' ⟨-, ⟨e, -, rfl, rfl⟩ | ⟨rfl, rfl⟩⟩ -
      · exact ⟨fun _ => hs, fun h => nomatch h⟩
      · refine ⟨fun hcase hnone => (hs hnone).setText fun read hread => ?_, fun _ => ⟨hauthor, ?_⟩⟩
        · rw [htext] at hread
          obtain hne | hnone := hcase
          · have hfull := full_of_ownerAt hprefix hread
            rw [← hrest, List.append_right_inj] at hfull
            exact absurd (List.cons.inj hfull).2.symm hne
          · exact unmarked_of_prefix hprefix hnone hread
        · simp [htext]
    · exact ih h.1 (h.2 rfl) (by rw [← hrest, List.append_assoc]; rfl)

/-- Writing an owner keeps what the holder of the lock knows about the mark. -/
theorem writeOwner_layer (hrole : operation = .acquire ∨ owner.Reasoned) (hown : Owns n s)
    (hs : (recovery file).holds n status s)
    {m : Script Call Call.Ret (Except SystemError File)}
    (hm : m = call .createOwner ∨ m = call .truncateOwner) :
    SafeLayer file drawn operation n ((recovery file).holds n status)
      (fun _ s => owner.recoveryRequired = none → (recovery file).holds n status s)
      (writeOwner m owner) s := by
  have hnew : ∀ (s : Files) d f g, (recovery file).holds n status s →
      Except.ok (ε := Str) f = .ok g →
      (recovery file).holds n status (s.create n d f) ∧ Wrote n g [] (s.create n d f) := by
    intro s d f g hs hg
    obtain rfl := Except.ok.inj hg
    exact ⟨fun hnone => (hs hnone).create d f, by simp [Files.create], by simp [Files.create]⟩
  refine safe_exceptBind (R := fun r s => (recovery file).holds n status s ∧ ∀ f, r = .ok f →
      Wrote n f [] s) ?_ (fun f s h => writeBytes_layer hrole (fun _ => h.1) (h.2 f rfl) rfl)
    fun e s h _ => h.1
  have hstable : SteadyLayer file drawn n fun s => (recovery file).holds n status s ∧ Owns n s :=
    (holds_layer_stable n status).and owns_stable.layer
  obtain rfl | rfl := hm
  · refine safe_ask hstable ⟨hs, hown⟩ fun s hinv _ hA => ⟨hA.1, ⟨absurd rfl, trivial⟩, ?_⟩
    rintro r s' ⟨-, ⟨e, -, rfl, rfl⟩ | ⟨d, -, -, e, -, rfl, rfl⟩ | ⟨d, f, -, -, -, rfl, rfl⟩⟩ -
    · exact ⟨hA.1, fun _ h => by cases h⟩
    · exact ⟨hA.1, fun _ h => by cases h⟩
    · exact ⟨(hnew s d f f hA.1 rfl).1, fun g hg => (hnew s d f g hA.1 hg).2⟩
  · refine safe_ask hstable ⟨hs, hown⟩ fun s hinv _ hA => ⟨hA.1, ⟨absurd rfl, trivial⟩, ?_⟩
    rintro r s' ⟨-, ⟨e, -, rfl, rfl⟩ | ⟨d, f, hlock, hd, rfl, rfl⟩ | ⟨d, f, -, -, -, rfl, rfl⟩⟩ -
    · exact ⟨hA.1, fun _ h => by cases h⟩
    · refine ⟨fun hnone => (hA.1 hnone).setText fun read hread => ?_, fun g hg => ?_⟩
      · rw [ownerAt_nil] at hread
        cases hread
      · obtain rfl := Except.ok.inj hg
        obtain ⟨e, he, hmaker⟩ := hA.2
        obtain rfl := Option.some.inj (hlock.symm.trans he)
        obtain ⟨m, hm, hauthor⟩ := Inv.entry_maker hinv d f hd
        exact ⟨by rw [← hmaker, hm]; exact hauthor, by simp⟩
    · exact ⟨(hnew s d f f hA.1 rfl).1, fun g hg => (hnew s d f g hA.1 hg).2⟩

end Writes

/-! ## Taking over -/

section TakeOver

variable {status : Status}

/-- The lock that is moved away has the record that the second reading has found, which has no
mark. -/
theorem replaceLock_layer {owner : Owner} (hs : (recovery file).holds n status s)
    (hreap : Reaping drawn n owner.nonce s) :
    SafeLayer file drawn .acquire n ((recovery file).holds n status)
      (fun _ => (recovery file).holds n status) (replaceLock file owner) s := by
  have hsteady : SteadyLayer file drawn n ((recovery file).holds n status) :=
    holds_layer_stable n status
  refine safe_exceptBind (R := fun r s => (recovery file).holds n status s ∧ ∀ current,
      r = .ok current → Reaping drawn n owner.nonce s ∧
        (current.nonce = owner.nonce → Shows file current s))
    (readOwner_safe (fun _ _ _ _ h => h.2) (fun _ h => h)
      (fun _ => ⟨⟨absurd rfl, trivial⟩, fun _ => ⟨absurd rfl, trivial⟩⟩)
      (A := fun s => (recovery file).holds n status s ∧ Reaping drawn n owner.nonce s)
      (B := fun f s => (recovery file).holds n status s ∧
        (Reaping drawn n owner.nonce s ∧ Opened owner.nonce f s))
      (hsteady.and reaping_stable.layer) (fun _ => hsteady.and opened_stable.layer) ?_
      (fun _ h => h.1) (fun _ _ h => h.1) ⟨hs, hreap⟩ ?_ ?_)
    (fun current s h => ?_) fun _ s h => h.1
  · rintro s d f hinv ⟨hs, hr⟩ hlock hentry
    obtain ⟨m, -, hauthor⟩ := hinv.entry_maker d f hentry
    exact ⟨hs, hr, m, hauthor, fun _ => ⟨d, hlock, hentry⟩⟩
  · rintro s f current hinv ⟨hs, hr, m, hauthor, hfound⟩ hread
    refine ⟨hs, fun _ h => ?_⟩
    obtain rfl := Except.ok.inj h
    refine ⟨hr, fun hname => ?_⟩
    obtain ⟨hm, -⟩ := hinv.author_of_ownerAt hauthor hread
    obtain ⟨d, hlock, hentry⟩ := hfound (hm.symm.trans hname)
    exact ⟨d, f, hlock, hentry, hread⟩
  · rintro e s (h | ⟨f, h⟩) <;> exact ⟨h.1, fun _ h => nomatch h⟩
  obtain ⟨hs, hcurrent⟩ := h
  obtain ⟨hr, hshows⟩ := hcurrent current rfl
  by_cases hname : current.nonce = owner.nonce
  swap
  · rw [if_pos hname]
    exact hs
  rw [if_neg (not_not_intro hname)]
  rw [← hname] at hr ⊢
  have hstable : SteadyLayer file drawn n fun s => (recovery file).holds n status s ∧
      Reaping drawn n current.nonce s ∧ Shows file current s :=
    hsteady.and shows_stable.layer
  refine safe_exceptBind (R := fun r s => ((recovery file).holds n status s ∧
      Reaping drawn n current.nonce s ∧ Shows file current s) ∧ current.recovery? = none)
    (safe_ask hstable ⟨hs, hr, hshows hname⟩ fun s _ _ hA => ⟨hA.1, ⟨absurd rfl, trivial⟩, ?_⟩)
    (fun dead s h => ?_) fun _ s h => h.1.1
  · rintro r s' ⟨hmay, -, rfl⟩ -
    exact ⟨hA, hmay current rfl⟩
  obtain ⟨hA, hnone⟩ := h
  cases dead with
  | false => exact hA.1
  | true =>
    refine safe_exceptBind (R := fun _ => (recovery file).holds n status)
      (safe_ask hstable hA fun s _ _ hA => ⟨hA.1, ⟨absurd rfl, ?_⟩, ?_⟩)
      (fun _ s hs => (quiet_safe (q := fun _ => True) ?_ hs).mono fun _ _ h => h.1)
      fun _ s hs => hs
    · obtain ⟨-, -, d, f, hlock, hentry, hread⟩ := hA
      intro d' f' read hlock' hentry' hread'
      obtain rfl := Option.some.inj (hlock.symm.trans hlock')
      obtain rfl := Option.some.inj (hentry.symm.trans hentry')
      obtain rfl := Except.ok.inj (hread.symm.trans hread')
      exact hnone
    · rintro r s' ⟨-, ⟨e, -, rfl, rfl⟩ | ⟨d, -, -, rfl, rfl⟩⟩ - <;> exact hA.1
    · exact calls_exceptBind (orThrow_calls ⟨trivial, fun _ => trivial⟩)
        (fun _ _ => removeRetired_calls _) fun _ _ => trivial

/-- Taking over keeps it, since a marked owner is never told dead. -/
theorem takeOver_layer (hs : (recovery file).holds n status s) :
    SafeLayer file drawn .acquire n ((recovery file).holds n status)
      (fun _ => (recovery file).holds n status) (takeOver file) s := by
  have hsteady : SteadyLayer file drawn n ((recovery file).holds n status) :=
    holds_layer_stable n status
  refine safe_exceptBind (R := fun r s => (recovery file).holds n status s ∧ ∀ owner,
      r = .ok owner → owner.toProcessIdentity = (drawn owner.nonce).1)
    (readOwner_safe (fun _ _ _ _ h => h.2) (fun _ h => h)
      (fun _ => ⟨⟨absurd rfl, trivial⟩, fun _ => ⟨absurd rfl, trivial⟩⟩)
      (A := (recovery file).holds n status)
      (B := fun f s => (recovery file).holds n status s ∧ ∃ m, s.author f = some m)
      hsteady (fun _ => hsteady.and author_stable.layer) ?_ (fun _ h => h) (fun _ _ h => h.1) hs ?_ ?_)
    (fun owner s h => ?_) fun _ s h => h.1
  · intro s d f hinv hs _ hentry
    obtain ⟨m, -, hauthor⟩ := hinv.entry_maker d f hentry
    exact ⟨hs, m, hauthor⟩
  · rintro s f current hinv ⟨hs, m, hauthor⟩ hread
    refine ⟨hs, fun owner h => ?_⟩
    obtain rfl := Except.ok.inj h
    obtain ⟨rfl, hp⟩ := hinv.author_of_ownerAt hauthor hread
    exact hp
  · rintro e s (h | ⟨f, h, -⟩) <;> exact ⟨h, fun _ h => nomatch h⟩
  obtain ⟨hs, hgenuine⟩ := h
  have hgenuine := hgenuine owner rfl
  cases owner.recovery? with
  | some reason => exact hs
  | none =>
    refine safe_exceptBind (R := fun r s => (recovery file).holds n status s ∧
        (r = .ok true → Dead drawn owner.nonce s))
      (safe_ask hsteady hs fun s _ _ hs => ⟨hs, ⟨absurd rfl, trivial⟩, ?_⟩)
      (fun dead s h => ?_) fun _ s h => h.1
    · rintro r s' ⟨-, hdead, rfl⟩ -
      refine ⟨hs, fun h => ?_⟩
      obtain rfl := Except.ok.inj h
      unfold Dead
      rw [← hgenuine]
      exact hdead.mp rfl
    obtain ⟨hs, hdead⟩ := h
    cases dead with
    | false => exact hs
    | true =>
      refine safe_exceptBind (R := fun r s => (recovery file).holds n status s ∧
          (r = .ok () → Reaping drawn n owner.nonce s))
        (safe_ask (hsteady.and dead_stable.layer) ⟨hs, hdead rfl⟩ fun s _ _ hA =>
          ⟨hA.1, ⟨absurd rfl, trivial⟩, ?_⟩)
        (fun _ s h => ?_) fun _ s h => h.1
      · rintro r s' ⟨-, ⟨e, -, rfl, rfl⟩ | ⟨-, e, -, rfl, rfl⟩ | ⟨-, rfl, rfl⟩⟩ -
        · exact ⟨hA.1, fun h => nomatch h⟩
        · exact ⟨hA.1, fun h => nomatch h⟩
        · exact ⟨hA.1, fun _ => ⟨rfl, hA.2⟩⟩
      refine safe_bind (replaceLock_layer h.1 (h.2 rfl)) fun a s hs => ?_
      refine (quiet_safe (q := fun _ => True) ?_ hs).mono fun _ _ h => h.1
      refine calls_bind (orThrow_calls ⟨trivial, fun _ => trivial⟩) fun r _ => ?_
      cases r <;> trivial

end TakeOver

/-! ## The operations -/

/-- The lease that `acquire` returns is not released, and none of its files has a mark. -/
theorem acquire_layer {owner : Owner} (hnone : owner.recoveryRequired = none)
    (hs : Clean file n s) :
    SafeLayer file drawn .acquire n ((recovery file).holds n .fresh)
      (fun r s => Clean file n s ∧ ∀ lease, r = .ok lease → lease.released = false)
      (acquire file owner) s := by
  have hestablish : ∀ s, Owns n s → (recovery file).holds n .fresh s →
      SafeLayer file drawn .acquire n ((recovery file).holds n .fresh)
        (fun r s => Clean file n s ∧ ∀ lease, r = .ok lease → lease.released = false)
        (establish file owner) s := by
    intro s hown hs
    refine safe_exceptBind (R := fun _ s => Clean file n s)
      (safe_bind (writeOwner_layer (.inl rfl) hown hs (.inl rfl)) fun _ _ h => h hnone rfl)
      (fun _ s h => ⟨h, fun lease he => ?_⟩) fun _ _ h => ⟨h, fun _ he => nomatch he⟩
    obtain rfl := Except.ok.inj he
    rfl
  refine safe_exceptBind (R := fun r s => (recovery file).holds n .fresh s ∧ (r = .ok (.ok ()) → Owns n s))
    (safe_ask (holds_layer_stable n .fresh) (fun _ => hs) fun s _ _ hs =>
      ⟨hs, ⟨absurd rfl, trivial⟩, ?_⟩)
    (fun r s h => ?_) fun _ _ h => ⟨h.1 rfl, fun _ he => nomatch he⟩
  · rintro r s' ⟨-, ⟨e, -, rfl, rfl⟩ | ⟨-, e, -, rfl, rfl⟩ | ⟨-, rfl, d, -, rfl⟩⟩ -
    · exact ⟨hs, fun h => nomatch h⟩
    · exact ⟨hs, fun h => nomatch h⟩
    · exact ⟨hs, fun _ => ⟨d, rfl, by simp⟩⟩
  cases r with
  | ok => exact hestablish s (h.2 rfl) h.1
  | error e =>
    cases he : e.eexist with
    | true =>
      simp only [he, ↓reduceIte]
      -- That the lock belongs to the lease afterwards is what the first discipline says.
      exact safe_exceptBind (Safe.alongside takeOver_safe (takeOver_layer h.1))
        (fun _ s h => hestablish s (h.1 rfl) h.2) fun _ _ h => ⟨h.2 rfl, fun _ he => nomatch he⟩
    | false =>
      simp only [he, Bool.false_eq_true, ↓reduceIte]
      exact ⟨h.1 rfl, fun _ h => nomatch h⟩

theorem requireRecovery_layer {status : Status} {reason : Str} (hreason : reason ≠ [])
    {lease : SessionLease} (hown : Owns n s) (hs : (recovery file).holds n status s) :
    SafeLayer file drawn (.requireRecovery reason) n ((recovery file).holds n status)
      (fun r _ => ∃ lease', r = .ok lease' ∧ lease'.owner.recovery? ≠ none)
      (requireRecovery reason lease) s := by
  have hmark : Owner.Reasoned { lease.owner with recoveryRequired := some (.str reason) } :=
    ⟨reason, hreason, rfl⟩
  exact safe_bind (writeOwner_layer (.inr hmark) hown hs (.inr rfl)) fun _ _ _ =>
    ⟨_, rfl, hmark.recovery⟩

/-- Every operation with a reason keeps it. -/
theorem script_layer {status : Status} {p : Script Call Call.Ret (Except Str Status)}
    (hoperation : operation.reasoned = true) (hp : script file drawn operation n status = some p)
    (hholds : Holds drawn n status s) (hs : (recovery file).holds n status s) :
    Safe (careful file drawn) ((discipline file drawn).beside (recovery file) n) operation n
      ((recovery file).holds n status) ((recovery file).post operation n status) p s := by
  cases status with
  | fresh =>
    cases operation with
    | acquire =>
      obtain rfl := Option.some.inj hp
      refine safe_exceptMap (acquire_layer rfl (hs rfl)) (fun lease s h => ?_) fun _ _ h => ?_
      · refine ⟨fun _ => h.1, fun hne => absurd rfl hne, fun _ status' he => ?_⟩
        exact ⟨lease, (Except.ok.inj he).symm, h.2 lease rfl⟩
      · exact ⟨fun _ => h.1, fun hne => absurd rfl hne, fun _ _ he => by cases he⟩
    | _ => cases hp
  | failed => cases hp
  | lease lease =>
    have hsame : ∀ s a, operation ≠ .acquire → (recovery file).holds n (.lease lease) s →
        (after operation (.lease lease) a).recovery? = Status.recovery? (.lease lease) →
        (recovery file).post operation n (.lease lease) a s :=
      fun s a hne hs hsame => ⟨fun h => hs (hsame ▸ h), fun h => hsame ▸ h, fun h => absurd h hne⟩
    cases operation with
    | acquire => cases hp
    | assert =>
      obtain rfl := Option.some.inj hp
      exact safe_exceptMap (quiet_safe (assert_calls lease) hs)
        (fun _ s h => hsame s _ (by simp) h.1 rfl) fun _ s h => hsame s _ (by simp) h.1 rfl
    | release =>
      obtain rfl := Option.some.inj hp
      refine safe_exceptMap (quiet_safe (release_calls lease) hs)
        (fun lease' s h => hsame s _ (by simp) h.1 ?_) fun _ s h => hsame s _ (by simp) h.1 rfl
      exact congrArg Owner.recovery? (h.2 lease' rfl)
    | requireRecovery reason =>
      simp only [script] at hp
      split at hp
      · cases hp
      · rename_i hreleased
        obtain rfl := Option.some.inj hp
        refine safe_exceptMap (requireRecovery_layer (by simpa [Operation.reasoned] using hoperation)
          (hholds.2 (by simpa using hreleased)) hs) (fun lease' s h => ?_) fun e s h => ?_
        · obtain ⟨_, he, hmark⟩ := h
          obtain rfl := Except.ok.inj he
          exact ⟨fun h => absurd h hmark, fun _ => hmark, fun h => by cases h⟩
        · obtain ⟨_, he, -⟩ := h
          cases he

theorem layer_sound : (recovery file).Sound (protocol file drawn) (discipline file drawn)
    (fun _ _ => AsksUnmarked) Operation.reasoned where
  holds_stable := holds_layer_stable
  post_holds := fun _ _ _ _ _ h => h.1
  script_safe := fun _ _ _ _ _ hoperation hp hholds hs => script_layer hoperation hp hholds hs

/-! ## Marked locks stay -/

/-- A state that is reached by steps that all meet the condition. -/
def CarefulReach (file : Str) (drawn : Draws) (w : Leases) : Prop :=
  ∃ w₀, Initial w₀ ∧ Relation.ReflTransGen (careful file drawn).Move w₀ w

/-- What holds of every such state. -/
structure Kept (file : Str) (drawn : Draws) (w : Leases) : Prop where
  good : Good (careful file drawn) ((discipline file drawn).and (recovery file)) w
  begun : Begun (careful file drawn) w

/-- The lock `d` has no owner record without the mark, and the lease that made it is dead or has the
mark. -/
structure Sealed (file : Str) (drawn : Draws) (d : Dir) (w : Leases) : Prop where
  lock : w.shared.lock = some d
  marked : ∀ f owner, w.shared.entry d = some f →
    ownerAt (lockPath file) (w.shared.text f) = .ok owner → owner.recovery? ≠ none
  maker : ∃ m, w.shared.maker d = some m ∧
    (w.shared.crashed (drawn m).1 ∨ (w.memory m).recovery? ≠ none)

variable {w w' : Leases} {d : Dir} {e : Event Str Operation Str Status}

theorem careful_sound :
    Sound (careful file drawn) ((discipline file drawn).and (recovery file)) :=
  sound.also layer_sound

theorem Kept.move (h : Kept file drawn w) (hmove : (careful file drawn).Move w w') :
    Kept file drawn w' :=
  ⟨careful_sound.good_move h.good hmove, h.begun.move hmove⟩

theorem CarefulReach.kept (h : CarefulReach file drawn w) : Kept file drawn w := by
  obtain ⟨w₀, hinit, hrun⟩ := h
  induction hrun with
  | refl =>
    have hgood : Good (protocol file drawn) (discipline file drawn) _ := good_of_initial hinit
    obtain ⟨-, -, -, -, hfile, hlease⟩ := hinit
    refine ⟨⟨hgood.inv, fun n hruns => ⟨hgood.holds n hruns, fun _ f owner hf _ => ?_⟩,
      fun n ρ p _ hp => ?_⟩, fun n ρ p hp => ?_⟩
    · exact nomatch (hfile f).symm.trans hf
    · exact nomatch (hlease n).2.symm.trans hp
    · exact nomatch (hlease n).2.symm.trans hp
  | tail _ hmove ih => exact ih.move hmove

theorem Kept.sealed (h : Kept file drawn w) (hmark : Marked file d w.shared) :
    Sealed file drawn d w := by
  obtain ⟨hlock, f, owner, hentry, hread, hrecovery⟩ := hmark
  obtain ⟨m, hm, hauthor⟩ := Inv.entry_maker h.good.inv d f hentry
  refine ⟨hlock, fun g read hg hread' => ?_, m, hm, ?_⟩
  · obtain rfl := Option.some.inj (hentry.symm.trans hg)
    obtain rfl := Except.ok.inj (hread.symm.trans hread')
    exact hrecovery
  · by_contra hcon
    obtain ⟨hlive, hnone⟩ := not_or.mp hcon
    exact hrecovery ((h.good.holds m hlive).2 (not_not.mp hnone) f owner hauthor hread)

/-- A lease with the mark neither acquires nor releases. -/
theorem script_of_recovery {status : Status} {p : Script Call Call.Ret (Except Str Status)}
    (hmark : status.recovery? ≠ none)
    (hp : (careful file drawn).script operation n status = some p) :
    operation ≠ .acquire ∧ (operation = .release → ¬ ∃ c k, p = .ask c k) := by
  obtain ⟨-, hp⟩ := only_script.mp hp
  cases status with
  | fresh => exact absurd rfl hmark
  | failed => exact absurd rfl hmark
  | lease lease =>
    refine ⟨?_, ?_⟩
    · rintro rfl
      cases hp
    · rintro rfl ⟨c, k, rfl⟩
      have hrelease : release file lease = pure lease :=
        if_pos (.inr (Option.isSome_iff_ne_none.mpr hmark))
      simp only [protocol, script, hrelease] at hp
      cases hp

theorem Effect.maker {c : Call} (h : Effect n s c s') (hd : s.maker d = some k) :
    s'.maker d = some k := by
  cases h with
  | @mkdirLock e _ he =>
    have hne : d ≠ e := by
      rintro rfl
      exact nomatch he.symm.trans hd
    simpa [hne] using hd
  | _ => exact hd

/-- A step of the lease that owns a sealed lock is no acquisition, and no call of a release. -/
theorem Sealed.owner_step (h : Sealed file drawn d w) (hw : Kept file drawn w)
    (hstep : (careful file drawn).Step w e w') (hruns : ¬ w.shared.crashed (drawn e.thread).1)
    (hd : w.shared.maker d = some e.thread) :
    e.role ≠ .acquire ∧ (e.role = .release → w'.shared = w.shared) := by
  obtain ⟨m, hm, hcase⟩ := h.maker
  obtain rfl := Option.some.inj (hd.symm.trans hm)
  obtain ⟨p, hp, hshared⟩ := hw.begun.script hstep
  obtain ⟨hacquire, hrelease⟩ := script_of_recovery (hcase.resolve_left hruns) hp
  exact ⟨hacquire, fun hrole => hshared.resolve_right (hrelease hrole)⟩

/-- The calls of the others leave a sealed lock, and its own lease writes marked records only. -/
theorem sealed_effect {c : Call} (hinv : Inv drawn s) (hguard : allowed file drawn operation n s c)
    (hlayer : (recovery file).guard operation n s c) (h : Effect n s c s') (hlock : s.lock = some d)
    (hmarked : ∀ f owner, s.entry d = some f →
      ownerAt (lockPath file) (s.text f) = .ok owner → owner.recovery? ≠ none)
    (hown : s.maker d = some n → operation ≠ .acquire ∧ operation ≠ .release) :
    s'.lock = some d ∧ ∀ f owner, s'.entry d = some f →
      ownerAt (lockPath file) (s'.text f) = .ok owner → owner.recovery? ≠ none := by
  have howns : Owns n s → operation ≠ .release := by
    rintro ⟨e, he, hm⟩
    obtain rfl := Option.some.inj (hlock.symm.trans he)
    exact (hown hm).2
  have hcreate : ∀ e g f owner, (s.create n e g).entry d = some f →
      ownerAt (lockPath file) ((s.create n e g).text f) = .ok owner → s.author g = none →
      owner.recovery? ≠ none := by
    intro e g f owner hf hread hg
    by_cases hfg : f = g
    · subst hfg
      simp [Files.create, ownerAt_nil] at hread
    · refine hmarked f owner ?_ (by simpa [Files.create, hfg] using hread)
      by_cases hde : d = e
      · subst hde
        exact absurd (by simpa [Files.create] using hf) (Ne.symm hfg)
      · simpa [Files.create, hde] using hf
  cases h with
  | mkdirLock hnone => cases hnone.symm.trans hlock
  | renameLock =>
    obtain ⟨-, -, -, d', f, owner, hlock', hentry, hread, -⟩ := hguard
    obtain rfl := Option.some.inj (hlock.symm.trans hlock')
    exact absurd (hlayer d f owner hlock hentry hread) (hmarked f owner hentry hread)
  | @unlinkRetired k e he =>
    have hde : d ≠ e := by
      rintro rfl
      exact (hinv.retired_maker k d he).2 hlock
    exact ⟨hlock, fun f owner hf => hmarked f owner (by simpa [hde] using hf)⟩
  | @createOwner e g he hnone hg => exact ⟨hlock, fun f owner hf hread => hcreate e g f owner hf hread hg⟩
  | @truncateNew e g he hnone hg => exact ⟨hlock, fun f owner hf hread => hcreate e g f owner hf hread hg⟩
  | @truncateOwner e g he hentry =>
    refine ⟨hlock, fun f owner hf hread => ?_⟩
    by_cases hfg : f = g
    · subst hfg
      simp [ownerAt_nil] at hread
    · exact hmarked f owner hf (by simpa [hfg] using hread)
  | @write g b =>
    refine ⟨hlock, fun f owner hf hread => ?_⟩
    by_cases hfg : f = g
    · subst hfg
      obtain ⟨-, -, hauthor, -⟩ := hguard
      obtain ⟨m, hm, hauthor'⟩ := hinv.entry_maker d f hf
      obtain rfl := Option.some.inj (hauthor.symm.trans hauthor')
      obtain ⟨record, hreasoned, hprefix⟩ := hlayer (hown hm).1
      exact marked_of_prefix hprefix hreasoned (by simpa using hread)
    · exact hmarked f owner hf (by simpa [hfg] using hread)
  | unlinkOwner => exact absurd hguard.1 (howns hguard.2)
  | rmdirLock => exact absurd hguard.1 (howns hguard.2)
  | _ => exact ⟨hlock, hmarked⟩

theorem Kept.maker (hw : Kept file drawn w) (hstep : (careful file drawn).Step w e w')
    (hd : w.shared.maker d = some k) : w'.shared.maker d = some k := by
  obtain heq | ⟨c, r, -, -, hact⟩ := hw.good.guarded hstep
  · rwa [heq]
  obtain heq | heffect := act_effect hact.2
  · rwa [heq]
  · exact heffect.maker hd

/-- A marked lock stays as it is in every step. -/
theorem Sealed.step (h : Sealed file drawn d w) (hw : Kept file drawn w)
    (hstep : (careful file drawn).Step w e w') : Sealed file drawn d w' := by
  have hfiles : w'.shared.lock = some d ∧ (∀ f owner, w'.shared.entry d = some f →
      ownerAt (lockPath file) (w'.shared.text f) = .ok owner → owner.recovery? ≠ none) ∧
      w'.shared.crashed = w.shared.crashed := by
    by_cases heq : w'.shared = w.shared
    · rw [heq]
      exact ⟨h.lock, h.marked, rfl⟩
    obtain ⟨c, r, hruns, ⟨hguard, hlayer⟩, hact⟩ := (hw.good.guarded hstep).resolve_left heq
    have heffect := (act_effect hact.2).resolve_left heq
    obtain ⟨hlock, hmarked⟩ := sealed_effect hw.good.inv hguard hlayer heffect h.lock h.marked
      fun hd => ⟨(h.owner_step hw hstep hruns hd).1,
        fun hrole => heq ((h.owner_step hw hstep hruns hd).2 hrole)⟩
    exact ⟨hlock, hmarked, act_crashed hact.2⟩
  obtain ⟨hlock, hmarked, hcrashed⟩ := hfiles
  obtain ⟨m, hm, hcase⟩ := h.maker
  refine ⟨hlock, hmarked, m, hw.maker hstep hm, hcase.imp (fun hdead => ?_) fun hmark => ?_⟩
  · rw [hcrashed]
    exact hdead
  obtain hmemory | ⟨rfl, a, ha⟩ := step_memory hstep m
  · rwa [hmemory]
  · obtain ⟨-, ⟨-, -, hkept, -⟩, hmemory⟩ := careful_sound.returned hw.good hstep ha
    rw [hmemory]
    exact hkept hmark

theorem Sealed.run (h : Sealed file drawn d w) (hw : Kept file drawn w)
    (hrun : Relation.ReflTransGen (careful file drawn).Move w w') :
    Sealed file drawn d w' ∧ Kept file drawn w' := by
  induction hrun with
  | refl => exact ⟨h, hw⟩
  | tail _ hmove ih =>
    refine ⟨?_, ih.2.move hmove⟩
    cases hmove with
    | step hstep => exact ih.1.step ih.2 hstep
    | env hcrash =>
      obtain ⟨p, rfl⟩ := hcrash
      obtain ⟨hlock, hmarked, m, hm, hcase⟩ := ih.1
      exact ⟨hlock, hmarked, m, hm, hcase.imp .inr id⟩

/-- In every run in which no second reading of the owner file finds the mark that the first one has
not found, and no reason is empty: once the owner file of a lock has the mark, the lock stays, no
`acquire` returns a lease, and no `release` removes the lock. -/
theorem recovery_kept (h : CarefulReach file drawn w) (hmark : Marked file d w.shared)
    (hrun : Relation.ReflTransGen (careful file drawn).Move w w') :
    w'.shared.lock = some d ∧ ∀ e w'', (careful file drawn).Step w' e w'' →
      (e.role = .acquire → ∀ status, e.result ≠ some (.ok status)) ∧
      (e.role = .release → ¬ Removes w'.shared w''.shared d) := by
  obtain ⟨hsealed, hkept⟩ := (h.kept.sealed hmark).run h.kept hrun
  refine ⟨hsealed.lock, fun e w'' hstep => ⟨fun hrole status ha => ?_, fun hrole hremoves => ?_⟩⟩
  · obtain ⟨hruns, ⟨hreturns, -, -, hlease⟩, -⟩ := careful_sound.returned hkept.good hstep ha
    obtain ⟨lease, rfl, hreleased⟩ := hlease hrole status rfl
    obtain ⟨e', he, hm⟩ := hreturns.1.2 hreleased
    obtain rfl := Option.some.inj ((hsealed.step hkept hstep).lock.symm.trans he)
    obtain ⟨m, hmaker, -⟩ := hsealed.maker
    obtain rfl := Option.some.inj ((hkept.maker hstep hmaker).symm.trans hm)
    exact (hsealed.owner_step hkept hstep hruns hmaker).1 hrole
  · obtain heq | ⟨c, r, hruns, ⟨hguard, -⟩, hact⟩ := hkept.good.guarded hstep
    · exact (heq ▸ hremoves).irrefl
    obtain heq | heffect := act_effect hact.2
    · exact (heq ▸ hremoves).irrefl
    obtain ⟨-, hd⟩ | ⟨hacquire, -⟩ := removes_of_effect hkept.good.inv hguard heffect hremoves
    · rw [(hsealed.owner_step hkept hstep hruns hd).2 hrole] at hremoves
      exact hremoves.irrefl
    · exact nomatch hrole.symm.trans hacquire

/-! ## A reaper that has read the owner file before the mark -/

section Race

theorem Call.Blind.asksUnmarked {c : Call} (h : c.Blind) : AsksUnmarked c := by
  rintro owner rfl
  exact h.elim

theorem writeBytes_blind (f : File) (bytes : List UInt8) :
    (writeBytes f bytes).run.Calls Call.Blind fun _ => True := by
  induction bytes with
  | nil => trivial
  | cons b bytes ih =>
    exact calls_exceptBind (q := fun _ => True) ⟨trivial, fun _ => trivial⟩ (fun _ _ => ih)
      fun _ _ => trivial

theorem writeOwner_blind {m : Script Call Call.Ret (Except SystemError File)}
    (hm : m = call .createOwner ∨ m = call .truncateOwner) (owner : Owner) :
    (writeOwner m owner).run.Calls Call.Blind fun _ => True := by
  refine calls_exceptBind (q := fun _ => True) ?_ (fun f _ => writeBytes_blind f _) fun _ _ => trivial
  obtain rfl | rfl := hm <;> exact ⟨trivial, fun _ => trivial⟩

theorem establish_blind (owner : Owner) :
    (establish file owner).run.Calls Call.Blind fun _ => True :=
  calls_exceptBind (q := fun _ => True)
    (calls_bind (writeOwner_blind (.inl rfl) owner) fun _ _ => trivial) (fun _ _ => trivial)
    fun _ _ => trivial

/-- What the lease "a" writes when its storage cannot roll an append back. -/
def markedOwner : Owner :=
  { twoProcesses.owner (lit "a") with
    recoveryRequired := some (.str (lit "append rollback failed at byte 0")) }

/-- The lease "a" has written the mark. -/
def markedFiles : Files :=
  { lockedFiles with text := update lockedFiles.text 0 markedOwner.bytes }

/-- What is left of the `acquire` of the lease "b", which has read the owner file before the mark. -/
def reaping : Script Call Call.Ret (Except Str Status) :=
  (Status.lease <$> (retire (lit "session.jsonl") (twoProcesses.owner (lit "a")) >>= fun _ =>
    establish (lit "session.jsonl") (twoProcesses.owner (lit "b"))) : Op Status).run

def markedWorld : Leases where
  shared := markedFiles
  memory := update (fun _ => .fresh) (lit "a") (.lease { owner := markedOwner, released := false })
  running := update (fun _ => none) (lit "b") (some (.acquire, reaping))

theorem markedFiles_marked : Marked (lit "session.jsonl") 0 markedFiles := by
  refine ⟨rfl, 0, _, rfl, ownerAt_twoProcesses _ (by decide) _ _, ?_⟩
  exact Owner.Reasoned.recovery ⟨_, by decide, rfl⟩

/-- A world in which the first process has acquired the lock. -/
private theorem acquired_run :
    Relation.ReflTransGen (careful (lit "session.jsonl") twoProcesses).Move unlocked acquiredWorld := by
  have hwritten : (protocol (lit "session.jsonl") twoProcesses).Execs (lit "a")
      (establish (lit "session.jsonl") (twoProcesses.owner (lit "a"))).run
      (unlocked.shared.taken (lit "a") 0) (.ok { owner := twoProcesses.owner (lit "a"), released := false })
      lockedFiles :=
    establish_execs (lit "session.jsonl") _ (fun h => h) rfl rfl rfl
  have hestablish : (careful (lit "session.jsonl") twoProcesses).Execs _ _ _ _ _ :=
    hwritten.only (establish_blind _) fun _ _ => Call.Blind.asksUnmarked
  have hmkdir : (careful (lit "session.jsonl") twoProcesses).Execs (lit "a")
      (ExceptT.lift (call .mkdirLock) : Op _).run unlocked.shared (.ok (.ok ()))
      (unlocked.shared.taken (lit "a") 0) :=
    .ask (fun h => h) (r := .ok ()) ⟨nofun, .inr (.inr ⟨rfl, rfl, 0, rfl, rfl⟩)⟩ .ret
  have hexecs : (careful (lit "session.jsonl") twoProcesses).Execs (lit "a")
      (Status.lease <$> acquire (lit "session.jsonl") (twoProcesses.owner (lit "a")) : Op Status).run
      unlocked.shared (.ok (.lease { owner := twoProcesses.owner (lit "a"), released := false }))
      lockedFiles :=
    Protocol.Execs.bind (Protocol.Execs.exceptBind hmkdir hestablish) .ret
  have hrun := hexecs.toAdvances.begun (w := unlocked) (ρ := .acquire) rfl (fun h => h) rfl
  have hidle : update unlocked.running (lit "a") none = fun _ => none := update_eq_self _ _
  simp only [Protocol.settle, hidle] at hrun
  exact hrun

/-- Its holder can write the mark. -/
private theorem marking_execs : (careful (lit "session.jsonl") twoProcesses).Execs (lit "a")
    (Status.lease <$> requireRecovery (lit "append rollback failed at byte 0")
      { owner := twoProcesses.owner (lit "a"), released := false } : Op Status).run
    lockedFiles (.ok (.lease { owner := markedOwner, released := false })) markedFiles := by
  have hopen : (protocol (lit "session.jsonl") twoProcesses).Execs (lit "a")
      (Op.orThrow (call .truncateOwner)).run lockedFiles (.ok 0)
      { lockedFiles with text := update lockedFiles.text 0 [] } :=
    .ask (fun h => h) (r := .ok 0) (.inr (.inl ⟨0, 0, rfl, rfl, rfl, rfl⟩)) .ret
  have hwrite : (protocol (lit "session.jsonl") twoProcesses).Execs (lit "a")
      (writeBytes 0 markedOwner.bytes).run { lockedFiles with text := update lockedFiles.text 0 [] }
      (.ok ()) markedFiles :=
    writeBytes_execs (lit "session.jsonl") (fun h => h) 0 markedOwner.bytes []
  have hmark : (protocol (lit "session.jsonl") twoProcesses).Execs (lit "a")
      (writeOwner (call .truncateOwner) markedOwner).run lockedFiles (.ok ()) markedFiles :=
    hopen.exceptBind hwrite
  have hcareful : (careful (lit "session.jsonl") twoProcesses).Execs _ _ _ _ _ :=
    hmark.only (writeOwner_blind (.inr rfl) _) fun _ _ => Call.Blind.asksUnmarked
  exact Protocol.Execs.bind (Protocol.Execs.bind hcareful .ret) .ret

/-- The lease "b" reads the owner file, and then the lease "a" writes its mark. -/
theorem markedWorld_reach : CarefulReach (lit "session.jsonl") twoProcesses markedWorld := by
  refine ⟨unlocked, unlocked_initial, acquired_run.trans ?_⟩
  have hact : ∀ n s c r s', c.Blind → act n s c r s' →
      (careful (lit "session.jsonl") twoProcesses).act n s c r s' :=
    fun n s c r s' hc h => ⟨hc.asksUnmarked, h⟩
  have hread : (careful (lit "session.jsonl") twoProcesses).Execs (lit "b")
      (readOwner (lit "session.jsonl")).run lockedFiles (.ok (twoProcesses.owner (lit "a")))
      lockedFiles :=
    readOwner_execs (hact (lit "b")) (fun h => h) rfl rfl
      (ownerAt_twoProcesses (lit "a") (by decide) none _)
  have hmkdir : (careful (lit "session.jsonl") twoProcesses).Execs (lit "b")
      (ExceptT.lift (call .mkdirLock) : Op _).run lockedFiles
      (.ok (.error ⟨true, lit "EEXIST"⟩)) lockedFiles :=
    .ask (fun h => h) (r := .error ⟨true, lit "EEXIST"⟩)
      ⟨nofun, .inr (.inl ⟨nofun, _, rfl, rfl, rfl⟩)⟩ .ret
  have hreaping : (careful (lit "session.jsonl") twoProcesses).Advances (lit "b")
      (Status.lease <$> acquire (lit "session.jsonl") (twoProcesses.owner (lit "b")) : Op Status).run
      lockedFiles reaping lockedFiles := by
    refine Protocol.Advances.bind (Protocol.Execs.exceptAdvances hmkdir ?_)
    refine Protocol.Advances.bind (f := ExceptT.bindCont fun _ => establish _ _) ?_
    rw [takeOver_eq]
    exact hread.exceptAdvances .refl
  have hfirst := hreaping.begun (ρ := .acquire) (w := acquiredWorld) rfl
    (fun h => h) rfl
  refine hfirst.trans ?_
  have hreaping : ∃ k, reaping = .ask (.isDead (twoProcesses.owner (lit "a"))) k := ⟨_, rfl⟩
  obtain ⟨k, hk⟩ := hreaping
  have hidle : (careful (lit "session.jsonl") twoProcesses).settle
      { acquiredWorld with shared := lockedFiles } (lit "b") .acquire reaping =
      { acquiredWorld with running := update (fun _ => none) (lit "b") (some (.acquire, reaping)) } := by
    rw [hk]
    rfl
  rw [hidle]
  have hsecond := marking_execs.toAdvances.begun
    (ρ := .requireRecovery (lit "append rollback failed at byte 0"))
    (w := { acquiredWorld with running := update (fun _ => none) (lit "b") (some (.acquire, reaping)) }) rfl (fun h => h) rfl
  have hworld : (careful (lit "session.jsonl") twoProcesses).settle { acquiredWorld with
      shared := markedFiles, running := update (fun _ => none) (lit "b") (some (.acquire, reaping)) } (lit "a")
      (.requireRecovery (lit "append rollback failed at byte 0"))
      (.ret (.ok (.lease { owner := markedOwner, released := false }))) = markedWorld := by
    have hrunning : update (update (fun _ => none) (lit "b") (some (Operation.acquire, reaping)))
        (lit "a") none = update (fun _ => none) (lit "b") (some (.acquire, reaping)) :=
      update_eq_self_iff.mpr rfl
    simp only [Protocol.settle, markedWorld, acquiredWorld, update_idem, hrunning]
    rfl
  rwa [hworld] at hsecond

/-- The lease "a" has crashed. -/
def deadFiles : Files :=
  { markedFiles with crashed := fun p => p = (twoProcesses (lit "a")).1 ∨ markedFiles.crashed p }

/-- The lease "b" has moved the marked lock away. -/
def movedFiles : Files :=
  { deadFiles with
    reaper := some (lit "b"), lock := none, retired := update deadFiles.retired (lit "a") (some 0) }

/-- The lease "b" goes on, until it has moved the marked lock away. -/
theorem reaping_advances : ∃ q, (protocol (lit "session.jsonl") twoProcesses).Advances (lit "b") reaping
    deadFiles q movedFiles := by
  have hruns : ¬ deadFiles.crashed (twoProcesses (lit "b")).1 := by
    rintro (h | h)
    · exact absurd h (by decide)
    · exact h
  have hdead : ∀ s, s.crashed = deadFiles.crashed → ∀ owner : Owner,
      owner.toProcessIdentity = (twoProcesses (lit "a")).1 →
      (protocol (lit "session.jsonl") twoProcesses).Execs (lit "b")
        (ExceptT.lift (call (.isDead owner)) : Op Bool).run s (.ok true) s := by
    intro s hs owner howner
    have hlive : ¬ s.crashed (twoProcesses (lit "b")).1 := by rwa [hs]
    refine .ask (r := true) hlive ⟨?_, rfl⟩ .ret
    rw [hs, howner]
    exact ⟨fun _ => .inl rfl, fun _ => rfl⟩
  have hreaper : (protocol (lit "session.jsonl") twoProcesses).Execs (lit "b")
      (Op.orThrow (call .mkdirReaper)).run deadFiles (.ok ()) { deadFiles with reaper := some (lit "b") } :=
    .ask hruns (r := .ok ()) (.inr (.inr ⟨rfl, rfl, rfl⟩)) .ret
  have hread : (protocol (lit "session.jsonl") twoProcesses).Execs (lit "b")
      (readOwner (lit "session.jsonl")).run { deadFiles with reaper := some (lit "b") }
      (.ok { twoProcesses.owner (lit "a") with
        recoveryRequired := markedOwner.recoveryRequired.map Json.normal })
      { deadFiles with reaper := some (lit "b") } :=
    readOwner_execs (fun _ _ _ _ _ h => h) hruns rfl rfl
      (ownerAt_twoProcesses (lit "a") (by decide) _ _)
  have hrename : (protocol (lit "session.jsonl") twoProcesses).Execs (lit "b")
      (Op.orThrow (call (.renameLock (lit "a")))).run { deadFiles with reaper := some (lit "b") } (.ok ())
      movedFiles :=
    .ask hruns (r := .ok ()) (.inr ⟨0, rfl, nofun, rfl, rfl⟩) .ret
  have hreplace : (protocol (lit "session.jsonl") twoProcesses).Advances (lit "b")
      (replaceLock (lit "session.jsonl") (twoProcesses.owner (lit "a"))).run
      { deadFiles with reaper := some (lit "b") }
      (Op.orThrow (call .mkdirLock) >>= fun _ => removeRetired (lit "a") : Op Unit).run movedFiles := by
    refine hread.exceptAdvances ?_
    rw [if_neg (not_not_intro rfl)]
    exact (hdead { deadFiles with reaper := some (lit "b") } rfl
      { twoProcesses.owner (lit "a") with recoveryRequired := some (.str _) } rfl).exceptAdvances
      (hrename.exceptAdvances .refl)
  have hretire := (hdead deadFiles rfl (twoProcesses.owner (lit "a")) rfl).exceptAdvances
    (f := fun dead => do
      if !dead then
        throw (lit "CONTEXT_LOCKED: " ++ lit "session.jsonl" ++ lit " is owned by PID " ++
          (Number.ofNat (twoProcesses.owner (lit "a")).pid).text ++ lit ", runtime " ++
          (twoProcesses.owner (lit "a")).runtimeId)
      Op.orThrow (call .mkdirReaper)
      (replaceLock (lit "session.jsonl") (twoProcesses.owner (lit "a"))).andFinally
        (Op.orThrow (call .rmdirReaper)))
    (hreaper.exceptAdvances (Protocol.Advances.bind hreplace))
  exact ⟨_, Protocol.Advances.bind (Protocol.Advances.bind (f := ExceptT.bindCont fun _ =>
    establish (lit "session.jsonl") (twoProcesses.owner (lit "b"))) hretire)⟩

/-- A run in which the mark does not hold: the lease "b" has read the owner file before the mark, finds
the owner dead after it, and moves the marked lock away. The lease "c" then acquires the session. -/
theorem recovery_lost : ∃ w w', Reach (lit "session.jsonl") twoProcesses w ∧
    Marked (lit "session.jsonl") 0 w.shared ∧ w.memory (lit "c") = .fresh ∧
    w.running (lit "c") = none ∧
    Relation.ReflTransGen (protocol (lit "session.jsonl") twoProcesses).Move w w' ∧
    Held twoProcesses w' (lit "c") := by
  obtain ⟨w₀, hinit, hrun⟩ := markedWorld_reach
  obtain ⟨k, hk⟩ : ∃ k, reaping = .ask (.isDead (twoProcesses.owner (lit "a"))) k := ⟨_, rfl⟩
  obtain ⟨q, hq⟩ := reaping_advances
  have hcrash : (protocol (lit "session.jsonl") twoProcesses).Move markedWorld
      { markedWorld with shared := deadFiles } := .env ⟨(twoProcesses (lit "a")).1, rfl⟩
  rw [hk] at hq
  have hreap := hq.moves (ρ := .acquire) (w := { markedWorld with shared := deadFiles })
    (by rw [← hk]; rfl)
  have hne : lit "c" ≠ lit "b" := by decide
  have hlive : ¬ movedFiles.crashed (twoProcesses (lit "c")).1 := by
    rintro (h | h)
    · exact absurd h (by decide)
    · exact h
  have hlost := acquire_free (lit "session.jsonl") twoProcesses hlive rfl (d := 1) rfl rfl (f := 1) rfl
  obtain ⟨hacquire, hheld⟩ := held_of_acquire (lit "session.jsonl") twoProcesses (n := lit "c")
    (w := (protocol (lit "session.jsonl") twoProcesses).settle { markedWorld with shared := movedFiles }
      (lit "b") .acquire q) (by rwa [settle_shared])
    (by rw [settle_memory_other _ _ hne]; rfl) (by rw [settle_running_other _ _ hne]; rfl)
    (by rw [settle_shared]; exact hlost) (by exact hlive)
  exact ⟨markedWorld, _, ⟨w₀, hinit, hrun.lift id fun _ _ h => h.of_only⟩, markedFiles_marked, rfl, rfl,
    (Relation.ReflTransGen.head hcrash hreap).trans hacquire, hheld⟩

/-- An `acquire` that reads the mark throws, whether the owner is dead or not. -/
theorem acquire_refused (file : Str) {P : Protocol Files Str Operation Call Call.Ret Str Status}
    (hP : ∀ s c r s', c.Blind → act n s c r s' → P.act n s c r s') (hruns : P.runs n s)
    (own : Owner) {f : File} {owner : Owner} (hlock : s.lock = some d) (hentry : s.entry d = some f)
    (hread : ownerAt (lockPath file) (s.text f) = .ok owner) {reason : Json}
    (hmark : owner.recovery? = some reason) :
    P.Execs n (Status.lease <$> acquire file own : Op Status).run s
      (.error (lit "CONTEXT_STORAGE_UNCERTAIN: " ++ reason.text ++ lit "; inspect " ++ lockPath file ++
        lit " manually")) s := by
  have hmkdir : P.Execs n (ExceptT.lift (call .mkdirLock) : Op _).run s
      (.ok (.error ⟨true, lit "EEXIST"⟩)) s :=
    .ask hruns (r := .error ⟨true, lit "EEXIST"⟩) (hP _ _ _ _ trivial
      (.inr (.inl ⟨by rw [hlock]; exact Option.some_ne_none d, _, rfl, rfl, rfl⟩))) .ret
  have htake : P.Execs n (takeOver file).run s (.error (lit "CONTEXT_STORAGE_UNCERTAIN: " ++
      reason.text ++ lit "; inspect " ++ lockPath file ++ lit " manually")) s := by
    rw [takeOver_eq]
    refine (readOwner_execs hP hruns hlock hentry hread).exceptBind ?_
    rw [hmark]
    exact .ret
  exact Protocol.Execs.bind (hmkdir.exceptBind (Protocol.Execs.bind htake .ret)) .ret

/-- The lease "b" is told that the owner lives, the owner crashes, and the lease "c" reads the mark:
both acquisitions fail, and the lock stays. -/
theorem recovery_kept_marked : ∃ w,
    Relation.ReflTransGen (careful (lit "session.jsonl") twoProcesses).Move markedWorld w ∧
    w.shared.crashed (twoProcesses (lit "a")).1 ∧ w.memory (lit "b") = .failed ∧
    w.memory (lit "c") = .failed ∧ w.shared.lock = some 0 ∧
    ∀ e w'', (careful (lit "session.jsonl") twoProcesses).Step w e w'' →
      (e.role = .acquire → ∀ status, e.result ≠ some (.ok status)) ∧
      (e.role = .release → ¬ Removes w.shared w''.shared 0) := by
  have hasked : ∃ e, (careful (lit "session.jsonl") twoProcesses).Execs (lit "b") reaping markedFiles
      (.error e) markedFiles := by
    have hlives : (careful (lit "session.jsonl") twoProcesses).Execs (lit "b")
        (ExceptT.lift (call (.isDead (twoProcesses.owner (lit "a")))) : Op Bool).run markedFiles
        (.ok false) markedFiles := by
      refine .ask (r := false) (fun h => h) ⟨fun owner h => ?_, ?_, rfl⟩ .ret
      · obtain rfl := Call.isDead.inj h
        rfl
      · exact ⟨fun h => Bool.noConfusion h, fun h => h.elim⟩
    exact ⟨_, Protocol.Execs.bind (Protocol.Execs.bind (hlives.exceptBind .ret) .ret) .ret⟩
  obtain ⟨k, hk⟩ : ∃ k, reaping = .ask (.isDead (twoProcesses.owner (lit "a"))) k := ⟨_, rfl⟩
  obtain ⟨e, hasked⟩ := hasked
  rw [hk] at hasked
  have hfirst := hasked.toAdvances.moves (ρ := .acquire) (w := markedWorld) (by rw [← hk]; rfl)
  have hcrash : (careful (lit "session.jsonl") twoProcesses).Move _ _ :=
    .env (w := (careful (lit "session.jsonl") twoProcesses).settle markedWorld (lit "b") .acquire
      (.ret (.error e))) ⟨(twoProcesses (lit "a")).1, rfl⟩
  have hlive : ¬ deadFiles.crashed (twoProcesses (lit "c")).1 := by
    rintro (h | h)
    · exact absurd h (by decide)
    · exact h
  have hrefused := acquire_refused (lit "session.jsonl")
    (P := careful (lit "session.jsonl") twoProcesses) (n := lit "c") (s := deadFiles)
    (fun _ _ _ _ hc h => ⟨hc.asksUnmarked, h⟩) hlive (twoProcesses.owner (lit "c")) rfl rfl
    (ownerAt_twoProcesses (lit "a") (by decide) markedOwner.recoveryRequired _) rfl
  have hsecond := hrefused.toAdvances.begun (ρ := .acquire)
    (w := { (careful (lit "session.jsonl") twoProcesses).settle markedWorld (lit "b") .acquire
      (.ret (.error e)) with shared := deadFiles }) rfl hlive rfl
  have hrun := (hfirst.tail hcrash).trans hsecond
  exact ⟨_, hrun, .inl rfl, rfl, rfl, recovery_kept markedWorld_reach markedFiles_marked hrun⟩

end Race

end Lease
