import ContextCompaction.Lease.Assertions

/-!
# One writer

Each operation makes its calls under their guards, whatever the other leases do in between.

* `acquire_free`, `acquire_dead`: a session without a lock can be acquired, and one whose lock belongs
  to a process that has crashed.
* `one_writer`: at most one live process has an acquired, unreleased lease, and what an operation
  may do to the lock of another.
-/

namespace Lease

open Js Interleaving Function

variable {file : Str} {drawn : Draws} {s s' : Files} {n u k : Str} {operation : Operation}

section Operations

variable {α : Type} {K : Files → Prop} {Q : Except Str α → Files → Prop}

/-- An operation that is safe under the discipline of the leases. -/
abbrev SafeOp (file : Str) (drawn : Draws) (operation : Operation) (n : Str) (K : Files → Prop)
    (Q : Except Str α → Files → Prop) (m : Op α) (s : Files) : Prop :=
  Safe (protocol file drawn) (discipline file drawn) operation n K Q m.run s

abbrev Steady (file : Str) (drawn : Draws) (n : Str) (A : Files → Prop) : Prop :=
  Stable (protocol file drawn) (discipline file drawn) n A

/-- An owner is read from the file that was opened, under any discipline that guards no read. -/
theorem readOwner_safe {P : Protocol Files Str Operation Call Call.Ret Str Status}
    {D : Discipline Files Str Operation Call Str Status} {A : Files → Prop} {B : File → Files → Prop}
    {Q : Except Str Owner → Files → Prop} (hact : ∀ s c r s', P.act n s c r s' → act n s c r s')
    (hinv : ∀ s, D.inv s → Inv drawn s)
    (hguard : ∀ s, D.guard operation n s .openOwner ∧ ∀ f, D.guard operation n s (.read f))
    (hA : Stable P D n A) (hB : ∀ f, Stable P D n (B f))
    (hopen : ∀ s d f, Inv drawn s → A s → s.lock = some d → s.entry d = some f → B f s)
    (hAK : ∀ s, A s → K s) (hBK : ∀ f s, B f s → K s) (hs : A s)
    (hok : ∀ s f owner, Inv drawn s → B f s →
      ownerAt (lockPath file) (s.text f) = .ok owner → Q (.ok owner) s)
    (herror : ∀ e s, A s ∨ (∃ f, B f s) → Q (.error e) s) :
    Safe P D operation n K Q (readOwner file).run s := by
  refine safe_exceptBind (R := fun r s => match r with
    | .ok f => B f s
    | .error _ => A s) (safe_ask hA hs fun s hs _ hAs => ⟨hAK s hAs, (hguard s).1, ?_⟩)
    (fun f s hf => ?_) fun e s h => herror e s (.inl h)
  · intro r s' hstep _
    obtain ⟨e, -, rfl, rfl⟩ | ⟨d, f, hlock, hentry, rfl, rfl⟩ := hact _ _ _ _ hstep
    · exact hAs
    · exact hopen _ d f (hinv _ hs) hAs hlock hentry
  · refine safe_exceptBind (R := fun r s => Inv drawn s ∧ B f s ∧ ∀ bytes, r = .ok bytes →
      bytes = s.text f) (safe_ask (hB f) hf fun s hs _ hBs => ⟨hBK f s hBs, (hguard s).2 f, ?_⟩)
      (fun bytes s h => ?_) fun e s h => herror e s (.inr ⟨f, h.2.1⟩)
    · intro r s' hstep _
      obtain ⟨e, -, rfl, rfl⟩ | ⟨rfl, rfl⟩ := hact _ _ _ _ hstep
      · exact ⟨hinv _ hs, hBs, fun _ he => nomatch he⟩
      · exact ⟨hinv _ hs, hBs, fun _ he => (Except.ok.inj he).symm⟩
    · obtain ⟨hi, hBs, hbytes⟩ := h
      obtain rfl := hbytes bytes rfl
      cases hread : ownerAt (lockPath file) (s.text f) with
      | ok owner => exact hok s f owner hi hBs hread
      | error e => exact herror e s (.inr ⟨f, hBs⟩)

/-- Every byte that is written continues what the lease may write. -/
theorem writeBytes_safe {owner : Owner} (hn : owner.Names drawn n) (hK : ∀ s, Owns n s → K s) {f : File}
    {rest : List UInt8} :
    ∀ {s written}, Owns n s → Wrote n f written s → written ++ rest = owner.bytes →
      SafeOp file drawn operation n K (fun _ s => Owns n s) (writeBytes f rest) s := by
  induction rest with
  | nil => exact fun hs _ _ => hs
  | cons b rest ih =>
    intro s written hs hw hrest
    have hprefix : written ++ [b] <+: owner.bytes := ⟨rest, by rw [← hrest, List.append_assoc]; rfl⟩
    refine safe_exceptBind (R := fun r s => Owns n s ∧
      (r = .ok () → Wrote n f (written ++ [b]) s)) ?_ (fun _ s h => ?_) fun e s h => h.1
    · refine safe_ask (owns_stable.and wrote_stable) ⟨hs, hw⟩ fun s hinv _ hA => ?_
      obtain ⟨hs, hauthor, htext⟩ := hA
      refine ⟨hK s hs, ⟨owner, hn, hauthor, by rwa [htext]⟩, fun r s' hact _ => ?_⟩
      obtain ⟨e, -, rfl, rfl⟩ | ⟨rfl, rfl⟩ := hact
      · exact ⟨hs, fun h => nomatch h⟩
      · exact ⟨hs, fun _ => ⟨hauthor, by simp [htext]⟩⟩
    · exact ih h.1 (h.2 rfl) (by rw [← hrest, List.append_assoc]; rfl)

/-- The owner file is opened for writing by the lease that owns the lock. -/
theorem writeOwner_safe {owner : Owner} (hn : owner.Names drawn n) (hK : ∀ s, Owns n s → K s) (hs : Owns n s)
    {m : Script Call Call.Ret (Except SystemError File)}
    (hm : m = call .createOwner ∨ m = call .truncateOwner) :
    SafeOp file drawn operation n K (fun _ s => Owns n s) (writeOwner m owner) s := by
  refine safe_exceptBind (R := fun r s => Owns n s ∧ ∀ f, r = .ok f → Wrote n f [] s) ?_
    (fun f s h => writeBytes_safe hn hK h.1 (h.2 f rfl) rfl) fun e s h => h.1
  obtain rfl | rfl := hm
  · refine safe_ask owns_stable hs fun s hinv _ hs => ⟨hK s hs, hs, fun r s' hact _ => ?_⟩
    obtain ⟨e, -, rfl, rfl⟩ | ⟨d, -, -, e, -, rfl, rfl⟩ | ⟨d, f, hlock, hd, hf, rfl, rfl⟩ := hact
    · exact ⟨hs, fun _ h => nomatch h⟩
    · exact ⟨hs, fun _ h => nomatch h⟩
    · refine ⟨hs, fun g hg => ?_⟩
      obtain rfl := Except.ok.inj hg
      exact ⟨by simp [Files.create], by simp [Files.create]⟩
  · refine safe_ask owns_stable hs fun s hinv _ hs => ⟨hK s hs, hs, fun r s' hact _ => ?_⟩
    obtain ⟨e, -, rfl, rfl⟩ | ⟨d, f, hlock, hd, rfl, rfl⟩ | ⟨d, f, hlock, hd, hf, rfl, rfl⟩ := hact
    · exact ⟨hs, fun _ h => nomatch h⟩
    · refine ⟨hs, fun g hg => ?_⟩
      obtain rfl := Except.ok.inj hg
      obtain ⟨e, he, hmaker⟩ := hs
      obtain rfl := Option.some.inj (hlock.symm.trans he)
      obtain ⟨m, hm, hauthor⟩ := hinv.entry_maker d f hd
      exact ⟨by rw [← hmaker, hm]; exact hauthor, by simp⟩
    · refine ⟨hs, fun g hg => ?_⟩
      obtain rfl := Except.ok.inj hg
      exact ⟨by simp [Files.create], by simp [Files.create]⟩

end Operations

/-! ## Taking over -/

private theorem removeRetired_safe (hs : Marks n s ∧ Owns n s) :
    SafeOp file drawn .acquire n (fun _ => True) (fun _ s => Marks n s ∧ Owns n s)
      (removeRetired k) s := by
  refine safe_exceptBind (R := fun _ s => Marks n s ∧ Owns n s)
    (safe_ask (marks_stable.and owns_stable) hs fun s _ _ hs => ⟨trivial, rfl, fun r s' hact _ => ?_⟩)
    (fun _ s hs => safe_ask (marks_stable.and owns_stable) hs
      fun s _ _ hs => ⟨trivial, rfl, fun r s' hact _ => ?_⟩) fun _ _ h => h
  · obtain ⟨e, -, rfl, rfl⟩ | ⟨d, -, rfl, rfl⟩ := hact <;> exact hs
  · obtain ⟨e, -, rfl, rfl⟩ | ⟨d, -, -, rfl, rfl⟩ := hact <;> exact hs

/-- What is done under the second marker ends with a lock of the lease, or with an error. -/
theorem replaceLock_safe {owner : Owner} (hs : Reaping drawn n owner.nonce s) :
    SafeOp file drawn .acquire n (fun _ => True)
      (fun r s => Marks n s ∧ (r = .ok () → Owns n s)) (replaceLock file owner) s := by
  have hthrow : ∀ {e : Str} {s}, Marks n s → SafeOp file drawn .acquire n (fun _ => True)
      (fun r s => Marks n s ∧ (r = .ok () → Owns n s)) (throw e : Op Unit) s :=
    fun hs => ⟨hs, fun h => nomatch h⟩
  refine safe_exceptBind (R := fun r s => Marks n s ∧ ∀ current, r = .ok current →
      Reaping drawn n owner.nonce s ∧ (current.nonce = owner.nonce → Shows file current s))
    (readOwner_safe
    (fun _ _ _ _ h => h) (fun _ h => h) (fun _ => ⟨trivial, fun _ => trivial⟩) (A := Reaping drawn n owner.nonce)
    (B := fun f s => Reaping drawn n owner.nonce s ∧ Opened owner.nonce f s)
    reaping_stable (fun _ => opened_stable) ?_ (fun _ _ => trivial) (fun _ _ _ => trivial) hs ?_ ?_)
    (fun current s h => ?_) fun _ s h => ⟨h.1, fun h => nomatch h⟩
  · intro s d f hinv hr hlock hentry
    obtain ⟨m, -, hauthor⟩ := hinv.entry_maker d f hentry
    exact ⟨hr, m, hauthor, fun _ => ⟨d, hlock, hentry⟩⟩
  · rintro s f current hinv ⟨hr, m, hauthor, hfound⟩ hread
    refine ⟨hr.1, fun _ h => ?_⟩
    obtain rfl := Except.ok.inj h
    refine ⟨hr, fun hname => ?_⟩
    obtain ⟨hm, -⟩ := hinv.author_of_ownerAt hauthor hread
    obtain ⟨d, hlock, hentry⟩ := hfound (hm.symm.trans hname)
    exact ⟨d, f, hlock, hentry, hread⟩
  · rintro e s (hr | ⟨f, hr, -⟩)
    · exact ⟨hr.1, fun _ h => nomatch h⟩
    · exact ⟨hr.1, fun _ h => nomatch h⟩
  obtain ⟨hmark, hcurrent⟩ := h
  obtain ⟨hr, hshows⟩ := hcurrent current rfl
  by_cases hname : current.nonce = owner.nonce
  swap
  · rw [if_pos hname]
    exact hthrow hmark
  rw [if_neg (not_not_intro hname)]
  rw [← hname] at hr ⊢
  refine safe_exceptBind (R := fun _ s => Reaping drawn n current.nonce s ∧ Shows file current s)
    (safe_ask shows_stable ⟨hr, hshows hname⟩ fun s _ _ hA => ⟨trivial, rfl, ?_⟩)
    (fun dead s h => ?_) fun _ s h => ⟨h.1.1, fun h => nomatch h⟩
  · rintro r s' ⟨-, rfl⟩ -
    exact hA
  cases dead with
  | false => exact hthrow h.1.1
  | true =>
    refine safe_exceptBind (R := fun _ s => Marks n s) (safe_ask shows_stable h fun s _ _ hA => ?_)
      (fun _ s hmark => ?_) fun _ s h => ⟨h, fun h => nomatch h⟩
    · refine ⟨trivial, ⟨rfl, hA.1.1, hA.1.2, hA.2.complete⟩, fun r s' hact _ => ?_⟩
      obtain ⟨e, -, rfl, rfl⟩ | ⟨d, -, -, rfl, rfl⟩ := hact <;> exact hA.1.1
    refine safe_exceptBind (R := fun r s => Marks n s ∧ (r = .ok () → Owns n s))
      (safe_ask marks_stable hmark fun s _ _ hmark => ⟨trivial, rfl, fun r s' hact _ => ?_⟩)
      (fun _ s h => ?_) fun _ s h => ⟨h.1, fun h => nomatch h⟩
    · obtain ⟨e, -, rfl, rfl⟩ | ⟨-, e, -, rfl, rfl⟩ | ⟨-, rfl, d, -, rfl⟩ := hact
      · exact ⟨hmark, fun h => nomatch h⟩
      · exact ⟨hmark, fun h => nomatch h⟩
      · exact ⟨hmark, fun _ => ⟨d, rfl, by simp⟩⟩
    · exact (removeRetired_safe ⟨h.1, h.2 rfl⟩).mono fun _ s h => ⟨h.1, fun _ => h.2⟩

/-- Whatever ends the part under the second marker, the marker is removed last. -/
theorem takeOver_safe : SafeOp file drawn .acquire n (fun _ => True)
    (fun r s => r = .ok () → Owns n s) (takeOver file) s := by
  have hthrow : ∀ {e : Str} {s}, SafeOp file drawn .acquire n (fun _ => True)
      (fun r s => r = .ok () → Owns n s) (throw e : Op Unit) s := fun h => nomatch h
  refine safe_exceptBind (R := fun r s => ∀ owner, r = .ok owner →
      owner.toProcessIdentity = (drawn owner.nonce).1) (readOwner_safe (fun _ _ _ _ h => h) (fun _ h => h)
    (fun _ => ⟨trivial, fun _ => trivial⟩) (A := fun _ => True)
    (B := fun f s => ∃ m, s.author f = some m) (.const True) (fun _ => author_stable) ?_
    (fun _ _ => trivial) (fun _ _ _ => trivial) trivial ?_ fun _ _ _ _ h => nomatch h)
    (fun owner s h => ?_) fun _ _ _ h => nomatch h
  · intro s d f hinv _ _ hentry
    obtain ⟨m, -, hauthor⟩ := hinv.entry_maker d f hentry
    exact ⟨m, hauthor⟩
  · rintro s f current hinv ⟨m, hauthor⟩ hread owner h
    obtain rfl := Except.ok.inj h
    obtain ⟨rfl, hp⟩ := hinv.author_of_ownerAt hauthor hread
    exact hp
  have hgenuine := h owner rfl
  cases owner.recovery? with
  | some reason => exact hthrow
  | none =>
    refine safe_exceptBind (R := fun r s => r = .ok true → Dead drawn owner.nonce s)
      (safe_ask (.const True) trivial fun s _ _ _ => ⟨trivial, rfl, ?_⟩)
      (fun dead s h => ?_) fun _ _ _ h => nomatch h
    · rintro r s' ⟨hdead, rfl⟩ -
      intro h
      obtain rfl := Except.ok.inj h
      unfold Dead
      rw [← hgenuine]
      exact hdead.mp rfl
    cases dead with
    | false => exact hthrow
    | true =>
      refine safe_exceptBind (R := fun r s => r = .ok () → Reaping drawn n owner.nonce s)
        (safe_ask dead_stable (h rfl) fun s _ _ hdead => ⟨trivial, rfl, fun r s' hact _ => ?_⟩)
        (fun _ s h => ?_) fun _ _ _ h => nomatch h
      · obtain ⟨e, -, rfl, rfl⟩ | ⟨-, e, -, rfl, rfl⟩ | ⟨-, rfl, rfl⟩ := hact
        · exact fun h => nomatch h
        · exact fun h => nomatch h
        · exact fun _ => ⟨rfl, hdead⟩
      refine safe_bind (replaceLock_safe (h rfl)) fun a s h => ?_
      refine safe_bind (R := fun r s => a = .ok () → Owns n s)
        (safe_ask (marks_stable.and owns_stable.imp) h fun s _ _ h =>
          ⟨trivial, ⟨rfl, h.1⟩, fun r s' hact _ => ?_⟩) fun r s h => ?_
      · obtain ⟨e, -, rfl, rfl⟩ | ⟨-, rfl, rfl⟩ := hact <;> exact h.2
      · cases r with
        | ok => exact h
        | error e => exact fun h => nomatch h

/-! ## The operations -/

private theorem establish_safe {owner : Owner} (hn : owner.Names drawn n) (hs : Owns n s) :
    SafeOp file drawn .acquire n (fun _ => True) (fun r s => ∀ lease, r = .ok lease →
      Holds drawn n (.lease lease) s) (establish file owner) s := by
  refine safe_exceptBind (R := fun _ s => Owns n s)
    (safe_bind (writeOwner_safe hn (fun _ _ => trivial) hs (.inl rfl)) fun _ _ h => h)
    (fun _ s h lease he => ?_) fun _ _ h _ he => nomatch he
  obtain rfl := Except.ok.inj he
  exact ⟨hn, fun _ => h⟩

/-- Acquiring is safe, and a lease that it returns is held. -/
theorem acquire_safe {owner : Owner} (hn : owner.Names drawn n) :
    SafeOp file drawn .acquire n (fun _ => True) (fun r s => ∀ lease, r = .ok lease →
      Holds drawn n (.lease lease) s) (acquire file owner) s := by
  refine safe_exceptBind (R := fun r s => r = .ok (.ok ()) → Owns n s)
    (safe_ask (.const True) trivial fun s _ _ _ => ⟨trivial, rfl, fun r s' hact _ => ?_⟩)
    (fun r s h => ?_) fun _ _ _ _ h => nomatch h
  · obtain ⟨e, -, rfl, rfl⟩ | ⟨-, e, -, rfl, rfl⟩ | ⟨-, rfl, d, -, rfl⟩ := hact
    · exact fun h => nomatch h
    · exact fun h => nomatch h
    · exact fun _ => ⟨d, rfl, by simp⟩
  cases r with
  | ok => exact establish_safe hn (h rfl)
  | error e =>
    cases he : e.eexist with
    | true =>
      simp only [he, ↓reduceIte]
      exact safe_exceptBind takeOver_safe (fun _ s h => establish_safe hn (h rfl))
        fun _ _ _ _ h => nomatch h
    | false =>
      simp only [he, Bool.false_eq_true, ↓reduceIte]
      exact fun _ h => nomatch h

theorem holds_stable (n : Str) (status : Status) : Steady file drawn n (Holds drawn n status) := by
  cases status with
  | fresh => exact .const True
  | failed => exact .const True
  | lease lease => exact (Stable.const _).and owns_stable.imp

/-- A lease that `assert` accepts is not released. -/
theorem assert_safe {operation : Operation} {lease : SessionLease}
    (hs : Holds drawn n (.lease lease) s) :
    SafeOp file drawn operation n (Holds drawn n (.lease lease))
      (fun r s => Holds drawn n (.lease lease) s ∧ (r = .ok () → lease.released = false))
      (assert file lease) s := by
  unfold assert
  cases hreleased : lease.released with
  | true => exact ⟨hs, fun h => nomatch h⟩
  | false =>
    refine safe_exceptBind (R := fun _ s => Holds drawn n (.lease lease) s)
      (readOwner_safe (fun _ _ _ _ h => h) (fun _ h => h) (fun _ => ⟨trivial, fun _ => trivial⟩)
        (A := Holds drawn n (.lease lease)) (B := fun _ => Holds drawn n (.lease lease))
        (holds_stable n _) (fun _ => holds_stable n _) (fun _ _ _ _ h _ _ => h) (fun _ h => h)
        (fun _ _ h => h) hs (fun _ _ _ _ h _ => h) ?_) (fun current s h => ?_) fun _ s h =>
      ⟨h, fun _ => rfl⟩
    · rintro e s (h | ⟨-, h⟩) <;> exact h
    · split
      · exact ⟨h, fun h => nomatch h⟩
      · exact ⟨h, fun _ => rfl⟩

/-- The lock is removed by the lease that owns it, and from then on the lease is released. -/
theorem release_safe {lease : SessionLease} (hs : Holds drawn n (.lease lease) s) :
    SafeOp file drawn .release n (Holds drawn n (.lease lease))
      (fun r s => match r with
        | .ok lease' => Holds drawn n (.lease lease') s
        | .error _ => Holds drawn n (.lease lease) s) (release file lease) s := by
  unfold release
  split
  · exact hs
  refine safe_exceptBind (assert_safe hs) (fun _ s h => ?_) fun _ s h => h.1
  obtain ⟨⟨hn, hs⟩, hreleased⟩ := h
  have hown := hs (hreleased rfl)
  refine safe_exceptBind (R := fun _ s => Owns n s) (safe_ask owns_stable hown fun s _ _ hown =>
    ⟨⟨hn, fun _ => hown⟩, ⟨rfl, hown⟩, fun r s' hact _ => ?_⟩) (fun _ s hown => ?_)
    fun _ s hown => ⟨hn, fun _ => hown⟩
  · obtain ⟨e, -, rfl, rfl⟩ | ⟨d, -, rfl, rfl⟩ := hact <;> exact hown
  refine safe_exceptBind (R := fun r s => ∀ e, r = .error e → Owns n s)
    (safe_ask owns_stable hown fun s _ _ hown => ⟨⟨hn, fun _ => hown⟩, ⟨rfl, hown⟩, ?_⟩)
    (fun _ s _ => ⟨hn, fun h => nomatch h⟩) fun e s h => ⟨hn, fun _ => h e rfl⟩
  rintro r s' (⟨e, -, rfl, rfl⟩ | ⟨d, -, -, rfl, rfl⟩) -
  · exact fun _ _ => hown
  · exact fun _ h => nomatch h

theorem requireRecovery_safe {reason : Str} {lease : SessionLease}
    (hn : lease.owner.Names drawn n) (hs : Owns n s) :
    SafeOp file drawn (.requireRecovery reason) n (Holds drawn n (.lease lease))
      (fun r s => ∃ lease', r = .ok lease' ∧ Holds drawn n (.lease lease') s)
      (requireRecovery reason lease) s := by
  have hsafe : SafeOp file drawn (.requireRecovery reason) n (Holds drawn n (.lease lease))
      (fun _ s => Owns n s) (writeOwner (call .truncateOwner)
        { lease.owner with recoveryRequired := some (.str reason) }) s :=
    writeOwner_safe (show Owner.Names { lease.owner with recoveryRequired := some (.str reason) } _ _
      from hn) (fun _ h => ⟨hn, fun _ => h⟩) hs (.inr rfl)
  exact safe_bind hsafe fun _ s h => ⟨_, rfl, hn, fun _ => h⟩

/-! ## Every run -/

/-- Whatever a lease is and whatever its runtime begins, it is safe to begin it. -/
theorem script_safe {operation : Operation} {status : Status}
    {p : Script Call Call.Ret (Except Str Status)} (hp : script file drawn operation n status = some p)
    (hs : Holds drawn n status s) :
    Safe (protocol file drawn) (discipline file drawn) operation n (Holds drawn n status)
      (Returns drawn operation n status) p s := by
  cases status with
  | fresh =>
    cases operation with
    | acquire =>
      obtain rfl := Option.some.inj hp
      refine safe_exceptMap (acquire_safe ⟨rfl, rfl⟩) (fun lease s h => ⟨h lease rfl, fun h => nomatch h⟩)
        fun _ _ _ => ⟨trivial, fun h => nomatch h⟩
    | _ => exact nomatch hp
  | failed => exact nomatch hp
  | lease lease =>
    cases operation with
    | acquire => exact nomatch hp
    | assert =>
      obtain rfl := Option.some.inj hp
      refine safe_exceptMap (assert_safe hs) (fun _ s h => ⟨h.1, fun _ status' he => ?_⟩)
        fun _ s h => ⟨h.1, fun _ _ he => nomatch he⟩
      exact ⟨lease, (Except.ok.inj he).symm, h.2 rfl⟩
    | release =>
      obtain rfl := Option.some.inj hp
      exact safe_exceptMap (release_safe hs) (fun _ s h => ⟨h, fun h => nomatch h⟩)
        fun _ s h => ⟨h, fun h => nomatch h⟩
    | requireRecovery reason =>
      simp only [script] at hp
      split at hp
      · cases hp
      · rename_i hreleased
        obtain rfl := Option.some.inj hp
        refine safe_exceptMap (requireRecovery_safe hs.1 (hs.2 (by simpa using hreleased)))
          (fun lease' s h => ?_) fun e s h => ?_
        · obtain ⟨_, he, h⟩ := h
          obtain rfl := Except.ok.inj he
          exact ⟨h, fun h => nomatch h⟩
        · obtain ⟨_, he, -⟩ := h
          cases he

theorem sound : Sound (protocol file drawn) (discipline file drawn) where
  runs_act t u s c r s' h hruns hcrashed := hruns (by rwa [act_crashed h])
  runs_env t s s' h hruns hcrashed := by
    obtain ⟨p, rfl⟩ := h
    exact hruns (.inr hcrashed)
  inv_act operation n s c r s' hinv _ hguard hact := inv_act hinv hguard hact
  inv_env s s' hinv h := by
    obtain ⟨p, rfl⟩ := h
    exact ⟨hinv.entry_maker, hinv.lock_maker, hinv.retired_maker, hinv.written⟩
  holds_stable n status := holds_stable n status
  post_holds operation n status a s h := h.1
  script_safe operation n status p s hp hinv hruns hs := script_safe hp hs

theorem good_of_initial {w : Leases} (h : Initial w) :
    Good (protocol file drawn) (discipline file drawn) w := by
  obtain ⟨hlock, hreaper, hretired, hdir, hfile, hlease⟩ := h
  refine ⟨⟨fun d f hf => ?_, fun d hd => ?_, fun k d hd => ?_, fun f n hf => ?_⟩, fun n _ => ?_,
    fun n operation p _ hp => ?_⟩
  · exact nomatch (hdir d).1.symm.trans hf
  · exact nomatch hlock.symm.trans hd
  · exact nomatch (hretired k).symm.trans hd
  · exact nomatch (hfile f).symm.trans hf
  · rw [(hlease n).1]
    trivial
  · exact nomatch (hlease n).2.symm.trans hp

theorem Reach.good {w : Leases} (h : Reach file drawn w) :
    Good (protocol file drawn) (discipline file drawn) w := by
  obtain ⟨w₀, hinit, hrun⟩ := h
  induction hrun with
  | refl => exact good_of_initial hinit
  | tail _ hmove ih => exact sound.good_move ih hmove

theorem Held.owns {w : Leases} (h : Reach file drawn w) (hn : Held drawn w n) :
    Owns n w.shared := by
  obtain ⟨hlive, lease, hlease, hreleased⟩ := hn
  have hholds := h.good.holds n hlive
  rw [hlease] at hholds
  exact hholds.2 hreleased

/-- At most one live process has an acquired, unreleased lease. -/
theorem Held.unique {w : Leases} (h : Reach file drawn w) (hn : Held drawn w n)
    (hu : Held drawn w u) : n = u :=
  (hn.owns h).unique (hu.owns h)

theorem Reach.step {w w' : Leases} {e : Event Str Operation Str Status} (h : Reach file drawn w)
    (hstep : (protocol file drawn).Step w e w') : Reach file drawn w' := by
  obtain ⟨w₀, hinit, hrun⟩ := h
  exact ⟨w₀, hinit, hrun.tail (.step hstep)⟩

/-- The lock directory has a complete owner file, and the process that the file names has crashed. -/
def Abandoned (file : Str) (s : Files) : Prop := ∃ d f owner, s.lock = some d ∧ s.entry d = some f ∧
  ownerAt (lockPath file) (s.text f) = .ok owner ∧ s.crashed owner.toProcessIdentity

/-- The lock directory `d` leaves its path, or its owner file leaves it. -/
def Removes (s s' : Files) (d : Dir) : Prop := s.lock = some d ∧
  (s'.lock ≠ some d ∨ ∃ f, s.entry d = some f ∧ s'.entry d ≠ some f)

theorem Removes.irrefl {d : Dir} (h : Removes s s d) : False := by
  obtain ⟨hlock, hcase | ⟨f, hf, hcase⟩⟩ := h
  · exact hcase hlock
  · exact hcase hf

/-- A guarded call that removes a lock is a release of its maker or takes an abandoned lock over. -/
theorem removes_of_effect {c : Call} (hinv : Inv drawn s)
    (hguard : allowed file drawn operation n s c) (h : Effect n s c s') {d : Dir}
    (hd : Removes s s' d) :
    (operation = .release ∧ s.maker d = some n) ∨ (operation = .acquire ∧ Abandoned file s) := by
  obtain ⟨hlock, hcase⟩ := hd
  have hmine : Owns n s → s.maker d = some n := by
    rintro ⟨e, he, hm⟩
    obtain rfl := Option.some.inj (hlock.symm.trans he)
    exact hm
  have hkept : s'.lock = s.lock → s'.entry = s.entry → False := by
    intro h1 h2
    obtain hcase | ⟨f, hf, hcase⟩ := hcase
    · exact hcase (h1.trans hlock)
    · exact hcase (h2 ▸ hf)
  cases h with
  | mkdirLock hnone => exact nomatch hnone.symm.trans hlock
  | renameLock =>
    obtain ⟨hrole, -, hdead, d', f, owner, hlock', hentry, hread, rfl⟩ := hguard
    obtain ⟨m, -, hauthor⟩ := hinv.entry_maker d' f hentry
    obtain ⟨rfl, hp⟩ := hinv.author_of_ownerAt hauthor hread
    refine .inr ⟨hrole, d', f, owner, hlock', hentry, hread, ?_⟩
    rw [hp]
    exact hdead
  | @unlinkRetired k e he =>
    have hne : d ≠ e := by
      rintro rfl
      exact (hinv.retired_maker k d he).2 hlock
    obtain hcase | ⟨f, hf, hcase⟩ := hcase
    · exact absurd hlock hcase
    · exact absurd (by simpa [hne] using hf) hcase
  | @createOwner e f he hnone =>
    obtain rfl := Option.some.inj (hlock.symm.trans he)
    obtain hcase | ⟨g, hg, -⟩ := hcase
    · exact absurd hlock hcase
    · exact nomatch hnone.symm.trans hg
  | @truncateNew e f he hnone =>
    obtain rfl := Option.some.inj (hlock.symm.trans he)
    obtain hcase | ⟨g, hg, -⟩ := hcase
    · exact absurd hlock hcase
    · exact nomatch hnone.symm.trans hg
  | unlinkOwner => exact .inl ⟨hguard.1, hmine hguard.2⟩
  | rmdirLock => exact .inl ⟨hguard.1, hmine hguard.2⟩
  | _ => exact (hkept rfl rfl).elim

/-! ## A free session -/

variable (file) in
/-- A process that runs can write its bytes one after the other. -/
theorem writeBytes_execs (hruns : ¬ s.crashed (drawn n).1) (f : File) (rest : List UInt8) :
    ∀ written, (protocol file drawn).Execs n (writeBytes f rest).run
      { s with text := update s.text f written } (.ok ())
      { s with text := update s.text f (written ++ rest) } := by
  induction rest with
  | nil =>
    intro written
    rw [List.append_nil]
    exact .ret
  | cons b rest ih =>
    intro written
    have hbyte : (protocol file drawn).Execs n (Op.orThrow (call (.write f b))).run
        { s with text := update s.text f written } (.ok ())
        { s with text := update s.text f (written ++ [b]) } :=
      .ask hruns (r := .ok ()) (.inr ⟨rfl, by simp⟩) .ret
    refine hbyte.exceptBind ?_
    rw [show written ++ b :: rest = (written ++ [b]) ++ rest by simp]
    exact ih _

/-- The directory `d` has the owner file `f` with these bytes. -/
def Files.written (s : Files) (n : Str) (d : Dir) (f : File) (bytes : List UInt8) : Files :=
  { s.create n d f with text := update s.text f bytes }

variable (file) in
/-- A process that runs can establish its lock where there is none. -/
theorem establish_execs (owner : Owner) (hruns : ¬ s.crashed (drawn n).1) {d : Dir}
    (hlock : s.lock = some d) (hentry : s.entry d = none) {f : File} (hf : s.author f = none) :
    (protocol file drawn).Execs n (establish file owner).run s (.ok { owner, released := false })
      (s.written n d f owner.bytes) := by
  have hopen : (protocol file drawn).Execs n (Op.orThrow (call .createOwner)).run s (.ok f)
      (s.create n d f) :=
    .ask hruns (r := .ok f) (.inr (.inr ⟨d, f, hlock, hentry, hf, rfl, rfl⟩)) .ret
  have hwrite := writeBytes_execs file (s := s.create n d f) hruns f owner.bytes []
  have hcreated : { s.create n d f with text := update (s.create n d f).text f [] } =
      s.create n d f := by
    simp [Files.create]
  have hwritten : { s.create n d f with
      text := update (s.create n d f).text f ([] ++ owner.bytes) } =
      s.written n d f owner.bytes := by
    simp [Files.create, Files.written]
  rw [hcreated, hwritten] at hwrite
  exact Protocol.Execs.exceptBind (Protocol.Execs.bind (Protocol.Execs.exceptBind hopen hwrite) .ret)
    .ret

variable (file drawn) in
/-- A lease whose `acquire` has made its calls holds the lock. -/
theorem held_of_acquire {w : Leases} {s' : Files} (hlive : ¬ w.shared.crashed (drawn n).1)
    (hfresh : w.memory n = .fresh) (hidle : w.running n = none)
    (hexecs : (protocol file drawn).Execs n (acquire file (drawn.owner n)).run w.shared
      (.ok { owner := drawn.owner n, released := false }) s') (hlive' : ¬ s'.crashed (drawn n).1) :
    Relation.ReflTransGen (protocol file drawn).Move w
        ((protocol file drawn).settle { w with shared := s' } n .acquire
          (.ret (.ok (.lease { owner := drawn.owner n, released := false })))) ∧
      Held drawn ((protocol file drawn).settle { w with shared := s' } n .acquire
        (.ret (.ok (.lease { owner := drawn.owner n, released := false })))) n := by
  have hexecs : (protocol file drawn).Execs n
      (Status.lease <$> acquire file (drawn.owner n) : Op Status).run w.shared
      (.ok (.lease { owner := drawn.owner n, released := false })) s' :=
    Protocol.Execs.bind hexecs .ret
  have hstart : (protocol file drawn).script .acquire n (w.memory n) =
      some (Status.lease <$> acquire file (drawn.owner n) : Op Status).run := by
    rw [hfresh]
    rfl
  refine ⟨.head (.step (.start hidle hlive hstart)) (hexecs.moves .acquire w), ?_,
    { owner := drawn.owner n, released := false }, ?_, rfl⟩
  · rwa [settle_shared]
  · simp only [Protocol.settle, update_self]
    rfl

/-- The files when the lease `n` has made the lock `d`. -/
def Files.taken (s : Files) (n : Str) (d : Dir) : Files :=
  { s with lock := some d, maker := update s.maker d (some n) }

variable (file drawn) in
/-- A session without a lock can be acquired. -/
theorem acquire_free (hlive : ¬ s.crashed (drawn n).1) (hlock : s.lock = none) {d : Dir}
    (hd : s.maker d = none) (hentry : s.entry d = none) {f : File} (hf : s.author f = none) :
    (protocol file drawn).Execs n (acquire file (drawn.owner n)).run s
      (.ok { owner := drawn.owner n, released := false })
      ((s.taken n d).written n d f (drawn.owner n).bytes) := by
  have hmkdir : (protocol file drawn).Execs n (ExceptT.lift (call .mkdirLock) : Op _).run s
      (.ok (.ok ())) (s.taken n d) :=
    .ask hlive (r := .ok ()) (.inr (.inr ⟨hlock, rfl, d, hd, rfl⟩)) .ret
  exact Protocol.Execs.exceptBind hmkdir
    (establish_execs file (s := s.taken n d) (drawn.owner n) hlive rfl hentry hf)

/-! ## The lock of a dead process -/

/-- A call that asks nobody whether an owner is dead meets the condition. -/
def Call.Blind : Call → Prop
  | .isDead _ => False
  | _ => True

/-- What `acquire` does with an owner that has no mark. -/
def retire (file : Str) (owner : Owner) : Op Unit := do
  if !(← call (.isDead owner)) then
    throw (lit "CONTEXT_LOCKED: " ++ file ++ lit " is owned by PID " ++
      (Number.ofNat owner.pid).text ++ lit ", runtime " ++ owner.runtimeId)
  Op.orThrow (call .mkdirReaper)
  (replaceLock file owner).andFinally (Op.orThrow (call .rmdirReaper))

theorem takeOver_eq : takeOver file = (do
    let owner ← readOwner file
    match owner.recovery? with
    | some reason =>
      throw (lit "CONTEXT_STORAGE_UNCERTAIN: " ++ reason.text ++ lit "; inspect " ++ lockPath file ++
        lit " manually")
    | none => retire file owner) := rfl

variable {P : Protocol Files Str Operation Call Call.Ret Str Status}

/-- The owner file is there and can be read. -/
theorem readOwner_execs (hP : ∀ s c r s', c.Blind → act n s c r s' → P.act n s c r s')
    (hruns : P.runs n s) {f : File} {owner : Owner} (hlock : s.lock = some d)
    (hentry : s.entry d = some f) (hread : ownerAt (lockPath file) (s.text f) = .ok owner) :
    P.Execs n (readOwner file).run s (.ok owner) s := by
  have hopen : P.Execs n (Op.orThrow (call .openOwner)).run s (.ok f) s :=
    .ask hruns (hP _ _ _ _ trivial (.inr ⟨d, f, hlock, hentry, rfl, rfl⟩)) .ret
  have hbytes : P.Execs n (Op.orThrow (call (.read f))).run s (.ok (s.text f)) s :=
    .ask hruns (hP _ _ _ _ trivial (.inr ⟨rfl, rfl⟩)) .ret
  refine hopen.exceptBind (hbytes.exceptBind ?_)
  rw [hread]
  exact .ret

/-- The files when the lease `n` has moved the lock `d` away and made the lock `d'`. -/
def Files.replaced (s : Files) (n : Str) (d d' : Dir) : Files :=
  { s.taken n d' with entry := update s.entry d none }

variable (file drawn) in
/-- The lock of a process that has crashed is moved away, and a new one takes its place. -/
theorem retire_execs (hlive : ¬ s.crashed (drawn n).1) {d d' : Dir} {f : File} {owner : Owner}
    (hlock : s.lock = some d) (hentry : s.entry d = some f)
    (hread : ownerAt (lockPath file) (s.text f) = .ok owner)
    (hdead : s.crashed owner.toProcessIdentity) (hreaper : s.reaper = none)
    (hretired : s.retired owner.nonce = none) (hd : s.maker d' = none) :
    (protocol file drawn).Execs n (retire file owner).run s (.ok ()) (s.replaced n d d') := by
  have hask : ∀ s : Files, s.crashed owner.toProcessIdentity → ¬ s.crashed (drawn n).1 →
      (protocol file drawn).Execs n (ExceptT.lift (call (.isDead owner)) : Op Bool).run s (.ok true) s :=
    fun s hdead hlive => .ask (r := true) hlive ⟨iff_of_true rfl hdead, rfl⟩ .ret
  have hmarker : (protocol file drawn).Execs n (Op.orThrow (call .mkdirReaper)).run s (.ok ())
      { s with reaper := some n } :=
    .ask hlive (r := .ok ()) (.inr (.inr ⟨hreaper, rfl, rfl⟩)) .ret
  have hrename : (protocol file drawn).Execs n (Op.orThrow (call (.renameLock owner.nonce))).run
      { s with reaper := some n } (.ok ()) { s with
        reaper := some n, lock := none, retired := update s.retired owner.nonce (some d) } :=
    .ask hlive (r := .ok ())
      (.inr ⟨d, hlock, fun e he => absurd (hretired.symm.trans he) (Option.some_ne_none e).symm, rfl, rfl⟩)
      .ret
  have hmkdir : (protocol file drawn).Execs n (Op.orThrow (call .mkdirLock)).run { s with
        reaper := some n, lock := none, retired := update s.retired owner.nonce (some d) } (.ok ())
      { s.taken n d' with
        reaper := some n, retired := update s.retired owner.nonce (some d) } :=
    .ask hlive (r := .ok ()) (.inr (.inr ⟨rfl, rfl, d', hd, rfl⟩)) .ret
  have hunlink : (protocol file drawn).Execs n (Op.orThrow (call (.unlinkRetired owner.nonce))).run
      { s.taken n d' with reaper := some n, retired := update s.retired owner.nonce (some d) } (.ok ())
      { s.replaced n d d' with reaper := some n, retired := update s.retired owner.nonce (some d) } :=
    .ask hlive (r := .ok ()) (.inr ⟨d, update_self .., rfl, rfl⟩) .ret
  have hrmdir : (protocol file drawn).Execs n (Op.orThrow (call (.rmdirRetired owner.nonce))).run
      { s.replaced n d d' with reaper := some n, retired := update s.retired owner.nonce (some d) }
      (.ok ()) { s.replaced n d d' with reaper := some n } := by
    have hnone : update (update s.retired owner.nonce (some d)) owner.nonce none = s.retired := by
      rw [update_idem, ← hretired, update_eq_self]
    refine .ask hlive (r := .ok ()) (.inr ⟨d, update_self .., update_self .., rfl, ?_⟩) .ret
    simp only [hnone]
    rfl
  have hunmark : (protocol file drawn).Execs n (Op.orThrow (call .rmdirReaper)).run
      { s.replaced n d d' with reaper := some n } (.ok ()) (s.replaced n d d') :=
    .ask hlive (r := .ok ()) (.inr ⟨Option.some_ne_none n, rfl, by rw [← hreaper]; rfl⟩) .ret
  have hreplace : (protocol file drawn).Execs n (replaceLock file owner).run
      { s with reaper := some n } (.ok ()) { s.replaced n d d' with reaper := some n } := by
    have hcurrent : (protocol file drawn).Execs n (readOwner file).run { s with reaper := some n }
        (.ok owner) { s with reaper := some n } :=
      readOwner_execs (fun _ _ _ _ _ h => h) hlive hlock hentry hread
    refine hcurrent.exceptBind ?_
    rw [if_neg (not_not_intro rfl)]
    exact (hask { s with reaper := some n } hdead hlive).exceptBind
      (hrename.exceptBind (hmkdir.exceptBind (hunlink.exceptBind hrmdir)))
  exact (hask s hdead hlive).exceptBind (hmarker.exceptBind (Protocol.Execs.bind hreplace
    (Protocol.Execs.bind hunmark .ret)))

variable (file drawn) in
/-- A session whose lock belongs to a process that has crashed can be acquired, unless the lock is
marked or another reaper has crashed. -/
theorem acquire_dead (hlive : ¬ s.crashed (drawn n).1) {d e : Dir} {f g : File} {owner : Owner}
    (hlock : s.lock = some d) (hentry : s.entry d = some f)
    (hread : ownerAt (lockPath file) (s.text f) = .ok owner) (hmark : owner.recovery? = none)
    (hdead : s.crashed owner.toProcessIdentity) (hreaper : s.reaper = none)
    (hretired : s.retired owner.nonce = none) (hd : s.maker e = none) (hnew : s.entry e = none)
    (hf : s.author g = none) :
    (protocol file drawn).Execs n (acquire file (drawn.owner n)).run s
      (.ok { owner := drawn.owner n, released := false })
      ((s.replaced n d e).written n e g (drawn.owner n).bytes) := by
  have hmkdir : (protocol file drawn).Execs n (ExceptT.lift (call .mkdirLock) : Op _).run s
      (.ok (.error ⟨true, lit "EEXIST"⟩)) s :=
    .ask hlive (r := .error ⟨true, lit "EEXIST"⟩)
      (.inr (.inl ⟨by rw [hlock]; exact Option.some_ne_none d, _, rfl, rfl, rfl⟩)) .ret
  have htake : (protocol file drawn).Execs n (takeOver file).run s (.ok ()) (s.replaced n d e) := by
    rw [takeOver_eq]
    refine (readOwner_execs (P := protocol file drawn) (fun _ _ _ _ _ h => h) hlive hlock hentry
      hread).exceptBind ?_
    simp only [hmark]
    exact retire_execs file drawn hlive hlock hentry hread hdead hreaper hretired hd
  have hempty : (s.replaced n d e).entry e = none := by
    by_cases hdd : e = d
    · simp [Files.replaced, hdd]
    · simpa [Files.replaced, hdd] using hnew
  exact hmkdir.exceptBind (htake.exceptBind
    (establish_execs file (s := s.replaced n d e) (drawn.owner n) hlive rfl hempty hf))

/-! ## The lock is exclusive -/

/-- In every run of any number of leases, at most one live process has an acquired, unreleased lease;
`assert` returns for that lease only; and a lock directory or its owner file is removed only by the
`release` of the lease that made the directory, or by an `acquire` when the owner file is complete and
names a process that has crashed. -/
theorem one_writer {w : Leases} (h : Reach file drawn w) :
    (∀ m n, Held drawn w m → Held drawn w n → m = n) ∧
    ∀ e w', (protocol file drawn).Step w e w' →
      (e.role = .assert → ∀ status, e.result = some (.ok status) →
        ∀ n, Held drawn w' n ↔ n = e.thread) ∧
      ∀ d, Removes w.shared w'.shared d →
        (e.role = .release ∧ w.shared.maker d = some e.thread) ∨
          (e.role = .acquire ∧ Abandoned file w.shared) := by
  refine ⟨fun m n hm hn => hm.unique h hn, fun e w' hstep => ⟨fun hrole status ha n => ?_,
    fun d hd => ?_⟩⟩
  · obtain ⟨hruns, hpost, hmemory⟩ := sound.returned h.good hstep ha
    obtain ⟨lease, rfl, hreleased⟩ := hpost.2 hrole status rfl
    have hheld : Held drawn w' e.thread :=
      ⟨fun hcrashed => hruns ?_, lease, hmemory, hreleased⟩
    · exact ⟨fun hn => hn.unique (h.step hstep) hheld, fun hn => hn ▸ hheld⟩
    · obtain heq | ⟨c, r, -, -, hact⟩ := h.good.guarded hstep
      · rwa [heq] at hcrashed
      · rwa [act_crashed hact] at hcrashed
  · obtain heq | ⟨c, r, -, hguard, hact⟩ := h.good.guarded hstep
    · exact (heq ▸ hd).irrefl.elim
    · rcases act_effect hact with heq | heffect
      · exact (heq ▸ hd).irrefl.elim
      · exact removes_of_effect h.good.inv hguard heffect hd

/-! ## A lock that is taken over -/

/-- No session is locked, and no process has crashed. -/
def unlocked : Leases where
  shared :=
    { lock := none, reaper := none, retired := fun _ => none, entry := fun _ => none
      text := fun _ => [], maker := fun _ => none, author := fun _ => none, crashed := fun _ => False }
  memory := fun _ => .fresh
  running := fun _ => none

theorem unlocked_initial : Initial unlocked :=
  ⟨rfl, rfl, fun _ => rfl, fun _ => ⟨rfl, rfl⟩, fun _ => rfl, fun _ => ⟨rfl, rfl⟩⟩

/-- The lease "a" and the others are in two processes. -/
def twoProcesses : Draws := fun n =>
  (⟨⟨if n = lit "a" then 1 else 2, by split <;> decide⟩, lit "1", lit "boot"⟩, lit "runtime")

/-- The lease "a" has the lock. -/
def lockedFiles : Files :=
  (unlocked.shared.taken (lit "a") 0).written (lit "a") 0 0 (twoProcesses.owner (lit "a")).bytes

theorem ownerAt_twoProcesses (n : Str) (hn : n ≠ []) (recovery : Option Json) (path : Str) :
    ownerAt path { twoProcesses.owner n with recoveryRequired := recovery }.bytes =
      .ok { twoProcesses.owner n with recoveryRequired := recovery.map Json.normal } :=
  @ownerAt_bytes path { twoProcesses.owner n with recoveryRequired := recovery }
    (by decide : lit "1" ≠ []) (by decide : lit "boot" ≠ []) (by decide : lit "runtime" ≠ []) hn

/-- The files that the lease "a" leaves when its process crashes. -/
def orphanedFiles : Files :=
  { lockedFiles with crashed := fun p => p = (twoProcesses (lit "a")).1 ∨ lockedFiles.crashed p }

/-- The lease "a" is acquired. -/
def acquiredWorld : Leases where
  shared := lockedFiles
  memory := update (fun _ => .fresh) (lit "a")
    (.lease { owner := twoProcesses.owner (lit "a"), released := false })
  running := fun _ => none

theorem acquiredWorld_moves :
    Relation.ReflTransGen (protocol (lit "session.jsonl") twoProcesses).Move unlocked acquiredWorld := by
  have hrun := (held_of_acquire (lit "session.jsonl") twoProcesses (w := unlocked) (fun h => h) rfl rfl
    (acquire_free _ _ (n := lit "a") (d := 0) (f := 0) (fun h => h) rfl rfl rfl rfl) (fun h => h)).1
  have hidle : update unlocked.running (lit "a") none = fun _ => none := update_eq_self _ _
  simp only [Protocol.settle, hidle] at hrun
  exact hrun

/-- The lease "b" has taken over the lock that the lease "a" has left behind. -/
theorem one_writer_takenOver : ∃ w, Reach (lit "session.jsonl") twoProcesses w ∧
    w.memory (lit "a") = .lease { owner := twoProcesses.owner (lit "a"), released := false } ∧
    Held twoProcesses w (lit "b") ∧ (∀ n, Held twoProcesses w n → n = lit "b") ∧
    ∀ e w', (protocol (lit "session.jsonl") twoProcesses).Step w e w' → ∀ d,
      Removes w.shared w'.shared d → (e.role = .release ∧ w.shared.maker d = some e.thread) ∨
        (e.role = .acquire ∧ Abandoned (lit "session.jsonl") w.shared) := by
  have hlive : ¬ orphanedFiles.crashed (twoProcesses (lit "b")).1 := by
    rintro (h | h)
    · exact absurd h (by decide)
    · exact h
  obtain ⟨hsecond, hheld⟩ := held_of_acquire (lit "session.jsonl") twoProcesses (n := lit "b")
    (w := { acquiredWorld with shared := orphanedFiles }) hlive rfl rfl
    (acquire_dead _ _ hlive (e := 1) (g := 1) rfl rfl
      (ownerAt_twoProcesses (lit "a") (by decide) none _) rfl (.inl rfl) rfl rfl rfl rfl rfl) hlive
  have hreach : Reach (lit "session.jsonl") twoProcesses _ :=
    ⟨unlocked, unlocked_initial,
      acquiredWorld_moves.trans (.head (.env ⟨(twoProcesses (lit "a")).1, rfl⟩) hsecond)⟩
  exact ⟨_, hreach, rfl, hheld, fun n hn => (one_writer hreach).1 n (lit "b") hn hheld,
    fun e w' hstep => ((one_writer hreach).2 e w' hstep).2⟩

end Lease
