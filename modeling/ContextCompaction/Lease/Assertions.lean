import ContextCompaction.Lease.Runtime

/-!
# What the leases rely on

The lock directory belongs to the lease that made it, and only that lease or a lease that has found
its owner dead removes it. While a lease lives, nobody finds its owner dead.

* `Inv`: what always holds of the files; `inv_act`: every guarded call keeps it.
* `allowed`: the guard of each call, by operation.
* `Effect`: what a call does to the files, if it does anything.
* `owns_stable`, `shows_stable`, …: what no other lease makes false.
-/

namespace Lease

open Js Interleaving Function

variable (file : Str) (drawn : Draws)

/-! ## Assertions -/

/-- The owner record names the lease and its process. -/
def Owner.Names (owner : Owner) (drawn : Draws) (n : Str) : Prop :=
  owner.nonce = n ∧ owner.toProcessIdentity = (drawn n).1

/-- Every owner file was made by the maker of its directory and holds a part of what that lease
writes; the paths lead to directories that somebody made. -/
structure Inv (s : Files) : Prop where
  entry_maker : ∀ d f, s.entry d = some f → ∃ n, s.maker d = some n ∧ s.author f = some n
  lock_maker : ∀ d, s.lock = some d → s.maker d ≠ none
  retired_maker : ∀ k d, s.retired k = some d → s.maker d ≠ none ∧ s.lock ≠ some d
  written : ∀ f n, s.author f = some n →
    ∃ owner : Owner, owner.Names drawn n ∧ s.text f <+: owner.bytes

/-- The lock directory is the one that the lease made. -/
def Owns (n : Str) (s : Files) : Prop := ∃ d, s.lock = some d ∧ s.maker d = some n

/-- The second marker is the one that the lease made. -/
def Marks (n : Str) (s : Files) : Prop := s.reaper = some n

/-- The process of the lease has crashed. -/
def Dead (k : Str) (s : Files) : Prop := s.crashed (drawn k).1

/-- The lock directory has a complete owner file, and the file names the lease `k`. -/
def Complete (k : Str) (s : Files) : Prop := ∃ d f owner, s.lock = some d ∧ s.entry d = some f ∧
  ownerAt (lockPath file) (s.text f) = .ok owner ∧ owner.nonce = k

/-- The lease writes the file `f`, and has written `bytes`. -/
def Wrote (n : Str) (f : File) (bytes : List UInt8) (s : Files) : Prop :=
  s.author f = some n ∧ s.text f = bytes

/-- The guard of each call. -/
def allowed (operation : Operation) (n : Str) (s : Files) : Call → Prop
  | .openOwner | .read _ => True
  | .mkdirLock | .mkdirReaper | .isDead _ | .unlinkRetired _ | .rmdirRetired _ =>
    operation = .acquire
  | .renameLock k => operation = .acquire ∧ Marks n s ∧ Dead drawn k s ∧ Complete file k s
  | .rmdirReaper => operation = .acquire ∧ Marks n s
  | .createOwner | .truncateOwner => Owns n s
  | .write f b => ∃ owner : Owner, owner.Names drawn n ∧ s.author f = some n ∧
      s.text f ++ [b] <+: owner.bytes
  | .unlinkOwner | .rmdirLock => operation = .release ∧ Owns n s

/-- An unreleased lease owns the lock. -/
def Holds (n : Str) : Status → Files → Prop
  | .lease lease, s => lease.owner.Names drawn n ∧ (lease.released = false → Owns n s)
  | _, _ => True

/-- The memory that a result leaves tells the truth, and `assert` returns from an unreleased lease
only. -/
def Returns (operation : Operation) (n : Str) (status : Status) (a : Except Str Status)
    (s : Files) : Prop :=
  Holds drawn n (after operation status a) s ∧ (operation = .assert → ∀ status', a = .ok status' →
    ∃ lease, status' = .lease lease ∧ lease.released = false)

def discipline : Discipline Files Str Operation Call Str Status where
  inv := Inv drawn
  guard := allowed file drawn
  holds := Holds drawn
  post := Returns drawn

/-- What a call does to the files, if it does anything. -/
inductive Effect (n : Str) (s : Files) : Call → Files → Prop
  | mkdirLock {d} (hlock : s.lock = none) (hd : s.maker d = none) :
    Effect n s .mkdirLock { s with lock := some d, maker := update s.maker d (some n) }
  | mkdirReaper (hreaper : s.reaper = none) : Effect n s .mkdirReaper { s with reaper := some n }
  | renameLock {k d} (hlock : s.lock = some d) :
    Effect n s (.renameLock k) { s with lock := none, retired := update s.retired k (some d) }
  | unlinkRetired {k d} (hd : s.retired k = some d) :
    Effect n s (.unlinkRetired k) { s with entry := update s.entry d none }
  | rmdirRetired {k} : Effect n s (.rmdirRetired k) { s with retired := update s.retired k none }
  | rmdirReaper : Effect n s .rmdirReaper { s with reaper := none }
  | createOwner {d f} (hlock : s.lock = some d) (hd : s.entry d = none) (hf : s.author f = none) :
    Effect n s .createOwner (s.create n d f)
  | truncateNew {d f} (hlock : s.lock = some d) (hd : s.entry d = none) (hf : s.author f = none) :
    Effect n s .truncateOwner (s.create n d f)
  | truncateOwner {d f} (hlock : s.lock = some d) (hd : s.entry d = some f) :
    Effect n s .truncateOwner { s with text := update s.text f [] }
  | write {f b} : Effect n s (.write f b) { s with text := update s.text f (s.text f ++ [b]) }
  | unlinkOwner {d} (hlock : s.lock = some d) :
    Effect n s .unlinkOwner { s with entry := update s.entry d none }
  | rmdirLock {d} (hlock : s.lock = some d) : Effect n s .rmdirLock { s with lock := none }

variable {file drawn} {s s' : Files} {n u k : Str} {operation : Operation} {c : Call} {r : c.Ret}

theorem Fails.eq {α : Type} {r : Except SystemError α} (h : Fails s r s') : s' = s := by
  obtain ⟨e, -, -, h⟩ := h
  exact h

theorem Exists.eq {α : Type} {r : Except SystemError α} (h : Exists s r s') : s' = s := by
  obtain ⟨e, -, -, h⟩ := h
  exact h

/-- A call leaves the files or has its effect. -/
theorem act_effect (h : act n s c r s') : s' = s ∨ Effect n s c s' := by
  cases c with
  | mkdirLock =>
    obtain h | ⟨-, h⟩ | ⟨hlock, -, d, hd, rfl⟩ := h
    · exact .inl h.eq
    · exact .inl h.eq
    · exact .inr (.mkdirLock hlock hd)
  | mkdirReaper =>
    obtain h | ⟨-, h⟩ | ⟨hreaper, -, rfl⟩ := h
    · exact .inl h.eq
    · exact .inl h.eq
    · exact .inr (.mkdirReaper hreaper)
  | openOwner =>
    obtain h | ⟨d, f, -, -, -, h⟩ := h
    · exact .inl h.eq
    · exact .inl h
  | read f =>
    obtain h | ⟨-, h⟩ := h
    · exact .inl h.eq
    · exact .inl h
  | isDead owner => exact .inl h.2
  | renameLock k =>
    obtain h | ⟨d, hlock, -, -, rfl⟩ := h
    · exact .inl h.eq
    · exact .inr (.renameLock hlock)
  | unlinkRetired k =>
    obtain h | ⟨d, hd, -, rfl⟩ := h
    · exact .inl h.eq
    · exact .inr (.unlinkRetired hd)
  | rmdirRetired k =>
    obtain h | ⟨d, -, -, -, rfl⟩ := h
    · exact .inl h.eq
    · exact .inr .rmdirRetired
  | rmdirReaper =>
    obtain h | ⟨-, -, rfl⟩ := h
    · exact .inl h.eq
    · exact .inr .rmdirReaper
  | createOwner =>
    obtain h | ⟨d, -, -, h⟩ | ⟨d, f, hlock, hd, hf, -, rfl⟩ := h
    · exact .inl h.eq
    · exact .inl h.eq
    · exact .inr (.createOwner hlock hd hf)
  | truncateOwner =>
    obtain h | ⟨d, f, hlock, hd, -, rfl⟩ | ⟨d, f, hlock, hd, hf, -, rfl⟩ := h
    · exact .inl h.eq
    · exact .inr (.truncateOwner hlock hd)
    · exact .inr (.truncateNew hlock hd hf)
  | write f b =>
    obtain h | ⟨-, rfl⟩ := h
    · exact .inl h.eq
    · exact .inr .write
  | unlinkOwner =>
    obtain h | ⟨d, hlock, -, rfl⟩ := h
    · exact .inl h.eq
    · exact .inr (.unlinkOwner hlock)
  | rmdirLock =>
    obtain h | ⟨d, hlock, -, -, rfl⟩ := h
    · exact .inl h.eq
    · exact .inr (.rmdirLock hlock)

/-! ## The invariant -/

/-- An owner file that can be read names its author. -/
theorem Inv.author_of_ownerAt (h : Inv drawn s) {f : File} {owner : Owner} {path : Str}
    (hf : s.author f = some n) (hread : ownerAt path (s.text f) = .ok owner) :
    owner.Names drawn n := by
  obtain ⟨o, ⟨hn, hp⟩, hprefix⟩ := h.written f n hf
  obtain ⟨h1, h2, -⟩ := ownerAt_of_prefix hprefix hread
  exact ⟨h1.trans hn, h2.trans hp⟩

/-- A complete lock was made by the lease that it names. -/
theorem Inv.maker_of_complete (h : Inv drawn s) (hc : Complete file k s) : Owns k s := by
  obtain ⟨d, f, owner, hlock, hentry, hread, rfl⟩ := hc
  obtain ⟨m, hm, hauthor⟩ := h.entry_maker d f hentry
  obtain ⟨hname, -⟩ := h.author_of_ownerAt hauthor hread
  exact ⟨d, hlock, by rw [hname, hm]⟩

theorem Owns.unique (hn : Owns n s) (hu : Owns u s) : n = u := by
  obtain ⟨d, hd, hm⟩ := hn
  obtain ⟨e, he, hm'⟩ := hu
  obtain rfl := Option.some.inj (hd.symm.trans he)
  exact Option.some.inj (hm.symm.trans hm')

/-- A new directory with a new file keeps the invariant. -/
private theorem inv_create (h : Inv drawn s) {d : Dir} {f : File} (hd : s.maker d = some n)
    (hf : s.author f = none) : Inv drawn (s.create n d f) := by
  constructor
  · intro e g hg
    by_cases he : e = d
    · subst he
      obtain rfl : f = g := by simpa [Files.create] using hg
      exact ⟨n, hd, by simp [Files.create]⟩
    · obtain ⟨m, hm, ha⟩ := h.entry_maker e g (by simpa [Files.create, he] using hg)
      have hne : g ≠ f := by
        rintro rfl
        rw [hf] at ha
        cases ha
      exact ⟨m, hm, by simpa [Files.create, hne] using ha⟩
  · exact h.lock_maker
  · exact h.retired_maker
  · intro g m hm
    by_cases hg : g = f
    · subst hg
      obtain rfl : n = m := by simpa [Files.create] using hm
      refine ⟨drawn.owner n, ⟨rfl, rfl⟩, ?_⟩
      simp [Files.create]
    · obtain ⟨o, ho, hprefix⟩ := h.written g m (by simpa [Files.create, hg] using hm)
      exact ⟨o, ho, by simpa [Files.create, hg] using hprefix⟩

private theorem Inv.unlink (h : Inv drawn s) (d : Dir) :
    Inv drawn { s with entry := update s.entry d none } := by
  refine ⟨fun e f hf => ?_, h.lock_maker, h.retired_maker, h.written⟩
  by_cases he : e = d
  · subst he
    simp at hf
  · exact h.entry_maker e f (by simpa [he] using hf)

private theorem Inv.setText (h : Inv drawn s) {f : File} {bytes : List UInt8}
    (hb : ∀ m, s.author f = some m →
      ∃ owner : Owner, owner.Names drawn m ∧ bytes <+: owner.bytes) :
    Inv drawn { s with text := update s.text f bytes } := by
  refine ⟨h.entry_maker, h.lock_maker, h.retired_maker, fun g m hm => ?_⟩
  by_cases hg : g = f
  · subst hg
    obtain ⟨o, ho, hprefix⟩ := hb m hm
    exact ⟨o, ho, by simpa using hprefix⟩
  · obtain ⟨o, ho, hprefix⟩ := h.written g m hm
    exact ⟨o, ho, by simpa [hg] using hprefix⟩

/-- A guarded call keeps the invariant. -/
theorem inv_act (h : Inv drawn s) (hguard : allowed file drawn operation n s c)
    (hact : act n s c r s') : Inv drawn s' := by
  rcases act_effect hact with rfl | heffect
  · exact h
  cases heffect with
  | @mkdirLock d hlock hd =>
    have hne : ∀ e, s.maker e ≠ none → e ≠ d := fun e he heq => he (heq ▸ hd)
    refine ⟨fun e f hf => ?_, fun e he => ?_, fun k e he => ?_, h.written⟩
    · obtain ⟨m, hm, ha⟩ := h.entry_maker e f hf
      exact ⟨m, by simpa [hne e (by simp [hm])] using hm, ha⟩
    · obtain rfl : d = e := by simpa using he
      simp
    · obtain ⟨hm, -⟩ := h.retired_maker k e he
      exact ⟨by simpa [hne e hm] using hm, fun heq => hne e hm (Option.some.inj heq).symm⟩
  | mkdirReaper => exact ⟨h.entry_maker, h.lock_maker, h.retired_maker, h.written⟩
  | @renameLock k d hlock =>
    refine ⟨h.entry_maker, fun e he => (nomatch he), fun j e he => ⟨?_, fun heq => nomatch heq⟩,
      h.written⟩
    by_cases hj : j = k
    · subst hj
      obtain rfl : d = e := by simpa using he
      exact h.lock_maker d hlock
    · exact (h.retired_maker j e (by simpa [hj] using he)).1
  | @unlinkRetired k d hd => exact h.unlink d
  | @rmdirRetired k =>
    refine ⟨h.entry_maker, h.lock_maker, fun j e he => ?_, h.written⟩
    by_cases hj : j = k
    · subst hj
      simp at he
    · exact h.retired_maker j e (by simpa [hj] using he)
  | rmdirReaper => exact ⟨h.entry_maker, h.lock_maker, h.retired_maker, h.written⟩
  | @createOwner d f hlock hd hf =>
    obtain ⟨e, he, hm⟩ := hguard
    obtain rfl := Option.some.inj (hlock.symm.trans he)
    exact inv_create h hm hf
  | @truncateNew d f hlock hd hf =>
    obtain ⟨e, he, hm⟩ := hguard
    obtain rfl := Option.some.inj (hlock.symm.trans he)
    exact inv_create h hm hf
  | @truncateOwner d f hlock hd =>
    refine h.setText fun m hm => ?_
    obtain ⟨o, ho, -⟩ := h.written f m hm
    exact ⟨o, ho, List.nil_prefix⟩
  | @write f b =>
    obtain ⟨o, ho, hauthor, hprefix⟩ := hguard
    refine h.setText fun m hm => ?_
    obtain rfl := Option.some.inj (hauthor.symm.trans hm)
    exact ⟨o, ho, hprefix⟩
  | @unlinkOwner d hlock => exact h.unlink d
  | @rmdirLock d hlock =>
    exact ⟨h.entry_maker, fun e he => (nomatch he),
      fun k e he => ⟨(h.retired_maker k e he).1, fun heq => nomatch heq⟩, h.written⟩

/-! ## What the others leave alone -/

theorem act_crashed (h : act n s c r s') : s'.crashed = s.crashed := by
  rcases act_effect h with rfl | h
  · rfl
  · cases h <;> rfl

variable (file) in
/-- Beside a stable assertion, one that no crash and no guarded call of another lease makes
false. -/
theorem stable_beside {A B : Files → Prop}
    (hB : Stable (protocol file drawn) (discipline file drawn) n B)
    (hcrash : ∀ s s', crash s s' → A s → A s')
    (hact : ∀ s s' u operation c, Inv drawn s → ¬ s.crashed (drawn n).1 → u ≠ n →
      ¬ s.crashed (drawn u).1 → allowed file drawn operation u s c → Effect u s c s' →
      B s → A s → A s') :
    Stable (protocol file drawn) (discipline file drawn) n fun s => B s ∧ A s := by
  rintro s s' hrely ⟨hBs, hA⟩
  refine ⟨hB s s' hrely hBs, ?_⟩
  obtain ⟨hinv, -, hruns, hcase⟩ := hrely
  obtain hc | ⟨u, operation, c, r, hne, hu, hguard, hstep⟩ := hcase
  · exact hcrash s s' hc hA
  rcases act_effect hstep with rfl | heffect
  · exact hA
  · refine hact s s' u operation c hinv (fun hn => hruns ?_) hne hu hguard heffect hBs hA
    rwa [act_crashed hstep]

variable (file) in
theorem stable_of {A : Files → Prop} (hcrash : ∀ s s', crash s s' → A s → A s')
    (hact : ∀ s s' u operation c, Inv drawn s → ¬ s.crashed (drawn n).1 → u ≠ n →
      ¬ s.crashed (drawn u).1 → allowed file drawn operation u s c → Effect u s c s' → A s → A s') :
    Stable (protocol file drawn) (discipline file drawn) n A := by
  have h := stable_beside file (B := fun _ => True) (.const True) hcrash
    fun s s' u operation c hinv hn hne hu hguard h _ => hact s s' u operation c hinv hn hne hu hguard h
  exact fun s s' hrely hA => (h s s' hrely ⟨trivial, hA⟩).2

/-- A lease that lives is not found dead, so its lock stays. -/
theorem owns_stable : Stable (protocol file drawn) (discipline file drawn) n (Owns n) := by
  refine stable_of file (fun s s' h hA => ?_) fun s s' u operation c hinv hn hne hu hguard h hA => ?_
  · obtain ⟨p, rfl⟩ := h
    exact hA
  have hlock : s.lock ≠ none := by
    obtain ⟨d, hd, -⟩ := hA
    simp [hd]
  cases h with
  | mkdirLock hnone => exact absurd hnone hlock
  | renameLock =>
    obtain ⟨-, -, hdead, hcomplete⟩ := hguard
    obtain rfl := (hinv.maker_of_complete hcomplete).unique hA
    exact absurd hdead hn
  | rmdirLock => exact absurd (hguard.2.unique hA) hne
  | _ => exact hA

theorem marks_stable : Stable (protocol file drawn) (discipline file drawn) n (Marks n) := by
  refine stable_of file (fun s s' h hA => ?_) fun s s' u operation c hinv hn hne hu hguard h hA => ?_
  · obtain ⟨p, rfl⟩ := h
    exact hA
  cases h with
  | mkdirReaper hnone => exact nomatch hnone.symm.trans hA
  | rmdirReaper => exact absurd (Option.some.inj (hguard.2.symm.trans hA)) hne
  | _ => exact hA

theorem dead_stable : Stable (protocol file drawn) (discipline file drawn) n (Dead drawn k) := by
  refine stable_of file (fun s s' h hA => ?_) fun s s' u operation c hinv hn hne hu hguard h hA => ?_
  · obtain ⟨p, rfl⟩ := h
    exact .inr hA
  · have hcrashed : s'.crashed = s.crashed := by cases h <;> rfl
    unfold Dead
    rwa [hcrashed]

/-- A file keeps its author. -/
theorem Effect.author {f : File} (h : Effect n s c s') (hf : s.author f = some k) :
    s'.author f = some k := by
  have hnew : ∀ g, s.author g = none → f ≠ g := by
    rintro g hg rfl
    exact nomatch hg.symm.trans hf
  cases h with
  | createOwner _ _ hg => simpa [Files.create, hnew _ hg] using hf
  | truncateNew _ _ hg => simpa [Files.create, hnew _ hg] using hf
  | _ => exact hf

theorem author_stable {f : File} :
    Stable (protocol file drawn) (discipline file drawn) n fun s => ∃ m, s.author f = some m := by
  refine stable_of file (fun s s' h hA => ?_) fun s s' u operation c _ _ _ _ _ h hA => ?_
  · obtain ⟨p, rfl⟩ := h
    exact hA
  · obtain ⟨m, hm⟩ := hA
    exact ⟨m, h.author hm⟩

/-- Nobody else makes a file of the lease. -/
theorem Effect.author_of {f : File} (h : Effect u s c s') (hne : u ≠ n)
    (hf : s'.author f = some n) : s.author f = some n := by
  have hold : ∀ g, update s.author g (some u) f = some n → s.author f = some n := by
    intro g hg
    by_cases hfg : f = g
    · subst hfg
      rw [update_self] at hg
      exact absurd (Option.some.inj hg) hne
    · rwa [update_of_ne hfg] at hg
  cases h with
  | @createOwner d g => exact hold g hf
  | @truncateNew d g => exact hold g hf
  | _ => exact hf

/-- Nobody else writes to a file of the lease. -/
theorem text_other {f : File} (hinv : Inv drawn s) (hne : u ≠ n)
    (hguard : allowed file drawn operation u s c) (h : Effect u s c s') (hf : s.author f = some n) :
    s'.text f = s.text f := by
  have hnew : ∀ g, s.author g = none → f ≠ g := by
    rintro g hg rfl
    exact nomatch hg.symm.trans hf
  have hother : ∀ g, s.author g = some u → f ≠ g := by
    rintro g hg rfl
    exact hne (Option.some.inj (hg.symm.trans hf))
  cases h with
  | createOwner _ _ hg => simp [Files.create, hnew _ hg]
  | truncateNew _ _ hg => simp [Files.create, hnew _ hg]
  | @truncateOwner d g hlock hd =>
    obtain ⟨e, he, hm⟩ := hguard
    obtain rfl := Option.some.inj (hlock.symm.trans he)
    obtain ⟨m, hm', hg⟩ := hinv.entry_maker d g hd
    simp [hother g (by rw [hg, ← hm', hm])]
  | @write g b =>
    obtain ⟨-, -, hg, -⟩ := hguard
    simp [hother g hg]
  | _ => rfl

theorem wrote_stable {f : File} {bytes : List UInt8} :
    Stable (protocol file drawn) (discipline file drawn) n (Wrote n f bytes) := by
  refine stable_of file (fun s s' h hA => ?_) fun s s' u operation c hinv hn hne hu hguard h hA => ?_
  · obtain ⟨p, rfl⟩ := h
    exact hA
  · obtain ⟨hauthor, htext⟩ := hA
    exact ⟨h.author hauthor, (text_other hinv hne hguard h hauthor).trans htext⟩

/-- Under the second marker, the lock of a dead lease stays where it is, with the file in it. -/
private theorem dead_lock_kept (hinv : Inv drawn s) (hne : u ≠ n) (hu : ¬ s.crashed (drawn u).1)
    (hguard : allowed file drawn operation u s c) (h : Effect u s c s') (hmark : Marks n s)
    (hdead : Dead drawn k s) {d : Dir} {f : File} (hlock : s.lock = some d)
    (hentry : s.entry d = some f) (hauthor : s.author f = some k) :
    s'.lock = some d ∧ s'.entry d = some f ∧ s'.text f = s.text f := by
  obtain ⟨m, hm, ha⟩ := hinv.entry_maker d f hentry
  obtain rfl : k = m := Option.some.inj (hauthor.symm.trans ha)
  -- Nobody who runs owns the lock or writes its file: the lease that does is dead.
  have howner : Owns u s → False := by
    rintro ⟨e, he, hmaker⟩
    obtain rfl := Option.some.inj (hlock.symm.trans he)
    obtain rfl := Option.some.inj (hm.symm.trans hmaker)
    exact hu hdead
  cases h with
  | mkdirLock hnone => exact nomatch hnone.symm.trans hlock
  | renameLock => exact absurd (Option.some.inj (hguard.2.1.symm.trans hmark)) hne
  | @unlinkRetired j e he =>
    have hde : d ≠ e := by
      rintro rfl
      exact (hinv.retired_maker j d he).2 hlock
    exact ⟨hlock, by simpa [hde] using hentry, rfl⟩
  | createOwner => exact (howner hguard).elim
  | truncateNew => exact (howner hguard).elim
  | truncateOwner => exact (howner hguard).elim
  | @write g b =>
    obtain ⟨-, -, hg, -⟩ := hguard
    have hfg : f ≠ g := by
      rintro rfl
      obtain rfl := Option.some.inj (hg.symm.trans hauthor)
      exact hu hdead
    exact ⟨hlock, hentry, by simp [hfg]⟩
  | unlinkOwner => exact (howner hguard.2).elim
  | rmdirLock => exact (howner hguard.2).elim
  | _ => exact ⟨hlock, hentry, rfl⟩

/-- The assertion of a lease that has made the second marker for a dead owner. -/
def Reaping (drawn : Draws) (n k : Str) (s : Files) : Prop := Marks n s ∧ Dead drawn k s

theorem reaping_stable :
    Stable (protocol file drawn) (discipline file drawn) n (Reaping drawn n k) :=
  marks_stable.and dead_stable

/-- The file `f` has an author, and if that is the lease `k`, then `f` is the owner file of the
lock. -/
def Opened (k : Str) (f : File) (s : Files) : Prop :=
  ∃ m, s.author f = some m ∧ (m = k → ∃ d, s.lock = some d ∧ s.entry d = some f)

theorem opened_stable {f : File} : Stable (protocol file drawn) (discipline file drawn) n fun s =>
    Reaping drawn n k s ∧ Opened k f s := by
  refine stable_beside file reaping_stable (fun s s' h hA => ?_)
    fun s s' u operation c hinv hn hne hu hguard h hB hA => ?_
  · obtain ⟨p, rfl⟩ := h
    exact hA
  · obtain ⟨m, hm, hfound⟩ := hA
    refine ⟨m, h.author hm, ?_⟩
    rintro rfl
    obtain ⟨d, hlock, hentry⟩ := hfound rfl
    obtain ⟨hlock', hentry', -⟩ :=
      dead_lock_kept hinv hne hu hguard h hB.1 hB.2 hlock hentry hm
    exact ⟨d, hlock', hentry'⟩

/-- The lock directory has this owner record. -/
def Shows (file : Str) (owner : Owner) (s : Files) : Prop := ∃ d f, s.lock = some d ∧
  s.entry d = some f ∧ ownerAt (lockPath file) (s.text f) = .ok owner

theorem Shows.complete {owner : Owner} (h : Shows file owner s) : Complete file owner.nonce s := by
  obtain ⟨d, f, hlock, hentry, hread⟩ := h
  exact ⟨d, f, owner, hlock, hentry, hread, rfl⟩

theorem shows_stable {owner : Owner} :
    Stable (protocol file drawn) (discipline file drawn) n fun s =>
      Reaping drawn n owner.nonce s ∧ Shows file owner s := by
  refine stable_beside file reaping_stable (fun s s' h hA => ?_)
    fun s s' u operation c hinv hn hne hu hguard h hB hA => ?_
  · obtain ⟨p, rfl⟩ := h
    exact hA
  · obtain ⟨d, f, hlock, hentry, hread⟩ := hA
    obtain ⟨m, -, hauthor⟩ := hinv.entry_maker d f hentry
    obtain ⟨hname, -⟩ := hinv.author_of_ownerAt hauthor hread
    obtain ⟨hlock', hentry', htext⟩ :=
      dead_lock_kept hinv hne hu hguard h hB.1 hB.2 hlock hentry (by rw [hauthor, hname])
    exact ⟨d, f, hlock', hentry', by rwa [htext]⟩

end Lease
