import ContextCompaction.Interleaving.Scripts
import ContextCompaction.Lease.Owner

/-!
# The writer lease of a session

The operations of a lease as scripts of filesystem calls, for one canonical session file. Each call
resolves its path when it is made. A recursive removal deletes the owner file and then the
directory; `owner.json` is short and is read by one call, but its writer may stop after any byte.

* `acquire`, `assert`, `release`, `requireRecovery`: the operations.
* `act`: what a call does to the files. Any call may fail and leave them alone.
* `protocol`: any number of leases, one for each nonce, in processes that may crash.
-/

namespace Lease

open Js Interleaving Function

/-! ## Filesystem calls -/

abbrev Dir := Nat

abbrev File := Nat

/-- An error of the filesystem: whether its code is `EEXIST`, and its message. -/
structure SystemError where
  eexist : Bool
  message : Str

inductive Call where
  | mkdirLock
  | mkdirReaper
  | openOwner
  | read (file : File)
  | isDead (owner : Owner)
  | renameLock (nonce : Str)
  | unlinkRetired (nonce : Str)
  | rmdirRetired (nonce : Str)
  | rmdirReaper
  | createOwner
  | truncateOwner
  | write (file : File) (byte : UInt8)
  | unlinkOwner
  | rmdirLock

abbrev Call.Ret : Call → Type
  | openOwner | createOwner | truncateOwner => Except SystemError File
  | read _ => Except SystemError (List UInt8)
  | isDead _ => Bool
  | _ => Except SystemError Unit

/-- An operation: filesystem calls that end with a value or a thrown message. -/
abbrev Op (α : Type) := ExceptT Str (Script Call Call.Ret) α

/-- A single call. -/
def call (c : Call) : Script Call Call.Ret c.Ret := Script.call c

namespace Op

variable {α : Type}

/-- A call whose error is thrown. -/
def orThrow (m : Script Call Call.Ret (Except SystemError α)) : Op α :=
  ExceptT.mk (m.bind fun r => .ret (r.mapError (·.message)))

/-- `try { … } catch { throw new Error(message) }`. -/
def replaceError (m : Op α) (message : Str) : Op α :=
  ExceptT.mk (m.run.bind fun r => .ret (r.mapError fun _ => message))

/-- `try { … } finally { … }`: an error of the last part replaces the outcome of the first. -/
def andFinally (m : Op α) (f : Op Unit) : Op α :=
  ExceptT.mk (m.run.bind fun r => f.run.bind fun
    | .ok () => .ret r
    | .error e => .ret (.error e))

end Op

/-! ## The operations -/

section Operations

/-- `if (value)`. -/
def truthy : Json → Bool
  | .null => false
  | .bool b => b
  | .num .nan => false
  | .num x => !x.isZero
  | .str s => s ≠ []
  | .arr _ => true
  | .obj _ => true

/-- The reason why a lock has to be inspected, if there is one. -/
def Owner.recovery? (owner : Owner) : Option Json := owner.recoveryRequired.filter truthy

/-- A lease that `acquire` has returned. -/
structure SessionLease where
  owner : Owner
  released : Bool

variable (file : Str)

def lockPath : Str := file ++ lit ".context.lock"

/-- `ownerAt(lockPath)`. -/
def readOwner : Op Owner := do
  let handle ← Op.orThrow (call .openOwner)
  let bytes ← Op.orThrow (call (.read handle))
  match ownerAt (lockPath file) bytes with
  | .ok owner => pure owner
  | .error e => throw e

/-- The bytes of a file, one after the other. -/
def writeBytes (handle : File) : List UInt8 → Op Unit
  | [] => pure ()
  | b :: bytes => do
    Op.orThrow (call (.write handle b))
    writeBytes handle bytes

/-- `writeFileSync(join(lockPath, "owner.json"), JSON.stringify(owner))`, from the call that opens the
file on. -/
def writeOwner (opened : Script Call Call.Ret (Except SystemError File)) (owner : Owner) : Op Unit := do
  let handle ← Op.orThrow opened
  writeBytes handle owner.bytes

/-- `rmSync(retired, { recursive: true })`. -/
def removeRetired (nonce : Str) : Op Unit := do
  Op.orThrow (call (.unlinkRetired nonce))
  Op.orThrow (call (.rmdirRetired nonce))

/-- What `acquire` does under the second marker: the lock of a dead owner is moved away, and a new
one takes its place. -/
def replaceLock (owner : Owner) : Op Unit := do
  let current ← readOwner file
  if current.nonce ≠ owner.nonce then throw (lit "CONTEXT_LOCK_CHANGED: retry acquisition")
  if !(← call (.isDead current)) then throw (lit "CONTEXT_LOCK_CHANGED: retry acquisition")
  Op.orThrow (call (.renameLock owner.nonce))
  Op.orThrow (call .mkdirLock)
  removeRetired owner.nonce

/-- What `acquire` does when the lock exists. -/
def takeOver : Op Unit := do
  let owner ← readOwner file
  match owner.recovery? with
  | some reason =>
    throw (lit "CONTEXT_STORAGE_UNCERTAIN: " ++ reason.text ++ lit "; inspect " ++ lockPath file ++
      lit " manually")
  | none =>
    if !(← call (.isDead owner)) then
      throw (lit "CONTEXT_LOCKED: " ++ file ++ lit " is owned by PID " ++
        (Number.ofNat owner.pid).text ++ lit ", runtime " ++ owner.runtimeId)
    -- A crashed reaper leaves this marker for inspection: nobody takes it over.
    Op.orThrow (call .mkdirReaper)
    (replaceLock file owner).andFinally (Op.orThrow (call .rmdirReaper))

/-- What `acquire` does when it has made the lock. -/
def establish (owner : Owner) : Op SessionLease := do
  (writeOwner (call .createOwner) owner).replaceError
    (lit "CONTEXT_LOCK_UNKNOWN: could not initialize " ++ lockPath file)
  pure { owner, released := false }

/-- `SessionLease.acquire`, for the owner that the new lease writes. -/
def acquire (owner : Owner) : Op SessionLease := do
  match ← call .mkdirLock with
  | .ok () => establish file owner
  | .error e =>
    if e.eexist then
      takeOver file
      establish file owner
    else throw e.message

/-- `assert()`. -/
def assert (lease : SessionLease) : Op Unit := do
  if lease.released then throw (lit "CONTEXT_LOCK_CLOSED: session storage is closed")
  let current ← readOwner file
  if current.nonce ≠ lease.owner.nonce ∨ current.runtimeId ≠ lease.owner.runtimeId ∨
      current.toProcessIdentity ≠ lease.owner.toProcessIdentity then
    throw (lit "CONTEXT_LOCK_LOST: " ++ file)

/-- `release()`. -/
def release (lease : SessionLease) : Op SessionLease :=
  if lease.released ∨ lease.owner.recovery?.isSome then pure lease
  else do
    assert file lease
    Op.orThrow (call .unlinkOwner)
    Op.orThrow (call .rmdirLock)
    pure { lease with released := true }

/-- `requireRecovery(reason)`: an error leaves incomplete metadata, which needs inspection too. -/
def requireRecovery (reason : Str) (lease : SessionLease) : Op SessionLease :=
  let owner := { lease.owner with recoveryRequired := some (.str reason) }
  ExceptT.mk ((writeOwner (call .truncateOwner) owner).run.bind fun _ =>
    .ret (.ok { lease with owner }))

end Operations

/-! ## The files -/

/-- The lock's paths and the files under them, with the processes that have crashed. Each directory
and each owner file remembers the lease that made it, and so does the second marker. -/
structure Files where
  lock : Option Dir
  reaper : Option Str
  retired : Str → Option Dir
  entry : Dir → Option File
  text : File → List UInt8
  maker : Dir → Option Str
  author : File → Option Str
  crashed : ProcessIdentity → Prop

/-- A call that fails leaves the files. -/
def Fails {α : Type} (s : Files) (r : Except SystemError α) (s' : Files) : Prop :=
  ∃ e, e.eexist = false ∧ r = .error e ∧ s' = s

/-- A call that fails since its path exists. -/
def Exists {α : Type} (s : Files) (r : Except SystemError α) (s' : Files) : Prop :=
  ∃ e, e.eexist = true ∧ r = .error e ∧ s' = s

/-- The directory `d` gets the new owner file `f`. -/
def Files.create (s : Files) (n : Str) (d : Dir) (f : File) : Files :=
  { s with entry := update s.entry d (some f), author := update s.author f (some n)
           text := update s.text f [] }

/-- What a call of the lease `n` does. A new directory or file is one that nobody has made yet. -/
def act (n : Str) (s : Files) : (c : Call) → c.Ret → Files → Prop
  | .mkdirLock, r, s' => Fails s r s' ∨ (s.lock ≠ none ∧ Exists s r s') ∨
      (s.lock = none ∧ r = .ok () ∧ ∃ d, s.maker d = none ∧
        s' = { s with lock := some d, maker := update s.maker d (some n) })
  | .mkdirReaper, r, s' => Fails s r s' ∨ (s.reaper ≠ none ∧ Exists s r s') ∨
      (s.reaper = none ∧ r = .ok () ∧ s' = { s with reaper := some n })
  | .openOwner, r, s' => Fails s r s' ∨
      ∃ d f, s.lock = some d ∧ s.entry d = some f ∧ r = .ok f ∧ s' = s
  | .read f, r, s' => Fails s r s' ∨ (r = .ok (s.text f) ∧ s' = s)
  | .isDead owner, r, s' => (r = true ↔ s.crashed owner.toProcessIdentity) ∧ s' = s
  | .renameLock k, r, s' => Fails s r s' ∨
      ∃ d, s.lock = some d ∧ (∀ e, s.retired k = some e → s.entry e = none) ∧ r = .ok () ∧
        s' = { s with lock := none, retired := update s.retired k (some d) }
  | .unlinkRetired k, r, s' => Fails s r s' ∨
      ∃ d, s.retired k = some d ∧ r = .ok () ∧ s' = { s with entry := update s.entry d none }
  | .rmdirRetired k, r, s' => Fails s r s' ∨
      ∃ d, s.retired k = some d ∧ s.entry d = none ∧ r = .ok () ∧
        s' = { s with retired := update s.retired k none }
  | .rmdirReaper, r, s' => Fails s r s' ∨
      (s.reaper ≠ none ∧ r = .ok () ∧ s' = { s with reaper := none })
  | .createOwner, r, s' => Fails s r s' ∨ (∃ d, s.lock = some d ∧ s.entry d ≠ none ∧ Exists s r s') ∨
      ∃ d f, s.lock = some d ∧ s.entry d = none ∧ s.author f = none ∧ r = .ok f ∧ s' = s.create n d f
  | .truncateOwner, r, s' => Fails s r s' ∨
      (∃ d f, s.lock = some d ∧ s.entry d = some f ∧ r = .ok f ∧
        s' = { s with text := update s.text f [] }) ∨
      ∃ d f, s.lock = some d ∧ s.entry d = none ∧ s.author f = none ∧ r = .ok f ∧ s' = s.create n d f
  | .write f b, r, s' => Fails s r s' ∨
      (r = .ok () ∧ s' = { s with text := update s.text f (s.text f ++ [b]) })
  | .unlinkOwner, r, s' => Fails s r s' ∨
      ∃ d, s.lock = some d ∧ r = .ok () ∧ s' = { s with entry := update s.entry d none }
  | .rmdirLock, r, s' => Fails s r s' ∨
      ∃ d, s.lock = some d ∧ s.entry d = none ∧ r = .ok () ∧ s' = { s with lock := none }

/-- A process crashes between two calls. -/
def crash (s s' : Files) : Prop := ∃ p, s' = { s with crashed := fun q => q = p ∨ s.crashed q }

/-! ## Leases in processes -/

inductive Operation where
  | acquire
  | assert
  | release
  | requireRecovery (reason : Str)

/-- What the runtime that has drawn a nonce knows of its lease. -/
inductive Status where
  | fresh
  | failed
  | lease (lease : SessionLease)

/-- The process and the runtime id for which `acquire` draws a nonce. -/
abbrev Draws := Str → ProcessIdentity × Str

/-- The owner record of a new lease. -/
def Draws.owner (drawn : Draws) (nonce : Str) : Owner :=
  { (drawn nonce).1 with runtimeId := (drawn nonce).2, nonce, recoveryRequired := none }

/-- The script of an operation. A nonce is drawn for one `acquire`; the other operations are methods
of the lease that it has returned, and `requireRecovery` is called on a lease that is not released:
its caller has asserted the lease before the append that failed. -/
def script (file : Str) (drawn : Draws) (operation : Operation) (nonce : Str) :
    Status → Option (Script Call Call.Ret (Except Str Status))
  | .fresh =>
    match operation with
    | .acquire => some (.lease <$> acquire file (drawn.owner nonce) : Op Status).run
    | _ => none
  | .failed => none
  | .lease lease =>
    match operation with
    | .acquire => none
    | .assert => some ((fun _ => .lease lease) <$> assert file lease : Op Status).run
    | .release => some (.lease <$> release file lease : Op Status).run
    | .requireRecovery reason =>
      if lease.released then none
      else some (.lease <$> requireRecovery reason lease : Op Status).run

/-- An error of `acquire` leaves no lease, another error leaves the lease as it was. -/
def after (operation : Operation) (status : Status) : Except Str Status → Status
  | .ok status => status
  | .error _ =>
    match operation with
    | .acquire => .failed
    | _ => status

def protocol (file : Str) (drawn : Draws) :
    Protocol Files Str Operation Call Call.Ret Str Status where
  act := act
  env := crash
  runs nonce s := ¬ s.crashed (drawn nonce).1
  script := script file drawn
  after := after

/-- A world of leases. -/
abbrev Leases := World Files Str Operation Call Call.Ret Str Status

/-- No lock, no marker, and no lease yet. -/
def Initial (w : Leases) : Prop :=
  w.shared.lock = none ∧ w.shared.reaper = none ∧ (∀ k, w.shared.retired k = none) ∧
    (∀ d, w.shared.entry d = none ∧ w.shared.maker d = none) ∧ (∀ f, w.shared.author f = none) ∧
    ∀ n, w.memory n = .fresh ∧ w.running n = none

/-- A state that some run reaches. -/
def Reach (file : Str) (drawn : Draws) (w : Leases) : Prop :=
  ∃ w₀, Initial w₀ ∧ Relation.ReflTransGen (protocol file drawn).Move w₀ w

/-- The lease is acquired and not released, and its process lives. -/
def Held (drawn : Draws) (w : Leases) (nonce : Str) : Prop :=
  ¬ w.shared.crashed (drawn nonce).1 ∧ ∃ lease, w.memory nonce = .lease lease ∧ lease.released = false

end Lease
