import ContextCompaction.Js.JsonOrder
import ContextCompaction.Js.TornText

/-!
# The owner file of a session's lock

What a lease writes into its lock directory, and what a reader makes of the bytes it finds there.
An owner file that its writer has not finished is no owner.

* `ownerAt_of_prefix`: whatever part of the file is written, an owner that is read there is the
  writer's.
-/

namespace Lease

open Js

/-- A positive safe integer. -/
abbrev Pid := { n : Nat // 0 < n ∧ n < 2 ^ 53 }

structure ProcessIdentity where
  pid : Pid
  processStart : Str
  bootId : Str
  deriving DecidableEq

structure Owner extends ProcessIdentity where
  runtimeId : Str
  nonce : Str
  recoveryRequired : Option Json

def Owner.fields (owner : Owner) : List (Str × Json) :=
  [(lit "pid", .num (.ofNat owner.pid)), (lit "processStart", .str owner.processStart),
    (lit "bootId", .str owner.bootId), (lit "runtimeId", .str owner.runtimeId),
    (lit "nonce", .str owner.nonce)] ++
  match owner.recoveryRequired with
  | none => []
  | some reason => [(lit "recoveryRequired", reason)]

/-- The bytes of `JSON.stringify(owner)`. -/
def Owner.bytes (owner : Owner) : List UInt8 := utf8 (stringify (.obj owner.fields))

/-- `Number.isSafeInteger(pid)` and `Number(pid) > 0`. -/
def pidOf : Number → Option Pid
  | .finite false abs _ =>
    if h : abs.den = 1 ∧ 0 < abs.num.toNat ∧ abs.num.toNat < 2 ^ 53 then some ⟨abs.num.toNat, h.2⟩
    else none
  | _ => none

/-- A property that is a string with at least one unit. -/
def filled (fields : List (Str × Json)) (name : String) : Option Str :=
  ((mapGet fields (lit name)).bind Json.str?).filter (· ≠ [])

/-- The owner that a parsed file describes, if it is complete. -/
def completeOwner (owner : Json) : Option Owner := do
  let fields ← owner.obj?
  let pid ← ((mapGet fields (lit "pid")).bind Json.num?).bind pidOf
  let processStart ← filled fields "processStart"
  let bootId ← filled fields "bootId"
  let runtimeId ← filled fields "runtimeId"
  let nonce ← filled fields "nonce"
  return { pid, processStart, bootId, runtimeId, nonce
           recoveryRequired := mapGet fields (lit "recoveryRequired") }

/-- `ownerAt`, on the bytes of the file. -/
def ownerAt (path : Str) (bytes : List UInt8) : Except Str Owner :=
  match parse (decodeUtf8 bytes) with
  | none => .error (lit "SyntaxError")
  | some owner =>
    match completeOwner owner with
    | none => .error (lit "CONTEXT_LOCK_UNKNOWN: incomplete owner metadata at " ++ path ++
        lit "; inspect manually")
    | some owner => .ok owner

/-! ## What is read back -/

theorem pidOf_ofNat (pid : Pid) : pidOf (.ofNat pid) = some pid := by
  rw [Number.ofNat_eq pid.2.2]
  have h : (pid.1 : ℚ).den = 1 ∧ 0 < (pid.1 : ℚ).num.toNat ∧ (pid.1 : ℚ).num.toNat < 2 ^ 53 := by
    simpa using pid.2
  simp only [pidOf]
  rw [dif_pos h]
  exact congrArg some (Subtype.ext (by simp))

/-- The keys that an owner file may have, in their order. -/
theorem keys_fields (owner : Owner) : List.Sublist (owner.fields.map Prod.fst)
    (["pid", "processStart", "bootId", "runtimeId", "nonce", "recoveryRequired"].map lit) := by
  unfold Owner.fields
  cases owner.recoveryRequired with
  | none => exact List.sublist_append_left _ [lit "recoveryRequired"]
  | some reason => exact List.Sublist.refl _

theorem normal_fields (owner : Owner) :
    (Json.obj owner.fields).normal = .obj (owner.fields.map fun f => (f.1, f.2.normal)) := by
  have hkeys : (owner.fields.map fun f => (f.1, f.2.normal)).map Prod.fst =
      owner.fields.map Prod.fst := by rw [List.map_map]; rfl
  rw [Json.normal, Json.normalFields_eq_map, mkFields_eq_self]
  · rw [hkeys]
    exact (keys_fields owner).nodup (by decide)
  · rw [hkeys]
    exact fun k hk => (by decide : ∀ k ∈ ["pid", "processStart", "bootId", "runtimeId", "nonce",
      "recoveryRequired"].map lit, indexKey k = none) k ((keys_fields owner).subset hk)

/-- What is read back from what the writer has written. -/
theorem completeOwner_fields (owner : Owner) : completeOwner (Json.obj owner.fields).normal =
    if owner.processStart ≠ [] ∧ owner.bootId ≠ [] ∧ owner.runtimeId ≠ [] ∧ owner.nonce ≠ [] then
      some { owner with recoveryRequired := owner.recoveryRequired.map Json.normal }
    else none := by
  rw [normal_fields]
  have hget : ∀ k, mapGet (owner.fields.map fun f => (f.1, f.2.normal)) k =
      (mapGet owner.fields k).map Json.normal := mapGet_map Json.normal owner.fields
  have hpid : mapGet owner.fields (lit "pid") = some (.num (.ofNat owner.pid)) := rfl
  have hstart : mapGet owner.fields (lit "processStart") = some (.str owner.processStart) := rfl
  have hboot : mapGet owner.fields (lit "bootId") = some (.str owner.bootId) := rfl
  have hruntime : mapGet owner.fields (lit "runtimeId") = some (.str owner.runtimeId) := rfl
  have hnonce : mapGet owner.fields (lit "nonce") = some (.str owner.nonce) := rfl
  have hrecovery : mapGet owner.fields (lit "recoveryRequired") = owner.recoveryRequired := by
    unfold Owner.fields
    cases owner.recoveryRequired with
    | none => rfl
    | some reason => rfl
  simp only [completeOwner, filled, hget, hpid, hstart, hboot, hruntime, hnonce, hrecovery,
    Json.obj?_obj, Json.normal_str, Json.normal_ofNat owner.pid.2.2, Option.map_some,
    Option.bind_some, Json.num?_num, Json.str?_str, pidOf_ofNat, Option.bind_eq_bind,
    Option.filter_some, decide_not, Option.pure_def]
  by_cases h1 : owner.processStart = []
  · simp [h1]
  by_cases h2 : owner.bootId = []
  · simp [h1, h2]
  by_cases h3 : owner.runtimeId = []
  · simp [h1, h2, h3]
  by_cases h4 : owner.nonce = []
  · simp [h1, h2, h3, h4]
  · simp [h1, h2, h3, h4]

/-- Only an owner that agrees with the writer's is read back from what it has written. -/
theorem completeOwner_normal {owner read : Owner}
    (h : completeOwner (Json.obj owner.fields).normal = some read) :
    read.nonce = owner.nonce ∧ read.toProcessIdentity = owner.toProcessIdentity ∧
      read.recoveryRequired = owner.recoveryRequired.map Json.normal := by
  rw [completeOwner_fields] at h
  split at h
  · obtain rfl := Option.some.inj h
    exact ⟨rfl, rfl, rfl⟩
  · cases h

theorem ownerAt_full (path : Str) (owner : Owner) : ownerAt path owner.bytes =
    match completeOwner (Json.obj owner.fields).normal with
    | none => .error (lit "CONTEXT_LOCK_UNKNOWN: incomplete owner metadata at " ++ path ++
        lit "; inspect manually")
    | some owner => .ok owner := by
  rw [ownerAt, Owner.bytes, decodeUtf8_utf8 (printable_stringify _).1, parse_stringify]

theorem ownerAt_nil (path : Str) : ownerAt path [] = .error (lit "SyntaxError") := rfl

/-- An owner file that its writer has finished. -/
theorem ownerAt_bytes (path : Str) {owner : Owner} (hstart : owner.processStart ≠ [])
    (hboot : owner.bootId ≠ []) (hruntime : owner.runtimeId ≠ []) (hnonce : owner.nonce ≠ []) :
    ownerAt path owner.bytes =
      .ok { owner with recoveryRequired := owner.recoveryRequired.map Json.normal } := by
  have hread : completeOwner (Json.obj owner.fields).normal =
      some { owner with recoveryRequired := owner.recoveryRequired.map Json.normal } := by
    rw [completeOwner_fields]
    simp [hstart, hboot, hruntime, hnonce]
  rw [ownerAt_full, hread]

/-- What is not the whole of an owner file is not read. -/
theorem full_of_ownerAt {path : Str} {owner read : Owner} {bytes : List UInt8}
    (hb : bytes <+: owner.bytes) (h : ownerAt path bytes = .ok read) : bytes = owner.bytes := by
  by_contra hfull
  rw [ownerAt, parse_torn hb hfull] at h
  cases h

theorem ownerAt_of_prefix {path : Str} {owner read : Owner} {bytes : List UInt8}
    (hb : bytes <+: owner.bytes) (h : ownerAt path bytes = .ok read) :
    read.nonce = owner.nonce ∧ read.toProcessIdentity = owner.toProcessIdentity ∧
      read.recoveryRequired = owner.recoveryRequired.map Json.normal := by
  rw [full_of_ownerAt hb h, ownerAt_full] at h
  split at h
  · cases h
  · rename_i hread
    obtain rfl := Except.ok.inj h
    exact completeOwner_normal hread

end Lease
