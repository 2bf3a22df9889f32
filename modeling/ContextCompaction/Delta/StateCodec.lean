import ContextCompaction.Delta.Codec

/-!
# The service state codec

One codec for every replicated state of a subscription, under the state's key. The encoder's registry and
the decoder's see the same snapshots and updates, so they hold codecs under the same keys, pair by pair.

* `codeUpdate`: what both sides do with an update, but for the codec.
* `Simulates`: a decoder's codec follows an encoder's; `codeUpdate_simulates` lifts it to updates.
* `codec_lossless`: what the codecs promise.
-/

namespace Delta

open Js

variable {ω ω' : Type}

/-! ## Snapshots and updates -/

/-- Whether a service has one instance or several under keys. -/
inductive ServiceMode where
  | singleton
  | keyed
  deriving DecidableEq

/-- An instance of a keyed service; a key that is used again gets the next generation. -/
structure ServiceInstanceAddress where
  key : Str
  generation : Number
  deriving DecidableEq

/-- A member of an instance: a method, or a state with the operations that build it. -/
inductive ServiceMemberSnapshot (ω : Type) where
  | method (name : Str)
  | state (name : Str) (sequence : Number) (ops : List ω)
  deriving DecidableEq

/-- An instance with its members; the only one of a service has no address. -/
structure ServiceInstanceSnapshot (ω : Type) where
  address : Option ServiceInstanceAddress
  members : List (ServiceMemberSnapshot ω)
  deriving DecidableEq

/-- What a subscriber of a service gets first. -/
structure ServiceSubscriptionSnapshot (ω : Type) where
  serviceId : Str
  mode : ServiceMode
  instances : List (ServiceInstanceSnapshot ω)
  deriving DecidableEq

/-- What a subscriber gets afterwards. -/
inductive ServiceProviderUpdate (ω : Type) where
  | state (address : Option ServiceInstanceAddress) (member : Str) (sequence : Number) (ops : List ω)
  | reset (snapshot : ServiceSubscriptionSnapshot ω)
  | unavailable
  | replaced (snapshot : ServiceInstanceSnapshot ω)
  | spawned (snapshot : ServiceInstanceSnapshot ω)
  | closed (address : ServiceInstanceAddress)
  deriving DecidableEq

/-! ## Registry -/

/-- An error of the registry, or of the codec of one state. -/
inductive CodecError where
  | error (message : Str)
  | delta (error : DeltaError Number)
  deriving DecidableEq

/-- The key of a state in the registry, which tells addresses and members apart. -/
def stateKey (address : Option ServiceInstanceAddress) (member : Str) : Str :=
  stringify (.arr
    [(address.map fun a => Json.str a.key).getD .null,
      (address.map fun a => Json.num a.generation).getD .null, .str member])

/-- A state belongs to an instance. -/
def sameAddress (left : Option ServiceInstanceAddress) (right : ServiceInstanceAddress) : Bool :=
  left.any fun a => a.key = right.key && strictEqual a.generation right.generation

/-- A state as an error names it. -/
def describeState (address : Option ServiceInstanceAddress) (member : Str) : Str :=
  match address with
  | none => member
  | some a => a.key ++ lit "@" ++ a.generation.text ++ lit "." ++ member

/-- Codecs under their keys, each with its instance. -/
abbrev StateCodecRegistry (γ : Type) := List (Str × Option ServiceInstanceAddress × γ)

namespace StateCodecRegistry

variable {γ : Type}

/-- A new state gets a codec; it must not have one. -/
def add (entries : StateCodecRegistry γ) (create : γ) (address : Option ServiceInstanceAddress)
    (member : Str) : Except CodecError (StateCodecRegistry γ) :=
  let key := stateKey address member
  if (mapGet entries key).isSome then
    .error (.error (lit "Duplicate service state " ++ describeState address member))
  else .ok (mapSet entries key (address, create))

/-- Runs the codec of a state: it is an object, so the registry holds what it becomes. -/
def run (entries : StateCodecRegistry γ) (code : γ → List ω → Except (DeltaError Number) (List ω' × γ))
    (address : Option ServiceInstanceAddress) (member : Str) (ops : List ω) :
    Except CodecError (List ω' × StateCodecRegistry γ) := do
  let key := stateKey address member
  match mapGet entries key with
  | none => .error (.error (lit "Unknown service state " ++ describeState address member))
  | some (held, codec) =>
    let (ops, codec) ← (code codec ops).mapError .delta
    pure (ops, mapSet entries key (held, codec))

/-- The codecs of an instance are dropped. -/
def removeInstance (entries : StateCodecRegistry γ) (address : ServiceInstanceAddress) :
    StateCodecRegistry γ :=
  entries.filter fun e => !sameAddress e.2.1 address

end StateCodecRegistry

/-! ## Coding -/

/-- `map` with a state, in order. -/
def mapWith {σ ε α β : Type} (f : σ → α → Except ε (β × σ)) : σ → List α → Except ε (List β × σ)
  | s, [] => .ok ([], s)
  | s, x :: xs => do
    let (y, s) ← f s x
    let (ys, s) ← mapWith f s xs
    pure (y :: ys, s)

section

variable {γ : Type} (create : γ) (code : γ → List ω → Except (DeltaError Number) (List ω' × γ))

/-- A member of a snapshot, whose state gets a codec of its own. -/
def codeMember (address : Option ServiceInstanceAddress) (entries : StateCodecRegistry γ) :
    ServiceMemberSnapshot ω → Except CodecError (ServiceMemberSnapshot ω' × StateCodecRegistry γ)
  | .method name => .ok (.method name, entries)
  | .state name sequence ops => do
    let entries ← entries.add create address name
    let (ops, entries) ← entries.run code address name ops
    pure (.state name sequence ops, entries)

/-- The members of an instance, in order. -/
def codeInstance (entries : StateCodecRegistry γ) (snapshot : ServiceInstanceSnapshot ω) :
    Except CodecError (ServiceInstanceSnapshot ω' × StateCodecRegistry γ) := do
  let (members, entries) ← mapWith (codeMember create code snapshot.address) entries snapshot.members
  pure (⟨snapshot.address, members⟩, entries)

/-- The codecs are reset first, whatever they were. -/
def codeSnapshot (snapshot : ServiceSubscriptionSnapshot ω) :
    Except CodecError (ServiceSubscriptionSnapshot ω' × StateCodecRegistry γ) := do
  let (instances, entries) ← mapWith (codeInstance create code) [] snapshot.instances
  pure (⟨snapshot.serviceId, snapshot.mode, instances⟩, entries)

/-- An update: operations go through their state's codec, and snapshots bring codecs of their own. -/
def codeUpdate (entries : StateCodecRegistry γ) :
    ServiceProviderUpdate ω → Except CodecError (ServiceProviderUpdate ω' × StateCodecRegistry γ)
  | .reset snapshot => do
    let (snapshot, entries) ← codeSnapshot create code snapshot
    pure (.reset snapshot, entries)
  | .state address member sequence ops => do
    let (ops, entries) ← entries.run code address member ops
    pure (.state address member sequence ops, entries)
  | .replaced snapshot => do
    let (snapshot, entries) ← codeInstance create code [] snapshot
    pure (.replaced snapshot, entries)
  | .spawned snapshot => do
    let (snapshot, entries) ← codeInstance create code entries snapshot
    pure (.spawned snapshot, entries)
  | .unavailable => .ok (.unavailable, [])
  | .closed address => .ok (.closed address, entries.removeInstance address)

end

section

variable {α : Type}

/-- A snapshot as it is sent, and the encoders of its states. -/
def encodeSnapshot (snapshot : ServiceSubscriptionSnapshot (Op Number α)) :
    Except CodecError (ServiceSubscriptionSnapshot (WireOp α) × StateCodecRegistry Encoder) :=
  codeSnapshot encoder (fun e ops => .ok (e.encode ops)) snapshot

/-- An update as it is sent. -/
def encodeUpdate (entries : StateCodecRegistry Encoder) (update : ServiceProviderUpdate (Op Number α)) :
    Except CodecError (ServiceProviderUpdate (WireOp α) × StateCodecRegistry Encoder) :=
  codeUpdate encoder (fun e ops => .ok (e.encode ops)) entries update

/-- A snapshot that was received, and the decoders of its states. -/
def decodeSnapshot (snapshot : ServiceSubscriptionSnapshot (WireOp α)) :
    Except CodecError (ServiceSubscriptionSnapshot (Op Number α) × StateCodecRegistry Decoder) :=
  codeSnapshot decoder Decoder.decode snapshot

/-- An update that was received. -/
def decodeUpdate (entries : StateCodecRegistry Decoder) (update : ServiceProviderUpdate (WireOp α)) :
    Except CodecError (ServiceProviderUpdate (Op Number α) × StateCodecRegistry Decoder) :=
  codeUpdate decoder Decoder.decode entries update

/-- A snapshot and the updates after it, through one `createServiceStateEncoder()`. -/
def encodeStream (snapshot : ServiceSubscriptionSnapshot (Op Number α))
    (updates : List (ServiceProviderUpdate (Op Number α))) :
    Except CodecError
      (ServiceSubscriptionSnapshot (WireOp α) × List (ServiceProviderUpdate (WireOp α))) := do
  let (snapshot, entries) ← encodeSnapshot snapshot
  let (updates, _) ← mapWith encodeUpdate entries updates
  pure (snapshot, updates)

/-- The same, through one `createServiceStateDecoder()`. -/
def decodeStream (snapshot : ServiceSubscriptionSnapshot (WireOp α))
    (updates : List (ServiceProviderUpdate (WireOp α))) :
    Except CodecError
      (ServiceSubscriptionSnapshot (Op Number α) × List (ServiceProviderUpdate (Op Number α))) := do
  let (snapshot, entries) ← decodeSnapshot snapshot
  let (updates, _) ← mapWith decodeUpdate entries updates
  pure (snapshot, updates)

end

/-! ## Relations lifted to snapshots and updates -/

section

variable (V : List ω → Prop) (S : List ω → List ω → Prop)

/-- The operations of a member satisfy `V`. -/
def ServiceMemberSnapshot.All : ServiceMemberSnapshot ω → Prop
  | .method _ => True
  | .state _ _ ops => V ops

/-- The operations of all members satisfy `V`. -/
def ServiceInstanceSnapshot.All (snapshot : ServiceInstanceSnapshot ω) : Prop :=
  ∀ member ∈ snapshot.members, member.All V

/-- The operations of all instances satisfy `V`. -/
def ServiceSubscriptionSnapshot.All (snapshot : ServiceSubscriptionSnapshot ω) : Prop :=
  ∀ member ∈ snapshot.instances, member.All V

/-- The operations of an update satisfy `V`. -/
def ServiceProviderUpdate.All : ServiceProviderUpdate ω → Prop
  | .state _ _ _ ops => V ops
  | .reset snapshot => snapshot.All V
  | .replaced snapshot | .spawned snapshot => snapshot.All V
  | .unavailable | .closed _ => True

/-- Two members that differ in their operations only, by `S`. -/
inductive ServiceMemberSnapshot.Rel : ServiceMemberSnapshot ω → ServiceMemberSnapshot ω → Prop
  | method (name : Str) : Rel (.method name) (.method name)
  | state (name : Str) (sequence : Number) {ops ops' : List ω} (h : S ops ops') :
      Rel (.state name sequence ops) (.state name sequence ops')

/-- Two instances that differ in operations only. -/
structure ServiceInstanceSnapshot.Rel (s s' : ServiceInstanceSnapshot ω) : Prop where
  address : s.address = s'.address
  members : List.Forall₂ (ServiceMemberSnapshot.Rel S) s.members s'.members

/-- Two snapshots that differ in operations only. -/
structure ServiceSubscriptionSnapshot.Rel (s s' : ServiceSubscriptionSnapshot ω) : Prop where
  serviceId : s.serviceId = s'.serviceId
  mode : s.mode = s'.mode
  instances : List.Forall₂ (ServiceInstanceSnapshot.Rel S) s.instances s'.instances

/-- Two updates that differ in operations only. -/
inductive ServiceProviderUpdate.Rel : ServiceProviderUpdate ω → ServiceProviderUpdate ω → Prop
  | state (address : Option ServiceInstanceAddress) (member : Str) (sequence : Number) {ops ops' : List ω}
      (h : S ops ops') : Rel (.state address member sequence ops) (.state address member sequence ops')
  | reset {s s' : ServiceSubscriptionSnapshot ω} (h : s.Rel S s') : Rel (.reset s) (.reset s')
  | unavailable : Rel .unavailable .unavailable
  | replaced {s s' : ServiceInstanceSnapshot ω} (h : s.Rel S s') : Rel (.replaced s) (.replaced s')
  | spawned {s s' : ServiceInstanceSnapshot ω} (h : s.Rel S s') : Rel (.spawned s) (.spawned s')
  | closed (address : ServiceInstanceAddress) : Rel (.closed address) (.closed address)

end

theorem eq_of_forall₂ {β : Type} {r : β → β → Prop} (hr : ∀ x y, r x y → x = y) {xs ys : List β}
    (h : List.Forall₂ r xs ys) : xs = ys :=
  (List.forall₂_eq_eq_eq (α := β)) ▸ h.imp hr

theorem ServiceMemberSnapshot.Rel.eq {s s' : ServiceMemberSnapshot ω} (h : Rel Eq s s') : s = s' := by
  cases h with
  | method name => rfl
  | state name sequence h => rw [h]

theorem ServiceInstanceSnapshot.Rel.eq {s s' : ServiceInstanceSnapshot ω} (h : s.Rel Eq s') : s = s' := by
  cases s
  cases s'
  obtain ⟨haddress, hmembers⟩ := h
  rw [ServiceInstanceSnapshot.mk.injEq]
  exact ⟨haddress, eq_of_forall₂ (fun _ _ h => h.eq) hmembers⟩

theorem ServiceSubscriptionSnapshot.Rel.eq {s s' : ServiceSubscriptionSnapshot ω} (h : s.Rel Eq s') :
    s = s' := by
  cases s
  cases s'
  obtain ⟨hid, hmode, hinstances⟩ := h
  rw [ServiceSubscriptionSnapshot.mk.injEq]
  exact ⟨hid, hmode, eq_of_forall₂ (fun _ _ h => h.eq) hinstances⟩

theorem ServiceProviderUpdate.Rel.eq {u u' : ServiceProviderUpdate ω} (h : Rel Eq u u') : u = u' := by
  cases h with
  | state address member sequence h => rw [h]
  | reset h => rw [h.eq]
  | unavailable => rfl
  | replaced h => rw [h.eq]
  | spawned h => rw [h.eq]
  | closed address => rfl

section

variable {V W : List ω → Prop}

theorem ServiceMemberSnapshot.All.and {s : ServiceMemberSnapshot ω} (hV : s.All V) (hW : s.All W) :
    s.All fun ops => V ops ∧ W ops := by
  cases s with
  | method name => trivial
  | state name sequence ops => exact ⟨hV, hW⟩

theorem ServiceInstanceSnapshot.All.and {s : ServiceInstanceSnapshot ω} (hV : s.All V) (hW : s.All W) :
    s.All fun ops => V ops ∧ W ops :=
  fun member hmember => (hV member hmember).and (hW member hmember)

theorem ServiceSubscriptionSnapshot.All.and {s : ServiceSubscriptionSnapshot ω} (hV : s.All V)
    (hW : s.All W) : s.All fun ops => V ops ∧ W ops :=
  fun member hmember => (hV member hmember).and (hW member hmember)

theorem ServiceProviderUpdate.All.and {u : ServiceProviderUpdate ω} (hV : u.All V) (hW : u.All W) :
    u.All fun ops => V ops ∧ W ops := by
  cases u with
  | state address member sequence ops => exact ⟨hV, hW⟩
  | reset snapshot => exact ServiceSubscriptionSnapshot.All.and hV hW
  | replaced snapshot => exact ServiceInstanceSnapshot.All.and hV hW
  | spawned snapshot => exact ServiceInstanceSnapshot.All.and hV hW
  | unavailable => trivial
  | closed address => trivial

end

/-! ## Two sides in step -/

/-- On inputs of `V`, what the left side writes the right side reads: `S` relates the two ends, and
states that `R` relates stay so. -/
def Simulates {σ τ ε ε' α β : Type} (R : σ → τ → Prop) (V : α → Prop) (S : α → α → Prop)
    (write : σ → α → Except ε (β × σ)) (read : τ → β → Except ε' (α × τ)) : Prop :=
  ∀ s t x y s', R s t → V x → write s x = .ok (y, s') →
    ∃ x' t', read t y = .ok (x', t') ∧ S x x' ∧ R s' t'

/-- What simulates element by element simulates on lists. -/
theorem mapWith_simulates {σ τ ε ε' α β : Type} {R : σ → τ → Prop} {V : α → Prop} {S : α → α → Prop}
    {write : σ → α → Except ε (β × σ)} {read : τ → β → Except ε' (α × τ)}
    (h : Simulates R V S write read) :
    Simulates R (∀ x ∈ ·, V x) (List.Forall₂ S) (mapWith write) (mapWith read) := by
  intro s t xs ys s' hR hV hwrite
  induction xs generalizing s t ys with
  | nil =>
    obtain ⟨rfl, rfl⟩ := Prod.mk.inj (Except.ok.inj hwrite)
    exact ⟨[], t, rfl, .nil, hR⟩
  | cons x xs ih =>
    rw [List.forall_mem_cons] at hV
    obtain ⟨⟨y, s₁⟩, hfirst, hwrite⟩ := bind_ok.mp hwrite
    obtain ⟨⟨ys', s₂⟩, hrest, hwrite⟩ := bind_ok.mp hwrite
    obtain ⟨rfl, rfl⟩ := Prod.mk.inj (Except.ok.inj hwrite)
    obtain ⟨x', t₁, hread, hS, hR₁⟩ := h s t x y s₁ hR hV.1 hfirst
    obtain ⟨xs', t₂, hreads, hSs, hR₂⟩ := ih s₁ t₁ ys' hR₁ hV.2 hrest
    exact ⟨x' :: xs', t₂, bind_ok.mpr ⟨_, hread, bind_ok.mpr ⟨_, hreads, rfl⟩⟩, .cons hS hSs, hR₂⟩

section

variable {γ δ : Type} {R : γ → δ → Prop} {V : List ω → Prop} {S : List ω → List ω → Prop}
  {write : γ → List ω → Except (DeltaError Number) (List ω' × γ)}
  {read : δ → List ω' → Except (DeltaError Number) (List ω × δ)} {c : γ} {d : δ}

/-- The same keys and instances, in the same order, and codecs in step. -/
abbrev SyncedRegistry (R : γ → δ → Prop) : StateCodecRegistry γ → StateCodecRegistry δ → Prop :=
  List.Forall₂ fun e f => e.1 = f.1 ∧ e.2.1 = f.2.1 ∧ R e.2.2 f.2.2

theorem SyncedRegistry.get {entries : StateCodecRegistry γ} {entries' : StateCodecRegistry δ}
    (h : SyncedRegistry R entries entries') (key : Str) :
    (mapGet entries key = none ∧ mapGet entries' key = none) ∨
      ∃ held e f, mapGet entries key = some (held, e) ∧ mapGet entries' key = some (held, f) ∧
        R e f := by
  induction h with
  | nil => exact .inl ⟨rfl, rfl⟩
  | @cons e f _ _ hhead _ ih =>
    obtain ⟨k, held, e⟩ := e
    obtain ⟨k', held', f⟩ := f
    obtain ⟨rfl, rfl, hR⟩ := hhead
    by_cases hk : k = key
    · exact .inr ⟨held, e, f, by simp [mapGet, hk], by simp [mapGet, hk], hR⟩
    · simpa [mapGet, hk] using ih

/-- Setting a member on both sides keeps the registries synced. -/
theorem SyncedRegistry.set {entries : StateCodecRegistry γ} {entries' : StateCodecRegistry δ}
    (h : SyncedRegistry R entries entries') (key : Str) (held : Option ServiceInstanceAddress) {e : γ}
    {f : δ} (hR : R e f) :
    SyncedRegistry R (mapSet entries key (held, e)) (mapSet entries' key (held, f)) := by
  induction h with
  | nil => exact .cons ⟨rfl, rfl, hR⟩ .nil
  | @cons e' f' _ _ hhead htail ih =>
    obtain ⟨k, e'⟩ := e'
    obtain ⟨k', f'⟩ := f'
    obtain ⟨rfl, hrest⟩ := hhead
    unfold mapSet
    dsimp only
    split
    · exact .cons ⟨rfl, rfl, hR⟩ htail
    · exact .cons ⟨rfl, hrest⟩ ih

theorem SyncedRegistry.removeInstance {entries : StateCodecRegistry γ}
    {entries' : StateCodecRegistry δ} (h : SyncedRegistry R entries entries')
    (address : ServiceInstanceAddress) :
    SyncedRegistry R (entries.removeInstance address) (entries'.removeInstance address) := by
  unfold StateCodecRegistry.removeInstance
  induction h with
  | nil => exact .nil
  | @cons e f _ _ hhead htail ih =>
    rw [List.filter_cons, List.filter_cons, ← hhead.2.1]
    split
    · exact .cons hhead ih
    · exact ih

theorem SyncedRegistry.add {entries entries₁ : StateCodecRegistry γ} {entries' : StateCodecRegistry δ}
    (h : SyncedRegistry R entries entries') (hnew : R c d) {address : Option ServiceInstanceAddress}
    {member : Str} (hadd : entries.add c address member = .ok entries₁) :
    ∃ entries₁', entries'.add d address member = .ok entries₁' ∧ SyncedRegistry R entries₁ entries₁' := by
  unfold StateCodecRegistry.add at hadd ⊢
  dsimp only at hadd ⊢
  rcases h.get (stateKey address member) with ⟨hnone, hnone'⟩ | ⟨held, e, f, hsome, -, -⟩
  · rw [hnone, if_neg (by simp)] at hadd
    rw [hnone', if_neg (by simp)]
    obtain rfl := Except.ok.inj hadd
    exact ⟨_, rfl, h.set _ address hnew⟩
  · rw [hsome, if_pos (by simp)] at hadd
    cases hadd

/-- A member's codecs on both sides simulate each other. -/
theorem run_simulates (hcode : Simulates R V S write read) (address : Option ServiceInstanceAddress)
    (member : Str) :
    Simulates (SyncedRegistry R) V S (fun entries ops => entries.run write address member ops)
      (fun entries ops => entries.run read address member ops) := by
  intro entries entries' ops wire entries₁ hR hV hwrite
  dsimp only [StateCodecRegistry.run] at hwrite ⊢
  rcases hR.get (stateKey address member) with ⟨hnone, -⟩ | ⟨held, e, f, hsome, hsome', hef⟩
  · rw [hnone] at hwrite
    cases hwrite
  · rw [hsome] at hwrite
    obtain ⟨⟨wire', e₁⟩, hcoded, hwrite⟩ := bind_ok.mp hwrite
    obtain ⟨rfl, rfl⟩ := Prod.mk.inj (Except.ok.inj hwrite)
    obtain ⟨ops', f₁, hread, hS, hef₁⟩ := hcode e f ops wire' e₁ hef hV (mapError_ok.mp hcoded)
    rw [hsome']
    exact ⟨ops', _, bind_ok.mpr ⟨_, mapError_ok.mpr hread, rfl⟩, hS, hR.set _ held hef₁⟩

/-- The instance of a state codec on each side, and what it is created as. -/
structure Paired (R : γ → δ → Prop) (V : List ω → Prop) (S : List ω → List ω → Prop) (c : γ) (d : δ)
    (write : γ → List ω → Except (DeltaError Number) (List ω' × γ))
    (read : δ → List ω' → Except (DeltaError Number) (List ω × δ)) : Prop where
  create : R c d
  code : Simulates R V S write read

variable (h : Paired R V S c d write read)

include h

/-- The codecs of a member's snapshot on both sides simulate each other. -/
theorem codeMember_simulates (address : Option ServiceInstanceAddress) :
    Simulates (SyncedRegistry R) (·.All V) (ServiceMemberSnapshot.Rel S) (codeMember c write address)
      (codeMember d read address) := by
  intro entries entries' member coded entries₁ hR hV hwrite
  cases member with
  | method name =>
    obtain ⟨rfl, rfl⟩ := Prod.mk.inj (Except.ok.inj hwrite)
    exact ⟨_, _, rfl, .method name, hR⟩
  | state name sequence ops =>
    obtain ⟨added, hadd, hwrite⟩ := bind_ok.mp hwrite
    obtain ⟨⟨wire, entries₂⟩, hrun, hwrite⟩ := bind_ok.mp hwrite
    obtain ⟨rfl, rfl⟩ := Prod.mk.inj (Except.ok.inj hwrite)
    obtain ⟨added', hadd', hR'⟩ := hR.add h.create hadd
    obtain ⟨ops', entries₂', hrun', hS, hR₂⟩ := run_simulates h.code address name _ _ _ _ _ hR' hV hrun
    exact ⟨_, _, bind_ok.mpr ⟨_, hadd', bind_ok.mpr ⟨_, hrun', rfl⟩⟩, .state name sequence hS, hR₂⟩

theorem codeInstance_simulates :
    Simulates (SyncedRegistry R) (·.All V) (ServiceInstanceSnapshot.Rel S) (codeInstance c write)
      (codeInstance d read) := by
  intro entries entries' snapshot coded entries₁ hR hV hwrite
  obtain ⟨⟨members, entries₂⟩, hmembers, hwrite⟩ := bind_ok.mp hwrite
  obtain ⟨rfl, rfl⟩ := Prod.mk.inj (Except.ok.inj hwrite)
  obtain ⟨members', entries₂', hmembers', hS, hR₂⟩ :=
    mapWith_simulates (codeMember_simulates h snapshot.address) _ _ _ _ _ hR hV hmembers
  exact ⟨_, _, bind_ok.mpr ⟨_, hmembers', rfl⟩, ⟨rfl, hS⟩, hR₂⟩

theorem codeSnapshot_simulates {snapshot : ServiceSubscriptionSnapshot ω}
    {coded : ServiceSubscriptionSnapshot ω'} {entries : StateCodecRegistry γ} (hV : snapshot.All V)
    (hwrite : codeSnapshot c write snapshot = .ok (coded, entries)) :
    ∃ snapshot' entries', codeSnapshot d read coded = .ok (snapshot', entries') ∧
      snapshot.Rel S snapshot' ∧ SyncedRegistry R entries entries' := by
  obtain ⟨⟨instances, entries₂⟩, hinstances, hwrite⟩ := bind_ok.mp hwrite
  obtain ⟨rfl, rfl⟩ := Prod.mk.inj (Except.ok.inj hwrite)
  obtain ⟨instances', entries₂', hinstances', hS, hR₂⟩ :=
    mapWith_simulates (codeInstance_simulates h) [] [] _ _ _ .nil hV hinstances
  exact ⟨_, _, bind_ok.mpr ⟨_, hinstances', rfl⟩, ⟨rfl, rfl, hS⟩, hR₂⟩

/-- The codecs of an update on both sides simulate each other. -/
theorem codeUpdate_simulates :
    Simulates (SyncedRegistry R) (·.All V) (ServiceProviderUpdate.Rel S) (codeUpdate c write)
      (codeUpdate d read) := by
  intro entries entries' update coded entries₁ hR hV hwrite
  cases update with
  | state address member sequence ops =>
    obtain ⟨⟨wire, entries₂⟩, hrun, hwrite⟩ := bind_ok.mp hwrite
    obtain ⟨rfl, rfl⟩ := Prod.mk.inj (Except.ok.inj hwrite)
    obtain ⟨ops', entries₂', hrun', hS, hR₂⟩ := run_simulates h.code address member _ _ _ _ _ hR hV hrun
    exact ⟨_, _, bind_ok.mpr ⟨_, hrun', rfl⟩, .state address member sequence hS, hR₂⟩
  | reset snapshot =>
    obtain ⟨⟨coded, entries₂⟩, hsnapshot, hwrite⟩ := bind_ok.mp hwrite
    obtain ⟨rfl, rfl⟩ := Prod.mk.inj (Except.ok.inj hwrite)
    obtain ⟨snapshot', entries₂', hsnapshot', hS, hR₂⟩ := codeSnapshot_simulates h hV hsnapshot
    exact ⟨_, _, bind_ok.mpr ⟨_, hsnapshot', rfl⟩, .reset hS, hR₂⟩
  | unavailable =>
    obtain ⟨rfl, rfl⟩ := Prod.mk.inj (Except.ok.inj hwrite)
    exact ⟨_, _, rfl, .unavailable, .nil⟩
  | replaced snapshot =>
    obtain ⟨⟨coded, entries₂⟩, hsnapshot, hwrite⟩ := bind_ok.mp hwrite
    obtain ⟨rfl, rfl⟩ := Prod.mk.inj (Except.ok.inj hwrite)
    obtain ⟨snapshot', entries₂', hsnapshot', hS, hR₂⟩ :=
      codeInstance_simulates h [] [] _ _ _ .nil hV hsnapshot
    exact ⟨_, _, bind_ok.mpr ⟨_, hsnapshot', rfl⟩, .replaced hS, hR₂⟩
  | spawned snapshot =>
    obtain ⟨⟨coded, entries₂⟩, hsnapshot, hwrite⟩ := bind_ok.mp hwrite
    obtain ⟨rfl, rfl⟩ := Prod.mk.inj (Except.ok.inj hwrite)
    obtain ⟨snapshot', entries₂', hsnapshot', hS, hR₂⟩ :=
      codeInstance_simulates h _ _ _ _ _ hR hV hsnapshot
    exact ⟨_, _, bind_ok.mpr ⟨_, hsnapshot', rfl⟩, .spawned hS, hR₂⟩
  | closed address =>
    obtain ⟨rfl, rfl⟩ := Prod.mk.inj (Except.ok.inj hwrite)
    exact ⟨_, _, rfl, .closed address, hR.removeInstance address⟩

end

/-! ## The codecs -/

section

variable {α : Type}

theorem paired_codecs {P : Path Number → Prop} (hP : ∀ path, P path → SafePath path) :
    Paired (ω := Op Number α) (Synced P) (∀ op ∈ ·, ValidIn P op) (List.Forall₂ (SameIn P)) encoder
      decoder (fun e ops => .ok (e.encode ops)) Decoder.decode where
  create := synced_new
  code e d ops wire e' hR hV hwrite := by
    obtain ⟨rfl, rfl⟩ := Prod.mk.inj (Except.ok.inj hwrite)
    exact decode_encode hP hV hR

theorem paired_safe : Paired (ω := Op Number α) (Synced SafePath) ValidOps SameOps encoder decoder
    (fun e ops => .ok (e.encode ops)) Decoder.decode where
  create := synced_new
  code e d ops wire e' hR hV hwrite := by
    obtain ⟨ops', d', hread, hsame, hR'⟩ := (paired_codecs fun _ => id).code e d ops wire e' hR hV.safe hwrite
    exact ⟨ops', d', hread, sameOps_of_forall₂ hsame, hR'⟩

theorem paired_plain : Paired (ω := Op Number α) (Synced PlainPath)
    (fun ops => ValidOps ops ∧ PlainOps ops) Eq encoder decoder (fun e ops => .ok (e.encode ops))
    Decoder.decode where
  create := synced_new
  code e d ops wire e' hR hV hwrite := by
    obtain ⟨ops', d', hread, hsame, hR'⟩ :=
      (paired_codecs fun _ => And.left).code e d ops wire e' hR (hV.1.plain hV.2) hwrite
    exact ⟨ops', d', hread, eq_of_forall₂_plain hV.2 hsame, hR'⟩

/-- A decoded stream: up to the sign of zero, and exactly if there is no `-0`. -/
structure RestoredStream (snapshot snapshot' : ServiceSubscriptionSnapshot (Op Number α))
    (updates updates' : List (ServiceProviderUpdate (Op Number α))) : Prop where
  sameSnapshot : snapshot.Rel SameOps snapshot'
  sameUpdates : List.Forall₂ (ServiceProviderUpdate.Rel SameOps) updates updates'
  exact : snapshot.All PlainOps → (∀ update ∈ updates, update.All PlainOps) →
    snapshot' = snapshot ∧ updates' = updates

/-- A stream that was encoded decodes to the same snapshot and updates. -/
theorem decodeStream_simulates {R : Encoder → Decoder → Prop} {V : List (Op Number α) → Prop}
    {S : List (Op Number α) → List (Op Number α) → Prop}
    (h : Paired R V S encoder decoder (fun e ops => .ok (e.encode ops)) Decoder.decode)
    {snapshot : ServiceSubscriptionSnapshot (Op Number α)}
    {updates : List (ServiceProviderUpdate (Op Number α))} (hsnapshot : snapshot.All V)
    (hupdates : ∀ update ∈ updates, update.All V) {coded : ServiceSubscriptionSnapshot (WireOp α)}
    {wire : List (ServiceProviderUpdate (WireOp α))}
    (hencode : encodeStream snapshot updates = .ok (coded, wire)) :
    ∃ snapshot' updates', decodeStream coded wire = .ok (snapshot', updates') ∧
      snapshot.Rel S snapshot' ∧ List.Forall₂ (ServiceProviderUpdate.Rel S) updates updates' := by
  obtain ⟨⟨coded', entries⟩, hcoded, hencode⟩ := bind_ok.mp hencode
  obtain ⟨⟨wire', entries₁⟩, hwire, hencode⟩ := bind_ok.mp hencode
  obtain ⟨rfl, rfl⟩ := Prod.mk.inj (Except.ok.inj hencode)
  obtain ⟨snapshot', entries', hdecode, hS, hR⟩ := codeSnapshot_simulates h hsnapshot hcoded
  obtain ⟨updates', entries₁', hdecodes, hSs, -⟩ :=
    mapWith_simulates (codeUpdate_simulates h) _ _ _ _ _ hR hupdates hwire
  exact ⟨snapshot', updates', bind_ok.mpr ⟨_, hdecode, bind_ok.mpr ⟨_, hdecodes, rfl⟩⟩, hS, hSs⟩

/-- A stream of updates comes back. -/
theorem restored_encodeStream {snapshot : ServiceSubscriptionSnapshot (Op Number α)}
    {updates : List (ServiceProviderUpdate (Op Number α))} (hsnapshot : snapshot.All ValidOps)
    (hupdates : ∀ update ∈ updates, update.All ValidOps) {coded : ServiceSubscriptionSnapshot (WireOp α)}
    {wire : List (ServiceProviderUpdate (WireOp α))}
    (hencode : encodeStream snapshot updates = .ok (coded, wire)) :
    ∃ snapshot' updates', decodeStream coded wire = .ok (snapshot', updates') ∧
      RestoredStream snapshot snapshot' updates updates' := by
  obtain ⟨snapshot', updates', hdecode, hS, hSs⟩ :=
    decodeStream_simulates paired_safe hsnapshot hupdates hencode
  refine ⟨snapshot', updates', hdecode, hS, hSs, fun hplain hplains => ?_⟩
  obtain ⟨snapshot'', updates'', hdecode', hS', hSs'⟩ := decodeStream_simulates paired_plain
    (hsnapshot.and hplain) (fun update hupdate => (hupdates update hupdate).and (hplains update hupdate))
    hencode
  obtain ⟨rfl, rfl⟩ := Prod.mk.inj (Except.ok.inj (hdecode.symm.trans hdecode'))
  exact ⟨hS'.eq.symm, (eq_of_forall₂ (fun _ _ h => h.eq) hSs').symm⟩

/-- Every batch of a stream comes back, from its start and from every base batch on, and so do a
snapshot and the updates after it. -/
theorem codec_lossless :
    (∀ batches : List (List (Op Number α)), (∀ ops ∈ batches, ValidOps ops) →
      ∃ decoded, decoder.decodeAll (encoder.encodeAll batches) = .ok decoded ∧
        Restored batches decoded) ∧
    (∀ (earlier : List (List (Op Number α))) (ops : List (Op Number α)) (batches : List (List (Op Number α))),
      (∀ ops' ∈ earlier ++ ops :: batches, ValidOps ops') → isBase ops = true →
      ∃ decoded, decoder.decodeAll
          ((encoder.encodeAll (earlier ++ ops :: batches)).drop earlier.length) = .ok decoded ∧
        Restored (ops :: batches) decoded) ∧
    (∀ (snapshot : ServiceSubscriptionSnapshot (Op Number α))
      (updates : List (ServiceProviderUpdate (Op Number α))) (coded : ServiceSubscriptionSnapshot (WireOp α))
      (wire : List (ServiceProviderUpdate (WireOp α))),
      snapshot.All ValidOps → (∀ update ∈ updates, update.All ValidOps) →
      encodeStream snapshot updates = .ok (coded, wire) →
      ∃ snapshot' updates', decodeStream coded wire = .ok (snapshot', updates') ∧
        RestoredStream snapshot snapshot' updates updates') := by
  refine ⟨fun _ => restored_encodeAll, fun earlier ops batches hvalid hbase => ?_,
    fun _ _ _ _ hsnapshot hupdates hencode => restored_encodeStream hsnapshot hupdates hencode⟩
  exact restored_from_base hbase fun ops' hops' => hvalid ops' (List.mem_append_right _ hops')

end

/-- A path through a key and an index. -/
def samplePath : Path Number := [.key (lit "a"), .index (.ofNat 0)]

/-- A path used three times, and a replacement in between. -/
def sampleBatches : List (List (Op Number Nat)) :=
  [[.r 0, .s samplePath 1, .d [.key (lit "b")], .a samplePath (lit "x")],
    [.r 2, .t samplePath (.ofNat 3), .p [] (.ofNat 0) (.ofNat 1) [4], .m samplePath [.ofNat 0]]]

/-- A keyed service with one instance, which has a method and a state. -/
def sampleSnapshot : ServiceSubscriptionSnapshot (Op Number Nat) :=
  ⟨lit "service", .keyed,
    [⟨some ⟨lit "k", .ofNat 1⟩, [.method (lit "f"), .state (lit "x") (.ofNat 0) [.r 0]]⟩]⟩

/-- Two operations on the state, and the end of the instance. -/
def sampleUpdates : List (ServiceProviderUpdate (Op Number Nat)) :=
  [.state (some ⟨lit "k", .ofNat 1⟩) (lit "x") (.ofNat 1) [.s samplePath 1, .d samplePath],
    .closed ⟨lit "k", .ofNat 1⟩]

/-- Batches that define a path and use it again, in full, without the first, and as a stream. -/
theorem codec_lossless_sample :
    (∃ decoded, decoder.decodeAll (encoder.encodeAll sampleBatches) = .ok decoded ∧
      Restored sampleBatches decoded) ∧
    (∃ decoded, decoder.decodeAll ((encoder.encodeAll sampleBatches).drop 1) = .ok decoded ∧
      Restored (sampleBatches.drop 1) decoded) ∧
    ∃ coded wire snapshot updates, encodeStream sampleSnapshot sampleUpdates = .ok (coded, wire) ∧
      decodeStream coded wire = .ok (snapshot, updates) ∧
      RestoredStream sampleSnapshot snapshot sampleUpdates updates := by
  have hvalid : ∀ ops ∈ sampleBatches, ValidOps ops := by
    unfold ValidOps
    decide +kernel
  have hsnapshot : sampleSnapshot.All ValidOps := by
    simp only [ServiceSubscriptionSnapshot.All, ServiceInstanceSnapshot.All, sampleSnapshot,
      List.forall_mem_cons, List.not_mem_nil, false_imp_iff, implies_true, and_true,
      ServiceMemberSnapshot.All, ValidOps, true_and]
    decide +kernel
  have hupdates : ∀ update ∈ sampleUpdates, update.All ValidOps := by
    simp only [sampleUpdates, List.forall_mem_cons, List.not_mem_nil, false_imp_iff, implies_true,
      and_true, ServiceProviderUpdate.All, ValidOps]
    decide +kernel
  have hencode : ∃ coded wire, encodeStream sampleSnapshot sampleUpdates = .ok (coded, wire) := by
    have hok : (encodeStream sampleSnapshot sampleUpdates).toOption.isSome = true := by decide +kernel
    cases h : encodeStream sampleSnapshot sampleUpdates with
    | ok out => exact ⟨out.1, out.2, rfl⟩
    | error e => rw [h] at hok; cases hok
  obtain ⟨coded, wire, hencode⟩ := hencode
  obtain ⟨snapshot, updates, hdecode, hback⟩ :=
    codec_lossless.2.2 sampleSnapshot sampleUpdates coded wire hsnapshot hupdates hencode
  exact ⟨codec_lossless.1 sampleBatches hvalid,
    codec_lossless.2.1 (sampleBatches.take 1) _ [] hvalid (by decide +kernel),
    coded, wire, snapshot, updates, hencode, hdecode, hback⟩

/-- The zeros have one key; and nothing validates what the encoder is given. -/
theorem not_codec_exact :
    (∃ batches : List (List (Op Number Nat)), (∀ ops ∈ batches, ∀ op ∈ ops, assertValidOp op = .ok ()) ∧
      decoder.decodeAll (encoder.encodeAll batches) ≠ .ok batches) ∧
    ∃ (update : ServiceProviderUpdate (Op Number Nat)) (coded : ServiceSubscriptionSnapshot (WireOp Nat))
      (wire : List (ServiceProviderUpdate (WireOp Nat))),
      encodeStream sampleSnapshot [update] = .ok (coded, wire) ∧
        decodeStream coded wire = .error (.delta (.unsafePath (.key (lit "__proto__")))) := by
  refine ⟨⟨[[.d [.index (.ofNat 0)], .d [.index (.ofRat true 0)]]], by decide +kernel, by decide +kernel⟩,
    .state (some ⟨lit "k", .ofNat 1⟩) (lit "x") (.ofNat 1) [.s [.key (lit "__proto__")] 1], ?_⟩
  have hrun : (match encodeStream sampleSnapshot [.state (some ⟨lit "k", .ofNat 1⟩) (lit "x") (.ofNat 1)
      [.s [.key (lit "__proto__")] 1]] with
    | .ok (coded, wire) =>
      decide (decodeStream coded wire = .error (.delta (.unsafePath (.key (lit "__proto__")))))
    | .error _ => false) = true := by decide +kernel
  split at hrun
  · rename_i coded wire hencode
    exact ⟨coded, wire, hencode, of_decide_eq_true hrun⟩
  · cases hrun

end Delta
