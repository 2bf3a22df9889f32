import ContextCompaction.Delta.Op
import ContextCompaction.Js.JsonParse

/-!
# The operation codec

Path interning and omission, between a tracker and a boundary. The codec never looks at a value, so the
values are of any type. A path that `pathKey` does not tell from another is the same but for the sign of a
zero; that is all that a round trip can change.

* `encode`, `decode`: one batch.
* `Synced`: the dictionaries agree; a step on both sides keeps it.
* `decodeAll_encodeAll`, `decodeAll_from_base`: a stream comes back, also from a base batch on.
-/

namespace Delta

open Js

variable {α : Type}

/-! ## Wire operations -/

/-- A path inline, or an id assigned by the encoder on second use. -/
inductive PathRef where
  | path (path : Path Number)
  | id (id : Nat)
  deriving DecidableEq

/-- What crosses a boundary. Without a reference the tuple is shortened, and reuses the path of the
operation before. -/
inductive WireOp (α : Type) where
  | r (value : α)
  | s (ref : Option PathRef) (value : α)
  | d (ref : Option PathRef)
  | a (ref : Option PathRef) (text : Str)
  | t (ref : Option PathRef) (count : Number)
  | p (ref : Option PathRef) (index remove : Number) (items : List α)
  | m (ref : Option PathRef) (permutation : List Number)
  /-- `["#", id, path]` -/
  | define (id : Nat) (path : Path Number)
  deriving DecidableEq

/-- `okRef`; an id is an integer from 0 on. -/
def okRef : Option PathRef → Except (DeltaError Number) Unit
  | some (.path path) => assertSafePath path
  | _ => .ok ()

/-- A wire operation is refused for a reference or a number of the wrong form. -/
def assertValidWireOp : WireOp α → Except (DeltaError Number) Unit
  | .r _ => .ok ()
  | .s ref _ => okRef ref
  | .d ref => okRef ref
  | .a ref _ => okRef ref
  | .t ref count => do
    okRef ref
    assertIndex count (lit "t count")
  | .p ref index remove _ => do
    okRef ref
    assertIndex index (lit "p index")
    assertIndex remove (lit "p remove")
  | .m ref permutation => do
    okRef ref
    assertPermutation permutation
  | .define _ path => assertSafePath path

/-! ## Encoder -/

/-- A segment as the path's JSON array holds it. -/
def Seg.json : Seg Number → Json
  | .key name => .str name
  | .index n => .num n

/-- `JSON.stringify(path)` -/
def pathKey (path : Path Number) : Str := stringify (.arr (path.map Seg.json))

/-- The operation on the wire, under a reference or shortened. -/
def Op.wire (ref : Option PathRef) : Op Number α → WireOp α
  | .r value => .r value
  | .s _ value => .s ref value
  | .d _ => .d ref
  | .a _ text => .a ref text
  | .t _ count => .t ref count
  | .p _ index remove items => .p ref index remove items
  | .m _ permutation => .m ref permutation

/-- `previous` is the key of the last path in this batch. -/
structure Encoder where
  seen : List Str
  ids : List (Str × Nat)
  nextId : Nat
  previous : Option Str

/-- A codec that has sent no path yet. -/
def encoder : Encoder := ⟨[], [], 0, none⟩

/-- One operation: a path is defined on its second use, and left out where it is that of the operation
before. -/
def Encoder.push (e : Encoder) (op : Op Number α) : List (WireOp α) × Encoder :=
  match op.path? with
  | none => ([op.wire none], encoder)
  | some path =>
    let key := pathKey path
    if some key = e.previous then ([op.wire none], e)
    else
      match mapGet e.ids key with
      | some id => ([op.wire (some (.id id))], { e with previous := some key })
      | none =>
        if key ∈ e.seen then
          ([.define e.nextId path, op.wire (some (.id e.nextId))],
            { e with ids := mapSet e.ids key e.nextId, nextId := e.nextId + 1, previous := some key })
        else ([op.wire (some (.path path))], { e with seen := key :: e.seen, previous := some key })

/-- A batch is encoded operation by operation. -/
def Encoder.pushAll (e : Encoder) : List (Op Number α) → List (WireOp α) × Encoder
  | [] => ([], e)
  | op :: ops =>
    let (wire, e) := e.push op
    let (rest, e) := e.pushAll ops
    (wire ++ rest, e)

/-- Omission is scoped to a batch. -/
def Encoder.encode (e : Encoder) (ops : List (Op Number α)) : List (WireOp α) × Encoder :=
  { e with previous := none }.pushAll ops

/-! ## Decoder -/

/-- `previous` is the last path in this batch. -/
structure Decoder where
  paths : List (Nat × Path Number)
  previous : Option (Path Number)

/-- A codec that has received no path yet. -/
def decoder : Decoder := ⟨[], none⟩

/-- The path that a tuple stands for. -/
def Decoder.resolve (d : Decoder) : Option PathRef → Except (DeltaError Number) (Path Number)
  | none =>
    match d.previous with
    | none => .error (.path [])
    | some path => .ok path
  | some (.id id) =>
    match mapGet d.paths id with
    | none => .error (.pathId id)
    | some path => .ok path
  | some (.path path) => .ok path

/-- The operation of a tuple with a path. -/
def Decoder.take (d : Decoder) (ref : Option PathRef) (op : Path Number → Op Number α) :
    Except (DeltaError Number) (List (Op Number α) × Decoder) := do
  let path ← d.resolve ref
  if (op path).inner && path.isEmpty then .error (.path path)
  else pure ([op path], { d with previous := some path })

/-- One wire operation is decoded: a definition is noted and yields nothing, a replacement also resets
the paths, any other yields the operation with its path filled in. -/
def Decoder.pull (d : Decoder) (op : WireOp α) :
    Except (DeltaError Number) (List (Op Number α) × Decoder) := do
  assertValidWireOp op
  match op with
  | .define id path => pure ([], { d with paths := mapSet d.paths id path })
  | .r value => pure ([.r value], decoder)
  | .s ref value => d.take ref (.s · value)
  | .d ref => d.take ref .d
  | .a ref text => d.take ref (.a · text)
  | .t ref count => d.take ref (.t · count)
  | .p ref index remove items => d.take ref (.p · index remove items)
  | .m ref permutation => d.take ref (.m · permutation)

/-- A batch is decoded operation by operation. -/
def Decoder.pullAll (d : Decoder) :
    List (WireOp α) → Except (DeltaError Number) (List (Op Number α) × Decoder)
  | [] => .ok ([], d)
  | op :: wire => do
    let (ops, d) ← d.pull op
    let (rest, d) ← d.pullAll wire
    pure (ops ++ rest, d)

/-- A batch starts without a previous path, so that nothing refers across batches. -/
def Decoder.decode (d : Decoder) (wire : List (WireOp α)) :
    Except (DeltaError Number) (List (Op Number α) × Decoder) :=
  { d with previous := none }.pullAll wire

/-! ## Keys -/

/-- Safe segments whose JSON reads back alike are the same. -/
theorem Seg.same_of_normal {s s' : Seg Number} (hs : s.safe = true) (hs' : s'.safe = true)
    (h : s.json.normal = s'.json.normal) : s.Same s' := by
  cases s with
  | key name =>
    cases s' with
    | key name' =>
      obtain rfl : name = name' := by simpa [Seg.json] using h
      exact .key name
    | index n' => cases n' <;> simp [Seg.json, Json.normal] at h
  | index n =>
    cases n with
    | finite negative abs hrep =>
      cases s' with
      | key name' => simp [Seg.json, Json.normal] at h
      | index n' =>
        cases n' with
        | finite negative' abs' hrep' =>
          simp only [Seg.json, Json.normal, Json.num.injEq, Number.finite.injEq] at h
          refine .index ⟨h.2, fun hne => ?_⟩
          have hne' : abs' ≠ 0 := h.2 ▸ hne
          simpa [hne, hne'] using h.1
        | _ => simp [Seg.json, Json.normal] at h
    | _ => simp [Seg.safe, IndexNumber.index?, count?] at hs

/-- A safe path's key tells it from all but the paths that differ from it in the sign of a zero. -/
theorem same_of_pathKey {path path' : Path Number} (hp : SafePath path) (hp' : SafePath path')
    (h : pathKey path = pathKey path') : SamePath path path' := by
  have hparse : (Json.arr (path.map Seg.json)).normal = (Json.arr (path'.map Seg.json)).normal := by
    have heq : parse (pathKey path) = parse (pathKey path') := by rw [h]
    unfold pathKey at heq
    rw [parse_stringify, parse_stringify] at heq
    exact Option.some.inj heq
  rw [Json.normal, Json.normal, Json.arr.injEq] at hparse
  clear h
  induction path generalizing path' with
  | nil =>
    cases path' with
    | nil => exact .nil
    | cons s' path' => simp [Json.normalElements] at hparse
  | cons s path ih =>
    cases path' with
    | nil => simp [Json.normalElements] at hparse
    | cons s' path' =>
      simp only [List.map_cons, Json.normalElements, List.cons.injEq] at hparse
      rw [SafePath, List.forall_mem_cons] at hp hp'
      exact .cons (Seg.same_of_normal hp.1 hp'.1 hparse.1) (ih hp.2 hp'.2 hparse.2)

/-- No segment is `-0`. -/
def PlainPath (path : Path Number) : Prop :=
  SafePath path ∧ ∀ seg ∈ path, ∀ h, seg ≠ .index (.finite true 0 h)

/-- Segments that are the same are equal if neither is `-0`. -/
theorem Seg.Same.eq_of_plain {s s' : Seg Number} (h : s.Same s')
    (hs : ∀ h, s ≠ .index (.finite true 0 h)) (hs' : ∀ h, s' ≠ .index (.finite true 0 h)) : s = s' := by
  cases h with
  | key name => rfl
  | @index m n h =>
    cases m with
    | finite negative abs hrep =>
      cases n with
      | finite negative' abs' hrep' =>
        obtain ⟨rfl, hsign⟩ := h
        by_cases habs : abs = 0
        · subst habs
          cases negative <;> cases negative' <;> simp_all
        · rw [hsign habs]
      | _ => exact absurd h (by simp [Number.Same])
    | _ => exact congrArg Seg.index h

theorem SamePath.eq_of_plain {path path' : Path Number} (h : SamePath path path') (hp : PlainPath path)
    (hp' : PlainPath path') : path = path' := by
  obtain ⟨-, hp⟩ := hp
  obtain ⟨-, hp'⟩ := hp'
  induction h with
  | nil => rfl
  | cons h _ ih =>
    rw [List.forall_mem_cons] at hp hp'
    rw [h.eq_of_plain hp.1 hp'.1, ih hp.2 hp'.2]

/-! ## One step on both sides -/

section

variable {P : Path Number → Prop}

/-- A path that the decoder holds for a key; all such paths are in `P`. -/
def Holds (P : Path Number → Prop) (key : Str) (path : Path Number) : Prop :=
  pathKey path = key ∧ P path

/-- What the encoder refers to, the decoder holds. -/
structure Synced (P : Path Number → Prop) (e : Encoder) (d : Decoder) : Prop where
  ids : ∀ key id, mapGet e.ids key = some id →
    id < e.nextId ∧ ∃ path, mapGet d.paths id = some path ∧ Holds P key path
  previous : ∀ key, e.previous = some key → ∃ path, d.previous = some path ∧ Holds P key path

/-- A valid operation whose path is in `P`. -/
def ValidIn (P : Path Number → Prop) (op : Op Number α) : Prop :=
  assertValidOp op = .ok () ∧ ∀ path ∈ op.path?, P path

/-- Two operations are the same, and the path they name satisfies `P`. -/
def SameIn (P : Path Number → Prop) (op op' : Op Number α) : Prop :=
  op.Same op' ∧ ∀ path ∈ op'.path?, P path

theorem synced_new : Synced P encoder decoder where
  ids := by simp [encoder]
  previous := by simp [encoder]

theorem assertValidWireOp_wire {op : Op Number α} {ref : Option PathRef} (hop : op.PayloadValid)
    (href : okRef ref = .ok ()) : assertValidWireOp (op.wire ref) = .ok () := by
  cases op with
  | r value => rfl
  | s _ value => exact href
  | d _ => exact href
  | a _ text => exact href
  | t _ count => exact andThen_ok.mpr ⟨href, assertIndex_ok.mpr hop⟩
  | p _ index remove items =>
    exact andThen_ok.mpr ⟨href, andThen_ok.mpr ⟨assertIndex_ok.mpr hop.1, assertIndex_ok.mpr hop.2⟩⟩
  | m _ permutation => exact andThen_ok.mpr ⟨href, hop⟩

theorem take_ok {d : Decoder} {path' : Path Number} {ref : Option PathRef}
    (hresolve : d.resolve ref = .ok path') {f : Path Number → Op Number α}
    (hinner : (f path').inner = true → path' ≠ []) :
    d.take ref f = .ok ([f path'], { d with previous := some path' }) := by
  have hroot : ((f path').inner && path'.isEmpty) = false := by
    cases hin : (f path').inner with
    | false => rfl
    | true => simpa using hinner hin
  rw [Decoder.take, hresolve]
  simp [bind, Except.bind, hroot, pure, Except.pure]

/-- A tuple whose reference stands for a path as good as the operation's. -/
theorem pull_wire {d : Decoder} {op : Op Number α} {path path' : Path Number} (ref : Option PathRef)
    (hop : assertValidOp op = .ok ()) (hpath : op.path? = some path) (href : okRef ref = .ok ())
    (hresolve : d.resolve ref = .ok path') (hsame : SamePath path path') :
    d.pull (op.wire ref) = .ok ([op.at path'], { d with previous := some path' }) := by
  obtain ⟨hwalk, hpayload⟩ := assertValidOp_ok.mp hop
  have hvalid := assertValidWireOp_wire hpayload href
  have hinner : op.inner = true → path' ≠ [] := by
    intro hin hnil
    subst hnil
    exact (hwalk path hpath).1 hin (List.forall₂_nil_right_iff.mp hsame)
  cases op with
  | r value => cases hpath
  | _ =>
    unfold Decoder.pull
    rw [hvalid]
    exact take_ok hresolve hinner

theorem mapGet_mapSet_of_lt {e : Encoder} {d : Decoder} (h : Synced P e d) {key key' : Str} {id : Nat}
    {path : Path Number} (hpath : Holds P key path)
    (hget : mapGet (mapSet e.ids key e.nextId) key' = some id) :
    id < e.nextId + 1 ∧
      ∃ path', mapGet (mapSet d.paths e.nextId path) id = some path' ∧ Holds P key' path' := by
  rw [mapGet_mapSet] at hget
  split_ifs at hget with hkey
  · obtain rfl := Option.some.inj hget
    subst hkey
    exact ⟨Nat.lt_succ_self _, path, by rw [mapGet_mapSet, if_pos rfl], hpath⟩
  · obtain ⟨hlt, path', hpath', hholds⟩ := h.ids key' id hget
    exact ⟨Nat.lt_succ_of_lt hlt, path', by rw [mapGet_mapSet, if_neg (by omega), hpath'], hholds⟩

theorem pullAll_singleton {d d' : Decoder} {wire : WireOp α} {ops : List (Op Number α)}
    (h : d.pull wire = .ok (ops, d')) : d.pullAll [wire] = .ok (ops, d') := by
  simp [Decoder.pullAll, h, bind, Except.bind, pure, Except.pure]

theorem Synced.withPrevious {e : Encoder} {d : Decoder} (h : Synced P e d) {key : Str}
    {path : Path Number} (hholds : Holds P key path) :
    Synced P { e with previous := some key } { d with previous := some path } where
  ids := h.ids
  previous _ hkey := ⟨path, rfl, Option.some.inj hkey ▸ hholds⟩

theorem path?_at {op : Op Number α} {path : Path Number} (h : op.path? = some path)
    (path' : Path Number) : (op.at path').path? = some path' := by
  cases op <;> simp_all [Op.path?, Op.at]

/-- The tuples of an operation give it back, and both sides go on in step. -/
theorem pull_push (hP : ∀ path, P path → SafePath path) {e : Encoder} {d : Decoder}
    (h : Synced P e d) {op : Op Number α} (hop : ValidIn P op) :
    ∃ op' d', d.pullAll (e.push op).1 = .ok ([op'], d') ∧ SameIn P op op' ∧
      Synced P (e.push op).2 d' := by
  obtain ⟨hop, hin⟩ := hop
  unfold Encoder.push
  cases hpath : op.path? with
  | none =>
    cases op with
    | r value => exact ⟨.r value, decoder, rfl, ⟨.inl rfl, hin⟩, synced_new⟩
    | _ => cases hpath
  | some path =>
    have hholds : Holds P (pathKey path) path := ⟨rfl, hin path hpath⟩
    have hsafe : SafePath path := hP path hholds.2
    have hsame : ∀ {path'}, Holds P (pathKey path) path' → SamePath path path' := fun hp =>
      same_of_pathKey hsafe (hP _ hp.2) hp.1.symm
    have hback : ∀ {path'}, Holds P (pathKey path) path' → SameIn P op (op.at path') := fun hp =>
      ⟨.inr ⟨path, _, hpath, hsame hp, rfl⟩, fun q hq => by
        rw [path?_at hpath] at hq
        exact Option.some.inj hq ▸ hp.2⟩
    dsimp only
    split
    -- The path of the operation before.
    · rename_i hprevious
      obtain ⟨path', hpath', hholds'⟩ := h.previous _ hprevious.symm
      have hresolve : d.resolve none = .ok path' := by rw [Decoder.resolve, hpath']
      have hpull := pull_wire _ hop hpath rfl hresolve (hsame hholds')
      have hsynced := h.withPrevious hholds'
      rw [hprevious] at hsynced
      exact ⟨_, _, pullAll_singleton hpull, hback hholds', hsynced⟩
    · split
      -- A path that has an id.
      · rename_i id hid
        obtain ⟨-, path', hpath', hholds'⟩ := h.ids _ _ hid
        have hresolve : d.resolve (some (.id id)) = .ok path' := by rw [Decoder.resolve, hpath']
        have hpull := pull_wire _ hop hpath rfl hresolve (hsame hholds')
        exact ⟨_, _, pullAll_singleton hpull, hback hholds', h.withPrevious hholds'⟩
      · split
        -- The second use: the id is defined first.
        · have hdefined : Synced P
              { e with ids := mapSet e.ids (pathKey path) e.nextId, nextId := e.nextId + 1 }
              { d with paths := mapSet d.paths e.nextId path } :=
            ⟨fun _ _ hget => mapGet_mapSet_of_lt h hholds hget, h.previous⟩
          have hresolve : Decoder.resolve { d with paths := mapSet d.paths e.nextId path }
              (some (.id e.nextId)) = .ok path := by
            rw [Decoder.resolve, mapGet_mapSet, if_pos rfl]
          have hpull := pullAll_singleton (pull_wire _ hop hpath rfl hresolve (hsame hholds))
          have hdefine : d.pull (.define e.nextId path : WireOp α) =
              .ok ([], { d with paths := mapSet d.paths e.nextId path }) := by
            simp [Decoder.pull, assertValidWireOp, assertSafePath_ok.mpr hsafe, bind, Except.bind, pure,
              Except.pure]
          refine ⟨_, _, ?_, hback hholds, hdefined.withPrevious hholds⟩
          rw [Decoder.pullAll, hdefine]
          simp [bind, Except.bind, hpull, pure, Except.pure]
        -- The first use.
        · have hpull := pull_wire (d := d) (some (.path path)) hop hpath
            (assertSafePath_ok.mpr hsafe) rfl (hsame hholds)
          have hsynced := h.withPrevious hholds
          exact ⟨_, _, pullAll_singleton hpull, hback hholds, hsynced.ids, hsynced.previous⟩

end

/-! ## Batches -/

theorem pullAll_append {d d' d'' : Decoder} {wire rest : List (WireOp α)} {ops more : List (Op Number α)}
    (h : d.pullAll wire = .ok (ops, d')) (hrest : d'.pullAll rest = .ok (more, d'')) :
    d.pullAll (wire ++ rest) = .ok (ops ++ more, d'') := by
  induction wire generalizing d ops with
  | nil =>
    obtain ⟨rfl, rfl⟩ := Prod.mk.inj (Except.ok.inj h)
    exact hrest
  | cons op wire ih =>
    obtain ⟨⟨first, d₁⟩, hpull, h⟩ := bind_ok.mp h
    obtain ⟨⟨then_, d₂⟩, hpulls, h⟩ := bind_ok.mp h
    obtain ⟨rfl, rfl⟩ := Prod.mk.inj (Except.ok.inj h)
    refine bind_ok.mpr ⟨_, hpull, bind_ok.mpr ⟨_, ih hpulls, ?_⟩⟩
    rw [List.append_assoc]
    rfl

section

variable {P : Path Number → Prop} (hP : ∀ path, P path → SafePath path)

include hP

theorem pullAll_pushAll {ops : List (Op Number α)} (hops : ∀ op ∈ ops, ValidIn P op) {e : Encoder}
    {d : Decoder} (h : Synced P e d) :
    ∃ ops' d', d.pullAll (e.pushAll ops).1 = .ok (ops', d') ∧ List.Forall₂ (SameIn P) ops ops' ∧
      Synced P (e.pushAll ops).2 d' := by
  induction ops generalizing e d with
  | nil => exact ⟨[], d, rfl, .nil, h⟩
  | cons op ops ih =>
    rw [List.forall_mem_cons] at hops
    obtain ⟨op', d₁, hpull, hsame, h₁⟩ := pull_push hP h hops.1
    obtain ⟨ops', d₂, hpulls, hsames, h₂⟩ := ih hops.2 h₁
    exact ⟨op' :: ops', d₂, pullAll_append hpull hpulls, .cons hsame hsames, h₂⟩

/-- A batch comes back, and both sides go on in step. -/
theorem decode_encode {ops : List (Op Number α)} (hops : ∀ op ∈ ops, ValidIn P op) {e : Encoder}
    {d : Decoder} (h : Synced P e d) :
    ∃ ops' d', d.decode (e.encode ops).1 = .ok (ops', d') ∧ List.Forall₂ (SameIn P) ops ops' ∧
      Synced P (e.encode ops).2 d' :=
  pullAll_pushAll hP hops ⟨h.ids, by simp⟩

end

/-! ## Streams -/

/-- The batches that one encoder writes. -/
def Encoder.encodeAll (e : Encoder) : List (List (Op Number α)) → List (List (WireOp α))
  | [] => []
  | ops :: batches => (e.encode ops).1 :: (e.encode ops).2.encodeAll batches

/-- The batches that one decoder reads. -/
def Decoder.decodeAll (d : Decoder) :
    List (List (WireOp α)) → Except (DeltaError Number) (List (List (Op Number α)))
  | [] => .ok []
  | wire :: batches => do
    let (ops, d) ← d.decode wire
    let rest ← d.decodeAll batches
    pure (ops :: rest)

theorem decodeAll_encodeAll {P : Path Number → Prop} (hP : ∀ path, P path → SafePath path)
    {batches : List (List (Op Number α))} (hvalid : ∀ ops ∈ batches, ∀ op ∈ ops, ValidIn P op)
    {e : Encoder} {d : Decoder} (h : Synced P e d) :
    ∃ decoded, d.decodeAll (e.encodeAll batches) = .ok decoded ∧
      List.Forall₂ (List.Forall₂ (SameIn P)) batches decoded := by
  induction batches generalizing e d with
  | nil => exact ⟨[], rfl, .nil⟩
  | cons ops batches ih =>
    rw [List.forall_mem_cons] at hvalid
    obtain ⟨ops', d₁, hdecode, hsame, h₁⟩ := decode_encode hP hvalid.1 h
    obtain ⟨decoded, hrest, hsames⟩ := ih hvalid.2 h₁
    exact ⟨ops' :: decoded, bind_ok.mpr ⟨_, hdecode, bind_ok.mpr ⟨_, hrest, rfl⟩⟩, .cons hsame hsames⟩

/-! ## What comes back -/

/-- Every operation passes the encoder's check. -/
def ValidOps (ops : List (Op Number α)) : Prop := ∀ op ∈ ops, assertValidOp op = .ok ()

/-- No path of the operations holds a `-0`. -/
def PlainOps (ops : List (Op Number α)) : Prop := ∀ op ∈ ops, ∀ path ∈ op.path?, PlainPath path

/-- The same operations up to the sign of a zero in a path, and exactly the same where there is none. -/
def SameOps (ops ops' : List (Op Number α)) : Prop := List.Forall₂ Op.Same ops ops'

theorem ValidOps.safe {ops : List (Op Number α)} (h : ValidOps ops) :
    ∀ op ∈ ops, ValidIn SafePath op := fun op hop =>
  ⟨h op hop, fun path hpath => ((assertValidOp_ok.mp (h op hop)).1 path hpath).2⟩

theorem ValidOps.plain {ops : List (Op Number α)} (h : ValidOps ops) (hplain : PlainOps ops) :
    ∀ op ∈ ops, ValidIn PlainPath op := fun op hop => ⟨h op hop, hplain op hop⟩

theorem sameOps_of_forall₂ {P : Path Number → Prop} {ops ops' : List (Op Number α)}
    (h : List.Forall₂ (SameIn P) ops ops') : SameOps ops ops' :=
  h.imp fun _ _ h => h.1

theorem eq_of_forall₂_plain {ops ops' : List (Op Number α)} (hplain : PlainOps ops)
    (h : List.Forall₂ (SameIn PlainPath) ops ops') : ops = ops' := by
  induction h with
  | nil => rfl
  | @cons op op' _ _ hhead _ ih =>
    rw [PlainOps, List.forall_mem_cons] at hplain
    obtain ⟨hsame, hplain'⟩ := hhead
    refine congrArg₂ List.cons ?_ (ih hplain.2)
    rcases hsame with rfl | ⟨path, path', hpath, hsame, rfl⟩
    · rfl
    · rw [← hsame.eq_of_plain (hplain.1 path hpath) (hplain' path' (path?_at hpath path')),
        Op.at_path hpath]

/-- Batches decoded: up to the sign of zero, and exactly if there is no `-0`. -/
structure Restored (batches decoded : List (List (Op Number α))) : Prop where
  same : List.Forall₂ SameOps batches decoded
  exact : (∀ ops ∈ batches, PlainOps ops) → decoded = batches

theorem eq_of_forall₂_plain_batches {batches decoded : List (List (Op Number α))}
    (hplain : ∀ ops ∈ batches, PlainOps ops)
    (h : List.Forall₂ (List.Forall₂ (SameIn PlainPath)) batches decoded) : batches = decoded := by
  induction h with
  | nil => rfl
  | cons hhead _ ih =>
    rw [List.forall_mem_cons] at hplain
    rw [eq_of_forall₂_plain hplain.1 hhead, ih hplain.2]

/-- One decoder reads what one encoder wrote. -/
theorem restored_encodeAll {batches : List (List (Op Number α))}
    (hvalid : ∀ ops ∈ batches, ValidOps ops) :
    ∃ decoded, decoder.decodeAll (encoder.encodeAll batches) = .ok decoded ∧
      Restored batches decoded := by
  obtain ⟨decoded, hdecode, hsame⟩ :=
    decodeAll_encodeAll (fun _ => id) (fun ops hops => (hvalid ops hops).safe) synced_new
  refine ⟨decoded, hdecode, hsame.imp fun _ _ => sameOps_of_forall₂, fun hplain => ?_⟩
  obtain ⟨decoded', hdecode', hplain'⟩ := decodeAll_encodeAll (P := PlainPath) (fun _ => And.left)
    (fun ops hops => (hvalid ops hops).plain (hplain ops hops)) synced_new
  obtain rfl := Except.ok.inj (hdecode.symm.trans hdecode')
  exact (eq_of_forall₂_plain_batches hplain hplain').symm

/-! ## Recovery -/

/-- What an encoder writes from a base batch on does not depend on what it wrote before. -/
theorem encodeAll_of_isBase {ops : List (Op Number α)} (hbase : isBase ops = true) (e : Encoder)
    (batches : List (List (Op Number α))) :
    e.encodeAll (ops :: batches) = encoder.encodeAll (ops :: batches) := by
  cases ops with
  | nil => cases hbase
  | cons op ops =>
    cases op with
    | r value => rfl
    | _ => cases hbase

/-- The wire batches that come after some others. -/
theorem encodeAll_append (e : Encoder) (batches more : List (List (Op Number α))) :
    ∃ e' : Encoder, e.encodeAll (batches ++ more) = e.encodeAll batches ++ e'.encodeAll more := by
  induction batches generalizing e with
  | nil => exact ⟨e, rfl⟩
  | cons ops batches ih =>
    obtain ⟨e', h⟩ := ih (e.encode ops).2
    exact ⟨e', by simp [Encoder.encodeAll, h]⟩

theorem length_encodeAll (e : Encoder) (batches : List (List (Op Number α))) :
    (e.encodeAll batches).length = batches.length := by
  induction batches generalizing e with
  | nil => rfl
  | cons ops batches ih => simp [Encoder.encodeAll, ih]

/-- A fresh decoder may start at a base batch. -/
theorem restored_from_base {earlier batches : List (List (Op Number α))} {ops : List (Op Number α)}
    (hbase : isBase ops = true) (hvalid : ∀ ops' ∈ ops :: batches, ValidOps ops') :
    ∃ decoded, decoder.decodeAll
        ((encoder.encodeAll (earlier ++ ops :: batches)).drop earlier.length) = .ok decoded ∧
      Restored (ops :: batches) decoded := by
  obtain ⟨e', hsplit⟩ := encodeAll_append encoder earlier (ops :: batches)
  rw [hsplit, List.drop_left' (length_encodeAll encoder earlier), encodeAll_of_isBase hbase]
  exact restored_encodeAll hvalid

end Delta
