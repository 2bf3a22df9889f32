import ContextCompaction.Core.Checkpoints

/-!
# Carried user messages

A checkpoint that was merged from work notes carries the user's own messages verbatim, behind the
rendered note.

* `coveredUserMessages`: the messages that a checkpoint carries.
* `writerSources`: what a writer reads beside the previous note.
* `assertUserMessages`: the check on every checkpoint of a branch.
* `assertUserMessages_append`: what passed on a branch passes on its extensions.
-/

namespace Compaction

open Js

def renderUserMessages (users : List SessionRecord) : Str :=
  lit "\n\n## Earlier user messages\nThe user's own messages up to this summary, verbatim and in order, as JSON lines. The note above does not restate them. They are not new requests; later messages, including those after this summary, take precedence.\n" ++
    join "\n" (users.map fun entry =>
      stringify (.obj [(lit "entryId", .str entry.id), (lit "text", .str (sourceText entry))]))

/-- The `details` of a compaction record, if they are an object. -/
def compactionDetails (entry : SessionRecord) : Option (List (Str × Json)) :=
  if entry.type = .compaction then entry.details.bind Json.obj? else none

/-- The `details` of a checkpoint that carries user messages, and `details.userMessages`. -/
def carriedList (entry : SessionRecord) : Option (List (Str × Json) × Json) :=
  (compactionDetails entry).bind fun details =>
    (field details "userMessages").map fun listed => (details, listed)

/-- The IDs that a notes checkpoint carries. -/
def carriedUserMessages (checkpoint : Option SessionRecord) : List Str :=
  ((checkpoint.bind carriedList).map fun p => p.2.strs).getD []

/-- The user messages that a checkpoint through `last` covers: those in context, and those an
earlier one carried. -/
def coveredUserMessages (branch : List SessionRecord) (active : Str → Bool) (last : Nat)
    (carried : List Str) : List SessionRecord :=
  (branch.zipIdx.filter fun e => e.1.isUser &&
    (decide (e.1.id ∈ carried) || (decide (e.2 ≤ last) && active e.1.id))).map Prod.fst

/-- What a writer reads beside the previous note: the messages that a notes checkpoint carried, and
every original behind the previous coverage. -/
def writerSources (branch : List SessionRecord) (previous : Option ValidatedMemory) :
    List SessionRecord :=
  let after := (previous.bind fun m =>
    branch.findIdx? fun entry => entry.id = m.coveredThrough).elim 0 (· + 1)
  let carried := carriedUserMessages (previous.map ValidatedMemory.entry)
  (branch.take after).filter (fun entry => entry.id ∈ carried) ++ branch.drop after

/-- The first position of each ID. -/
def firstPositions (branch : List SessionRecord) : List (Str × Nat) :=
  branch.zipIdx.foldl (fun positions e => mapSetFirst positions e.1.id e.2) []

/-- The messages that a list of IDs names, up to the first ID that is no user message behind the
one before and within the coverage. -/
def listedUsers (branch : List SessionRecord) (positions : List (Str × Nat)) (last : Int) :
    Int → List Json → List SessionRecord
  | _, [] => []
  | previous, id :: ids =>
    match (id.str?.bind (mapGet positions)).bind fun at_ => branch[at_]?.map fun r => (at_, r) with
    | some (at_, user) =>
      if at_ ≤ previous ∨ last < at_ ∨ !user.isUser then []
      else user :: listedUsers branch positions last at_ ids
    | none => []

/-- `String(details.coveredThrough)`. -/
def coveredText (details : List (Str × Json)) : Str :=
  ((field details "coveredThrough").map Json.text).getD (lit "undefined")

/-- The check on one record of a branch. -/
def assertUserMessagesOf (branch : List SessionRecord) (entry : SessionRecord) :
    Except Failure Unit :=
  match carriedList entry with
  | none => .ok ()
  | some (details, listed) =>
    let positions := firstPositions branch
    let last : Int := ((mapGet positions (coveredText details)).map Int.ofNat).getD (-1)
    let users := listedUsers branch positions last (-1) (listed.arr?.getD [])
    match listed.arr? with
    | some ids =>
      if ids = [] ∨ users.length ≠ ids.length ∨ ¬ renderUserMessages users <:+ entry.summary then
        .error (.ofText "CONTEXT_NOTE_QUOTE: the checkpoint's user messages do not match the originals")
      else .ok ()
    | none =>
      .error (.ofText "CONTEXT_NOTE_QUOTE: the checkpoint's user messages do not match the originals")

def assertUserMessages (branch : List SessionRecord) : Except Failure Unit :=
  branch.forM (assertUserMessagesOf branch)

/-! ## Positions -/

theorem mapGet_firstPositions (branch : List SessionRecord) (id : Str) :
    mapGet (firstPositions branch) id = branch.findIdx? fun entry => entry.id = id := by
  induction branch using List.reverseRecOn with
  | nil => rfl
  | append_singleton read entry ih =>
    have : firstPositions (read ++ [entry]) = mapSetFirst (firstPositions read) entry.id read.length := by
      simp [firstPositions, List.zipIdx_append]
    rw [this, mapGet_mapSetFirst, ih, List.findIdx?_append]
    by_cases h : entry.id = id <;> simp [h]

theorem findIdx?_append_of_some {branch : List SessionRecord} {id : Str} {k : Nat}
    (h : branch.findIdx? (fun entry => entry.id = id) = some k) (more : List SessionRecord) :
    (branch ++ more).findIdx? (fun entry => entry.id = id) = some k := by
  rw [List.findIdx?_append, h]
  rfl

/-- Where the IDs are distinct, each record is found at its own position. -/
theorem findIdx?_of_nodup {branch : List SessionRecord} (h : (branch.map SessionRecord.id).Nodup)
    {k : Nat} {entry : SessionRecord} (he : branch[k]? = some entry) :
    branch.findIdx? (fun r => r.id = entry.id) = some k := by
  obtain ⟨hk, rfl⟩ := List.getElem?_eq_some_iff.mp he
  rw [List.findIdx?_eq_some_iff_getElem]
  refine ⟨hk, by simp, fun j hj => ?_⟩
  simp only [decide_eq_true_eq]
  intro hid
  have hj' : j < (branch.map SessionRecord.id).length := by rw [List.length_map]; omega
  have hk' : k < (branch.map SessionRecord.id).length := by rw [List.length_map]; omega
  have hjk : (branch.map SessionRecord.id)[j] = (branch.map SessionRecord.id)[k] := by simpa using hid
  have := h.getElem_inj_iff.mp hjk
  omega

/-! ## Listed messages -/

/-- What the head of a full list is. -/
theorem listedUsers_cons {branch : List SessionRecord} {positions : List (Str × Nat)}
    {last previous : Int} {id : Json} {ids : List Json}
    (h : (listedUsers branch positions last previous (id :: ids)).length = (id :: ids).length) :
    ∃ s at_ user, id = .str s ∧ mapGet positions s = some at_ ∧ branch[at_]? = some user ∧
      previous < (at_ : Int) ∧ (at_ : Int) ≤ last ∧ user.isUser = true ∧
      listedUsers branch positions last previous (id :: ids) =
        user :: listedUsers branch positions last at_ ids ∧
      (listedUsers branch positions last at_ ids).length = ids.length := by
  rw [listedUsers] at h ⊢
  cases hm : (id.str?.bind (mapGet positions)).bind
      (fun at_ => branch[at_]?.map fun r => (at_, r)) with
  | none => simp [hm] at h
  | some p =>
    obtain ⟨at_, user⟩ := p
    simp only [hm] at h
    simp only [Option.bind_eq_some_iff, Json.str?_eq_some, Option.map_eq_some_iff,
      Prod.mk.injEq] at hm
    obtain ⟨k, ⟨s, hs, hk⟩, user', hu, rfl, rfl⟩ := hm
    by_cases hbad : (k : Int) ≤ previous ∨ last < (k : Int) ∨ (!user'.isUser) = true
    · rw [if_pos hbad] at h
      simp at h
    · rw [if_neg hbad] at h
      simp only [not_or, Bool.not_eq_true, Bool.not_eq_false'] at hbad
      refine ⟨s, k, user', hs, hk, hu, by omega, by omega, hbad.2.2, ?_, by simpa using h⟩
      simp only [hbad.2.2, Bool.not_true, Bool.false_eq_true, or_false]
      rw [if_neg (by omega)]

/-- A full list stays full when records are appended. -/
theorem listedUsers_append {branch : List SessionRecord} (more : List SessionRecord)
    {last previous : Int} {ids : List Json}
    (h : (listedUsers branch (firstPositions branch) last previous ids).length = ids.length) :
    listedUsers (branch ++ more) (firstPositions (branch ++ more)) last previous ids =
      listedUsers branch (firstPositions branch) last previous ids := by
  induction ids generalizing previous with
  | nil => rfl
  | cons id ids ih =>
    obtain ⟨s, at_, user, rfl, hs, hu, hp, hl, huser, heq, hrest⟩ := listedUsers_cons h
    rw [heq, ← ih hrest]
    have hs' : mapGet (firstPositions (branch ++ more)) s = some at_ := by
      rw [mapGet_firstPositions] at hs ⊢
      exact findIdx?_append_of_some hs more
    have hu' : (branch ++ more)[at_]? = some user := by
      rw [List.getElem?_append_left (List.getElem?_eq_some_iff.mp hu).1, hu]
    have hgood : ¬ ((at_ : Int) ≤ previous ∨ last < (at_ : Int) ∨ (!user.isUser) = true) := by
      rintro (h | h | h)
      · omega
      · omega
      · simp [huser] at h
    rw [listedUsers]
    simp only [Json.str?_str, Option.bind_some, hs', hu', Option.map_some, hgood, ↓reduceIte]

/-- The IDs of a full list lie within the coverage. -/
theorem listedUsers_le {branch : List SessionRecord} {last previous : Int} {ids : List Json}
    (h : (listedUsers branch (firstPositions branch) last previous ids).length = ids.length)
    {s : Str} (hs : .str s ∈ ids) :
    ∃ k : Nat, branch.findIdx? (fun entry => entry.id = s) = some k ∧ (k : Int) ≤ last := by
  induction ids generalizing previous with
  | nil => simp at hs
  | cons id ids ih =>
    obtain ⟨s', at_, user, rfl, hpos, -, -, hl, -, -, hrest⟩ := listedUsers_cons h
    rcases List.mem_cons.mp hs with hs | hs
    · obtain rfl := Json.str.inj hs
      exact ⟨at_, by rw [← mapGet_firstPositions, hpos], hl⟩
    · exact ih hrest hs

/-- User messages in branch order, named by their IDs, are listed in full. -/
theorem listedUsers_of_pairwise (branch : List SessionRecord) (last previous : Int)
    (es : List (SessionRecord × Nat)) (hes : ∀ e ∈ es, branch[e.2]? = some e.1 ∧
      mapGet (firstPositions branch) e.1.id = some e.2 ∧ e.1.isUser = true ∧ (e.2 : Int) ≤ last)
    (hs : (es.map Prod.snd).Pairwise (· < ·)) (hp : ∀ e ∈ es, previous < (e.2 : Int)) :
    listedUsers branch (firstPositions branch) last previous (es.map fun e => .str e.1.id) =
      es.map Prod.fst := by
  induction es generalizing previous with
  | nil => rfl
  | cons e es ih =>
    obtain ⟨hget, hpos, huser, hl⟩ := hes e List.mem_cons_self
    have hprev := hp e List.mem_cons_self
    rw [List.map_cons, List.pairwise_cons] at hs
    have hgood : ¬ ((e.2 : Int) ≤ previous ∨ last < (e.2 : Int) ∨ (!e.1.isUser) = true) := by
      rintro (h | h | h)
      · omega
      · omega
      · simp [huser] at h
    rw [List.map_cons, listedUsers]
    simp only [Json.str?_str, Option.bind_some, hpos, hget, Option.map_some, hgood, ↓reduceIte,
      List.map_cons]
    rw [ih _ (fun e' he' => hes e' (List.mem_cons_of_mem _ he')) hs.2 fun e' he' => ?_]
    have := hs.1 e'.2 (List.mem_map_of_mem he')
    omega

/-! ## Extensions -/

/-- What the check on one record establishes of the IDs that it carries. -/
structure Carries (branch : List SessionRecord) (entry : SessionRecord)
    (details : List (Str × Json)) (ids : List Json) (last : Nat) : Prop where
  nonempty : ids ≠ []
  covered : branch.findIdx? (fun r => r.id = coveredText details) = some last
  full : (listedUsers branch (firstPositions branch) last (-1) ids).length = ids.length
  rendered : renderUserMessages (listedUsers branch (firstPositions branch) last (-1) ids) <:+
    entry.summary

/-- A checkpoint passes when it lists no user messages or carries those it lists. -/
theorem assertUserMessagesOf_ok {branch : List SessionRecord} {entry : SessionRecord} :
    assertUserMessagesOf branch entry = .ok () ↔
      ∀ details listed, carriedList entry = some (details, listed) →
        ∃ ids last, listed = .arr ids ∧ Carries branch entry details ids last := by
  unfold assertUserMessagesOf
  cases hd : carriedList entry with
  | none => simp
  | some p =>
    obtain ⟨details, listed⟩ := p
    simp only [Option.some.injEq, mapGet_firstPositions, Prod.mk.injEq, and_imp]
    cases ha : listed.arr? with
    | none =>
      refine iff_of_false (by simp) fun h => ?_
      obtain ⟨ids, -, rfl, -⟩ := h details listed rfl rfl
      simp at ha
    | some ids =>
      obtain rfl := Json.arr?_eq_some.mp ha
      simp only [Option.getD_some]
      constructor
      · rintro h _ _ rfl rfl
        split_ifs at h with hbad
        simp only [not_or, not_not] at hbad
        obtain ⟨h1, h2, h3⟩ := hbad
        cases hc : branch.findIdx? (fun r => decide (r.id = coveredText details)) with
        | none =>
          rw [hc] at h2
          obtain ⟨id, ids, rfl⟩ := List.exists_cons_of_ne_nil h1
          obtain ⟨_, k, _, -, -, -, _, hle, -⟩ := listedUsers_cons h2
          simp at hle
          omega
        | some last =>
          rw [hc] at h2 h3
          exact ⟨ids, last, rfl, h1, hc, h2, h3⟩
      · intro h
        obtain ⟨_, last, hids, h1, hc, h2, h3⟩ := h details _ rfl rfl
        obtain rfl := Json.arr.inj hids
        rw [hc]
        exact if_neg fun hbad => hbad.elim h1 fun hbad => hbad.elim (fun hn => hn h2) fun hn => hn h3

theorem Carries.append {branch : List SessionRecord} {entry : SessionRecord}
    {details : List (Str × Json)} {ids : List Json} {last : Nat}
    (h : Carries branch entry details ids last) (more : List SessionRecord) :
    Carries (branch ++ more) entry details ids last := by
  have heq := listedUsers_append more h.full
  exact ⟨h.nonempty, findIdx?_append_of_some h.covered more, heq ▸ h.full, heq ▸ h.rendered⟩

theorem assertUserMessages_ok {branch : List SessionRecord} :
    assertUserMessages branch = .ok () ↔ ∀ entry ∈ branch, assertUserMessagesOf branch entry = .ok () :=
  forM_ok branch _

/-- What passed on a branch passes on each extension. -/
theorem assertUserMessagesOf_append {branch : List SessionRecord} {entry : SessionRecord}
    (h : assertUserMessagesOf branch entry = .ok ()) (more : List SessionRecord) :
    assertUserMessagesOf (branch ++ more) entry = .ok () := by
  rw [assertUserMessagesOf_ok] at h ⊢
  intro details listed hd
  obtain ⟨ids, last, hids, hc⟩ := h details listed hd
  exact ⟨ids, last, hids, hc.append more⟩

/-- A record that is no checkpoint has nothing to check. -/
theorem assertUserMessagesOf_of_type {branch : List SessionRecord} {entry : SessionRecord}
    (h : entry.type ≠ .compaction) : assertUserMessagesOf branch entry = .ok () := by
  simp [assertUserMessagesOf, carriedList, compactionDetails, h]

/-- Records that are no checkpoints pass behind a branch that passed. -/
theorem assertUserMessages_append {branch more : List SessionRecord}
    (h : assertUserMessages branch = .ok ()) (hmore : ∀ r ∈ more, r.type ≠ .compaction) :
    assertUserMessages (branch ++ more) = .ok () := by
  refine assertUserMessages_ok.mpr fun r hr => ?_
  rcases List.mem_append.mp hr with hr | hr
  · exact assertUserMessagesOf_append (assertUserMessages_ok.mp h r hr) _
  · exact assertUserMessagesOf_of_type (hmore r hr)

end Compaction
