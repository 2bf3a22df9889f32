import ContextCompaction.Js.JsonOrder
import ContextCompaction.Preview.Fork

/-!
# Branches of a fork

`Walk`: a walk to the root, without fuel. Its entries are distinct, so `getBranch` finds it wherever
it ends.

* `getBranch_complete`: more steps than there are entries find no more branches.
* `getBranch_linked`: the branch of a chained list is the list.
-/

namespace Compaction

open Js

variable {byId : List (Str × SessionRecord)} {entries path read : List SessionRecord}
  {entry : SessionRecord} {id : Option Str} {fuel : Nat}

/-! ## Lookups -/

theorem lookup_eq_some : lookup byId id = some entry ↔
    ∃ key ≠ [], id = some key ∧ mapGet byId key = some entry := by
  unfold lookup
  cases id with
  | none => simp
  | some key => by_cases h : key = [] <;> simp [Option.filter, h]

theorem keys_records (entries : List SessionRecord) :
    (entries.map fun entry => (entry.id, entry)).map Prod.fst = entries.map SessionRecord.id := by
  rw [List.map_map]
  rfl

theorem recordsById_eq (h : (entries.map SessionRecord.id).Nodup) :
    recordsById entries = entries.map fun entry => (entry.id, entry) :=
  mapOf_eq_self (by rwa [keys_records])

theorem byId_of_mem (h : (entries.map SessionRecord.id).Nodup) (he : entry ∈ entries) :
    mapGet (recordsById entries) entry.id = some entry := by
  rw [recordsById_eq h, ← mem_iff_mapGet (by rwa [keys_records])]
  exact List.mem_map_of_mem he

theorem mem_of_byId {key : Str} (h : mapGet (recordsById entries) key = some entry) :
    entry ∈ entries ∧ entry.id = key := by
  rw [recordsById, mapGet_mapOf] at h
  obtain ⟨e, he, heq⟩ := List.mem_map.mp (List.mem_reverse.mp (mem_of_mapGet h))
  obtain ⟨rfl, rfl⟩ := Prod.mk.inj heq
  exact ⟨he, rfl⟩

/-! ## Walks -/

/-- The entries from one to its root. -/
inductive Walk (byId : List (Str × SessionRecord)) : Option SessionRecord → List SessionRecord → Prop
  | root : Walk byId none []
  | step {entry walk} : Walk byId (lookup byId entry.parentId) walk →
      Walk byId (some entry) (entry :: walk)

variable {start : Option SessionRecord} {walk walk' before after : List SessionRecord}

namespace Walk

theorem unique (h : Walk byId start walk) (h' : Walk byId start walk') : walk = walk' := by
  induction h generalizing walk' with
  | root =>
    cases h'
    rfl
  | step _ ih =>
    cases h' with
    | step h' => rw [ih h']

/-- From an entry of a walk on, the walk is that of the entry. -/
theorem suffix (h : Walk byId start (before ++ entry :: after)) :
    Walk byId (some entry) (entry :: after) := by
  induction before generalizing start with
  | nil =>
    cases h with
    | step h => exact .step h
  | cons e before ih =>
    cases h with
    | step h => exact ih h

theorem nodup (h : Walk byId start walk) : walk.Nodup := by
  induction h with
  | root => exact List.nodup_nil
  | @step entry walk h ih =>
    refine List.nodup_cons.mpr ⟨fun hmem => ?_, ih⟩
    obtain ⟨before, after, rfl⟩ := List.append_of_mem hmem
    -- the walk of a repeated entry would be longer than itself
    have hlength := congrArg List.length ((Walk.step h).unique h.suffix)
    simp only [List.length_cons, List.length_append] at hlength
    omega

theorem mem (h : Walk byId (lookup byId id) walk) :
    ∀ entry ∈ walk, ∃ key ≠ [], mapGet byId key = some entry := by
  generalize hstart : lookup byId id = start at h
  induction h generalizing id with
  | root => simp
  | @step entry walk h ih =>
    intro e he
    rcases List.mem_cons.mp he with rfl | he
    · obtain ⟨key, hkey, -, hget⟩ := lookup_eq_some.mp hstart
      exact ⟨key, hkey, hget⟩
    · exact ih rfl e he

end Walk

/-- The ancestors that are found are the walk to the root, given a round for each step. -/
theorem ancestors_eq_some :
    ancestors byId fuel start = some walk ↔ Walk byId start walk ∧ walk.length ≤ fuel := by
  induction fuel generalizing start walk with
  | zero =>
    cases start with
    | none =>
      refine ⟨fun h => ?_, fun ⟨h, _⟩ => ?_⟩
      · cases h
        exact ⟨.root, Nat.le_refl _⟩
      · cases h
        rfl
    | some entry =>
      constructor
      · intro h
        cases h
      · rintro ⟨h, hle⟩
        cases h
        cases hle
  | succ fuel ih =>
    cases start with
    | none =>
      refine ⟨fun h => ?_, fun ⟨h, _⟩ => ?_⟩
      · cases h
        exact ⟨.root, Nat.zero_le _⟩
      · cases h
        rfl
    | some entry =>
      rw [ancestors, Option.map_eq_some_iff]
      constructor
      · rintro ⟨walk', hwalk, rfl⟩
        obtain ⟨hwalk, hle⟩ := ih.mp hwalk
        exact ⟨.step hwalk, Nat.succ_le_succ hle⟩
      · rintro ⟨h, hle⟩
        cases h with
        | step h => exact ⟨_, ih.mpr ⟨h, Nat.le_of_succ_le_succ hle⟩, rfl⟩

theorem walk_length (h : Walk (recordsById entries) (lookup (recordsById entries) id) walk) :
    walk.length ≤ entries.length := by
  have hsub : walk ⊆ entries := fun e he => by
    obtain ⟨key, -, hget⟩ := h.mem e he
    exact (mem_of_byId hget).1
  exact (h.nodup.subperm hsub).length_le

theorem getBranch_eq_some : getBranch entries id = some path ↔
    Walk (recordsById entries) (lookup (recordsById entries) id) path.reverse := by
  unfold getBranch
  rw [Option.map_eq_some_iff]
  constructor
  · rintro ⟨walk, hwalk, rfl⟩
    rw [List.reverse_reverse]
    exact (ancestors_eq_some.mp hwalk).1
  · intro h
    exact ⟨path.reverse, ancestors_eq_some.mpr ⟨h, walk_length h⟩, List.reverse_reverse _⟩

/-- A walk that ends in any number of steps is found. -/
theorem getBranch_complete
    (h : ancestors (recordsById entries) fuel (lookup (recordsById entries) id) = some path.reverse) :
    getBranch entries id = some path :=
  getBranch_eq_some.mpr (ancestors_eq_some.mp h).1

/-! ## The shape of a branch -/

theorem leafId_cons (e : SessionRecord) (read : List SessionRecord) :
    leafId (e :: read) = (leafId read).or (some e.id) := by
  rw [leafId, List.getLast?_cons, leafId]
  cases read.getLast? <;> rfl

/-- The second part goes on from the last entry of the first. -/
theorem linked_append {previous : Option Str} {more : List SessionRecord} :
    linked previous (read ++ more) = (linked previous read &&
      linked ((leafId read).or previous) more) := by
  induction read generalizing previous with
  | nil => rfl
  | cons e read ih =>
    have hleaf : (leafId (e :: read)).or previous = (leafId read).or (some e.id) := by
      rw [leafId_cons]
      cases leafId read <;> rfl
    rw [List.cons_append, linked, linked, ih, hleaf, Bool.and_assoc]

theorem linked_append_singleton {previous : Option Str} :
    linked previous (read ++ [entry]) = (linked previous read &&
      decide (entry.parentId = (leafId read).or previous)) := by
  rw [linked_append, linked, linked, Bool.and_true]

/-- A walk read from the root is linked. -/
theorem Walk.linked (h : Walk byId start walk)
    (hids : ∀ key e, mapGet byId key = some e → e.id = key) :
    ∃ previous, linked previous walk.reverse = true ∧
      ∀ root ∈ walk.reverse.head?, root.parentId = previous := by
  induction h with
  | root => exact ⟨none, rfl, by simp⟩
  | @step entry walk h ih =>
    obtain ⟨previous, hlinked, hroot⟩ := ih
    rw [List.reverse_cons]
    cases h' : lookup byId entry.parentId with
    | none =>
      rw [h'] at h
      cases h
      exact ⟨entry.parentId, by simp [Compaction.linked], by simp⟩
    | some parent =>
      obtain ⟨key, -, hparent, hget⟩ := lookup_eq_some.mp h'
      rw [h'] at h
      cases h with
      | @step _ walk h =>
        refine ⟨previous, ?_, ?_⟩
        · rw [linked_append_singleton, hlinked, Bool.true_and, decide_eq_true_eq, hparent,
            ← hids key parent hget]
          simp [leafId]
        · intro root hr
          refine hroot root ?_
          cases hrest : walk.reverse <;> simp_all

/-- What the entries of a branch are. -/
structure IsBranch (path : List SessionRecord) : Prop where
  ids : (path.map SessionRecord.id).Nodup
  named : ∀ entry ∈ path, entry.id ≠ []
  linked : ∃ previous, linked previous path = true ∧ ∀ root ∈ path.head?, root.parentId = previous

theorem isBranch_of_getBranch (hids : (entries.map SessionRecord.id).Nodup)
    (h : getBranch entries id = some path) : IsBranch path := by
  have hwalk := getBranch_eq_some.mp h
  have hmem : ∀ e ∈ path, e ∈ entries ∧ e.id ≠ [] := fun e he => by
    obtain ⟨key, hkey, hget⟩ := hwalk.mem e (List.mem_reverse.mpr he)
    obtain ⟨hmem, rfl⟩ := mem_of_byId hget
    exact ⟨hmem, hkey⟩
  refine ⟨?_, fun e he => (hmem e he).2, ?_⟩
  · refine List.Nodup.map_on (fun a ha b hb hab => ?_) (List.nodup_reverse.mp hwalk.nodup)
    exact List.inj_on_of_nodup_map hids (hmem a ha).1 (hmem b hb).1 hab
  · have hlinked := hwalk.linked fun key e hget => (mem_of_byId hget).2
    rwa [List.reverse_reverse] at hlinked

/-- A chained list of named entries is the branch of its leaf. -/
theorem getBranch_linked (hids : (entries.map SessionRecord.id).Nodup)
    (hnamed : ∀ entry ∈ entries, entry.id ≠ []) (hlinked : linked none entries = true) :
    getBranch entries (leafId entries) = some entries := by
  have hwalk : ∀ read more, read ++ more = entries →
      Walk (recordsById entries) (lookup (recordsById entries) (leafId read)) read.reverse := by
    intro read
    induction read using List.reverseRecOn with
    | nil => exact fun _ _ => .root
    | append_singleton read entry ih =>
      intro more hmore
      have hmem : entry ∈ entries := hmore ▸ by simp
      have hleaf : lookup (recordsById entries) (leafId (read ++ [entry])) = some entry :=
        lookup_eq_some.mpr ⟨entry.id, hnamed entry hmem, by simp [leafId], byId_of_mem hids hmem⟩
      have hparent : entry.parentId = leafId read := by
        rw [← hmore, linked_append, linked_append_singleton] at hlinked
        simp only [Bool.and_eq_true, decide_eq_true_eq, Option.or_none] at hlinked
        exact hlinked.1.2
      rw [hleaf, List.reverse_append]
      refine .step ?_
      rw [hparent]
      exact ih (entry :: more) (by simpa using hmore)
  exact getBranch_eq_some.mpr (hwalk entries [] (List.append_nil _))

end Compaction
