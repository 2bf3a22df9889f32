import ContextCompaction.Context.Messages

/-!
# The entries that a conversation sees

A store holds the entries of all conversations under IDs that one counter mints. A conversation sees its
own entries and, of the conversation that it was forked from, those up to the fork; scans walk this
chain, newest entry first, and return it in pages.

* `visible`: the entries that a conversation sees, oldest first.
* `scanRange_eq`, `findLatestHeadMarker_eq`, `entry_eq`: what the reads of the store find among them.
* `Commits.visible`: commits add behind them.
-/

namespace Context

open Js

/-- Where a conversation was forked off. -/
structure Parent where
  conversationId : ConversationId
  /-- The entry of the fork; later ones of the parent are not seen. -/
  forkedAt : EntryId
  deriving DecidableEq

/-- A conversation, which may be a fork of another. -/
structure ConversationRecord where
  id : ConversationId
  parent : Option Parent
  deriving DecidableEq

/-- Conversations, and entries in the order of their IDs. Each ID is below the next that is minted, and a
conversation's is below those of its entries, and above its parent's and that of its fork. -/
structure Store where
  conversations : List ConversationRecord
  entries : List EntryRecord
  nextId : Nat
  ordered : entries.Pairwise fun e e' => e.id < e'.id
  mintedEntries : ∀ e ∈ entries, e.id < nextId
  mintedConversations : ∀ c ∈ conversations, c.id < nextId
  owned : ∀ e ∈ entries, ∃ c ∈ conversations, c.id = e.conversationId
  born : ∀ e ∈ entries, e.conversationId < e.id
  forks : ∀ c ∈ conversations, ∀ p ∈ c.parent,
    p.conversationId < c.id ∧ p.forkedAt < c.id ∧ ∃ c' ∈ conversations, c'.id = p.conversationId

/-- A store without conversations, the first ID still to be minted. -/
def Store.empty : Store where
  conversations := []
  entries := []
  nextId := 1
  ordered := .nil
  mintedEntries := by simp
  mintedConversations := by simp
  owned := by simp
  born := by simp
  forks := by simp

/-- Why a read is refused. -/
inductive ReadError where
  | unknownConversation (id : ConversationId)
  | notVisible (at_ : EntryId) (conversationId : ConversationId)
  deriving DecidableEq

namespace Store

variable (s : Store)

def conversation? (id : ConversationId) : Option ConversationRecord :=
  s.conversations.find? fun c => c.id = id

/-- Whether an ID is up to a bound; `none` is infinite. -/
def within (upper : Option Int) (id : EntryId) : Bool := upper.all fun u => decide ((id : Int) ≤ u)

/-- `Math.min(upperEntryId, parent.at)` -/
def narrow (upper : Option Int) (forkedAt : EntryId) : Int := upper.elim forkedAt (min · forkedAt)

/-- The walk up the forks. A parent's ID is below its child's, so a conversation's ID bounds the rounds. -/
def visibleFrom (minEntryId : Nat) : Nat → ConversationId → Option Int → List EntryRecord
  | 0, _, _ => []
  | rounds + 1, currentId, upperEntryId =>
    (s.entries.filter fun e => e.conversationId = currentId && within upperEntryId e.id &&
      decide (minEntryId ≤ e.id)).reverse ++
    match (s.conversation? currentId).bind ConversationRecord.parent with
    | none => []
    | some parent =>
      let upperEntryId := narrow upperEntryId parent.forkedAt
      if upperEntryId < minEntryId then []
      else visibleFrom minEntryId rounds parent.conversationId (some upperEntryId)

/-- The visible entries within bounds, newest first. -/
def visibleEntries (conversationId : ConversationId) (minEntryId : Nat) (maxEntryId : Option Int) :
    Except ReadError (List EntryRecord) :=
  if (s.conversation? conversationId).isNone then .error (.unknownConversation conversationId)
  else .ok (s.visibleFrom minEntryId (conversationId + 1) conversationId maxEntryId)

/-- A visible entry. -/
def entry (conversationId : ConversationId) (id : EntryId) : Except ReadError (Option EntryRecord) :=
  (s.visibleEntries conversationId id (some id)).map List.head?

/-- The walk up the forks to the first that has a head marker. -/
def headFrom : Nat → ConversationId → Option Int → Option EntryRecord
  | 0, _, _ => none
  | rounds + 1, currentId, upperEntryId =>
    match (s.entries.filter fun e => e.conversationId = currentId && e.head.isSome &&
        within upperEntryId e.id).getLast? with
    | some marker => some marker
    | none =>
      match (s.conversation? currentId).bind ConversationRecord.parent with
      | none => none
      | some parent =>
        headFrom rounds parent.conversationId (some (narrow upperEntryId parent.forkedAt))

/-- The latest context marker that the conversation sees, at or before the given entry. -/
def findLatestHeadMarker (conversationId : ConversationId) (atOrBeforeEntryId : EntryId) :
    Except ReadError (Option EntryRecord) :=
  if (s.conversation? conversationId).isNone then .error (.unknownConversation conversationId)
  else .ok (s.headFrom (conversationId + 1) conversationId (some atOrBeforeEntryId))

/-! ## Scans -/

/-- A page of entries and the cursor of the next one. -/
structure Page where
  items : List EntryRecord
  /-- The last ID of the page, if there are more entries. -/
  next : Option EntryId

/-- The first `limit` entries, with a cursor if there are more. -/
def page (values : List EntryRecord) (limit : Nat) : Page :=
  let items := values.take limit
  ⟨items, if values.length ≤ limit then none else items.getLast?.map EntryRecord.id⟩

/-- `Math.min(maxEntryId ?? after, after - 1)` -/
def scanUpper (maxEntryId cursor : Option EntryId) : Option Int :=
  match cursor with
  | none => maxEntryId.map fun id : EntryId => (id : Int)
  | some after => some (min (maxEntryId.getD after : Int) (after - 1))

/-- One page of the visible range, newest first. -/
def scanEntries (conversationId : ConversationId) (minEntryId : Option EntryId)
    (maxEntryId : Option EntryId) (limit : Nat) (cursor : Option EntryId) : Except ReadError Page :=
  (s.visibleEntries conversationId (minEntryId.getD 0) (scanUpper maxEntryId cursor)).map
    fun visible => page (visible.take (limit + 1)) limit

/-- The number of entries that a scan asks for at a time. -/
def SCAN_PAGE_SIZE : Nat := 256

/-- The pages from a cursor on, of at most so many rounds. -/
def scanPages (conversationId : ConversationId) (minEntryId maxEntryId : Option EntryId) :
    Nat → Option EntryId → Except ReadError (List EntryRecord)
  | 0, _ => .ok []
  | rounds + 1, cursor => do
    let page ← s.scanEntries conversationId minEntryId maxEntryId SCAN_PAGE_SIZE cursor
    match page.next with
    | none => pure page.items
    | some next => do
      let rest ← scanPages conversationId minEntryId maxEntryId rounds (some next)
      pure (page.items ++ rest)

/-- The visible entries within a range, oldest first. A page that is not the last one is full, so there
are no more pages than entries, and one. -/
def scanRange (conversationId : ConversationId) (minEntryId maxEntryId : Option EntryId) :
    Except ReadError (List EntryRecord) :=
  (s.scanPages conversationId minEntryId maxEntryId (s.entries.length + 1) none).map List.reverse

/-- The entries that a conversation sees, oldest first. -/
def visible (conversationId : ConversationId) : List EntryRecord :=
  (s.visibleFrom 0 (conversationId + 1) conversationId none).reverse

/-! ## Commits -/

variable {s}

/-- An entry under a new ID. -/
def commitEntry (s : Store) (e : EntryRecord) (hid : s.nextId ≤ e.id)
    (hconversation : ∃ c ∈ s.conversations, c.id = e.conversationId) : Store where
  conversations := s.conversations
  entries := s.entries ++ [e]
  nextId := e.id + 1
  ordered := by
    rw [List.pairwise_append]
    refine ⟨s.ordered, List.pairwise_singleton _ _, fun x hx y hy => ?_⟩
    obtain rfl := List.mem_singleton.mp hy
    exact Nat.lt_of_lt_of_le (s.mintedEntries x hx) hid
  mintedEntries := by
    intro x hx
    rcases List.mem_append.mp hx with hx | hx
    · exact Nat.lt_succ_of_lt (Nat.lt_of_lt_of_le (s.mintedEntries x hx) hid)
    · obtain rfl := List.mem_singleton.mp hx
      exact Nat.lt_succ_self _
  mintedConversations c hc :=
    Nat.lt_succ_of_lt (Nat.lt_of_lt_of_le (s.mintedConversations c hc) hid)
  owned := by
    intro x hx
    rcases List.mem_append.mp hx with hx | hx
    · exact s.owned x hx
    · obtain rfl := List.mem_singleton.mp hx
      exact hconversation
  born := by
    intro x hx
    rcases List.mem_append.mp hx with hx | hx
    · exact s.born x hx
    · obtain rfl := List.mem_singleton.mp hx
      obtain ⟨c, hc, heq⟩ := hconversation
      rw [← heq]
      exact Nat.lt_of_lt_of_le (s.mintedConversations c hc) hid
  forks := s.forks

/-- A conversation under a new ID, forked from another or not. -/
def commitConversation (s : Store) (c : ConversationRecord) (hid : s.nextId ≤ c.id)
    (hfork : ∀ p ∈ c.parent, p.forkedAt < s.nextId ∧ ∃ c' ∈ s.conversations, c'.id = p.conversationId) :
    Store where
  conversations := s.conversations ++ [c]
  entries := s.entries
  nextId := c.id + 1
  ordered := s.ordered
  mintedEntries e he := Nat.lt_succ_of_lt (Nat.lt_of_lt_of_le (s.mintedEntries e he) hid)
  mintedConversations := by
    intro x hx
    rcases List.mem_append.mp hx with hx | hx
    · exact Nat.lt_succ_of_lt (Nat.lt_of_lt_of_le (s.mintedConversations x hx) hid)
    · obtain rfl := List.mem_singleton.mp hx
      exact Nat.lt_succ_self _
  owned e he := by
    obtain ⟨c', hc', heq⟩ := s.owned e he
    exact ⟨c', List.mem_append_left _ hc', heq⟩
  born := s.born
  forks := by
    intro x hx p hp
    rcases List.mem_append.mp hx with hx | hx
    · obtain ⟨hparent, hat, c', hc', heq⟩ := s.forks x hx p hp
      exact ⟨hparent, hat, c', List.mem_append_left _ hc', heq⟩
    · obtain rfl := List.mem_singleton.mp hx
      obtain ⟨hat, c', hc', heq⟩ := hfork p hp
      refine ⟨?_, Nat.lt_of_lt_of_le hat hid, c', List.mem_append_left _ hc', heq⟩
      rw [← heq]
      exact Nat.lt_of_lt_of_le (s.mintedConversations c' hc') hid

/-- Some commits, of one conversation or another. -/
inductive Commits (s : Store) : Store → Prop where
  | refl : Commits s s
  | entry {s' : Store} (h : Commits s s') (e : EntryRecord) (hid : s'.nextId ≤ e.id)
      (hconversation : ∃ c ∈ s'.conversations, c.id = e.conversationId) :
      Commits s (s'.commitEntry e hid hconversation)
  | conversation {s' : Store} (h : Commits s s') (c : ConversationRecord) (hid : s'.nextId ≤ c.id)
      (hfork : ∀ p ∈ c.parent,
        p.forkedAt < s'.nextId ∧ ∃ c' ∈ s'.conversations, c'.id = p.conversationId) :
      Commits s (s'.commitConversation c hid hfork)

/-! ## The chain -/

/-- What a walk of so many rounds sees from a conversation, newest first. -/
def chain (s : Store) (rounds : Nat) (id : ConversationId) : List EntryRecord := s.visibleFrom 0 rounds id none

/-- The conversation that another was forked from, and the entry of the fork. -/
def parent? (s : Store) (id : ConversationId) : Option Parent :=
  (s.conversation? id).bind ConversationRecord.parent

/-- A conversation's own entries. -/
def own (s : Store) (id : ConversationId) : List EntryRecord :=
  s.entries.filter fun e => e.conversationId = id

theorem parent?_forks {id : ConversationId} {p : Parent} (h : s.parent? id = some p) :
    p.conversationId < id ∧ p.forkedAt < id ∧ id < s.nextId := by
  obtain ⟨c, hc, hp⟩ := Option.bind_eq_some_iff.mp h
  have hmem := List.mem_of_find?_eq_some hc
  have hid : c.id = id := by simpa using List.find?_some hc
  obtain ⟨hparent, hat, -⟩ := s.forks c hmem p hp
  exact hid ▸ ⟨hparent, hat, s.mintedConversations c hmem⟩

theorem own_spec {id : ConversationId} {e : EntryRecord} (h : e ∈ s.own id) :
    e ∈ s.entries ∧ e.conversationId = id ∧ id < e.id := by
  obtain ⟨hmem, hid⟩ := List.mem_filter.mp h
  have hid := of_decide_eq_true hid
  exact ⟨hmem, hid, hid ▸ s.born e hmem⟩

@[simp] theorem narrow_none (at_ : EntryId) : narrow none at_ = at_ := rfl

theorem le_narrow {upper : Option Int} {at_ : EntryId} {u : Int} :
    u ≤ narrow upper at_ ↔ (∀ v ∈ upper, u ≤ v) ∧ u ≤ at_ := by
  cases upper <;> simp [narrow]

theorem within_iff {upper : Option Int} {id : EntryId} :
    within upper id = true ↔ ∀ u ∈ upper, (id : Int) ≤ u := by
  cases upper <;> simp [within]

/-- A walk within bounds sees what is within them of what a walk without bounds sees. -/
theorem visibleFrom_eq_filter (lo rounds : Nat) (id : ConversationId) (upper : Option Int) :
    s.visibleFrom lo rounds id upper =
      (s.chain rounds id).filter fun e => within upper e.id && decide (lo ≤ e.id) := by
  induction rounds generalizing lo id upper with
  | zero => rfl
  | succ rounds ih =>
    rw [chain, visibleFrom, visibleFrom, List.filter_append, ← List.filter_reverse,
      ← List.filter_reverse, List.filter_filter]
    congr 1
    · refine List.filter_congr fun e _ => ?_
      simp [within, Bool.and_comm, Bool.and_left_comm]
    · cases hparent : (s.conversation? id).bind ConversationRecord.parent with
      | none => rfl
      | some p =>
        dsimp only
        rw [if_neg (c := narrow none p.forkedAt < ((0 : Nat) : Int)) (by simp), ih 0, List.filter_filter]
        split_ifs with hlow
        · refine (List.filter_eq_nil_iff.mpr fun e _ hin => ?_).symm
          simp only [Bool.and_eq_true, within_iff, decide_eq_true_eq] at hin
          obtain ⟨⟨hupper, hlo⟩, hfork, -⟩ := hin
          have := hfork _ rfl
          have := le_narrow.mpr ⟨hupper, this⟩
          omega
        · rw [ih lo]
          refine List.filter_congr fun e _ => ?_
          rw [Bool.eq_iff_iff]
          simp only [Bool.and_eq_true, within_iff, decide_eq_true_eq, Option.mem_def,
            Option.some.injEq, forall_eq', le_narrow, narrow_none, Nat.zero_le]
          tauto

/-- A chain is the conversation's own entries, newest first, and then the parent's up to the fork. -/
theorem chain_succ (rounds : Nat) (id : ConversationId) :
    s.chain (rounds + 1) id = (s.own id).reverse ++
      match s.parent? id with
      | none => []
      | some p => (s.chain rounds p.conversationId).filter fun e => e.id ≤ p.forkedAt := by
  rw [chain, visibleFrom, own, parent?]
  congr 1
  · congr 1
    exact List.filter_congr fun e _ => by simp [within]
  · cases (s.conversation? id).bind ConversationRecord.parent with
    | none => rfl
    | some p =>
      dsimp only
      rw [if_neg (by simp), visibleFrom_eq_filter]
      exact List.filter_congr fun e _ => by simp [within]

/-- The ID of a conversation bounds the rounds of its walk. -/
theorem chain_rounds {rounds rounds' : Nat} {id : ConversationId} (h : id < rounds) (h' : id < rounds') :
    s.chain rounds id = s.chain rounds' id := by
  induction rounds generalizing rounds' id with
  | zero => exact absurd h (Nat.not_lt_zero _)
  | succ rounds ih =>
    cases rounds' with
    | zero => exact absurd h' (Nat.not_lt_zero _)
    | succ rounds' =>
      rw [chain_succ, chain_succ]
      congr 1
      cases hparent : s.parent? id with
      | none => rfl
      | some p =>
        have hlt := (parent?_forks hparent).1
        dsimp only
        rw [ih (Nat.lt_of_lt_of_le hlt (Nat.le_of_lt_succ h))
          (Nat.lt_of_lt_of_le hlt (Nat.le_of_lt_succ h'))]

/-- A chain holds entries of the store only. -/
theorem mem_chain {rounds : Nat} {id : ConversationId} {e : EntryRecord} (h : e ∈ s.chain rounds id) :
    e ∈ s.entries := by
  induction rounds generalizing id with
  | zero => cases h
  | succ rounds ih =>
    rw [chain_succ] at h
    rcases List.mem_append.mp h with h | h
    · exact (own_spec (List.mem_reverse.mp h)).1
    · cases hparent : s.parent? id with
      | none =>
        rw [hparent] at h
        cases h
      | some p =>
        rw [hparent] at h
        exact ih (List.mem_of_mem_filter h)

/-- A walk sees newer entries first: what a parent shows is older than the fork, and the fork is older
than the conversation's own entries. -/
theorem chain_descending (rounds : Nat) (id : ConversationId) :
    (s.chain rounds id).Pairwise fun e e' => e'.id < e.id := by
  induction rounds generalizing id with
  | zero => exact .nil
  | succ rounds ih =>
    rw [chain_succ, List.pairwise_append]
    refine ⟨List.pairwise_reverse.mpr (s.ordered.sublist List.filter_sublist), ?_, ?_⟩
    · cases s.parent? id with
      | none => exact .nil
      | some p => exact (ih p.conversationId).sublist List.filter_sublist
    · intro e he e' he'
      cases hparent : s.parent? id with
      | none =>
        rw [hparent] at he'
        cases he'
      | some p =>
        rw [hparent] at he'
        have hfork : e'.id ≤ p.forkedAt := of_decide_eq_true (List.mem_filter.mp he').2
        exact Nat.lt_of_le_of_lt hfork
          ((parent?_forks hparent).2.1.trans (own_spec (List.mem_reverse.mp he)).2.2)

/-- The walk for a head marker finds the first one that the other walk sees. -/
theorem headFrom_eq (rounds : Nat) (id : ConversationId) (upper : Option Int) :
    s.headFrom rounds id upper =
      ((s.chain rounds id).filter fun e => within upper e.id).find? fun e => e.head.isSome := by
  induction rounds generalizing id upper with
  | zero => rfl
  | succ rounds ih =>
    have hown : (s.entries.filter fun e => e.conversationId = id && e.head.isSome &&
        within upper e.id).getLast? =
          ((s.own id).reverse.filter fun e => within upper e.id).find? fun e => e.head.isSome := by
      rw [← List.head?_filter, List.filter_filter, own, ← List.filter_reverse, List.filter_filter,
        List.filter_reverse, List.head?_reverse]
      congr 1
      exact List.filter_congr fun e _ => by
        simp [Bool.and_assoc, Bool.and_comm]
    rw [chain_succ, List.filter_append, List.find?_append, headFrom, hown]
    cases ((s.own id).reverse.filter fun e => within upper e.id).find? fun e => e.head.isSome with
    | some marker => rfl
    | none =>
      rw [Option.none_or, parent?]
      cases (s.conversation? id).bind ConversationRecord.parent with
      | none => rfl
      | some p =>
        dsimp only
        rw [ih, List.filter_filter]
        congr 1
        refine List.filter_congr fun e _ => ?_
        rw [Bool.eq_iff_iff]
        simp only [Bool.and_eq_true, within_iff, decide_eq_true_eq, Option.mem_def,
          Option.some.injEq, forall_eq', le_narrow]
        norm_cast

/-! ## What the reads find -/

theorem visible_ordered (s : Store) (conversationId : ConversationId) :
    (s.visible conversationId).Pairwise fun e e' => e.id < e'.id :=
  List.pairwise_reverse.mpr (chain_descending _ _)

theorem mem_visible {conversationId : ConversationId} {e : EntryRecord}
    (h : e ∈ s.visible conversationId) : e ∈ s.entries :=
  mem_chain (List.mem_reverse.mp h)

/-- No entry is visible from an unknown conversation. -/
theorem known_of_visible {conversationId : ConversationId} {e : EntryRecord}
    (h : e ∈ s.visible conversationId) : (s.conversation? conversationId).isSome := by
  have h : e ∈ s.chain (conversationId + 1) conversationId := List.mem_reverse.mp h
  rw [chain_succ] at h
  rcases List.mem_append.mp h with h | h
  · obtain ⟨hmem, hid, -⟩ := own_spec (List.mem_reverse.mp h)
    obtain ⟨c, hc, heq⟩ := s.owned e hmem
    exact List.find?_isSome.mpr ⟨c, hc, by simp [heq, hid]⟩
  · rw [parent?] at h
    cases hconversation : s.conversation? conversationId with
    | none =>
      rw [hconversation] at h
      cases h
    | some c => rfl

theorem visible_unique {conversationId : ConversationId} {e e' : EntryRecord}
    (he : e ∈ s.visible conversationId) (he' : e' ∈ s.visible conversationId) (h : e.id = e'.id) :
    e = e' := by
  have hnodup : ((s.visible conversationId).map EntryRecord.id).Nodup :=
    List.pairwise_map.mpr ((visible_ordered s conversationId).imp Nat.ne_of_lt)
  exact List.inj_on_of_nodup_map hnodup he he' h

theorem visible_length (s : Store) (conversationId : ConversationId) :
    (s.visible conversationId).length ≤ s.entries.length := by
  have hnodup : (s.visible conversationId).Nodup :=
    (visible_ordered s conversationId).imp fun hlt heq => Nat.ne_of_lt hlt (congrArg EntryRecord.id heq)
  exact (hnodup.subperm fun e he => mem_visible he).length_le

theorem visibleEntries_eq {conversationId : ConversationId} {lo : Nat} {upper : Option Int}
    (h : (s.conversation? conversationId).isSome) :
    s.visibleEntries conversationId lo upper = .ok ((s.visible conversationId).filter fun e =>
      within upper e.id && decide (lo ≤ e.id)).reverse := by
  rw [visibleEntries, if_neg (by simp [Option.isSome_iff_ne_none.mp h]), visibleFrom_eq_filter, visible,
    List.filter_reverse, List.reverse_reverse]
  rfl

/-- An entry is read just if it is visible. -/
theorem entry_eq {conversationId : ConversationId} (id : EntryId)
    (h : (s.conversation? conversationId).isSome) :
    ∃ found, s.entry conversationId id = .ok found ∧
      (found = none ↔ ∀ e ∈ s.visible conversationId, e.id ≠ id) := by
  rw [entry, visibleEntries_eq h]
  refine ⟨_, rfl, ?_⟩
  rw [List.head?_eq_none_iff, List.reverse_eq_nil_iff, List.filter_eq_nil_iff]
  refine forall₂_congr fun e _ => ?_
  simp only [Bool.and_eq_true, within_iff, Option.mem_def, Option.some.injEq, forall_eq',
    decide_eq_true_eq, ne_eq, Nat.cast_le]
  exact not_congr ⟨fun hle => Nat.le_antisymm hle.1 hle.2, fun heq => heq ▸ ⟨Nat.le_refl _, Nat.le_refl _⟩⟩

/-- The newest visible head marker up to an entry. -/
theorem findLatestHeadMarker_eq {conversationId : ConversationId} (id : EntryId)
    (h : (s.conversation? conversationId).isSome) :
    s.findLatestHeadMarker conversationId id = .ok ((s.visible conversationId).filter fun e =>
      decide (e.id ≤ id) && e.head.isSome).getLast? := by
  rw [findLatestHeadMarker, if_neg (by simp [Option.isSome_iff_ne_none.mp h]), headFrom_eq,
    ← List.head?_filter, List.filter_filter, visible, List.filter_reverse, List.getLast?_reverse]
  congr 3
  funext e
  simp [within, Bool.and_comm]

/-- Entries between two IDs, either of which may be left open. -/
def inRange (minEntryId maxEntryId : Option EntryId) (e : EntryRecord) : Bool :=
  decide (minEntryId.getD 0 ≤ e.id) && maxEntryId.all fun u => decide (e.id ≤ u)

/-- Behind the last entry of a page stand the entries that a page did not have room for. -/
theorem drop_page {l : List EntryRecord} (hdesc : l.Pairwise fun e e' => e'.id < e.id) {n : Nat}
    {last : EntryRecord} (hlast : (l.take n).getLast? = some last) :
    l.filter (fun e => decide (e.id < last.id)) = l.drop n := by
  obtain ⟨before, hbefore⟩ := List.getLast?_eq_some_iff.mp hlast
  have hsplit := List.take_append_drop n l
  rw [hbefore] at hsplit
  rw [← hsplit] at hdesc
  obtain ⟨hhead, -, hacross⟩ := List.pairwise_append.mp hdesc
  have hkeep : (l.drop n).filter (fun e => decide (e.id < last.id)) = l.drop n :=
    List.filter_eq_self.mpr fun e he => decide_eq_true (hacross last (by simp) e he)
  have hdrop : (before ++ [last]).filter (fun e => decide (e.id < last.id)) = [] := by
    refine List.filter_eq_nil_iff.mpr fun e he => ?_
    rw [decide_eq_true_eq, not_lt]
    rcases List.mem_append.mp he with he | he
    · exact Nat.le_of_lt ((List.pairwise_append.mp hhead).2.2 e he last (by simp))
    · exact Nat.le_of_eq (congrArg EntryRecord.id (List.mem_singleton.mp he).symm)
  conv_lhs => rw [← hsplit]
  rw [List.filter_append, hdrop, hkeep, List.nil_append]

/-- The range that a cursor leaves. -/
def below (cursor : Option EntryId) (e : EntryRecord) : Bool := cursor.all fun u => decide (e.id < u)

/-- A scan answers with a page of the visible entries of the range, newest first, behind the cursor. -/
theorem scanEntries_eq {conversationId : ConversationId} {lo hi cursor : Option EntryId} {limit : Nat}
    (h : (s.conversation? conversationId).isSome) :
    s.scanEntries conversationId lo hi limit cursor =
      .ok (page ((((s.visible conversationId).filter (inRange lo hi)).filter (below cursor)).reverse.take
        (limit + 1)) limit) := by
  have hfilter : (fun e : EntryRecord => within (scanUpper hi cursor) e.id && decide (lo.getD 0 ≤ e.id)) =
      fun e => below cursor e && inRange lo hi e := by
    funext e
    rw [Bool.eq_iff_iff]
    cases cursor <;> cases hi <;>
      simp only [scanUpper, within, below, inRange, Option.map_none, Option.map_some, Option.all_none,
        Option.all_some, Option.getD_none, Option.getD_some, Bool.and_eq_true, decide_eq_true_eq,
        le_min_iff, Int.le_sub_one_iff, Nat.cast_le, Nat.cast_lt, and_true, true_and]
    · exact and_comm
    · exact ⟨fun hin => ⟨hin.1.2, hin.2⟩, fun hin => ⟨⟨Nat.le_of_lt hin.1, hin.1⟩, hin.2⟩⟩
    · exact ⟨fun hin => ⟨hin.1.2, hin.2, hin.1.1⟩, fun hin => ⟨⟨hin.2.2, hin.1⟩, hin.2.1⟩⟩
  rw [scanEntries, visibleEntries_eq h, List.filter_filter, hfilter]
  rfl

/-- The pages add up to the whole range, newest first, given a round for each of its entries. -/
theorem scanPages_eq {conversationId : ConversationId} {lo hi : Option EntryId} (rounds : Nat)
    (cursor : Option EntryId) (h : (s.conversation? conversationId).isSome)
    (hrounds : (((s.visible conversationId).filter (inRange lo hi)).filter (below cursor)).length <
      rounds) :
    s.scanPages conversationId lo hi rounds cursor =
      .ok (((s.visible conversationId).filter (inRange lo hi)).filter (below cursor)).reverse := by
  induction rounds generalizing cursor with
  | zero => exact absurd hrounds (Nat.not_lt_zero _)
  | succ rounds ih =>
    rw [scanPages, scanEntries_eq h]
    generalize hrange : (((s.visible conversationId).filter (inRange lo hi)).filter (below cursor)).reverse
      = range
    have hdesc : range.Pairwise fun e e' => e'.id < e.id := by
      rw [← hrange, List.pairwise_reverse]
      exact ((visible_ordered s conversationId).sublist List.filter_sublist).sublist List.filter_sublist
    have hlength : range.length < rounds + 1 := by rwa [← hrange, List.length_reverse]
    change (match (page (range.take (SCAN_PAGE_SIZE + 1)) SCAN_PAGE_SIZE).next with
      | none => Except.ok (page (range.take (SCAN_PAGE_SIZE + 1)) SCAN_PAGE_SIZE).items
      | some next => do
        let rest ← s.scanPages conversationId lo hi rounds (some next)
        Except.ok ((page (range.take (SCAN_PAGE_SIZE + 1)) SCAN_PAGE_SIZE).items ++ rest)) = _
    rw [page, List.take_take, Nat.min_eq_left (Nat.le_succ _)]
    dsimp only
    by_cases hlast : (range.take (SCAN_PAGE_SIZE + 1)).length ≤ SCAN_PAGE_SIZE
    · rw [if_pos hlast]
      rw [List.length_take] at hlast
      rw [List.take_of_length_le (by omega)]
    · rw [if_neg hlast]
      rw [List.length_take] at hlast
      have hfull : (range.take SCAN_PAGE_SIZE) ≠ [] := by
        intro hnil
        have := congrArg List.length hnil
        rw [List.length_take, List.length_nil] at this
        have : SCAN_PAGE_SIZE = 256 := rfl
        omega
      have hgetLast := List.getLast?_eq_some_getLast hfull
      generalize (range.take SCAN_PAGE_SIZE).getLast hfull = last at hgetLast
      have hmem : last ∈ range := List.mem_of_mem_take (List.mem_of_getLast? hgetLast)
      rw [hgetLast]
      have hbelow : (((s.visible conversationId).filter (inRange lo hi)).filter
          (below (some last.id))).reverse = range.drop SCAN_PAGE_SIZE := by
        rw [← hrange, List.mem_reverse, List.mem_filter] at hmem
        rw [← drop_page hdesc hgetLast, ← hrange, List.filter_reverse, List.filter_filter,
          List.filter_filter, List.filter_filter]
        refine congrArg List.reverse (List.filter_congr fun e _ => ?_)
        rw [Bool.eq_iff_iff]
        simp only [below, Option.all_some, decide_eq_true_eq, Bool.and_eq_true]
        refine ⟨fun hin => ⟨⟨hin.1, ?_⟩, hin.2⟩, fun hin => ⟨hin.1.1, hin.2⟩⟩
        cases cursor with
        | none => rfl
        | some after => exact decide_eq_true (Nat.lt_trans hin.1 (of_decide_eq_true hmem.2))
      change (do
        let rest ← s.scanPages conversationId lo hi rounds (some last.id)
        Except.ok (range.take SCAN_PAGE_SIZE ++ rest)) = _
      rw [ih (some last.id), hbelow]
      · exact congrArg Except.ok (List.take_append_drop _ _)
      · rw [← List.length_reverse, hbelow, List.length_drop]
        have : SCAN_PAGE_SIZE = 256 := rfl
        omega

/-- The pages of a range are its visible entries. -/
theorem scanRange_eq {conversationId : ConversationId} (lo hi : Option EntryId)
    (h : (s.conversation? conversationId).isSome) :
    s.scanRange conversationId lo hi = .ok ((s.visible conversationId).filter (inRange lo hi)) := by
  have hbelow : ((s.visible conversationId).filter (inRange lo hi)).filter (below none) =
      (s.visible conversationId).filter (inRange lo hi) :=
    List.filter_eq_self.mpr fun _ _ => rfl
  have hlength := (List.length_filter_le (inRange lo hi) _).trans (visible_length s conversationId)
  rw [scanRange, scanPages_eq _ none h (by rw [hbelow]; exact Nat.lt_succ_of_le hlength), hbelow]
  exact congrArg Except.ok (List.reverse_reverse _)

/-! ## Growth -/

namespace Commits

variable {s' : Store}

theorem nextId (h : Commits s s') : s.nextId ≤ s'.nextId := by
  induction h with
  | refl => exact Nat.le_refl _
  | entry _ e hid _ ih => exact Nat.le_succ_of_le (ih.trans hid)
  | conversation _ c hid _ ih => exact Nat.le_succ_of_le (ih.trans hid)

/-- A conversation's record stays as it is. -/
theorem conversation? {id : ConversationId} (h : Commits s s') (hid : id < s.nextId) :
    s'.conversation? id = s.conversation? id := by
  induction h with
  | refl => rfl
  | entry _ _ _ _ ih => exact ih
  | @conversation s' h c hnew hfork ih =>
    have hne : c.id ≠ id := Nat.ne_of_gt (Nat.lt_of_lt_of_le hid (h.nextId.trans hnew))
    rw [← ih]
    unfold Store.conversation?
    change (s'.conversations ++ [c]).find? _ = _
    rw [List.find?_append, List.find?_cons_of_neg (by simpa using hne)]
    exact Option.or_none

/-- A conversation's own entries gain later ones. -/
theorem own (id : ConversationId) (h : Commits s s') :
    ∃ new, s'.own id = s.own id ++ new ∧ ∀ e ∈ new, s.nextId ≤ e.id := by
  induction h with
  | refl => exact ⟨[], (List.append_nil _).symm, by simp⟩
  | conversation _ _ _ _ ih => exact ih
  | @entry s' h e hid hconversation ih =>
    obtain ⟨new, hnew, hminted⟩ := ih
    refine ⟨new ++ [e].filter fun e => e.conversationId = id, ?_, ?_⟩
    · rw [← List.append_assoc, ← hnew]
      exact List.filter_append ..
    · intro x hx
      rcases List.mem_append.mp hx with hx | hx
      · exact hminted x hx
      · obtain rfl := List.mem_singleton.mp (List.mem_of_mem_filter hx)
        exact h.nextId.trans hid

theorem chain {id : ConversationId} (rounds : Nat) (h : Commits s s') (hid : id < s.nextId) :
    ∃ new, s'.chain rounds id = new ++ s.chain rounds id ∧ ∀ e ∈ new, s.nextId ≤ e.id := by
  induction rounds generalizing id with
  | zero => exact ⟨[], rfl, by simp⟩
  | succ rounds ih =>
    obtain ⟨new, hown, hminted⟩ := h.own id
    refine ⟨new.reverse, ?_, fun e he => hminted e (List.mem_reverse.mp he)⟩
    have hparent : s'.parent? id = s.parent? id := by rw [parent?, parent?, h.conversation? hid]
    rw [chain_succ, chain_succ, hown, List.reverse_append, List.append_assoc, hparent]
    congr 2
    cases hp : s.parent? id with
    | none => rfl
    | some p =>
      obtain ⟨hlt, hat, -⟩ := parent?_forks hp
      obtain ⟨later, hlater, hfrom⟩ := ih (hlt.trans hid)
      dsimp only
      -- What the parent gains is later than the fork.
      have hnone : later.filter (fun e => e.id ≤ p.forkedAt) = [] := by
        refine List.filter_eq_nil_iff.mpr fun e he hle => ?_
        exact absurd (Nat.lt_of_lt_of_le (hat.trans hid) (hfrom e he))
          (Nat.not_lt.mpr (of_decide_eq_true hle))
      rw [hlater, List.filter_append, hnone, List.nil_append]

/-- What a conversation sees gains later entries. -/
theorem visible {conversationId : ConversationId} (h : Commits s s')
    (hknown : (s.conversation? conversationId).isSome) :
    ∃ new, s'.visible conversationId = s.visible conversationId ++ new ∧
      ∀ e ∈ new, s.nextId ≤ e.id := by
  obtain ⟨c, hc⟩ := Option.isSome_iff_exists.mp hknown
  have hid : conversationId < s.nextId := by
    have := s.mintedConversations c (List.mem_of_find?_eq_some hc)
    rwa [show c.id = conversationId by simpa using List.find?_some hc] at this
  obtain ⟨new, hnew, hminted⟩ := h.chain (conversationId + 1) hid
  refine ⟨new.reverse, ?_, fun e he => hminted e (List.mem_reverse.mp he)⟩
  exact (congrArg List.reverse hnew).trans List.reverse_append

end Commits

end Store

end Context
