import ContextCompaction.Harness.Tx
import ContextCompaction.Js.Except
import Mathlib.Data.List.Nodup
import Mathlib.Tactic.Common

/-!
# Staged changes of submissions

A batch resolves its changes one after the other. Where each submission has at most one change, and
that change is legal in its status, resolution succeeds, and each record ends as its own change
leaves it (`foldlM_resolve`).
-/

namespace Harness

open Js

namespace SubmissionStatus

/-- How a status may move: from queued to placed or settled, and from placed to settled. -/
inductive Moves : SubmissionStatus → SubmissionStatus → Prop
  | stay (s) : Moves s s
  | place {s} : ¬ s.isQueued → Moves .queued s
  | settle {entry s} : s.isSettled → Moves (.placed entry) s

theorem not_isPlaced_of_isSettled {s : SubmissionStatus} (h : s.isSettled) : ¬ s.isPlaced := by
  cases s <;> simp_all [isSettled, isPlaced]

theorem eq_queued {s : SubmissionStatus} (h : s.isQueued) : s = .queued := by
  cases s <;> simp_all [isQueued]

end SubmissionStatus

open SubmissionStatus

/-- A change that assembly accepts, and that is no repeated settlement. -/
def Legal (r : SubmissionRecord) : SubmissionChange → Prop
  | .placed _ => r.status.isQueued
  | .settled (.done _) => r.status.isPlaced
  | .settled (.unanswered ..) => ¬ r.status.isSettled

/-- The status that a legal change leaves. -/
def nextStatus (r : SubmissionRecord) : SubmissionChange → SubmissionStatus
  | .placed entry =>
    match r.type with
    | .input => .placed entry
    | .write => .done entry none
  | .settled (.done answer) =>
    match r.status with
    | .placed entry => .done entry (some answer)
    | status => status
  | .settled (.unanswered reason detail) =>
    match r.status with
    | .placed entry => .unanswered (some entry) reason detail
    | _ => .unanswered none reason detail

theorem applySubmissionChange_legal {r : SubmissionRecord} {change : SubmissionChange}
    (h : Legal r change) :
    applySubmissionChange r change = .ok (r.withStatus (nextStatus r change)) := by
  obtain ⟨id, c, q, type, status⟩ := r
  rcases change with (_ | _) | _ <;> cases status <;> cases type <;>
    simp_all [Legal, applySubmissionChange, nextStatus, isQueued, isPlaced, isSettled]

section

variable {r : SubmissionRecord} {change : SubmissionChange}

theorem Legal.not_isSettled (h : Legal r change) : ¬ r.status.isSettled := by
  obtain ⟨id, c, q, type, status⟩ := r
  rcases change with (_ | _) | _ <;> cases status <;>
    simp_all [Legal, isQueued, isPlaced, isSettled]

theorem nextStatus_not_isQueued (h : Legal r change) : ¬ (nextStatus r change).isQueued := by
  obtain ⟨id, c, q, type, status⟩ := r
  rcases change with (_ | _) | _ <;> cases status <;> cases type <;>
    simp_all [Legal, nextStatus, isQueued, isPlaced]

theorem nextStatus_moves (h : Legal r change) : r.status.Moves (nextStatus r change) := by
  have hnext := nextStatus_not_isQueued h
  have hsettled := h.not_isSettled
  cases hs : r.status with
  | queued => exact .place hnext
  | placed entry =>
    refine .settle ?_
    obtain ⟨id, c, q, type, status⟩ := r
    rcases change with (_ | _) | _ <;> cases hs <;> simp_all [Legal, nextStatus, isQueued, isSettled]
  | done _ _ | unanswered _ _ _ =>
    rw [hs] at hsettled
    exact absurd rfl hsettled

/-- Only the placement of an input leaves it placed. -/
theorem nextStatus_isPlaced (h : Legal r change) :
    (nextStatus r change).isPlaced ↔ r.type = .input ∧ ∃ entry, change = .placed entry := by
  obtain ⟨id, c, q, type, status⟩ := r
  rcases change with (_ | _) | _ <;> cases status <;> cases type <;>
    simp_all [Legal, nextStatus, isQueued, isPlaced, isSettled]

theorem nextStatus_settled {settlement : SubmissionSettlement} (h : Legal r (.settled settlement)) :
    (nextStatus r (.settled settlement)).isSettled := by
  obtain ⟨id, c, q, type, status⟩ := r
  rcases settlement with _ | _ <;> cases status <;>
    simp_all [Legal, nextStatus, isPlaced, isSettled]

end

/-! ## Resolution -/

/-- A record after the changes that name it. -/
def outcome (changes : List (SubmissionId × SubmissionChange)) (r : SubmissionRecord) :
    SubmissionRecord :=
  match changes.find? (·.1 = r.id) with
  | none => r
  | some p => r.withStatus (nextStatus r p.2)

section

variable {changes : List (SubmissionId × SubmissionChange)} {r : SubmissionRecord}

@[simp] theorem outcome_id : (outcome changes r).id = r.id := by
  unfold outcome
  split <;> rfl

@[simp] theorem outcome_conversationId : (outcome changes r).conversationId = r.conversationId := by
  unfold outcome
  split <;> rfl

@[simp] theorem outcome_requestId : (outcome changes r).requestId = r.requestId := by
  unfold outcome
  split <;> rfl

@[simp] theorem outcome_type : (outcome changes r).type = r.type := by
  unfold outcome
  split <;> rfl

@[simp] theorem outcome_nil : outcome [] r = r := rfl

theorem outcome_of_not_mem (h : r.id ∉ changes.map Prod.fst) : outcome changes r = r := by
  have : changes.find? (·.1 = r.id) = none := by
    rw [List.find?_eq_none]
    intro p hp hid
    exact h (List.mem_map.mpr ⟨p, hp, by simpa using hid⟩)
  rw [outcome, this]

theorem outcome_of_mem {change : SubmissionChange} (hnodup : (changes.map Prod.fst).Nodup)
    (h : (r.id, change) ∈ changes) : outcome changes r = r.withStatus (nextStatus r change) := by
  have : changes.find? (·.1 = r.id) = some (r.id, change) := by
    cases hf : changes.find? (·.1 = r.id) with
    | none =>
      have := List.find?_eq_none.mp hf _ h
      simp at this
    | some p =>
      have hp := List.mem_of_find?_eq_some hf
      have hid : p.1 = r.id := by simpa using List.find?_some hf
      have := List.inj_on_of_nodup_map hnodup hp h hid
      rw [this]
  rw [outcome, this]

theorem mem_changed {id : SubmissionId} (h : id ∈ changes.map Prod.fst) :
    ∃ change, (id, change) ∈ changes := by
  obtain ⟨⟨_, change⟩, hp, rfl⟩ := List.mem_map.mp h
  exact ⟨change, hp⟩

end

/-- Records of ascending identity, and legal changes of them, at most one for each. -/
structure Rows (rows : List SubmissionRecord)
    (changes : List (SubmissionId × SubmissionChange)) (nextId : Nat) : Prop where
  ascending : (rows.map (·.id)).Pairwise (· < ·)
  minted : ∀ r ∈ rows, r.id < nextId
  once : (changes.map Prod.fst).Nodup
  legal : ∀ p ∈ changes, ∃ r ∈ rows, r.id = p.1 ∧ Legal r p.2
  requests : rows.Pairwise fun r r' =>
    r.conversationId = r'.conversationId → r.requestId.isSome → r.requestId ≠ r'.requestId

variable {rows : List SubmissionRecord} {changes cs : List (SubmissionId × SubmissionChange)}
  {nextId : Nat}

theorem eq_of_id (h : (rows.map (·.id)).Pairwise (· < ·)) {r r' : SubmissionRecord} (hr : r ∈ rows)
    (hr' : r' ∈ rows) (hid : r.id = r'.id) : r = r' :=
  List.inj_on_of_nodup_map (h.imp ne_of_lt) hr hr' hid

theorem find?_id (h : (rows.map (·.id)).Pairwise (· < ·)) {r : SubmissionRecord} (hr : r ∈ rows) :
    rows.find? (·.id = r.id) = some r := by
  cases hf : rows.find? (·.id = r.id) with
  | none =>
    have := List.find?_eq_none.mp hf _ hr
    simp at this
  | some r' =>
    rw [eq_of_id h (List.mem_of_find?_eq_some hf) hr (by simpa using List.find?_some hf)]

namespace Rows

theorem mono (h : Rows rows changes nextId) {nextId' : Nat} (hle : nextId ≤ nextId') :
    Rows rows changes nextId' :=
  { h with minted := fun r hr => Nat.lt_of_lt_of_le (h.minted r hr) hle }

theorem legal_of_mem (h : Rows rows changes nextId) {r : SubmissionRecord} (hr : r ∈ rows)
    {change : SubmissionChange} (hp : (r.id, change) ∈ changes) : Legal r change := by
  obtain ⟨r', hr', hid, hlegal⟩ := h.legal _ hp
  rwa [eq_of_id h.ascending hr' hr hid] at hlegal

/-- More changes, of other submissions. -/
theorem change (h : Rows rows changes nextId) (honce : (cs.map Prod.fst).Nodup)
    (hnew : ∀ id ∈ cs.map Prod.fst, id ∉ changes.map Prod.fst)
    (hlegal : ∀ p ∈ cs, ∃ r ∈ rows, r.id = p.1 ∧ Legal r p.2) :
    Rows rows (changes ++ cs) nextId where
  ascending := h.ascending
  minted := h.minted
  once := by
    rw [List.map_append]
    exact h.once.append honce fun id hid hid' => hnew id hid' hid
  legal p hp := by
    rcases List.mem_append.mp hp with hp | hp
    · exact h.legal p hp
    · exact hlegal p hp
  requests := h.requests

/-- A new record with a fresh identity. -/
theorem create (h : Rows rows changes nextId) {r : SubmissionRecord} (hid : nextId ≤ r.id)
    (hrequest : r.requestId.isSome →
      ∀ r' ∈ rows, r'.conversationId = r.conversationId → r'.requestId ≠ r.requestId) :
    Rows (rows ++ [r]) changes (r.id + 1) where
  ascending := by
    rw [List.map_append, List.pairwise_append]
    refine ⟨h.ascending, by simp, ?_⟩
    simp only [List.mem_map, List.map_cons, List.map_nil, List.mem_singleton]
    rintro _ ⟨r', hr', rfl⟩ _ rfl
    exact Nat.lt_of_lt_of_le (h.minted r' hr') hid
  minted r' hr' := by
    rcases List.mem_append.mp hr' with hr' | hr'
    · exact Nat.lt_succ_of_lt (Nat.lt_of_lt_of_le (h.minted r' hr') hid)
    · rw [List.mem_singleton.mp hr']
      exact Nat.lt_succ_self _
  once := h.once
  legal p hp := by
    obtain ⟨r', hr', hp⟩ := h.legal p hp
    exact ⟨r', List.mem_append_left _ hr', hp⟩
  requests := by
    rw [List.pairwise_append]
    refine ⟨h.requests, by simp, ?_⟩
    simp only [List.mem_singleton, forall_eq]
    intro r' hr' hc hsome heq
    rw [heq] at hsome
    exact hrequest hsome r' hr' hc heq

/-- A new record has no change. -/
theorem fresh (h : Rows rows changes nextId) {id : SubmissionId} (hid : nextId ≤ id) :
    id ∉ changes.map Prod.fst := by
  intro hmem
  obtain ⟨change, hp⟩ := mem_changed hmem
  obtain ⟨r, hr, rfl, -⟩ := h.legal _ hp
  exact Nat.not_lt.mpr hid (h.minted r hr)

end Rows

theorem outcome_cons {p : SubmissionId × SubmissionChange} {r : SubmissionRecord}
    (hnew : p.1 ∉ changes.map Prod.fst) :
    outcome changes (if r.id = p.1 then r.withStatus (nextStatus r p.2) else r) =
      outcome (p :: changes) r := by
  by_cases hid : r.id = p.1
  · have : outcome (p :: changes) r = r.withStatus (nextStatus r p.2) := by
      simp [outcome, hid]
    rw [if_pos hid, this]
    exact outcome_of_not_mem (by rwa [SubmissionRecord.withStatus, hid])
  · rw [if_neg hid]
    unfold outcome
    rw [List.find?_cons_of_neg (by simpa using Ne.symm hid)]

/-- Resolution of legal changes, at most one for each submission. -/
theorem foldlM_resolve (h : Rows rows changes nextId) :
    changes.foldlM resolve rows = .ok (rows.map (outcome changes)) := by
  induction changes generalizing rows with
  | nil =>
    have : rows.map (outcome []) = rows := List.map_id' rows
    rw [this]
    rfl
  | cons p rest ih =>
    obtain ⟨r, hr, hid, hlegal⟩ := h.legal p (by simp)
    have hfind : rows.find? (·.id = p.1) = some r := by rw [← hid, find?_id h.ascending hr]
    have hnew : p.1 ∉ rest.map Prod.fst := (List.nodup_cons.mp h.once).1
    have hstep : resolve rows p = .ok (rows.map fun r' =>
        if r'.id = p.1 then r'.withStatus (nextStatus r' p.2) else r') := by
      unfold resolve
      rw [hfind]
      simp only [applySubmissionChange_legal hlegal, bind, Except.bind, pure, Except.pure]
      congr 1
      apply List.map_congr_left
      intro r' hr'
      by_cases hid' : r'.id = p.1
      · rw [if_pos hid', if_pos hid', eq_of_id h.ascending hr' hr (hid'.trans hid.symm)]
      · rw [if_neg hid', if_neg hid']
    have hids : ∀ r' : SubmissionRecord,
        (if r'.id = p.1 then r'.withStatus (nextStatus r' p.2) else r').id = r'.id := by
      intro r'
      split <;> rfl
    have hrows : Rows (rows.map fun r' =>
        if r'.id = p.1 then r'.withStatus (nextStatus r' p.2) else r') rest nextId := by
      refine ⟨?_, ?_, (List.nodup_cons.mp h.once).2, ?_, ?_⟩
      · rw [List.map_map, show (fun r : SubmissionRecord => r.id) ∘ _ = (·.id) from funext hids]
        exact h.ascending
      · intro _ hmem
        obtain ⟨r', hr', rfl⟩ := List.mem_map.mp hmem
        rw [hids]
        exact h.minted r' hr'
      · intro p' hp'
        obtain ⟨r', hr', hid', hlegal'⟩ := h.legal p' (List.mem_cons_of_mem _ hp')
        have hne : r'.id ≠ p.1 := by
          rw [hid']
          exact fun heq => hnew (heq ▸ List.mem_map_of_mem hp')
        exact ⟨r', List.mem_map.mpr ⟨r', hr', if_neg hne⟩, hid', hlegal'⟩
      · rw [List.pairwise_map]
        refine h.requests.imp fun {a b} hab => ?_
        intro hc
        revert hab hc
        split <;> split <;> exact fun hab hc => hab hc
    rw [List.foldlM_cons, hstep]
    refine (ih hrows).trans ?_
    rw [List.map_map]
    congr 1
    apply List.map_congr_left
    intro r' _
    exact outcome_cons hnew

end Harness
