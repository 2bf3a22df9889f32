import ContextCompaction.Core.Preparation

/-!
# Cuts

Which records a compaction leaves in context. The host's projection and its token estimate are the
caller's.

* `chooseCut`: the complete recent turns that are kept.
* `prefixCut`: the same for a note that covers a part of the branch.
* `prefixCut_some`: only covered records leave the context.
-/

namespace Compaction

open Js

/-- What one record contributes to the context. -/
structure ProjectedRecord (μ : Type) where
  sourceEntry : SessionRecord
  messages : List μ

variable {μ : Type}

/-- The messages of each record, by its ID. -/
def projectedMessages (projection : List (ProjectedRecord μ)) : List (Str × List μ) :=
  mapOf (projection.map fun e => (e.sourceEntry.id, e.messages))

/-- The position of the newest checkpoint. -/
def lastCompactionIndex (branch : List SessionRecord) : Option Nat :=
  (branch.zipIdx.reverse.find? fun e => e.1.type = .compaction).map Prod.snd

section

-- The numbers of an estimate: only their sum and their order are read.
variable {ν : Type} [Zero ν] [Add ν] [LE ν] [DecidableLE ν]

/-- The walk from the newest record back, until enough tokens are kept. -/
def cutLoop (messages : SessionRecord → List μ) (estimateTokens : μ → ν) (keepRecentTokens : ν)
    (starts : List Nat) (latest : Nat) : ν → List (SessionRecord × Nat) → Nat
  | _, [] => latest
  | accumulated, (entry, index) :: older =>
    if entry.type = .compaction then
      cutLoop messages estimateTokens keepRecentTokens starts latest accumulated older
    else
      let accumulated := accumulated +
        (messages entry).foldl (fun sum message => sum + estimateTokens message) 0
      if keepRecentTokens ≤ accumulated then (starts.find? fun s => index ≤ s).getD latest
      else cutLoop messages estimateTokens keepRecentTokens starts latest accumulated older

/-- The turn starts behind the newest checkpoint that are in context. -/
def turnStarts (branch : List SessionRecord) (messages : SessionRecord → List μ) : List Nat :=
  (branch.zipIdx.filter fun e =>
    (lastCompactionIndex branch).all (fun p => decide (p < e.2)) && e.1.isUser &&
      !(messages e.1).isEmpty).map Prod.snd

/-- The first index of the complete recent turns that stay in context. -/
def chooseCut (estimateTokens : μ → ν) (branch : List SessionRecord) (keepRecentTokens : ν)
    (projection : List (ProjectedRecord μ)) : Except Failure Nat :=
  if keepRecentTokens ≤ 0 then .ok branch.length
  else
    let messages := fun entry : SessionRecord => (mapGet (projectedMessages projection) entry.id).getD []
    match (turnStarts branch messages).getLast? with
    | none => .error (.ofText "CONTEXT_NO_CUT: no source turn is available")
    | some latest =>
      .ok (cutLoop messages estimateTokens keepRecentTokens (turnStarts branch messages) latest 0
        branch.zipIdx.reverse)

end

/-- Whether a record starts a turn that is in context. -/
def startsTurn (projection : List (ProjectedRecord μ)) (entry : SessionRecord) : Bool :=
  entry.isUser && projection.any fun e => !e.messages.isEmpty && decide (e.sourceEntry.id = entry.id)

/-- The latest turn start at or before `coveredIndex + 1` and `cut`, behind the newest checkpoint. -/
def prefixCut (branch : List SessionRecord) (projection : List (ProjectedRecord μ))
    (coveredIndex cut : Nat) : Option Nat :=
  (List.range (min cut (coveredIndex + 1) + 1)).reverse.find? fun index =>
    (lastCompactionIndex branch).all (fun p => decide (p < index)) &&
      branch[index]?.any (startsTurn projection)

/-! ## What a cut leaves behind -/

/-- Only covered records stand before a prefix cut, the newest checkpoint among them. -/
theorem prefixCut_some {branch : List SessionRecord} {projection : List (ProjectedRecord μ)}
    {coveredIndex cut start : Nat} (h : prefixCut branch projection coveredIndex cut = some start) :
    start ≤ coveredIndex + 1 ∧ start < branch.length ∧ start ≤ cut ∧
      (lastCompactionIndex branch).all (fun p => decide (p < start)) = true := by
  have hmem := List.mem_of_find?_eq_some h
  rw [List.mem_reverse, List.mem_range] at hmem
  have hp := List.find?_some h
  rw [Bool.and_eq_true, Option.any_eq_true] at hp
  obtain ⟨hlast, entry, hentry, -⟩ := hp
  have hlt := (List.getElem?_eq_some_iff.mp hentry).1
  exact ⟨by omega, hlt, by omega, hlast⟩

end Compaction
