import ContextCompaction.Core.Records
import ContextCompaction.Js.Schema

/-!
# Note budgets

`selectNoteBudget` freezes the policy of one compaction; `storedNoteLimit` checks it again when a
checkpoint is reopened. Token counts are natural numbers: the products with 0.15 and 0.9 and the
quotient by 3 are taken in exact arithmetic, which has the same floor and ceiling as binary64 on
counts below `2 ^ 50`.

* `shrink`: a text cut by a fifth until it is no longer too big.
* `storedNoteLimit_selectNoteBudget`: every frozen policy is accepted again.
-/

namespace Compaction

open Js

/-- `Number.isSafeInteger` of a count. -/
def isSafe (n : Nat) : Bool := decide (n < 2 ^ 53)

/-- Storage safety bound. -/
def MAX_NOTE_TOKENS : Nat := 8000

inductive BudgetMode where
  | fixed
  | tiered
  deriving DecidableEq

/-- `"fixed"` or `"tiered"`. -/
def BudgetMode.name : BudgetMode → Str
  | .fixed => lit "fixed"
  | .tiered => lit "tiered"

/-- The frozen generation policy of a checkpoint. -/
structure NoteBudget where
  mode : BudgetMode
  tier : Nat
  sourceTokens : Nat
  previousTokens : Nat
  baseTokens : Nat
  hardTokens : Nat
  deriving DecidableEq

/-- The policy as `details.noteBudget`. -/
def NoteBudget.toJson (b : NoteBudget) : Json :=
  .obj [(lit "version", .num (.ofNat 1)), (lit "mode", .str b.mode.name),
    (lit "tier", .num (.ofNat b.tier)), (lit "sourceTokens", .num (.ofNat b.sourceTokens)),
    (lit "previousTokens", .num (.ofNat b.previousTokens)),
    (lit "baseTokens", .num (.ofNat b.baseTokens)), (lit "hardTokens", .num (.ofNat b.hardTokens))]

/-- The source-size tier. -/
def tierOf (sourceTokens : Nat) : Nat :=
  if sourceTokens ≤ 80000 then 1 else if sourceTokens ≤ 200000 then 2
  else if sourceTokens ≤ 400000 then 3 else 4

/-- `[3000, 4000, 5000, 6000][tier - 1]`. -/
def tierBase (tier : Nat) : Nat := 2000 + 1000 * tier

/-- `[4000, 5000, 6000, 8000][tier - 1]`. -/
def tierHard (tier : Nat) : Nat := if tier = 4 then 8000 else 3000 + 1000 * tier

/-- Freeze the budget before the writer is called. `noteTokens` is the configured fixed bound. -/
def selectNoteBudget (noteTokens : Option Nat) (threshold sourceTokens previousTokens : Nat) :
    Except Failure NoteBudget :=
  if !(isSafe sourceTokens && isSafe previousTokens) then
    .error (.ofText "CONTEXT_CONFIG: invalid note budget measurement")
  else
    let cap := max 500 (min MAX_NOTE_TOKENS (threshold * 15 / 100))
    let tier := tierOf sourceTokens
    match noteTokens with
    | some fixed =>
      .ok ⟨.fixed, 0, sourceTokens, previousTokens, min fixed cap, min fixed cap⟩
    | none =>
      let base := max (tierBase tier) ((previousTokens * 9 + 9) / 10)
      let hard := max (tierHard tier) previousTokens
      .ok ⟨.tiered, tier, sourceTokens, previousTokens, min base cap, min hard cap⟩

/-- A property that is a count. -/
def countField? (v : Json) (key : String) : Option Nat := (v.get? (lit key)).bind count?

/-- Validate stored policy metadata. Old checkpoints omit it. -/
def storedNoteLimit : Option Json → Except Failure Nat
  | none => .ok 6000
  | some value =>
    match countField? value "version", (value.get? (lit "mode")).bind Json.str?,
      countField? value "tier", countField? value "sourceTokens",
      countField? value "previousTokens", countField? value "baseTokens",
      countField? value "hardTokens" with
    | some version, some mode, some tier, some sourceTokens, some previousTokens, some baseTokens,
      some hardTokens =>
      if version = 1 ∧ (mode = lit "fixed" ∨ mode = lit "tiered") ∧ tier ≤ 4 ∧
          (if mode = lit "fixed" then tier = 0 else tier ≠ 0) ∧ isSafe sourceTokens ∧
          isSafe previousTokens ∧ 500 ≤ baseTokens ∧ 500 ≤ hardTokens ∧ baseTokens ≤ hardTokens ∧
          hardTokens ≤ MAX_NOTE_TOKENS ∧ (mode = lit "fixed" → baseTokens = hardTokens) then
        .ok hardTokens
      else .error (.ofText "CONTEXT_NOTE_VERSION: invalid stored note budget")
    | _, _, _, _, _, _, _ => .error (.ofText "CONTEXT_NOTE_VERSION: invalid stored note budget")

/-- The token estimate of a text. -/
def textTokens (text : Str) : Nat := (byteLength text + 2) / 3

/-- A code unit takes at most three bytes, so at most one token. -/
theorem textTokens_le_length (text : Str) : textTokens text ≤ text.length := by
  have hbytes := byteLength_le text
  rw [textTokens]
  omega

/-! ## Texts that fit -/

/-- `fuel` rounds of `shrink`. -/
def shrinkRounds (big : Str → Bool) : Nat → Str → Str
  | 0, text => text
  | fuel + 1, text =>
    if big text then shrinkRounds big fuel (text.take (text.length * 4 / 5)) else text

/-- `while (big(text)) text = text.slice(0, Math.floor(text.length * 0.8))`. A round shortens a text
that is not empty, so its length bounds the rounds. -/
def shrink (big : Str → Bool) (text : Str) : Str := shrinkRounds big text.length text

theorem prefix_shrinkRounds (big : Str → Bool) (fuel : Nat) (text : Str) :
    shrinkRounds big fuel text <+: text := by
  induction fuel generalizing text with
  | zero => exact List.prefix_rfl
  | succ fuel ih =>
    unfold shrinkRounds
    split
    · exact (ih _).trans (List.take_prefix _ _)
    · exact List.prefix_rfl

theorem prefix_shrink (big : Str → Bool) (text : Str) : shrink big text <+: text :=
  prefix_shrinkRounds big _ text

/-- If no single unit is big, something of the text stays. -/
theorem shrink_ne_nil {big : Str → Bool} (h : ∀ u, big [u] = false) {text : Str} (ht : text ≠ []) :
    shrink big text ≠ [] := by
  have hrounds : ∀ (fuel : Nat) (text : Str), text ≠ [] → shrinkRounds big fuel text ≠ [] := by
    intro fuel
    induction fuel with
    | zero => exact fun _ ht => ht
    | succ fuel ih =>
      intro text ht
      unfold shrinkRounds
      by_cases hbig : big text = true
      · rw [if_pos hbig]
        apply ih
        rw [ne_eq, List.take_eq_nil_iff]
        rintro (hzero | hnil)
        · have hlen : text.length = 1 := by
            have := List.length_pos_iff.mpr ht
            omega
          obtain ⟨u, rfl⟩ := List.length_eq_one_iff.mp hlen
          rw [h u] at hbig
          cases hbig
        · exact ht hnil
      · rw [if_neg hbig]
        exact ht
  exact hrounds _ text ht

/-- The loop ends with a text that is not big. -/
theorem big_shrink {big : Str → Bool} (h : big [] = false) (text : Str) :
    big (shrink big text) = false := by
  have hrounds : ∀ (fuel : Nat) (text : Str), text.length ≤ fuel →
      big (shrinkRounds big fuel text) = false := by
    intro fuel
    induction fuel with
    | zero =>
      intro text hlen
      obtain rfl := List.length_eq_zero_iff.mp (Nat.le_zero.mp hlen)
      exact h
    | succ fuel ih =>
      intro text hlen
      unfold shrinkRounds
      split
      · exact ih _ (by rw [List.length_take]; omega)
      · rename_i hbig
        simpa using hbig
  exact hrounds _ text (Nat.le_refl _)

/-! ## What is frozen is accepted -/

/-- The relations that a frozen policy satisfies. -/
structure NoteBudget.Frozen (b : NoteBudget) : Prop where
  safe : b.sourceTokens < 2 ^ 53 ∧ b.previousTokens < 2 ^ 53
  bounds : 500 ≤ b.baseTokens ∧ b.baseTokens ≤ b.hardTokens ∧ b.hardTokens ≤ MAX_NOTE_TOKENS
  fixed : b.mode = .fixed → b.tier = 0 ∧ b.baseTokens = b.hardTokens
  tiered : b.mode = .tiered → 1 ≤ b.tier ∧ b.tier ≤ 4

theorem tierOf_bounds (n : Nat) : 1 ≤ tierOf n ∧ tierOf n ≤ 4 := by
  unfold tierOf
  split_ifs <;> omega

theorem tierBase_le_tierHard (tier : Nat) : tierBase tier ≤ tierHard tier := by
  unfold tierBase tierHard
  split_ifs <;> omega

/-- An accepted configuration: a fixed bound is at least 500. -/
theorem frozen_selectNoteBudget {noteTokens : Option Nat} (hn : ∀ n ∈ noteTokens, 500 ≤ n)
    {threshold sourceTokens previousTokens : Nat} {b : NoteBudget}
    (h : selectNoteBudget noteTokens threshold sourceTokens previousTokens = .ok b) : b.Frozen := by
  unfold selectNoteBudget at h
  by_cases hs : isSafe sourceTokens && isSafe previousTokens
  · simp only [hs, Bool.not_true, Bool.false_eq_true, ↓reduceIte] at h
    simp only [isSafe, Bool.and_eq_true, decide_eq_true_eq] at hs
    cases noteTokens with
    | some fixed =>
      have hf := hn fixed rfl
      obtain rfl := Except.ok.inj h
      refine ⟨hs, ?_, fun _ => ⟨rfl, rfl⟩, by simp⟩
      simp only [MAX_NOTE_TOKENS]
      omega
    | none =>
      obtain rfl := Except.ok.inj h
      have ht := tierOf_bounds sourceTokens
      have hle := tierBase_le_tierHard (tierOf sourceTokens)
      refine ⟨hs, ?_, by simp, fun _ => ht⟩
      have hb : 3000 ≤ tierBase (tierOf sourceTokens) := by unfold tierBase; omega
      simp only [MAX_NOTE_TOKENS]
      omega
  · simp [hs] at h

/-- The limit read back from a frozen budget is its hard one. -/
theorem storedNoteLimit_of_frozen {b : NoteBudget} (h : b.Frozen) :
    storedNoteLimit (some b.toJson) = .ok b.hardTokens := by
  obtain ⟨⟨hs, hp⟩, hb, hfixed, htiered⟩ := h
  have htier : b.tier ≤ 4 := by
    cases hm : b.mode with
    | fixed => rw [(hfixed hm).1]; omega
    | tiered => exact (htiered hm).2
  have hmax : b.hardTokens ≤ 8000 := hb.2.2
  have hread : ∀ n, n < 2 ^ 53 → count? (.num (.ofNat n)) = some n := fun n => count?_ofNat
  simp only [storedNoteLimit, countField?, NoteBudget.toJson, Json.get?_obj, mapGet_cons, lit_inj,
    String.reduceEq, ↓reduceIte, Option.bind_some, Json.str?_str, hread 1 (by omega),
    hread b.tier (by omega), hread b.sourceTokens hs, hread b.previousTokens hp,
    hread b.baseTokens (by omega), hread b.hardTokens (by omega)]
  refine if_pos ⟨trivial, ?_, htier, ?_, by simpa [isSafe] using hs, by simpa [isSafe] using hp, hb.1,
    hb.1.trans hb.2.1, hb.2.1, hb.2.2, ?_⟩ <;> cases hm : b.mode
  · exact .inl rfl
  · exact .inr rfl
  · simpa [BudgetMode.name] using (hfixed hm).1
  · have := (htiered hm).1
    simp only [BudgetMode.name, lit_inj, String.reduceEq, ↓reduceIte]
    omega
  · exact fun _ => (hfixed hm).2
  · simp [BudgetMode.name]

theorem storedNoteLimit_selectNoteBudget {noteTokens : Option Nat} (hn : ∀ n ∈ noteTokens, 500 ≤ n)
    {threshold sourceTokens previousTokens : Nat} {b : NoteBudget}
    (h : selectNoteBudget noteTokens threshold sourceTokens previousTokens = .ok b) :
    storedNoteLimit (some b.toJson) = .ok b.hardTokens :=
  storedNoteLimit_of_frozen (frozen_selectNoteBudget hn h)

end Compaction
