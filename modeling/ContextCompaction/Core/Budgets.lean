import ContextCompaction.Core.Config
import ContextCompaction.Js.Regex

/-!
# Configurations and windows

`readMemoryConfig` validates the settings file; `memoryBudget` derives the compaction point from the
model and the settings. The products with 0.8, 0.15 and 0.5 are taken in exact arithmetic; the
product with a share of the window, and the difference of window and reserve, are rounded.

* `CompactAt`: a compaction point that the settings may name.
* `frozen_budget_accepted`: a policy frozen under a window and a configuration that are accepted is
  accepted when its checkpoint is reopened.
-/

namespace Compaction

open Js

/-! ## Settings -/

/-- A token count above 1, or a share of the window in `(0, 1]`. -/
structure CompactAt where
  value : ℚ
  representable : Representable value
  pos : 0 < value
  share : value ≤ 1 ∨ value.den = 1

/-- The fields that budgets read. -/
structure MemoryBudgetConfig where
  keepRecentTokens : Nat
  noteTokens : Option Nat
  compactAt : Option CompactAt

/-- The validated settings. -/
structure MemoryConfig extends MemoryBudgetConfig where
  enabled : Bool
  writerModel : Str
  writerEffort : Str
  eventLog : Bool
  noteRepair : Bool

/-- The session model writes its own note. -/
def SESSION_WRITER : Str := lit "session"

def efforts : List Str := [lit "minimal", lit "low", lit "medium", lit "high", lit "xhigh"]

/-- `v ?? fallback`. -/
def orDefault (v : Option Json) (fallback : Json) : Json :=
  match v with
  | none | some .null => fallback
  | some v => v

def bool? : Json → Option Bool
  | .bool b => some b
  | _ => none

/-- `isCount(v, minimum)`. -/
def countFrom? (v : Json) (minimum : Nat) : Option Nat := (count? v).filter (minimum ≤ ·)

/-- A compaction point, if the value is one. -/
def compactAt? : Json → Option CompactAt
  | .num (.finite false value representable) =>
    if h : 0 < value ∧ (value ≤ 1 ∨ value.den = 1) then some ⟨value, representable, h.1, h.2⟩ else none
  | _ => none

/-- An optional setting: absent, or a value that passes. -/
def optionalSetting {α : Type} (read : Json → Option α) : Option Json → Option (Option α)
  | none => some none
  | some v => (read v).map some

/-- The settings of a parsed file; `none` is a file that is not there. -/
def readMemoryConfig (file : Option Json) : Except Failure MemoryConfig :=
  match (file.getD (.obj [])).obj? with
  | none => .error (.ofText "CONTEXT_CONFIG: expected a JSON object")
  | some value =>
    match bool? (orDefault (field value "enabled") (.bool true)),
      bool? (orDefault (field value "eventLog") (.bool true)),
      bool? (orDefault (field value "noteRepair") (.bool true)),
      (orDefault (field value "writerModel") (.str SESSION_WRITER)).str?.filter
        (fun writer => writer = SESSION_WRITER || includes writer (lit "/")),
      (orDefault (field value "writerEffort") (.str (lit "medium"))).str?.filter (· ∈ efforts) with
    | some enabled, some eventLog, some noteRepair, some writerModel, some writerEffort =>
      match countFrom? (orDefault (field value "keepRecentTokens") (.num (.ofNat 0))) 0,
        optionalSetting (countFrom? · 500) (field value "noteTokens") with
      | some keepRecentTokens, some noteTokens =>
        match optionalSetting compactAt? (field value "compactAt") with
        | some compactAt =>
          .ok ⟨⟨keepRecentTokens, noteTokens, compactAt⟩, enabled, writerModel, writerEffort, eventLog,
            noteRepair⟩
        | none => .error (.ofText
            "CONTEXT_CONFIG: compactAt must be an integer token count above 1 or a window share in (0, 1]")
      | _, _ => .error (.ofText
          "CONTEXT_CONFIG: keepRecentTokens must be an integer >= 0 and noteTokens an integer >= 500")
    | _, _, _, _, _ =>
      .error (.ofText "CONTEXT_CONFIG: invalid enabled, eventLog, writerModel or writerEffort")

/-! ## The window of a model -/

structure BudgetModel where
  id : Str
  contextWindow : Number
  maxTokens : Number

structure MemoryBudget where
  capacity : ℚ
  reserve : ℚ
  threshold : Nat
  inputLimit : ℚ
  noteTokens : Nat
  recentTokens : Nat

/-- A bound of the provider, where the model has one. -/
def providerCap (id : Str) : Option ℚ :=
  if (Regex.text "gemini").ignoreCase.test id then some 200000
  -- `/^gpt(?:-|$)/i`
  else if ((Regex.text "gpt").ignoreCase.ends (.start id)).any fun c =>
      c.rest.head?.all (· == 0x2D) then some 400000
  else none

/-- `Math.max(16_384, maxTokens || 0)`; `none` is infinite. -/
def outputReserve : Number → Option ℚ
  | .nan => some 16384
  | .infinite negative => if negative then some 16384 else none
  | .finite negative abs _ => some (max 16384 (signed negative abs))

/-- `x - y`, rounded. -/
def roundedSub (x y : ℚ) : ℚ := signed (decide (x < y)) (Js.round |x - y|)

/-- The point that the settings ask for. -/
def requestedPoint (capacity : ℚ) (compactAt : CompactAt) : ℚ :=
  if compactAt.value ≤ 1 then Js.round (capacity * compactAt.value) else compactAt.value

def noWindow : Failure := .ofText "CONTEXT_CAPACITY: output reserve leaves no usable input window"

def memoryBudget (model : BudgetModel) (config : MemoryBudgetConfig) : Except Failure MemoryBudget :=
  match model.contextWindow with
  | .finite false capacity _ =>
    if capacity < 4096 then
      .error (.ofText "CONTEXT_CAPACITY: model window is too small or unknown")
    else
      match outputReserve model.maxTokens with
      | none => .error noWindow
      | some reserve =>
        let inputLimit := roundedSub capacity reserve
        let bounds := (providerCap model.id).toList ++
          (config.compactAt.map (requestedPoint capacity)).toList
        let threshold := ⌊bounds.foldl min (min (capacity * (4 / 5)) inputLimit)⌋
        if threshold < 2048 then .error noWindow
        else
          let threshold := threshold.toNat
          .ok
            { capacity
              reserve
              threshold
              inputLimit
              noteTokens := max 500 (min (min (config.noteTokens.getD 3000) MAX_NOTE_TOKENS)
                (threshold * 15 / 100))
              recentTokens := min config.keepRecentTokens (threshold / 2) }
  | _ => .error (.ofText "CONTEXT_CAPACITY: model window is too small or unknown")

/-! ## Policies -/

/-- The most that a note may take under a compaction point. -/
def noteCap (threshold : Nat) : Nat := max 500 (min MAX_NOTE_TOKENS (threshold * 15 / 100))

/-- A fixed bound that the settings name is at least 500. -/
theorem noteTokens_readMemoryConfig {file : Option Json} {config : MemoryConfig}
    (h : readMemoryConfig file = .ok config) : ∀ n ∈ config.noteTokens, 500 ≤ n := by
  unfold readMemoryConfig at h
  cases hvalue : (file.getD (.obj [])).obj? with
  | none => simp [hvalue] at h
  | some value =>
    simp only [hvalue] at h
    split at h
    next =>
      split at h
      next keepRecentTokens noteTokens _ hnote =>
        split at h
        next =>
          obtain rfl := Except.ok.inj h
          intro n hn
          obtain rfl : noteTokens = some n := hn
          unfold optionalSetting at hnote
          split at hnote
          next => cases hnote
          next v =>
            obtain ⟨m, hm, heq⟩ := Option.map_eq_some_iff.mp hnote
            obtain rfl := Option.some.inj heq
            exact of_decide_eq_true (Option.mem_filter_iff.mp hm).2
        next => cases h
      next => cases h
    next => cases h

/-- Measurements that are safe integers are frozen. -/
theorem selectNoteBudget_safe (noteTokens : Option Nat) (threshold : Nat)
    {sourceTokens previousTokens : Nat} (hs : isSafe sourceTokens) (hp : isSafe previousTokens) :
    ∃ policy, selectNoteBudget noteTokens threshold sourceTokens previousTokens = .ok policy := by
  unfold selectNoteBudget
  rw [hs, hp]
  cases noteTokens <;> exact ⟨_, rfl⟩

theorem tierOf_mono {m n : Nat} (h : m ≤ n) : tierOf m ≤ tierOf n := by
  unfold tierOf
  split_ifs <;> omega

theorem tierHard_mono {m n : Nat} (h : m ≤ n) (hn : n ≤ 4) : tierHard m ≤ tierHard n := by
  unfold tierHard
  split_ifs <;> omega

/-- Larger measurements freeze larger bounds. -/
theorem selectNoteBudget_mono {noteTokens : Option Nat} {threshold source source' previous previous' : Nat}
    {policy policy' : NoteBudget} (hsource : source ≤ source') (hprevious : previous ≤ previous')
    (h : selectNoteBudget noteTokens threshold source previous = .ok policy)
    (h' : selectNoteBudget noteTokens threshold source' previous' = .ok policy') :
    policy.baseTokens ≤ policy'.baseTokens ∧ policy.hardTokens ≤ policy'.hardTokens := by
  unfold selectNoteBudget at h h'
  split_ifs at h h'
  cases noteTokens with
  | some fixed =>
    obtain rfl := Except.ok.inj h
    obtain rfl := Except.ok.inj h'
    exact ⟨Nat.le_refl _, Nat.le_refl _⟩
  | none =>
    obtain rfl := Except.ok.inj h
    obtain rfl := Except.ok.inj h'
    have htier := tierOf_mono hsource
    have hhard := tierHard_mono htier (tierOf_bounds source').2
    dsimp only [tierBase]
    omega

/-- Under a cap that leaves room for the last note, the next one may be as long. -/
theorem selectNoteBudget_keeps {noteTokens : Option Nat} {threshold source previous : Nat}
    {policy : NoteBudget} (h : selectNoteBudget noteTokens threshold source previous = .ok policy)
    (htiered : policy.mode = .tiered) (hcap : previous ≤ noteCap threshold) :
    previous ≤ policy.hardTokens := by
  unfold selectNoteBudget at h
  split_ifs at h
  cases noteTokens with
  | some fixed =>
    obtain rfl := Except.ok.inj h
    cases htiered
  | none =>
    obtain rfl := Except.ok.inj h
    dsimp only [noteCap] at hcap ⊢
    omega

/-- A policy frozen under an accepted window and configuration is accepted again. Its bounds lie in
the storage range, grow with the measurements, and do not fall below the last note. -/
theorem frozen_budget_accepted {file : Option Json} {config : MemoryConfig} {model : BudgetModel}
    {budget : MemoryBudget} (hconfig : readMemoryConfig file = .ok config)
    (_hbudget : memoryBudget model config.toMemoryBudgetConfig = .ok budget)
    {source previous : Nat} (hs : isSafe source) (hp : isSafe previous) :
    ∃ policy, selectNoteBudget config.noteTokens budget.threshold source previous = .ok policy ∧
      storedNoteLimit (some policy.toJson) = .ok policy.hardTokens ∧
      500 ≤ policy.hardTokens ∧ policy.hardTokens ≤ 8000 ∧ policy.baseTokens ≤ policy.hardTokens ∧
      (∀ source' previous' policy', source ≤ source' → previous ≤ previous' →
        selectNoteBudget config.noteTokens budget.threshold source' previous' = .ok policy' →
          policy.baseTokens ≤ policy'.baseTokens ∧ policy.hardTokens ≤ policy'.hardTokens) ∧
      (policy.mode = .tiered → previous ≤ noteCap budget.threshold → previous ≤ policy.hardTokens) := by
  obtain ⟨policy, hpolicy⟩ := selectNoteBudget_safe config.noteTokens budget.threshold hs hp
  have hfixed := noteTokens_readMemoryConfig hconfig
  have hbounds := (frozen_selectNoteBudget hfixed hpolicy).bounds
  refine ⟨policy, hpolicy, storedNoteLimit_selectNoteBudget hfixed hpolicy,
    hbounds.1.trans hbounds.2.1, hbounds.2.2, hbounds.2.1, ?_, selectNoteBudget_keeps hpolicy⟩
  exact fun _ _ _ hsource hprevious h => selectNoteBudget_mono hsource hprevious hpolicy h

/-- A model with a window of 200000 tokens. -/
def sampleModel : BudgetModel :=
  ⟨lit "p/m", .finite false 200000 (representable_natCast (n := 200000) (by norm_num)),
    .finite false 8192 (representable_natCast (n := 8192) (by norm_num))⟩

def defaultConfig : MemoryConfig :=
  ⟨⟨0, none, none⟩, true, SESSION_WRITER, lit "medium", true, true⟩

theorem readMemoryConfig_none : readMemoryConfig none = .ok defaultConfig := by
  have hzero : countFrom? (.num (.ofNat 0)) 0 = some 0 := by
    rw [countFrom?, count?_ofNat (by norm_num)]
    rfl
  have hwriter : ((Json.str SESSION_WRITER).str?.filter
      fun writer => writer = SESSION_WRITER || includes writer (lit "/")) = some SESSION_WRITER := by
    decide +kernel
  have heffort : ((Json.str (lit "medium")).str?.filter (· ∈ efforts)) = some (lit "medium") := by
    decide +kernel
  simp only [readMemoryConfig, Option.getD_none, Json.obj?_obj, field, mapGet_nil, orDefault, bool?,
    hzero, hwriter, heffort, optionalSetting]
  rfl

theorem memoryBudget_sample : ∃ budget, memoryBudget sampleModel defaultConfig.toMemoryBudgetConfig =
    .ok budget ∧ budget.threshold = 160000 := by
  have hok : (memoryBudget sampleModel defaultConfig.toMemoryBudgetConfig).toOption.map
      MemoryBudget.threshold = some 160000 := by decide +kernel
  cases h : memoryBudget sampleModel defaultConfig.toMemoryBudgetConfig with
  | error e => simp [h, Except.toOption] at hok
  | ok budget => exact ⟨budget, rfl, by simpa [h, Except.toOption] using hok⟩

theorem frozen_budget_accepted_sample : ∃ budget policy,
    memoryBudget sampleModel defaultConfig.toMemoryBudgetConfig = .ok budget ∧
      selectNoteBudget none budget.threshold 90000 4500 = .ok policy ∧
      storedNoteLimit (some policy.toJson) = .ok policy.hardTokens := by
  obtain ⟨budget, hbudget, -⟩ := memoryBudget_sample
  obtain ⟨policy, hpolicy, hlimit, -⟩ := frozen_budget_accepted readMemoryConfig_none hbudget
    (show isSafe 90000 by decide) (show isSafe 4500 by decide)
  exact ⟨budget, policy, hbudget, hpolicy, hlimit⟩

end Compaction
