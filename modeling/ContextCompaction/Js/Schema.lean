import ContextCompaction.Js.JsonParse

/-!
# Schemas

The part of TypeBox that the repository's schemas use: `check` is `Check(schema, value)`. Objects
are closed (`additionalProperties: false`). What a string's length counts is left to the
parameter `len`.

* `check_string`, `check_array`, `check_object`: what a value that passes looks like.
* `check_strings`: an array of strings, in terms of the strings.
-/

namespace Js

/-- A number that is an integer and not negative; `-0` counts as `0`. -/
def count? (v : Json) : Option Nat :=
  match v with
  | .num (.finite negative abs _) =>
    if abs.den = 1 ∧ (negative = true → abs = 0) then some abs.num.toNat else none
  | _ => none

theorem count?_ofNat {n : Nat} (h : n < 2 ^ 53) : count? (.num (.ofNat n)) = some n := by
  rw [Number.ofNat_eq h]
  simp [count?]

inductive Schema where
  | null
  | integer (minimum : Nat)
  | string (minLength : Nat) (maxLength : Nat)
  | pattern (minLength : Nat) (maxLength : Nat) (unit : UInt16 → Bool)
  | literal (s : Str)
  | union (options : List Schema)
  | array (items : Schema) (minItems maxItems : Nat) (uniqueItems : Bool)
  | object (properties : List (Str × Bool × Schema))

variable (len : Str → Nat)

mutual

/-- `Check(schema, value)`. The flag of a property says whether it is optional. -/
def check : Schema → Json → Bool
  | .null, v => match v with
    | .null => true
    | _ => false
  | .integer lo, v => (count? v).any fun n => decide (lo ≤ n)
  | .string lo hi, v => v.str?.any fun s => decide (lo ≤ len s ∧ len s ≤ hi)
  -- A pattern `^[..]+$` of one class of units.
  | .pattern lo hi unit, v => v.str?.any fun s =>
      decide (lo ≤ len s ∧ len s ≤ hi) && s ≠ [] && s.all unit
  | .literal t, v => v.str?.any fun s => decide (s = t)
  | .union options, v => checkAny options v
  | .array items lo hi unique, v => v.arr?.any fun xs =>
      decide (lo ≤ xs.length ∧ xs.length ≤ hi) && xs.all (check items) &&
        (!unique || decide ((xs.map stringify).Nodup))
  | .object properties, v => v.obj?.any fun fields =>
      fields.all (fun f => properties.any fun p => p.1 = f.1) && checkProperties properties fields

def checkAny : List Schema → Json → Bool
  | [], _ => false
  | schema :: options, v => check schema v || checkAny options v

def checkProperties : List (Str × Bool × Schema) → List (Str × Json) → Bool
  | [], _ => true
  | (k, optional, schema) :: properties, fields =>
    (match mapGet fields k with
      | none => optional
      | some v => check schema v) && checkProperties properties fields

end

/-! ## Values that pass -/

variable {len}

theorem check_string {lo hi : Nat} {v : Json} :
    check len (.string lo hi) v = true ↔ ∃ s, v = .str s ∧ lo ≤ len s ∧ len s ≤ hi := by
  cases v <;> simp [check, Json.str?]

theorem check_array {items : Schema} {lo hi : Nat} {unique : Bool} {v : Json} :
    check len (.array items lo hi unique) v = true ↔
      ∃ xs, v = .arr xs ∧ (lo ≤ xs.length ∧ xs.length ≤ hi) ∧ (∀ x ∈ xs, check len items x = true) ∧
        (unique = true → (xs.map stringify).Nodup) := by
  cases v <;> simp [check, Json.arr?]
  rename_i xs
  cases unique <;> simp [and_assoc]

/-- An object passes when it has only listed properties and each of them passes. -/
theorem check_object {properties : List (Str × Bool × Schema)} {v : Json} :
    check len (.object properties) v = true ↔
      ∃ fields, v = .obj fields ∧ (∀ f ∈ fields, ∃ p ∈ properties, p.1 = f.1) ∧
        ∀ p ∈ properties, match mapGet fields p.1 with
          | none => p.2.1 = true
          | some x => check len p.2.2 x = true := by
  have hprops : ∀ (properties : List (Str × Bool × Schema)) (fields : List (Str × Json)),
      checkProperties len properties fields = true ↔ ∀ p ∈ properties,
        match mapGet fields p.1 with
          | none => p.2.1 = true
          | some x => check len p.2.2 x = true := by
    intro properties fields
    induction properties with
    | nil => simp [checkProperties]
    | cons p properties ih =>
      obtain ⟨k, optional, schema⟩ := p
      rw [checkProperties, Bool.and_eq_true, ih, List.forall_mem_cons]
      cases mapGet fields k <;> rfl
  cases v <;> simp [check, Json.obj?, hprops]

theorem quote_injective : Function.Injective quote := by
  intro s t h
  have hs := parseUnits_quoteUnits s []
  have ht := parseUnits_quoteUnits t []
  rw [quote, quote, List.cons.injEq] at h
  rw [h.2, ht] at hs
  exact (Prod.mk.inj (Option.some.inj hs)).1.symm

/-- The strings of an array. -/
def Json.strs (v : Json) : List Str := (v.arr?.getD []).filterMap Json.str?

@[simp] theorem Json.strs_arr (ss : List Str) : (Json.arr (ss.map .str)).strs = ss := by
  simp [Json.strs, List.filterMap_map, Function.comp_def]

/-- An array of strings passes when its length, its strings' lengths and, if asked, their being distinct
are right. -/
theorem check_strings {lo hi min max : Nat} {unique : Bool} {v : Json} :
    check len (.array (.string lo hi) min max unique) v = true ↔
      ∃ ss : List Str, v = .arr (ss.map .str) ∧ (min ≤ ss.length ∧ ss.length ≤ max) ∧
        (∀ s ∈ ss, lo ≤ len s ∧ len s ≤ hi) ∧ (unique = true → ss.Nodup) := by
  rw [check_array]
  constructor
  · rintro ⟨xs, rfl, hlen, hitems, hunique⟩
    obtain ⟨ss, rfl⟩ : ∃ ss : List Str, xs = ss.map .str := by
      clear hlen hunique
      induction xs with
      | nil => exact ⟨[], rfl⟩
      | cons x xs ih =>
        obtain ⟨s, rfl, -⟩ := check_string.mp (hitems x List.mem_cons_self)
        obtain ⟨ss, rfl⟩ := ih fun y hy => hitems y (List.mem_cons_of_mem _ hy)
        exact ⟨s :: ss, rfl⟩
    refine ⟨ss, rfl, by simpa using hlen, fun s hs => ?_, fun hu => ?_⟩
    · obtain ⟨t, ht, hb⟩ := check_string.mp (hitems _ (List.mem_map_of_mem hs))
      obtain rfl := Json.str.inj ht
      exact hb
    · exact List.Nodup.of_map quote (by simpa [stringify, Function.comp_def] using hunique hu)
  · rintro ⟨ss, rfl, hlen, hitems, hunique⟩
    refine ⟨_, rfl, by simpa using hlen, ?_, fun hu => ?_⟩
    · simp only [List.mem_map, forall_exists_index, and_imp, forall_apply_eq_imp_iff₂]
      exact fun s hs => check_string.mpr ⟨s, rfl, hitems s hs⟩
    · simpa [stringify, Function.comp_def] using (hunique hu).map quote_injective

end Js
