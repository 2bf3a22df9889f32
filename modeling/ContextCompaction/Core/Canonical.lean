import ContextCompaction.Core.Identity
import ContextCompaction.Js.JsonOrder

/-!
# Canonical text

The canonical text of a plain value is the ordinary text of the value with its members sorted, so
the parser reads it back.

* `canonicalize_plain`: the canonical text is `JSON.stringify` of the sorted value.
* `canonicalize_faithful`: equal texts mean equal values up to the order of properties, and parsing
  gives back the value.
-/

namespace Compaction

open Js

/-! ## The key order -/

theorem keyLe_total (s t : Str) : keyLe s t = true ∨ keyLe t s = true := by
  induction s generalizing t with
  | nil => exact .inl rfl
  | cons u s ih =>
    cases t with
    | nil => exact .inr rfl
    | cons v t =>
      simp only [keyLe, Bool.or_eq_true, decide_eq_true_eq, Bool.and_eq_true, beq_iff_eq,
        UInt16.lt_iff_toNat_lt, ← UInt16.toNat_inj]
      rcases Nat.lt_trichotomy u.toNat v.toNat with h | h | h
      · exact .inl (.inl h)
      · exact (ih t).imp (fun hst => .inr ⟨h, hst⟩) fun hts => .inr ⟨h.symm, hts⟩
      · exact .inr (.inl h)

/-- The order of keys is transitive. -/
theorem keyLe_trans {s t r : Str} (h₁ : keyLe s t = true) (h₂ : keyLe t r = true) :
    keyLe s r = true := by
  induction s generalizing t r with
  | nil => rfl
  | cons u s ih =>
    cases t with
    | nil => cases h₁
    | cons v t =>
      cases r with
      | nil => cases h₂
      | cons w r =>
        have ih := ih (t := t) (r := r)
        simp only [keyLe, Bool.or_eq_true, decide_eq_true_eq, Bool.and_eq_true, beq_iff_eq,
          UInt16.lt_iff_toNat_lt, ← UInt16.toNat_inj] at *
        rcases h₁ with h₁ | ⟨h₁, h₁'⟩ <;> rcases h₂ with h₂ | ⟨h₂, h₂'⟩
        · exact .inl (by omega)
        · exact .inl (by omega)
        · exact .inl (by omega)
        · exact .inr ⟨by omega, ih h₁' h₂'⟩

/-- Keys that precede each other are equal. -/
theorem keyLe_antisymm {s t : Str} (h₁ : keyLe s t = true) (h₂ : keyLe t s = true) : s = t := by
  induction s generalizing t with
  | nil =>
    cases t with
    | nil => rfl
    | cons v t => cases h₂
  | cons u s ih =>
    cases t with
    | nil => cases h₁
    | cons v t =>
      have ih := ih (t := t)
      simp only [keyLe, Bool.or_eq_true, decide_eq_true_eq, Bool.and_eq_true, beq_iff_eq,
        UInt16.lt_iff_toNat_lt] at h₁ h₂
      rcases h₁ with h₁ | ⟨rfl, h₁⟩
      · rcases h₂ with h₂ | ⟨rfl, -⟩ <;> omega
      · rcases h₂ with h₂ | ⟨-, h₂⟩
        · omega
        · rw [ih h₁ h₂]

/-- Members in key order. -/
def sortMembers {α : Type} (members : List (Str × α)) : List (Str × α) :=
  members.insertionSort fun a b => keyLe a.1 b.1

/-- Sorting forgets the order of members with distinct keys. -/
theorem sortMembers_perm {α : Type} {l m : List (Str × α)} (h : l.Perm m)
    (hd : (l.map Prod.fst).Nodup) : sortMembers l = sortMembers m := by
  have hsorted : ∀ l : List (Str × α), (sortMembers l).Pairwise fun a b => keyLe a.1 b.1 = true :=
    fun l => by
      have : Std.Total fun a b : Str × α => keyLe a.1 b.1 = true := ⟨fun a b => keyLe_total a.1 b.1⟩
      have : IsTrans (Str × α) fun a b => keyLe a.1 b.1 = true := ⟨fun _ _ _ => keyLe_trans⟩
      exact List.pairwise_insertionSort _ l
  have hl := List.perm_insertionSort (fun a b : Str × α => keyLe a.1 b.1) l
  have hm := List.perm_insertionSort (fun a b : Str × α => keyLe a.1 b.1) m
  refine List.Perm.eq_of_pairwise (fun a b ha hb hab hba => ?_) (hsorted l) (hsorted m)
    (hl.trans (h.trans hm.symm))
  have hkey : a.1 = b.1 := keyLe_antisymm hab hba
  have ha : mapGet l a.1 = some a.2 := (mem_iff_mapGet hd).mp (hl.mem_iff.mp ha)
  have hb : mapGet l b.1 = some b.2 :=
    (mem_iff_mapGet hd).mp (h.symm.mem_iff.mp (hm.mem_iff.mp hb))
  rw [hkey, hb] at ha
  exact Prod.ext hkey (Option.some.inj ha).symm

theorem map_sortMembers {α β : Type} (f : α → β) (members : List (Str × α)) :
    (sortMembers members).map (fun e => (e.1, f e.2)) =
      sortMembers (members.map fun e => (e.1, f e.2)) :=
  List.map_insertionSort _ _ _ _ fun _ _ _ _ => Iff.rfl

/-! ## Sorted values -/

mutual

/-- A value with the members of each object in key order. -/
def sorted : Json → Json
  | .arr xs => .arr (sortedElements xs)
  | .obj fields => .obj (sortMembers (sortedFields fields))
  | v => v

def sortedElements : List Json → List Json
  | [] => []
  | x :: xs => sorted x :: sortedElements xs

def sortedFields : List (Str × Json) → List (Str × Json)
  | [] => []
  | (k, v) :: fields => (k, sorted v) :: sortedFields fields

end

theorem sortedElements_eq_map (xs : List Json) : sortedElements xs = xs.map sorted := by
  induction xs with
  | nil => rfl
  | cons x xs ih => simp [sortedElements, ih]

theorem sortedFields_eq_map (fields : List (Str × Json)) :
    sortedFields fields = fields.map fun e => (e.1, sorted e.2) := by
  induction fields with
  | nil => rfl
  | cons e fields ih => simp [sortedFields, ih]

theorem keys_map {f : Json → Json} (fields : List (Str × Json)) :
    (fields.map fun e => (e.1, f e.2)).map Prod.fst = fields.map Prod.fst := by
  rw [List.map_map]
  rfl

theorem sortMembers_mem {α : Type} {members : List (Str × α)} {e : Str × α} :
    e ∈ sortMembers members ↔ e ∈ members :=
  (List.perm_insertionSort _ _).mem_iff

/-- Sorting the keys keeps a value plain. -/
theorem plain_sorted {a : Json} (ha : a.Plain) : (sorted a).Plain := by
  induction ha with
  | null => exact .null
  | bool b => exact .bool b
  | num negative abs h => exact .num negative abs h
  | str h => exact .str h
  | arr _ ih =>
    rw [sorted, sortedElements_eq_map]
    refine .arr fun x hx => ?_
    obtain ⟨y, hy, rfl⟩ := List.mem_map.mp hx
    exact ih y hy
  | @obj fields hkeys hformed _ ih =>
    rw [sorted, sortedFields_eq_map]
    have hmem : ∀ e ∈ sortMembers (fields.map fun e => (e.1, sorted e.2)),
        ∃ e' ∈ fields, (e'.1, sorted e'.2) = e := fun e he => by
      simpa using sortMembers_mem.mp he
    refine .obj ?_ (fun e he => ?_) fun e he => ?_
    · exact (((List.perm_insertionSort _ _).map Prod.fst).nodup_iff).mpr (keys_map fields ▸ hkeys)
    · obtain ⟨e', he', rfl⟩ := hmem e he
      exact hformed e' he'
    · obtain ⟨e', he', rfl⟩ := hmem e he
      exact ih e' he'

/-- A plain value is the same as itself with sorted keys. -/
theorem same_sorted {a : Json} (ha : a.Plain) : a.Same (sorted a) := by
  induction ha with
  | null => exact .null
  | bool b => exact .bool b
  | num negative abs h => exact .refl _
  | str h => exact .str _
  | arr _ ih =>
    rw [sorted, sortedElements_eq_map]
    refine .arr (by simp) fun i x y hx hy => ?_
    rw [List.getElem?_map, hx] at hy
    obtain rfl := Option.some.inj hy
    exact ih x (List.mem_of_getElem? hx)
  | obj hkeys _ _ ih =>
    rw [sorted, sortedFields_eq_map]
    exact .of_perm hkeys (List.perm_insertionSort _ _) ih

/-! ## The text -/

/-- The text of an array joins the texts of its elements. -/
theorem stringify_arr (xs : List Json) :
    stringify (.arr xs) = lit "[" ++ join "," (xs.map stringify) ++ lit "]" := by
  have hrest : ∀ (xs : List Json) (x : Json),
      stringify x ++ stringifyElementsRest xs = join "," ((x :: xs).map stringify) := by
    intro xs
    induction xs with
    | nil => simp [stringifyElementsRest]
    | cons y xs ih =>
      intro x
      rw [List.map_cons, List.map_cons, join_cons_cons, ← List.map_cons, ← ih y]
      simp only [stringifyElementsRest, List.append_assoc]
      rfl
  cases xs with
  | nil => rfl
  | cons x xs =>
    rw [stringify, stringifyElements, hrest]
    rfl

/-- One member of an object. -/
def memberText (e : Str × Str) : Str := quote e.1 ++ lit ":" ++ e.2

/-- The text of an object joins the texts of its members. -/
theorem stringify_obj (fields : List (Str × Json)) :
    stringify (.obj fields) =
      lit "\x7b" ++ join "," (fields.map fun e => memberText (e.1, stringify e.2)) ++ lit "\x7d" := by
  have hmember : ∀ (e : Str × Json) (s : Str),
      quote e.1 ++ 0x3A :: (stringify e.2 ++ s) = memberText (e.1, stringify e.2) ++ s := by
    intro e s
    simp only [memberText, List.append_assoc]
    rfl
  have hrest : ∀ (fields : List (Str × Json)) (e : Str × Json),
      memberText (e.1, stringify e.2) ++ stringifyFieldsRest fields =
        join "," ((e :: fields).map fun e => memberText (e.1, stringify e.2)) := by
    intro fields
    induction fields with
    | nil => simp [stringifyFieldsRest]
    | cons f fields ih =>
      intro e
      have ih := ih f
      rw [List.map_cons] at ih
      rw [List.map_cons, List.map_cons, join_cons_cons, ← ih]
      simp only [stringifyFieldsRest, hmember, List.append_assoc]
      rfl
  cases fields with
  | nil => rfl
  | cons e fields =>
    rw [stringify, stringifyFields, hmember, hrest]
    rfl

/-- The text of a sorted object, from the texts of its members. -/
theorem stringify_sorted_obj (fields : List (Str × Json)) :
    stringify (sorted (.obj fields)) = lit "\x7b" ++
      join "," ((sortMembers (fields.map fun e => (e.1, stringify (sorted e.2)))).map memberText) ++
      lit "\x7d" := by
  have hmap : (sortMembers (sortedFields fields)).map (fun e => memberText (e.1, stringify e.2)) =
      (sortMembers (fields.map fun e => (e.1, stringify (sorted e.2)))).map memberText := by
    have := map_sortMembers stringify (sortedFields fields)
    rw [sortedFields_eq_map, List.map_map] at this
    rw [sortedFields_eq_map, show (fields.map fun e => (e.1, stringify (sorted e.2))) =
      fields.map ((fun e => (e.1, stringify e.2)) ∘ fun e => (e.1, sorted e.2)) from rfl, ← this,
      List.map_map]
    rfl
  rw [sorted, stringify_obj, hmap]

/-- Equal values up to order have one sorted text. -/
theorem stringify_sorted_same {a b : Json} (h : a.Same b) (ha : a.Plain) (hb : b.Plain) :
    stringify (sorted a) = stringify (sorted b) := by
  induction h with
  | null => rfl
  | bool b => rfl
  | num h => exact h.json
  | str s => rfl
  | @arr xs ys hlen _ ih =>
    cases ha with
    | arr ha =>
      cases hb with
      | arr hb =>
        have hmap : xs.map (stringify ∘ sorted) = ys.map (stringify ∘ sorted) := by
          apply List.ext_getElem (by simpa using hlen)
          intro i hi hi'
          rw [List.length_map] at hi hi'
          rw [List.getElem_map, List.getElem_map]
          exact ih i _ _ (List.getElem?_eq_getElem hi) (List.getElem?_eq_getElem hi')
            (ha _ (List.getElem_mem hi)) (hb _ (List.getElem_mem hi'))
        rw [sorted, sorted, stringify_arr, stringify_arr, sortedElements_eq_map,
          sortedElements_eq_map, List.map_map, List.map_map, hmap]
  | @obj fs gs hkeys hsame ih =>
    cases ha with
    | obj hfs _ ha =>
      cases hb with
      | obj hgs _ hb =>
        have hperm : (fs.map fun e => (e.1, stringify (sorted e.2))).Perm
            (gs.map fun e => (e.1, stringify (sorted e.2))) := by
          have hget := fun (m : List (Str × Json)) k => mapGet_map (fun v => stringify (sorted v)) m k
          refine perm_of_mapGet ?_ ?_ fun k => ?_
          · rw [List.map_map]
            exact hfs
          · rw [List.map_map]
            exact hgs
          · rw [hget, hget]
            rcases (Json.Same.obj hkeys hsame).get k with ⟨hx, hy⟩ | ⟨x, y, hx, hy, -⟩
            · rw [hx, hy]
            · rw [hx, hy]
              exact congrArg some (ih k x y hx hy (ha _ (mem_of_mapGet hx)) (hb _ (mem_of_mapGet hy)))
        have hd : ((fs.map fun e => (e.1, stringify (sorted e.2))).map Prod.fst).Nodup := by
          rw [List.map_map]
          exact hfs
        rw [stringify_sorted_obj, stringify_sorted_obj, sortMembers_perm hperm hd]

/-! ## Canonical text -/

theorem surrogateFault_eq_none (s : Str) : surrogateFault s = none ↔ wellFormed s = true := by
  fun_induction surrogateFault s <;> simp_all [wellFormed]

theorem stringLiteral_ok {s text : Str} :
    stringLiteral s = .ok text ↔ wellFormed s = true ∧ text = quote s := by
  rw [← surrogateFault_eq_none, stringLiteral]
  cases surrogateFault s <;> simp [eq_comm]

theorem canonicalFields_eq_map (fields : List (Str × Json)) :
    canonicalFields fields = fields.map fun e => (e.1, canonicalize e.2) := by
  induction fields with
  | nil => rfl
  | cons e fields ih => simp [canonicalFields, ih]

/-- The members of an object whose values all have a text. -/
theorem canonicalMembers_ok {members : List (Str × Str)}
    (h : ∀ e ∈ members, wellFormed e.1 = true) :
    canonicalMembers (members.map fun e => (e.1, .ok e.2)) =
      .ok (join "," ((sortMembers members).map memberText)) := by
  have hsort : sortMembers (members.map fun e => (e.1, (Except.ok e.2 : Except Failure Str))) =
      (sortMembers members).map fun e => (e.1, .ok e.2) := (map_sortMembers Except.ok members).symm
  have hmap : ∀ l : List (Str × Str), (∀ e ∈ l, wellFormed e.1 = true) →
      (l.map fun e => (e.1, (Except.ok e.2 : Except Failure Str))).mapM (fun e => do
        let key ← stringLiteral e.1
        let value ← e.2
        pure (key ++ lit ":" ++ value)) = .ok (l.map memberText) := by
    intro l hl
    induction l with
    | nil => rfl
    | cons e l ih =>
      have he := stringLiteral_ok.mpr ⟨hl e List.mem_cons_self, rfl⟩
      rw [List.map_cons, List.mapM_cons, ih fun e he => hl e (List.mem_cons_of_mem _ he)]
      simp only [he]
      rfl
  rw [canonicalMembers]
  change (sortMembers _).mapM _ >>= _ = _
  rw [hsort, hmap _ fun e he => h e (sortMembers_mem.mp he)]
  rfl

/-- The canonical text of a plain value is the text of it with sorted keys. -/
theorem canonicalize_plain {a : Json} (ha : a.Plain) : canonicalize a = .ok (stringify (sorted a)) := by
  induction ha with
  | null => rfl
  | bool b => rfl
  | num negative abs h => rfl
  | str h => exact stringLiteral_ok.mpr ⟨h, rfl⟩
  | @arr xs _ ih =>
    have hel : ∀ l : List Json, (∀ x ∈ l, canonicalize x = .ok (stringify (sorted x))) →
        canonicalElements l = .ok (l.map fun x => stringify (sorted x)) := by
      intro l hl
      induction l with
      | nil => rfl
      | cons x l ih =>
        rw [canonicalElements, hl x List.mem_cons_self, ih fun y hy => hl y (List.mem_cons_of_mem _ hy)]
        rfl
    rw [canonicalize, hel xs ih, sorted, stringify_arr, sortedElements_eq_map, List.map_map]
    rfl
  | @obj fields _ hformed _ ih =>
    have hfields : canonicalFields fields =
        (fields.map fun e => (e.1, stringify (sorted e.2))).map fun e => (e.1, .ok e.2) := by
      rw [canonicalFields_eq_map, List.map_map]
      exact List.map_congr_left fun e he => by rw [ih e he]; rfl
    rw [canonicalize, hfields, canonicalMembers_ok fun e he => ?_, stringify_sorted_obj]
    · rfl
    · obtain ⟨e', he', rfl⟩ := List.mem_map.mp he
      exact hformed e' he'

/-- The canonical text of a plain value is read back as the value. -/
theorem parse_canonicalize {a : Json} (ha : a.Plain) :
    ∃ text v, canonicalize a = .ok text ∧ parse text = some v ∧ a.Same v :=
  ⟨_, _, canonicalize_plain ha, parse_stringify _,
    (same_sorted ha).trans (plain_sorted ha).same_normal⟩

theorem same_of_canonicalize {a b : Json} (ha : a.Plain) (hb : b.Plain)
    (h : canonicalize a = canonicalize b) : a.Same b := by
  obtain ⟨text, v, htext, hv, hav⟩ := parse_canonicalize ha
  obtain ⟨text', v', htext', hv', hbv⟩ := parse_canonicalize hb
  obtain rfl : text = text' := Except.ok.inj (htext.symm.trans (h.trans htext'))
  obtain rfl : v = v' := Option.some.inj (hv.symm.trans hv')
  exact hav.trans hbv.symm

theorem canonicalize_same {a b : Json} (ha : a.Plain) (hb : b.Plain) (h : a.Same b) :
    canonicalize a = canonicalize b := by
  rw [canonicalize_plain ha, canonicalize_plain hb, stringify_sorted_same h ha hb]

/-- Canonical text is faithful: equal texts mean values that are equal up to the order of
properties, and the text is read back as the value. -/
theorem canonicalize_faithful {a b : Json} (ha : a.Plain) (hb : b.Plain) :
    (canonicalize a = canonicalize b ↔ a.Same b) ∧
      ∃ text v, canonicalize a = .ok text ∧ parse text = some v ∧ a.Same v :=
  ⟨⟨same_of_canonicalize ha hb, canonicalize_same ha hb⟩, parse_canonicalize ha⟩

/-- `-0` -/
def negativeZero : Number := .finite true 0 ⟨0, 0, by norm_num⟩

/-- An object whose properties are out of order, with a negative zero in it. -/
def sampleValue : Json := .obj [(lit "b", .arr [.num negativeZero, .str (lit "x")]), (lit "a", .null)]

theorem plain_sampleValue : sampleValue.Plain := by
  refine .obj (by decide) (by decide) fun f hf => ?_
  rcases List.mem_cons.mp hf with rfl | hf
  · refine .arr fun x hx => ?_
    rcases List.mem_cons.mp hx with rfl | hx
    · exact .num _ _ _
    · obtain rfl := List.mem_singleton.mp hx
      exact .str (by decide)
  · obtain rfl := List.mem_singleton.mp hf
    exact .null

/-- The same value with its properties in order, and zero without a sign. -/
def sortedSample : Json :=
  .obj [(lit "a", .null), (lit "b", .arr [.num (.finite false 0 ⟨0, 0, by norm_num⟩), .str (lit "x")])]

/-- The sorted sample differs from the sample in the order of its keys alone. -/
theorem same_sortedSample : sampleValue.Same sortedSample := by
  have hlist : (Json.arr [.num negativeZero, .str (lit "x")]).Same
      (.arr [.num (.finite false 0 ⟨0, 0, by norm_num⟩), .str (lit "x")]) := by
    refine .arr rfl fun i x y hx hy => ?_
    rcases i with _ | _ | i
    · obtain rfl := Option.some.inj hx
      obtain rfl := Option.some.inj hy
      exact .num ⟨rfl, fun h => absurd rfl h⟩
    · obtain rfl := Option.some.inj hx
      obtain rfl := Option.some.inj hy
      exact .str _
    · cases hx
  have hne : lit "a" ≠ lit "b" := by decide
  refine .obj (fun k => ?_) fun k x y hx hy => ?_
  · by_cases ha : lit "a" = k
    · subst ha
      simp [hne.symm]
    · by_cases hb : lit "b" = k <;> simp [ha, hb, mapGet]
  · by_cases ha : lit "a" = k
    · subst ha
      simp only [mapGet_cons, hne.symm, if_false, if_true, Option.some.injEq] at hx hy
      exact hx ▸ hy ▸ .null
    · by_cases hb : lit "b" = k
      · subst hb
        simp only [mapGet_cons, hne, if_false, if_true, Option.some.injEq] at hx hy
        exact hx ▸ hy ▸ hlist
      · simp [ha, hb, mapGet_cons] at hx

theorem plain_sortedSample : sortedSample.Plain := by
  refine .obj (by decide) (by decide) fun f hf => ?_
  rcases List.mem_cons.mp hf with rfl | hf
  · exact .null
  · obtain rfl := List.mem_singleton.mp hf
    refine .arr fun x hx => ?_
    rcases List.mem_cons.mp hx with rfl | hx
    · exact .num _ _ _
    · obtain rfl := List.mem_singleton.mp hx
      exact .str (by decide)

/-- Two orders of the properties and two zeros have one text, which is read back as the value. -/
theorem canonicalize_faithful_sample :
    canonicalize sampleValue = canonicalize sortedSample ∧
      ∃ text v, canonicalize sampleValue = .ok text ∧ parse text = some v ∧ sampleValue.Same v :=
  ⟨(canonicalize_faithful plain_sampleValue plain_sortedSample).1.mpr same_sortedSample,
    (canonicalize_faithful plain_sampleValue plain_sortedSample).2⟩

/-! ## What has a canonical text -/

/-- Members that have a canonical text have well-formed keys and values with one. -/
theorem canonicalMembers_inv {members : List (Str × Except Failure Str)} {text : Str}
    (h : canonicalMembers members = .ok text) :
    ∀ e ∈ members, wellFormed e.1 = true ∧ ∃ value, e.2 = .ok value := by
  have hmap : ∀ (l : List (Str × Except Failure Str)) (texts : List Str),
      (l.mapM fun e => do
        let key ← stringLiteral e.1
        let value ← e.2
        pure (key ++ lit ":" ++ value)) = .ok texts →
      ∀ e ∈ l, wellFormed e.1 = true ∧ ∃ value, e.2 = .ok value := by
    intro l
    induction l with
    | nil => exact fun _ _ e he => by cases he
    | cons e l ih =>
      intro texts ht
      rw [List.mapM_cons] at ht
      obtain ⟨t, h₁, h₂⟩ := bind_ok.mp ht
      obtain ⟨ts, h₃, -⟩ := bind_ok.mp h₂
      obtain ⟨key, hkey, h₁⟩ := bind_ok.mp h₁
      obtain ⟨value, hvalue, -⟩ := bind_ok.mp h₁
      rw [List.forall_mem_cons]
      exact ⟨⟨(stringLiteral_ok.mp hkey).1, value, hvalue⟩, ih ts h₃⟩
  obtain ⟨texts, h, -⟩ := bind_ok.mp h
  exact fun e he => hmap _ texts h e (sortMembers_mem.mpr he)

/-- A value with distinct keys that has a canonical text is plain. -/
theorem plain_of_canonicalize {a : Json} (hd : a.Distinct) {text : Str}
    (h : canonicalize a = .ok text) : a.Plain := by
  induction hd generalizing text with
  | null => exact .null
  | bool b => exact .bool b
  | num n =>
    cases n with
    | nan => cases h
    | infinite negative => cases h
    | finite negative abs hr => exact .num negative abs hr
  | str s => exact .str (stringLiteral_ok.mp h).1
  | @arr xs _ ih =>
    obtain ⟨texts, h, -⟩ := bind_ok.mp h
    refine .arr ?_
    have hel : ∀ (l : List Json) (texts : List Str), (∀ x ∈ l, x ∈ xs) →
        canonicalElements l = .ok texts → ∀ x ∈ l, x.Plain := by
      intro l
      induction l with
      | nil => exact fun _ _ _ x hx => by cases hx
      | cons x l ihl =>
        intro texts hsub ht
        obtain ⟨t, h₁, h₂⟩ := bind_ok.mp ht
        obtain ⟨ts, h₃, -⟩ := bind_ok.mp h₂
        rw [List.forall_mem_cons]
        exact ⟨ih x (hsub x List.mem_cons_self) h₁,
          ihl ts (fun y hy => hsub y (List.mem_cons_of_mem _ hy)) h₃⟩
    exact hel xs texts (fun _ hx => hx) h
  | @obj fields hkeys _ ih =>
    obtain ⟨members, h, -⟩ := bind_ok.mp h
    rw [canonicalFields_eq_map] at h
    have hmem := fun (e : Str × Json) (he : e ∈ fields) =>
      canonicalMembers_inv h _ (List.mem_map.mpr ⟨e, he, rfl⟩)
    refine .obj hkeys (fun e he => (hmem e he).1) fun e he => ?_
    obtain ⟨value, hvalue⟩ := (hmem e he).2
    exact ih e he hvalue

end Compaction
