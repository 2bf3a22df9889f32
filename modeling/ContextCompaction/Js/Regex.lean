import ContextCompaction.Js.Number

/-!
# Regular expressions

The part of ECMAScript's patterns that the repository uses, on code units (no flag `u`) and without
groups that capture. `Regex.ends` lists where a match may end, in the order in which a backtracking
matcher tries them, so its head is the match.

* `Regex.test`, `Regex.fullTest`, `Regex.matchAll`: `pattern.test(s)`, the same between `^` and
  `$`, and `s.matchAll(pattern)`.
* `ends_spec`: what a match reads: at least as many units as the pattern asks for, all of its
  classes.
-/

namespace Js

/-! ## Classes -/

def isUpper (u : UInt16) : Bool := 0x41 ≤ u && u ≤ 0x5A

def isLower (u : UInt16) : Bool := 0x61 ≤ u && u ≤ 0x7A

def isLetter (u : UInt16) : Bool := isUpper u || isLower u

def isAlphanumeric (u : UInt16) : Bool := isLetter u || isDigit u

/-- `\w`. -/
def isWord (u : UInt16) : Bool := isAlphanumeric u || u == 0x5F

/-- One of some characters. -/
def oneOf (s : String) (u : UInt16) : Bool := (lit s).contains u

/-- The other case of a letter. -/
def otherCase (u : UInt16) : UInt16 :=
  if isUpper u then u + 0x20 else if isLower u then u - 0x20 else u

/-! ## Matching -/

inductive Regex where
  | empty
  | unit (p : UInt16 → Bool)
  | seq (a b : Regex)
  | alt (a b : Regex)
  | rep (r : Regex) (min : Nat) (max : Option Nat)
  | boundary
  | ahead (r : Regex)
  | notAhead (r : Regex)

/-- A position in a text: the unit before it, and what follows. -/
structure Cursor where
  before : Option UInt16
  rest : Str

def Cursor.start (s : Str) : Cursor := ⟨none, s⟩

/-- A greedy repetition. No body here matches the empty text, so there are at most as many rounds as
units. -/
def times (step : Cursor → List Cursor) : Nat → Nat → Option Nat → Cursor → List Cursor
  | 0, min, _, c => if min = 0 then [c] else []
  | fuel + 1, min, max, c =>
    (if max = some 0 then []
      else (step c).flatMap (times step fuel (min - 1) (max.map fun n => n - 1))) ++
      if min = 0 then [c] else []

namespace Regex

/-- The positions where a match from a position on may end. -/
def ends : Regex → Cursor → List Cursor
  | empty, c => [c]
  | unit p, c => match c.rest with
    | [] => []
    | u :: rest => if p u then [⟨some u, rest⟩] else []
  | seq a b, c => (ends a c).flatMap (ends b)
  | alt a b, c => ends a c ++ ends b c
  | rep r min max, c => times (ends r) c.rest.length min max c
  | boundary, c => if c.before.any isWord = c.rest.head?.any isWord then [] else [c]
  | ahead r, c => if (ends r c).isEmpty then [] else [c]
  | notAhead r, c => if (ends r c).isEmpty then [c] else []

/-- A text. -/
def text (s : String) : Regex := ((lit s).map fun u => unit (· == u)).foldr seq empty

def anyText (ss : List String) : Regex := (ss.map text).foldr alt (unit fun _ => false)

def all (rs : List Regex) : Regex := rs.foldr seq empty

/-- `r+`. -/
def oneOrMore (r : Regex) : Regex := rep r 1 none

/-- `r*`. -/
def many (r : Regex) : Regex := rep r 0 none

/-- `r?`. -/
def maybe (r : Regex) : Regex := rep r 0 (some 1)

/-- `r{n,}`. -/
def atLeast (r : Regex) (n : Nat) : Regex := rep r n none

/-- `r{n}`. -/
def exactly (r : Regex) (n : Nat) : Regex := rep r n (some n)

/-- The flag `i`. No class of the repository has a letter beyond ASCII. -/
def ignoreCase : Regex → Regex
  | unit p => unit fun u => p u || p (otherCase u)
  | seq a b => seq a.ignoreCase b.ignoreCase
  | alt a b => alt a.ignoreCase b.ignoreCase
  | rep r min max => rep r.ignoreCase min max
  | ahead r => ahead r.ignoreCase
  | notAhead r => notAhead r.ignoreCase
  | empty => empty
  | boundary => boundary

/-- A match from some position on. -/
def testFrom (r : Regex) : Option UInt16 → Str → Bool
  | before, [] => !(r.ends ⟨before, []⟩).isEmpty
  | before, u :: rest => !(r.ends ⟨before, u :: rest⟩).isEmpty || testFrom r (some u) rest

/-- `pattern.test(s)`. -/
def test (r : Regex) (s : Str) : Bool := r.testFrom none s

/-- `/^pattern$/.test(s)`. -/
def fullTest (r : Regex) (s : Str) : Bool := (r.ends (.start s)).any fun c => c.rest.isEmpty

/-- The matches from a position on, with their places. -/
def matchesFrom (r : Regex) : Nat → Nat → Cursor → List (Nat × Str)
  | 0, _, _ => []
  | fuel + 1, index, c =>
    match c.rest with
    | [] => []
    | u :: rest =>
      match (r.ends c).head? with
      | some c' =>
        let n := c.rest.length - c'.rest.length
        if n = 0 then matchesFrom r fuel (index + 1) ⟨some u, rest⟩
        else (index, c.rest.take n) :: matchesFrom r fuel (index + n) c'
      | none => matchesFrom r fuel (index + 1) ⟨some u, rest⟩

/-- `s.matchAll(pattern)`, for a pattern with the flag `g` that matches no empty text. -/
def matchAll (r : Regex) (s : Str) : List (Nat × Str) := r.matchesFrom s.length 0 (.start s)

/-! ## What a match reads -/

/-- The least number of units of a match. -/
def minLength : Regex → Nat
  | unit _ => 1
  | seq a b => a.minLength + b.minLength
  | alt a b => min a.minLength b.minLength
  | rep r n _ => n * r.minLength
  | _ => 0

/-- Every class lies within `p`. -/
def Within (p : UInt16 → Prop) : Regex → Prop
  | unit q => ∀ u, q u = true → p u
  | seq a b => a.Within p ∧ b.Within p
  | alt a b => a.Within p ∧ b.Within p
  | rep r _ _ => r.Within p
  | _ => True

/-- A cursor that has read `n` units or more, all of them in `p`. -/
def Reads (p : UInt16 → Prop) (n : Nat) (c c' : Cursor) : Prop :=
  ∃ w, c.rest = w ++ c'.rest ∧ n ≤ w.length ∧ ∀ u ∈ w, p u

section

variable {p : UInt16 → Prop}

theorem Reads.refl (c : Cursor) : Reads p 0 c c := ⟨[], rfl, Nat.le_refl 0, by simp⟩

theorem Reads.trans {n m : Nat} {a b c : Cursor} (h : Reads p n a b) (h' : Reads p m b c) :
    Reads p (n + m) a c := by
  obtain ⟨w, hw, hn, hp⟩ := h
  obtain ⟨w', hw', hm, hp'⟩ := h'
  refine ⟨w ++ w', by rw [hw, hw', List.append_assoc], ?_, fun u hu => ?_⟩
  · rw [List.length_append]
    exact Nat.add_le_add hn hm
  · exact (List.mem_append.mp hu).elim (hp u) (hp' u)

theorem Reads.mono {n m : Nat} {a b : Cursor} (h : Reads p n a b) (hm : m ≤ n) : Reads p m a b := by
  obtain ⟨w, hw, hn, hp⟩ := h
  exact ⟨w, hw, Nat.le_trans hm hn, hp⟩

/-- A repetition reads as much as its least number of rounds. -/
theorem reads_times {step : Cursor → List Cursor} {n : Nat}
    (hstep : ∀ c, ∀ c' ∈ step c, Reads p n c c') (fuel min : Nat) (max : Option Nat) :
    ∀ c, ∀ c' ∈ times step fuel min max c, Reads p (min * n) c c' := by
  induction fuel generalizing min max with
  | zero =>
    intro c c' hc
    unfold times at hc
    split_ifs at hc with hmin
    · rw [List.mem_singleton.mp hc, hmin, Nat.zero_mul]
      exact .refl c
    · cases hc
  | succ fuel ih =>
    intro c c' hc
    unfold times at hc
    rcases List.mem_append.mp hc with hc | hc
    · split_ifs at hc
      · cases hc
      · obtain ⟨b, hb, hc⟩ := List.mem_flatMap.mp hc
        refine ((hstep c b hb).trans (ih _ _ b c' hc)).mono ?_
        cases min with
        | zero => simp
        | succ k =>
          rw [Nat.add_sub_cancel, Nat.succ_mul]
          omega
    · split_ifs at hc with hmin
      · rw [List.mem_singleton.mp hc, hmin, Nat.zero_mul]
        exact .refl c
      · cases hc

/-- What a match reads. -/
theorem ends_spec {r : Regex} (h : r.Within p) : ∀ c, ∀ c' ∈ r.ends c, Reads p r.minLength c c' := by
  induction r with
  | empty =>
    intro c c' hc
    rw [List.mem_singleton.mp hc]
    exact .refl c
  | unit q =>
    rintro ⟨before, rest⟩ c' hc
    cases rest with
    | nil => cases hc
    | cons u rest =>
      simp only [ends] at hc
      split_ifs at hc with hq
      · rw [List.mem_singleton.mp hc]
        exact ⟨[u], rfl, Nat.le_refl 1, by simpa using h u hq⟩
      · cases hc
  | seq a b iha ihb =>
    intro c c' hc
    obtain ⟨d, hd, hc⟩ := List.mem_flatMap.mp hc
    exact (iha h.1 c d hd).trans (ihb h.2 d c' hc)
  | alt a b iha ihb =>
    intro c c' hc
    rcases List.mem_append.mp hc with hc | hc
    · exact (iha h.1 c c' hc).mono (Nat.min_le_left _ _)
    · exact (ihb h.2 c c' hc).mono (Nat.min_le_right _ _)
  | rep r n max ih => exact fun c => reads_times (ih h) _ n max c
  | boundary =>
    intro c c' hc
    simp only [ends] at hc
    split_ifs at hc
    · cases hc
    · rw [List.mem_singleton.mp hc]
      exact .refl c
  | ahead r ih | notAhead r ih =>
    intro c c' hc
    simp only [ends] at hc
    split_ifs at hc <;> first
      | cases hc; done
      | rw [List.mem_singleton.mp hc]; exact .refl c

/-- Every match of a text reads what the pattern asks for. -/
theorem matchAll_spec {r : Regex} (h : r.Within p) {s : Str} :
    ∀ m ∈ r.matchAll s, r.minLength ≤ m.2.length ∧ ∀ u ∈ m.2, p u := by
  have hfrom : ∀ fuel index c, ∀ m ∈ r.matchesFrom fuel index c,
      r.minLength ≤ m.2.length ∧ ∀ u ∈ m.2, p u := by
    intro fuel
    induction fuel with
    | zero => exact fun _ _ m hm => nomatch hm
    | succ fuel ih =>
      rintro index ⟨before, rest⟩ m hm
      cases rest with
      | nil => cases hm
      | cons u rest =>
        simp only [matchesFrom] at hm
        cases hends : (r.ends ⟨before, u :: rest⟩).head? with
        | none =>
          rw [hends] at hm
          exact ih _ _ m hm
        | some c' =>
          rw [hends] at hm
          simp only at hm
          split_ifs at hm
          · exact ih _ _ m hm
          · rcases List.mem_cons.mp hm with rfl | hm
            · obtain ⟨w, hw, hn, hp⟩ := ends_spec h _ c' (List.mem_of_head? hends)
              have hw : u :: rest = w ++ c'.rest := hw
              have htake : (u :: rest).take ((u :: rest).length - c'.rest.length) = w := by
                rw [hw, List.length_append, Nat.add_sub_cancel, List.take_left]
              simp only [htake]
              exact ⟨hn, hp⟩
            · exact ih _ _ m hm
  exact hfrom _ _ _

end

end Regex

end Js
