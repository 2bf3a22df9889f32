import ContextCompaction.Delta.Apply

/-!
# Array matches

Revisions are trees whose containers have an identity: `===` of two containers compares it. The matching
strategies of the array differ pair indices of one array with indices of the other; which pairs they find
only decides how compact a batch is, but that the pairs ascend on both sides decides whether it is right.

* `Strict`: a set of values that revisions are built from.
* `Ascending`: the pairs ascend, within a region; every strategy's result does.
-/

namespace Delta

open Js

/-! ## Values -/

/-- A JSON value whose containers have an identity. -/
inductive Value where
  | null
  | bool (b : Bool)
  | num (n : Number)
  | str (s : Str)
  | arr (id : Nat) (items : List Value)
  | obj (id : Nat) (fields : List (Str × Value))

namespace Value

mutual

/-- The value without identities. -/
def erase : Value → Json
  | .null => .null
  | .bool b => .bool b
  | .num n => .num n
  | .str s => .str s
  | .arr _ items => .arr (eraseItems items)
  | .obj _ fields => .obj (eraseFields fields)

/-- The JSON values that the elements of an array stand for. -/
def eraseItems : List Value → List Json
  | [] => []
  | x :: xs => x.erase :: eraseItems xs

/-- The JSON fields that the fields of an object stand for. -/
def eraseFields : List (Str × Value) → List (Str × Json)
  | [] => []
  | (k, x) :: fields => (k, x.erase) :: eraseFields fields

end

/-- `left === right` -/
def same : Value → Value → Bool
  | .null, .null => true
  | .bool a, .bool b => a == b
  | .num a, .num b => strictEqual a b
  | .str a, .str b => a == b
  | .arr i _, .arr j _ => i == j
  | .obj i _, .obj j _ => i == j
  | _, _ => false

/-- Arrays and objects are containers; only these carry an identity. -/
def isContainer : Value → Bool
  | .arr .. | .obj .. => true
  | _ => false

mutual

/-- Equality of JSON values: a container is equal to itself without a look inside, otherwise arrays are
compared element by element and objects key by key, in any order of the keys. -/
def equalJson : Value → Value → Bool
  | .arr i xs, .arr j ys => i == j || equalItems xs ys
  | .obj i fs, .obj j gs => i == j || (fs.length == gs.length && equalFields fs gs)
  | left, right => left.same right

/-- Arrays are equal when their elements are, pairwise and in number. -/
def equalItems : List Value → List Value → Bool
  | [], [] => true
  | x :: xs, y :: ys => equalJson x y && equalItems xs ys
  | _, _ => false

/-- Every key of the left is a key of the right, with an equal value. -/
def equalFields : List (Str × Value) → List (Str × Value) → Bool
  | [], _ => true
  | (k, x) :: fs, gs =>
    (match mapGet gs k with
      | some y => equalJson x y
      | none => false) && equalFields fs gs

end

end Value

open Value

/-- Two values are the same when they are identical or equal as JSON. -/
def sameValue (left right : Value) : Bool := left.same right || equalJson left right

/-- A test on the elements at two indices. -/
def testAt (test : Value → Value → Bool) (before after : List Value) (i j : Nat) : Bool :=
  match before[i]?, after[j]? with
  | some x, some y => test x y
  | _, _ => false

/-- An element's index in the array before and its index in the array after. -/
abbrev ArrayMatch := Nat × Nat

/-! ## Longest common subsequence -/

/-- The number of pairs of identical elements beyond which anchors are chosen greedily. -/
def MAX_IDENTITY_CANDIDATES : Nat := 200000
/-- The number of table cells beyond which no longest common subsequence is computed. -/
def MAX_SEMANTIC_CELLS : Nat := 65536

section

variable (equal : Value → Value → Bool)

/-- A row of the table, from the row below. -/
def lcsRow (x : Value) : List Value → List Nat → List Nat
  | [], _ => [0]
  | y :: ys, below =>
    let row := lcsRow x ys below.tail
    (if equal x y then below.tail.headD 0 + 1 else max (below.headD 0) (row.headD 0)) :: row

/-- The lengths of the longest common subsequences of all pairs of suffixes, a row for each suffix of the
first array. -/
def lcsTable : List Value → List Value → List (List Nat)
  | [], after => [List.replicate (after.length + 1) 0]
  | x :: before, after =>
    let table := lcsTable before after
    lcsRow equal x after (table.headD []) :: table

/-- The walk through the table. Every round passes an element, so the fuel is what is left of both. -/
def lcsWalk (before after : List Value) (lengths : Nat → Nat → Nat) : Nat → Nat → Nat → List ArrayMatch
  | 0, _, _ => []
  | fuel + 1, left, right =>
    if left < before.length && right < after.length then
      if testAt equal before after left right && lengths left right == lengths (left + 1) (right + 1) + 1 then
        (left, right) :: lcsWalk before after lengths fuel (left + 1) (right + 1)
      else if lengths (left + 1) right ≥ lengths left (right + 1) then
        lcsWalk before after lengths fuel (left + 1) right
      else lcsWalk before after lengths fuel left (right + 1)
    else []

/-- The pairs of a longest common subsequence, or nothing when the table would have more than `maxCells`
cells. -/
def lcsMatches (before after : List Value) (maxCells : Nat) : Option (List ArrayMatch) :=
  if before.length = 0 ∨ after.length = 0 then some []
  else if before.length * after.length > maxCells then none
  else
    let table := lcsTable equal before after
    some (lcsWalk equal before after (fun left right => (table.getD left []).getD right 0)
      (before.length + after.length) 0 0)

end

/-- Two values are aligned when they are the same, or when they are containers that share a child: arrays
of one length at one index, objects under one key. -/
def semanticallyAligned (left right : Value) : Bool :=
  sameValue left right ||
    match left, right with
    | .arr _ xs, .arr _ ys =>
      xs.length == ys.length &&
        (xs.zip ys).any fun (x, y) => x.isContainer && x.same y
    | .obj _ fs, .obj _ gs =>
      fs.any fun (k, x) => x.isContainer && (mapGet gs k).any x.same
    | _, _ => false

/-! ## Identity -/

/-- The binary search, with rounds enough for its interval. -/
def lowerBoundIn (values : List Nat) (value : Nat) : Nat → Nat → Nat → Nat
  | 0, low, _ => low
  | rounds + 1, low, high =>
    if low < high then
      let middle := (low + high) / 2
      if values.getD middle 0 < value then lowerBoundIn values value rounds (middle + 1) high
      else lowerBoundIn values value rounds low middle
    else low

/-- The first index of a sorted list whose value is at least `value`. -/
def lowerBound (values : List Nat) (value : Nat) : Nat :=
  lowerBoundIn values value values.length 0 values.length

/-- The first index from `at` on that passes the test, among `count`. -/
def seek (test : Nat → Bool) : Nat → Nat → Option Nat
  | 0, _ => none
  | count + 1, i => if test i then some i else seek test count (i + 1)

/-- The shorter side's elements, in order, among the longer side's. -/
def subsequence (identical : Nat → Nat → Bool) (longEnd : Nat) : Nat → Nat → Nat → Option (List ArrayMatch)
  | 0, _, _ => some []
  | count + 1, long, short => do
    let i ← seek (identical · short) (longEnd - long) long
    let rest ← subsequence identical longEnd count (i + 1) (short + 1)
    some ((i, short) :: rest)

/-- The matches that make the shorter region a subsequence of the longer one, by identity. -/
def identitySubsequence (before : List Value) (beforeStart beforeEnd : Nat) (after : List Value)
    (afterStart afterEnd : Nat) : Option (List ArrayMatch) :=
  let beforeCount := beforeEnd - beforeStart
  let afterCount := afterEnd - afterStart
  if afterCount < beforeCount then
    subsequence (fun i j => testAt same before after i j) beforeEnd afterCount beforeStart afterStart
  else if beforeCount < afterCount then
    (subsequence (fun j i => testAt same before after i j) afterEnd beforeCount afterStart beforeStart).map
      (List.map Prod.swap)
  else none

/-- The indices at which each value occurs, as a `Map` keyed by the value holds them. -/
abbrev Positions := List (Value × List Nat)

/-- The indices at which an element identical to `v` stands, in increasing order. -/
def Positions.get (positions : Positions) (v : Value) : List Nat :=
  ((positions.find? fun e => e.1.same v).map Prod.snd).getD []

/-- The element at `index` is noted under its identity. -/
def Positions.add : Positions → Value → Nat → Positions
  | [], v, index => [(v, [index])]
  | e :: positions, v, index =>
    if e.1.same v then (e.1, e.2 ++ [index]) :: positions else e :: Positions.add positions v index

/-- The positions of the elements, counted from `start`. -/
def positionsOf : List Value → Nat → Positions → Positions
  | [], _, positions => positions
  | x :: xs, start, positions => positionsOf xs (start + 1) (positions.add x start)

/-- The elements of a region. -/
def region (xs : List Value) (start stop : Nat) : List Value := (xs.drop start).take (stop - start)

/-- Each element after takes the first index of an identical element behind the index taken last. -/
def greedyIdentityAnchors (positions : Positions) : List Value → Nat → Nat → List ArrayMatch
  | [], _, _ => []
  | v :: after, afterIndex, next =>
    let candidates := positions.get v
    match candidates[lowerBound candidates next]? with
    | none => greedyIdentityAnchors positions after (afterIndex + 1) next
    | some beforeIndex =>
      (beforeIndex, afterIndex) ::
        greedyIdentityAnchors positions after (afterIndex + 1) (beforeIndex + 1)

/-- A pair of identical elements and the candidate that precedes it in its chain. -/
structure MatchCandidate where
  before : Nat
  after : Nat
  previous : Option Nat

/-- The candidates, and of every length the chain whose end comes first. -/
structure Anchors where
  candidates : List MatchCandidate
  tails : List Nat
  tailValues : List Nat

/-- `xs[at] = x` -/
def assign (xs : List Nat) (i x : Nat) : List Nat := if i < xs.length then xs.set i x else xs ++ [x]

/-- A new candidate extends the longest chain that ends before `beforeIndex`. -/
def Anchors.add (s : Anchors) (afterIndex beforeIndex : Nat) : Anchors :=
  let i := lowerBound s.tailValues beforeIndex
  { candidates := s.candidates ++
      [⟨beforeIndex, afterIndex, if i = 0 then none else s.tails[i - 1]?⟩]
    tails := assign s.tails i s.candidates.length
    tailValues := assign s.tailValues i beforeIndex }

/-- The candidates of the elements, counted from `afterIndex`. -/
def collect (positions : Positions) : List Value → Nat → Anchors → Anchors
  | [], _, s => s
  | v :: after, afterIndex, s =>
    collect positions after (afterIndex + 1)
      ((positions.get v).reverse.foldl (fun s beforeIndex => s.add afterIndex beforeIndex) s)

/-- A chain from its last candidate back; a candidate's predecessor comes before it. -/
def chainBack (candidates : List MatchCandidate) : Nat → Option Nat → List ArrayMatch
  | 0, _ | _, none => []
  | rounds + 1, some i =>
    match candidates[i]? with
    | none => []
    | some candidate =>
      chainBack candidates rounds candidate.previous ++ [(candidate.before, candidate.after)]

/-- The longest chain of pairs of identical elements, both indices increasing; with too many pairs, the
greedy chain. -/
def identityAnchors (before : List Value) (beforeStart beforeEnd : Nat) (after : List Value)
    (afterStart afterEnd : Nat) : List ArrayMatch :=
  let positions := positionsOf (region before beforeStart beforeEnd) beforeStart []
  let elements := region after afterStart afterEnd
  let candidateCount := (elements.map fun v => (positions.get v).length).sum
  if candidateCount > MAX_IDENTITY_CANDIDATES then greedyIdentityAnchors positions elements afterStart 0
  else
    let s := collect positions elements afterStart ⟨[], [], []⟩
    chainBack s.candidates s.candidates.length s.tails.getLast?

/-! ## Ascending pairs -/

/-- The pairs ascend on both sides, from the given starts on and below the given ends. -/
def Ascending (beforeEnd afterEnd : Nat) : Nat → Nat → List ArrayMatch → Prop
  | _, _, [] => True
  | beforeAt, afterAt, (i, j) :: ms =>
    beforeAt ≤ i ∧ i < beforeEnd ∧ afterAt ≤ j ∧ j < afterEnd ∧
      Ascending beforeEnd afterEnd (i + 1) (j + 1) ms

section

variable {beforeEnd afterEnd beforeAt afterAt : Nat} {ms : List ArrayMatch}

theorem Ascending.from_earlier (h : Ascending beforeEnd afterEnd beforeAt afterAt ms)
    {beforeAt' afterAt' : Nat} (hb : beforeAt' ≤ beforeAt) (ha : afterAt' ≤ afterAt) :
    Ascending beforeEnd afterEnd beforeAt' afterAt' ms := by
  cases ms with
  | nil => trivial
  | cons m ms =>
    obtain ⟨hi, hib, hj, hja, hrest⟩ := h
    exact ⟨hb.trans hi, hib, ha.trans hj, hja, hrest⟩

theorem Ascending.to_later (h : Ascending beforeEnd afterEnd beforeAt afterAt ms)
    {beforeEnd' afterEnd' : Nat} (hb : beforeEnd ≤ beforeEnd') (ha : afterEnd ≤ afterEnd') :
    Ascending beforeEnd' afterEnd' beforeAt afterAt ms := by
  induction ms generalizing beforeAt afterAt with
  | nil => trivial
  | cons m ms ih =>
    obtain ⟨hi, hib, hj, hja, hrest⟩ := h
    exact ⟨hi, hib.trans_le hb, hj, hja.trans_le ha, ih hrest⟩

/-- A pair behind the others. -/
theorem Ascending.append {i j : Nat} (h : Ascending i j beforeAt afterAt ms) (hi : beforeAt ≤ i)
    (hib : i < beforeEnd) (hj : afterAt ≤ j) (hja : j < afterEnd) :
    Ascending beforeEnd afterEnd beforeAt afterAt (ms ++ [(i, j)]) := by
  induction ms generalizing beforeAt afterAt with
  | nil => exact ⟨hi, hib, hj, hja, trivial⟩
  | cons m ms ih =>
    obtain ⟨hmi, hmib, hmj, hmja, hrest⟩ := h
    exact ⟨hmi, hmib.trans hib, hmj, hmja.trans hja, ih hrest hmib hmja⟩

theorem Ascending.swap (h : Ascending beforeEnd afterEnd beforeAt afterAt ms) :
    Ascending afterEnd beforeEnd afterAt beforeAt (ms.map Prod.swap) := by
  induction ms generalizing beforeAt afterAt with
  | nil => trivial
  | cons m ms ih =>
    obtain ⟨hi, hib, hj, hja, hrest⟩ := h
    exact ⟨hj, hja, hi, hib, ih hrest⟩

theorem Ascending.shift (h : Ascending beforeEnd afterEnd beforeAt afterAt ms) (a b : Nat) :
    Ascending (a + beforeEnd) (b + afterEnd) (a + beforeAt) (b + afterAt)
      (ms.map fun m => (a + m.1, b + m.2)) := by
  induction ms generalizing beforeAt afterAt with
  | nil => trivial
  | cons m ms ih =>
    obtain ⟨hi, hib, hj, hja, hrest⟩ := h
    exact ⟨by omega, by omega, by omega, by omega, ih hrest⟩

/-- Offsets that ascend, on both sides. -/
theorem ascending_offsets {i j n m : Nat} {offsets : List Nat} (hi : i + n ≤ beforeEnd)
    (hj : j + n ≤ afterEnd) (hasc : offsets.Pairwise (· < ·))
    (hin : ∀ k ∈ offsets, m ≤ k ∧ k < n) :
    Ascending beforeEnd afterEnd (i + m) (j + m) (offsets.map fun k => (i + k, j + k)) := by
  induction offsets generalizing m with
  | nil => trivial
  | cons k offsets ih =>
    obtain ⟨hhead, htail⟩ := List.pairwise_cons.mp hasc
    rw [List.forall_mem_cons] at hin
    exact ⟨by omega, by omega, by omega, by omega,
      ih htail fun k' hk' => ⟨hhead k' hk', (hin.2 k' hk').2⟩⟩

end

/-! ### Longest common subsequence -/

/-- The walk through the table ascends in both arrays. -/
theorem ascending_lcsWalk (equal : Value → Value → Bool) (before after : List Value)
    (lengths : Nat → Nat → Nat) (fuel left right : Nat) :
    Ascending before.length after.length left right
      (lcsWalk equal before after lengths fuel left right) := by
  induction fuel generalizing left right with
  | zero => trivial
  | succ fuel ih =>
    unfold lcsWalk
    split
    · rename_i hin
      rw [Bool.and_eq_true, decide_eq_true_eq, decide_eq_true_eq] at hin
      split
      · exact ⟨le_rfl, hin.1, le_rfl, hin.2, ih _ _⟩
      · split
        · exact (ih (left + 1) right).from_earlier (Nat.le_succ _) le_rfl
        · exact (ih left (right + 1)).from_earlier le_rfl (Nat.le_succ _)
    · trivial

theorem ascending_lcsMatches {equal : Value → Value → Bool} {before after : List Value}
    {maxCells : Nat} {ms : List ArrayMatch} (h : lcsMatches equal before after maxCells = some ms) :
    Ascending before.length after.length 0 0 ms := by
  unfold lcsMatches at h
  split at h
  · obtain rfl := Option.some.inj h
    trivial
  · split at h
    · cases h
    · obtain rfl := Option.some.inj h
      exact ascending_lcsWalk _ _ _ _ _ _ _

/-! ### Subsequences -/

theorem seek_bounds {test : Nat → Bool} {count start i : Nat} (h : seek test count start = some i) :
    start ≤ i ∧ i < start + count := by
  induction count generalizing start with
  | zero => cases h
  | succ count ih =>
    unfold seek at h
    split at h
    · obtain rfl := Option.some.inj h
      omega
    · have := ih h
      omega

/-- The matches of a subsequence ascend in both arrays. -/
theorem ascending_subsequence {identical : Nat → Nat → Bool} {longEnd count long short : Nat}
    {ms : List ArrayMatch} (h : subsequence identical longEnd count long short = some ms) :
    Ascending longEnd (short + count) long short ms := by
  induction count generalizing long short ms with
  | zero =>
    obtain rfl := Option.some.inj h
    trivial
  | succ count ih =>
    obtain ⟨i, hi, h⟩ := Option.bind_eq_some_iff.mp h
    obtain ⟨rest, hrest, h⟩ := Option.bind_eq_some_iff.mp h
    obtain rfl := Option.some.inj h
    have hbounds := seek_bounds hi
    have hasc := ih hrest
    rw [Nat.add_right_comm, Nat.add_assoc] at hasc
    exact ⟨hbounds.1, by omega, le_rfl, by omega, hasc⟩

/-- The matches by which the shorter region is a subsequence of the longer ascend in both arrays. -/
theorem ascending_identitySubsequence {before after : List Value}
    {beforeStart beforeEnd afterStart afterEnd : Nat} {ms : List ArrayMatch}
    (hb : beforeStart ≤ beforeEnd) (ha : afterStart ≤ afterEnd)
    (h : identitySubsequence before beforeStart beforeEnd after afterStart afterEnd = some ms) :
    Ascending beforeEnd afterEnd beforeStart afterStart ms := by
  unfold identitySubsequence at h
  dsimp only at h
  split at h
  · have hasc := ascending_subsequence h
    rwa [Nat.add_sub_cancel' ha] at hasc
  · split at h
    · obtain ⟨swapped, hswapped, rfl⟩ := Option.map_eq_some_iff.mp h
      have hasc := ascending_subsequence hswapped
      rw [Nat.add_sub_cancel' hb] at hasc
      exact hasc.swap
    · cases h

/-! ### Positions -/

/-- Before the lower bound stand smaller values. -/
theorem lowerBoundIn_before (values : List Nat) (value : Nat) (rounds : Nat) {low : Nat} (high : Nat)
    (hlow : low = 0 ∨ values.getD (low - 1) 0 < value) :
    lowerBoundIn values value rounds low high = 0 ∨
      values.getD (lowerBoundIn values value rounds low high - 1) 0 < value := by
  induction rounds generalizing low high with
  | zero => exact hlow
  | succ rounds ih =>
    unfold lowerBoundIn
    split
    · dsimp only
      split
      · rename_i hless
        exact ih _ (.inr hless)
      · exact ih _ hlow
    · exact hlow

theorem lowerBoundIn_le {values : List Nat} {value rounds low high : Nat} (hle : low ≤ high) :
    lowerBoundIn values value rounds low high ≤ high := by
  induction rounds generalizing low high with
  | zero => exact hle
  | succ rounds ih =>
    unfold lowerBoundIn
    split
    · dsimp only
      split
      · exact ih (by omega)
      · exact (ih (by omega)).trans (by omega)
    · exact hle

/-- At the lower bound stands a value no smaller, or the list ends. -/
theorem lowerBoundIn_after {values : List Nat} (value : Nat) {rounds low high : Nat} (hle : low ≤ high)
    (hrounds : high - low ≤ rounds) (hhigh : high = values.length ∨ value ≤ values.getD high 0) :
    lowerBoundIn values value rounds low high = values.length ∨
      value ≤ values.getD (lowerBoundIn values value rounds low high) 0 := by
  induction rounds generalizing low high with
  | zero =>
    obtain rfl : low = high := by omega
    exact hhigh
  | succ rounds ih =>
    unfold lowerBoundIn
    split
    · dsimp only
      split
      · exact ih (by omega) (by omega) hhigh
      · rename_i hmiddle
        exact ih (by omega) (by omega) (.inr (by omega))
    · obtain rfl : low = high := by omega
      exact hhigh

theorem lowerBound_le (values : List Nat) (value : Nat) : lowerBound values value ≤ values.length :=
  lowerBoundIn_le (Nat.zero_le _)

/-- What stands before the bound is less. -/
theorem lowerBound_before {values : List Nat} {value i : Nat} (h : lowerBound values value = i + 1) :
    values.getD i 0 < value := by
  have := lowerBoundIn_before values value values.length values.length (.inl rfl)
  unfold lowerBound at h
  rw [h] at this
  simpa using this

/-- What stands at the bound is not. -/
theorem le_of_lowerBound {values : List Nat} {value x : Nat}
    (h : values[lowerBound values value]? = some x) : value ≤ x := by
  have := lowerBoundIn_after value (Nat.zero_le _) (Nat.sub_le _ _) (.inl (Eq.refl values.length))
  obtain ⟨hlt, -⟩ := List.getElem?_eq_some_iff.mp h
  unfold lowerBound at h hlt
  rcases this with heq | hle
  · omega
  · rwa [List.getD_eq_getElem?_getD, h] at hle

/-- Every list of positions ascends, from `start` on and below `stop`. -/
def InRange (start stop : Nat) (positions : Positions) : Prop :=
  ∀ e ∈ positions, e.2.Pairwise (· < ·) ∧ ∀ i ∈ e.2, start ≤ i ∧ i < stop

/-- Adding the next index keeps the positions in range. -/
theorem InRange.add {start stop : Nat} {positions : Positions} (h : InRange start stop positions)
    (hle : start ≤ stop) (v : Value) : InRange start (stop + 1) (positions.add v stop) := by
  induction positions with
  | nil =>
    intro e he
    obtain rfl := List.mem_singleton.mp he
    simpa using hle
  | cons e positions ih =>
    rw [InRange, List.forall_mem_cons] at h
    have hgrow : ∀ e : Value × List Nat, (e.2.Pairwise (· < ·) ∧ ∀ i ∈ e.2, start ≤ i ∧ i < stop) →
        e.2.Pairwise (· < ·) ∧ ∀ i ∈ e.2, start ≤ i ∧ i < stop + 1 := fun e he =>
      ⟨he.1, fun i hi => ⟨(he.2 i hi).1, (he.2 i hi).2.trans (Nat.lt_succ_self _)⟩⟩
    unfold Positions.add
    split
    · rw [InRange, List.forall_mem_cons]
      refine ⟨⟨List.pairwise_append.mpr ⟨h.1.1, List.pairwise_singleton _ _, fun i hi j hj => ?_⟩,
        fun i hi => ?_⟩, fun e he => hgrow e (h.2 e he)⟩
      · rw [List.mem_singleton.mp hj]
        exact (h.1.2 i hi).2
      · rcases List.mem_append.mp hi with hi | hi
        · exact (hgrow e h.1).2 i hi
        · rw [List.mem_singleton.mp hi]
          omega
    · rw [InRange, List.forall_mem_cons]
      exact ⟨hgrow e h.1, ih h.2⟩

theorem inRange_positionsOf {start first : Nat} (xs : List Value) {positions : Positions}
    (hle : start ≤ first) (h : InRange start first positions) :
    InRange start (first + xs.length) (positionsOf xs first positions) := by
  induction xs generalizing first positions with
  | nil => exact h
  | cons x xs ih =>
    have hrest := ih (Nat.le_succ_of_le hle) (h.add hle x)
    rw [List.length_cons, Nat.add_comm xs.length, ← Nat.add_assoc]
    exact hrest

theorem inRange_get {start stop : Nat} {positions : Positions} (h : InRange start stop positions)
    (v : Value) :
    (positions.get v).Pairwise (· < ·) ∧ ∀ i ∈ positions.get v, start ≤ i ∧ i < stop := by
  unfold Positions.get
  cases hfind : positions.find? fun e => e.1.same v with
  | none => simp
  | some e => exact h e (List.mem_of_find?_eq_some hfind)

/-! ### Anchors -/

/-- The greedy anchors ascend in both arrays. -/
theorem ascending_greedy {beforeStart beforeEnd : Nat} {positions : Positions}
    (h : InRange beforeStart beforeEnd positions) (after : List Value) (afterIndex next : Nat) :
    Ascending beforeEnd (afterIndex + after.length) (max beforeStart next) afterIndex
      (greedyIdentityAnchors positions after afterIndex next) := by
  induction after generalizing afterIndex next with
  | nil => trivial
  | cons v after ih =>
    have hlen : afterIndex + (v :: after).length = afterIndex + 1 + after.length := by
      rw [List.length_cons]
      omega
    unfold greedyIdentityAnchors
    dsimp only
    rw [hlen]
    split
    · exact (ih (afterIndex + 1) next).from_earlier le_rfl (Nat.le_succ _)
    · rename_i i hi
      have hnext := le_of_lowerBound hi
      obtain ⟨hstart, hend⟩ := (inRange_get h v).2 i (List.mem_of_getElem? hi)
      refine ⟨max_le hstart hnext, hend, le_rfl, by omega, ?_⟩
      exact (ih (afterIndex + 1) (i + 1)).from_earlier (by omega) le_rfl

section

variable {beforeStart beforeEnd afterStart afterEnd : Nat}

/-- Every candidate lies in the region, and its predecessor lies before it on both sides. -/
def Chained (beforeStart beforeEnd afterStart afterEnd : Nat) (candidates : List MatchCandidate) : Prop :=
  ∀ (i : Nat) (c : MatchCandidate), candidates[i]? = some c →
    (beforeStart ≤ c.before ∧ c.before < beforeEnd ∧ afterStart ≤ c.after ∧ c.after < afterEnd) ∧
      ∀ p ∈ c.previous, ∃ c' : MatchCandidate,
        candidates[p]? = some c' ∧ c'.before < c.before ∧ c'.after < c.after

/-- A chain of candidates ascends in both arrays. -/
theorem ascending_chainBack {candidates : List MatchCandidate}
    (h : Chained beforeStart beforeEnd afterStart afterEnd candidates) (rounds : Nat) {i : Nat}
    {c : MatchCandidate} (hc : candidates[i]? = some c) :
    Ascending (c.before + 1) (c.after + 1) beforeStart afterStart
      (chainBack candidates rounds (some i)) := by
  induction rounds generalizing i c with
  | zero => trivial
  | succ rounds ih =>
    obtain ⟨hbounds, hprevious⟩ := h i c hc
    have hrest : Ascending c.before c.after beforeStart afterStart
        (chainBack candidates rounds c.previous) := by
      cases hp : c.previous with
      | none => cases rounds <;> trivial
      | some p =>
        obtain ⟨c', hc', hb, ha⟩ := hprevious p hp
        exact (ih hc').to_later hb ha
    rw [chainBack, hc]
    exact hrest.append hbounds.1 (Nat.lt_succ_self _) hbounds.2.2.1 (Nat.lt_succ_self _)

/-- The anchors found so far, where the candidates to come have `afterIndex`, and a before index less
than `bound`. -/
structure AnchorsOk (beforeStart beforeEnd afterStart afterEnd afterIndex bound : Nat) (s : Anchors) :
    Prop where
  chained : Chained beforeStart beforeEnd afterStart afterEnd s.candidates
  tails : s.tails.length = s.tailValues.length
  values : ∀ (k t : Nat), s.tails[k]? = some t →
    ∃ c : MatchCandidate, s.candidates[t]? = some c ∧ s.tailValues.getD k 0 = c.before
  after : ∀ c ∈ s.candidates, c.after < afterIndex ∨ c.after = afterIndex ∧ bound ≤ c.before

/-- An assignment changes its index and no other. -/
theorem getElem?_assign {xs : List Nat} {i x k y : Nat} (hi : i ≤ xs.length)
    (h : (assign xs i x)[k]? = some y) : k = i ∧ y = x ∨ k ≠ i ∧ xs[k]? = some y := by
  unfold assign at h
  split at h
  · rw [List.getElem?_set] at h
    split at h
    · rename_i heq
      exact .inl ⟨heq.symm, (Option.some.inj h).symm⟩
    · rename_i hne
      exact .inr ⟨Ne.symm hne, h⟩
  · obtain rfl : i = xs.length := by omega
    rw [List.getElem?_append] at h
    split at h
    · exact .inr ⟨by omega, h⟩
    · obtain ⟨hlt, hget⟩ := List.getElem?_eq_some_iff.mp h
      rw [List.length_singleton] at hlt
      refine .inl ⟨by omega, ?_⟩
      simpa using hget.symm

theorem getD_assign {xs : List Nat} {i x : Nat} (hi : i ≤ xs.length) (k : Nat) :
    (assign xs i x).getD k 0 = if k = i then x else xs.getD k 0 := by
  unfold assign
  split
  · grind
  · obtain rfl : i = xs.length := by omega
    grind

theorem length_assign {xs : List Nat} {i x : Nat} (hi : i ≤ xs.length) :
    (assign xs i x).length = max xs.length (i + 1) := by
  unfold assign
  split
  · rw [List.length_set]
    omega
  · rw [List.length_append, List.length_singleton]
    omega

/-- A candidate with a lower before index than those of its after index. -/
theorem AnchorsOk.add {afterIndex bound beforeIndex : Nat} {s : Anchors}
    (h : AnchorsOk beforeStart beforeEnd afterStart afterEnd afterIndex bound s)
    (hless : beforeIndex < bound) (hb : beforeStart ≤ beforeIndex) (hbe : beforeIndex < beforeEnd)
    (ha : afterStart ≤ afterIndex) (hae : afterIndex < afterEnd) :
    AnchorsOk beforeStart beforeEnd afterStart afterEnd afterIndex beforeIndex
      (s.add afterIndex beforeIndex) := by
  have hle := lowerBound_le s.tailValues beforeIndex
  have hkeep : ∀ {t : Nat} {c c' : MatchCandidate}, s.candidates[t]? = some c →
      (s.candidates ++ [c'])[t]? = some c := fun hc => by
    rw [List.getElem?_append_left (List.getElem?_eq_some_iff.mp hc).1]
    exact hc
  refine ⟨?_, ?_, ?_, ?_⟩
  · intro i c hc
    rw [Anchors.add, List.getElem?_append] at hc
    split at hc
    · obtain ⟨hbounds, hprevious⟩ := h.chained i c hc
      refine ⟨hbounds, fun p hp => ?_⟩
      obtain ⟨c', hc', hlt⟩ := hprevious p hp
      exact ⟨c', hkeep hc', hlt⟩
    · obtain ⟨hlt, hget⟩ := List.getElem?_eq_some_iff.mp hc
      rw [List.length_singleton] at hlt
      obtain rfl : _ = c := by simpa using hget
      refine ⟨⟨hb, hbe, ha, hae⟩, fun p hp => ?_⟩
      dsimp only at hp
      split at hp
      · cases hp
      · rename_i hne
        obtain ⟨c', hc', hvalue⟩ := h.values _ p hp
        obtain ⟨i', hi'⟩ := Nat.exists_eq_succ_of_ne_zero hne
        have hbefore := lowerBound_before hi'
        rw [hi', Nat.succ_sub_one] at hvalue
        rw [hvalue] at hbefore
        refine ⟨c', hkeep hc', hbefore, ?_⟩
        -- A candidate of this after index would have a higher before index.
        rcases h.after c' (List.mem_of_getElem? hc') with hless' | ⟨-, hge⟩
        · exact hless'
        · omega
  · simp only [Anchors.add]
    rw [length_assign hle, length_assign (h.tails ▸ hle), h.tails]
  · intro k t ht
    simp only [Anchors.add] at ht ⊢
    rw [getD_assign hle]
    rcases getElem?_assign (h.tails ▸ hle) ht with ⟨rfl, rfl⟩ | ⟨hne, ht⟩
    · exact ⟨_, List.getElem?_concat_length, by rw [if_pos rfl]⟩
    · obtain ⟨c, hc, hvalue⟩ := h.values k t ht
      exact ⟨c, hkeep hc, by rw [if_neg hne, hvalue]⟩
  · intro c hc
    rcases List.mem_append.mp hc with hc | hc
    · exact (h.after c hc).imp id fun ⟨heq, hle⟩ => ⟨heq, hless.le.trans hle⟩
    · rw [List.mem_singleton.mp hc]
      exact .inr ⟨rfl, le_rfl⟩

theorem AnchorsOk.addAll {afterIndex : Nat} {indices : List Nat} {bound : Nat} {s : Anchors}
    (h : AnchorsOk beforeStart beforeEnd afterStart afterEnd afterIndex bound s)
    (hdesc : (bound :: indices).Pairwise (· > ·))
    (hin : ∀ i ∈ indices, beforeStart ≤ i ∧ i < beforeEnd)
    (ha : afterStart ≤ afterIndex) (hae : afterIndex < afterEnd) :
    AnchorsOk beforeStart beforeEnd afterStart afterEnd (afterIndex + 1) beforeEnd
      (indices.foldl (fun s beforeIndex => s.add afterIndex beforeIndex) s) := by
  induction indices generalizing bound s with
  | nil => exact ⟨h.chained, h.tails, h.values, fun c hc => .inl (by rcases h.after c hc with h | h <;> omega)⟩
  | cons i indices ih =>
    rw [List.forall_mem_cons] at hin
    obtain ⟨hhead, htail⟩ := List.pairwise_cons.mp hdesc
    exact ih (h.add (hhead i List.mem_cons_self) hin.1.1 hin.1.2 ha hae) htail hin.2

/-- The candidates that are collected are chained, and the last tail is one of them. -/
theorem anchorsOk_collect {positions : Positions} (hpositions : InRange beforeStart beforeEnd positions)
    (after : List Value) {afterIndex : Nat} {s : Anchors}
    (h : AnchorsOk beforeStart beforeEnd afterStart afterEnd afterIndex beforeEnd s)
    (ha : afterStart ≤ afterIndex) (hae : afterIndex + after.length ≤ afterEnd) :
    Chained beforeStart beforeEnd afterStart afterEnd (collect positions after afterIndex s).candidates ∧
      ∀ t ∈ (collect positions after afterIndex s).tails.getLast?, ∃ c,
        (collect positions after afterIndex s).candidates[t]? = some c := by
  induction after generalizing afterIndex s with
  | nil =>
    refine ⟨h.chained, fun t ht => ?_⟩
    rw [List.getLast?_eq_getElem?] at ht
    obtain ⟨c, hc, -⟩ := h.values _ t ht
    exact ⟨c, hc⟩
  | cons v after ih =>
    rw [List.length_cons] at hae
    obtain ⟨hasc, hin⟩ := inRange_get hpositions v
    refine ih (h.addAll ?_ (fun i hi => hin i (List.mem_reverse.mp hi)) ha (by omega)) (by omega)
      (by omega)
    rw [List.pairwise_cons, List.pairwise_reverse]
    exact ⟨fun i hi => (hin i (List.mem_reverse.mp hi)).2, hasc⟩

end

theorem length_region {xs : List Value} (start : Nat) {stop : Nat} (h : stop ≤ xs.length) :
    (region xs start stop).length = stop - start := by
  rw [region, List.length_take, List.length_drop]
  omega

/-- The anchors ascend in both arrays. -/
theorem ascending_identityAnchors {before after : List Value}
    {beforeStart beforeEnd afterStart afterEnd : Nat} (hb : beforeStart ≤ beforeEnd)
    (hbl : beforeEnd ≤ before.length) (ha : afterStart ≤ afterEnd) (hal : afterEnd ≤ after.length) :
    Ascending beforeEnd afterEnd beforeStart afterStart
      (identityAnchors before beforeStart beforeEnd after afterStart afterEnd) := by
  have hpositions : InRange beforeStart beforeEnd
      (positionsOf (region before beforeStart beforeEnd) beforeStart []) := by
    have hnone : InRange beforeStart beforeStart [] := by simp [InRange]
    have := inRange_positionsOf (region before beforeStart beforeEnd) le_rfl hnone
    rwa [length_region _ hbl, Nat.add_sub_cancel' hb] at this
  have hlen := length_region afterStart hal
  unfold identityAnchors
  dsimp only
  split
  · have := ascending_greedy hpositions (region after afterStart afterEnd) afterStart 0
    rw [hlen, Nat.add_sub_cancel' ha] at this
    exact this.from_earlier (Nat.le_max_left _ _) le_rfl
  · have hempty : AnchorsOk beforeStart beforeEnd afterStart afterEnd afterStart beforeEnd ⟨[], [], []⟩ :=
      ⟨by simp [Chained], rfl, by simp, by simp⟩
    obtain ⟨hchained, hlast⟩ := anchorsOk_collect hpositions (region after afterStart afterEnd) hempty
      le_rfl (by omega)
    cases htail : (collect (positionsOf (region before beforeStart beforeEnd) beforeStart [])
        (region after afterStart afterEnd) afterStart ⟨[], [], []⟩).tails.getLast? with
    | none =>
      generalize List.length _ = rounds
      cases rounds <;> trivial
    | some t =>
      obtain ⟨c, hc⟩ := hlast t htail
      obtain ⟨⟨-, hbe, -, hae⟩, -⟩ := hchained t c hc
      exact (ascending_chainBack hchained _ hc).to_later hbe hae

end Delta
