import ContextCompaction.Delta.Matches

/-!
# Diffs of revisions

`diffRevisions` and what it calls. The functions that recurse take the rounds that are left, and are
`none` if there are none: `diffRevisions` gives them as many as its values are large, which is always
enough.
-/

namespace Delta

open Js Value

/-! ## Batches -/

/-- The number of code units over which the shared end of two strings is looked for. -/
def DEFAULT_OVERLAP_SCAN : Nat := 65536
/-- The number of operations beyond which a batch overflows and a replacement is sent instead. -/
def MAX_DELTA_OPERATIONS : Nat := 4096

/-- The operations so far, and whether they are in `overflowedBatches`. -/
structure Batch where
  operations : List (Op Nat Value)
  overflowed : Bool

/-- A batch takes one more operation, unless it is full; then it overflows for good. -/
def emitOperation (b : Batch) (operation : Op Nat Value) : Batch :=
  if b.overflowed then b
  else if b.operations.length ≥ MAX_DELTA_OPERATIONS then { b with overflowed := true }
  else { b with operations := b.operations ++ [operation] }

/-- The value at the path is set; at the root this is a replacement. -/
def emitSet (path : Path Nat) (value : Value) (b : Batch) : Batch :=
  if path = [] then emitOperation b (.r value) else emitOperation b (.s path value)

/-! ## Permutations -/

/-- The first position of a value that is left. -/
def Positions.take : Positions → Value → Option (Nat × Positions)
  | [], _ => none
  | e :: positions, v =>
    if e.1.same v then
      match e.2 with
      | [] => none
      | i :: rest => some (i, (e.1, rest) :: positions)
    else (Positions.take positions v).map fun (i, positions) => (i, e :: positions)

/-- Each element after takes the first unused index of an identical element before. -/
def takePositions : Positions → List Value → Option (List Nat)
  | _, [] => some []
  | positions, v :: after => do
    let (i, positions) ← positions.take v
    let rest ← takePositions positions after
    some (i :: rest)

/-- The order in which the elements before make up the array after, when it only rearranges them. -/
def permutation (before after : List Value) : Option (List Nat) :=
  if before.length ≠ after.length then none else takePositions (positionsOf before 0 []) after

/-! ## Strings -/

/-- The candidates for one head, as many as may be tried. -/
def probeHead (tail b head : Str) : Nat → Nat → Option Nat
  | 0, _ => none
  | tries + 1, start =>
    match indexFrom tail head start with
    | none => none
    | some k =>
      let n := tail.length - k
      if n ≤ b.length ∧ tail.drop k = b.take n then some n else probeHead tail b head tries (k + 1)

/-- A long suffix of `a` that is a prefix of `b`: of the heads of 64 units and of one unit, eight
candidates each are tried. -/
def overlap (a b : Str) (scan : Nat) : Nat :=
  if a.length = 0 ∨ b.length = 0 ∨ scan = 0 then 0
  else
    let tail := if a.length > scan then a.drop (a.length - scan) else a
    let h := min 64 b.length
    match probeHead tail b (b.take h) 8 0 with
    | some n => n
    | none => if h = 1 then 0 else (probeHead tail b (b.take 1) 8 0).getD 0

/-- A string that grew at its end is appended to; one whose end starts the new one loses its front first;
any other is set anew. -/
def emitString (before after : Str) (path : Path Nat) (b : Batch) : Batch :=
  if before = after then b
  else if after.length > before.length ∧ after.take before.length = before then
    emitOperation b (.a path (after.drop before.length))
  else
    let shared := overlap before after DEFAULT_OVERLAP_SCAN
    if shared = 0 then emitOperation b (.s path (.str after))
    else
      let b := emitOperation b (.t path (before.length - shared))
      if after.length > shared then emitOperation b (.a path (after.drop shared)) else b

/-! ## Arrays -/

/-- The number of indices below `n`, from 0 on, that pass the test. -/
def runLength (test : Nat → Bool) (n : Nat) : Nat := ((List.range n).takeWhile test).length

section

variable (diffValue : Value → Value → Path Nat → Batch → Option Batch)
  (diffArrayRegion : Nat → Nat → Nat → Nat → Nat → Batch → Option Batch)

/-- The elements of a pair, under their index in the output. -/
def diffMatch (before after : List Value) (path : Path Nat) (i j outputAt : Nat) (b : Batch) :
    Option Batch :=
  match before[i]?, after[j]? with
  | some x, some y => if sameValue x y then some b else diffValue x y (path ++ [.index outputAt]) b
  | _, _ => some b

/-- The regions between consecutive matches are compared one after the other, the last one up to the
arrays' ends. -/
def processArrayMatches (before after : List Value) (path : Path Nat) (beforeEnd afterEnd : Nat) :
    List ArrayMatch → Nat → Nat → Nat → Batch → Option Batch
  | [], beforeAt, afterAt, outputAt, b =>
    if b.overflowed then some b else diffArrayRegion beforeAt beforeEnd afterAt afterEnd outputAt b
  | (i, j) :: ms, beforeAt, afterAt, outputAt, b =>
    if b.overflowed then some b
    else do
      let b ← diffArrayRegion beforeAt i afterAt j outputAt b
      let outputAt := outputAt + (j - afterAt)
      let b ← diffMatch diffValue before after path i j outputAt b
      processArrayMatches before after path beforeEnd afterEnd ms (i + 1) (j + 1) (outputAt + 1) b

end

/-- The matches that the first strategy to find some gives for a trimmed region. -/
def regionMatches (before after : List Value) (beforeStart beforeEnd afterStart afterEnd : Nat) :
    List ArrayMatch :=
  let beforeCount := beforeEnd - beforeStart
  let positional := if beforeCount = afterEnd - afterStart then
      ((List.range beforeCount).filter fun offset =>
        testAt sameValue before after (beforeStart + offset) (afterStart + offset)).map
          fun offset => (beforeStart + offset, afterStart + offset)
    else []
  if positional ≠ [] then positional
  else
    let subsequence :=
      (identitySubsequence before beforeStart beforeEnd after afterStart afterEnd).getD []
    if subsequence ≠ [] then subsequence
    else
      let identity := identityAnchors before beforeStart beforeEnd after afterStart afterEnd
      if identity ≠ [] then identity
      else
        ((lcsMatches semanticallyAligned (region before beforeStart beforeEnd)
          (region after afterStart afterEnd) MAX_SEMANTIC_CELLS).getD []).map
            fun (i, j) => (beforeStart + i, afterStart + j)

/-- A region whose ends differ. -/
def diffTrimmed (diffValue : Value → Value → Path Nat → Batch → Option Batch)
    (diffArrayRegion : Nat → Nat → Nat → Nat → Nat → Batch → Option Batch) (before after : List Value)
    (path : Path Nat) (beforeStart beforeEnd afterStart afterEnd outputStart : Nat) (b : Batch) :
    Option Batch :=
  let beforeCount := beforeEnd - beforeStart
  let afterCount := afterEnd - afterStart
  let replacement := Op.p path outputStart beforeCount (region after afterStart afterEnd)
  if beforeCount = 0 ∧ afterCount = 0 then some b
  else if beforeCount = 0 ∨ afterCount = 0 then some (emitOperation b replacement)
  else
    let ms := regionMatches before after beforeStart beforeEnd afterStart afterEnd
    if ms ≠ [] then
      processArrayMatches diffValue diffArrayRegion before after path beforeEnd afterEnd ms beforeStart
        afterStart outputStart b
    else if beforeCount = 1 ∧ afterCount = 1 then
      match before[beforeStart]?, after[afterStart]? with
      | some x, some y => diffValue x y (path ++ [.index outputStart]) b
      | _, _ => some b
    else some (emitOperation b replacement)

/-! ## Objects -/

/-- A key of `after`. -/
def diffKey (diffValue : Value → Value → Path Nat → Batch → Option Batch)
    (before : List (Str × Value)) (path : Path Nat) (key : Str) (y : Value) (b : Batch) : Option Batch :=
  match mapGet before key with
  | some x => diffValue x y (path ++ [.key key]) b
  | none => some (emitSet (path ++ [.key key]) y b)

/-- The keys of `after`, in order. -/
def diffKeys (diffValue : Value → Value → Path Nat → Batch → Option Batch)
    (before : List (Str × Value)) (path : Path Nat) : List (Str × Value) → Batch → Option Batch
  | [], b => some b
  | (key, y) :: after, b =>
    if b.overflowed then some b
    else do
      let b ← diffKey diffValue before path key y b
      diffKeys diffValue before path after b

/-- The keys of `before` that `after` lacks. -/
def deleteKeys (after : List (Str × Value)) (path : Path Nat) : List (Str × Value) → Batch → Batch
  | [], b => b
  | (key, _) :: before, b =>
    if b.overflowed then b
    else
      deleteKeys after path before
        (if (mapGet after key).isSome then b else emitOperation b (.d (path ++ [.key key])))

/-- Objects are compared key by key, except that a reserved key makes the whole object be set. -/
def diffObject (diffValue : Value → Value → Path Nat → Batch → Option Batch) (before after : Value)
    (beforeFields afterFields : List (Str × Value)) (path : Path Nat) (b : Batch) : Option Batch :=
  if (beforeFields ++ afterFields).any fun f => f.1 ∈ RESERVED_SEGMENTS then
    some (if equalJson before after then b else emitSet path after b)
  else do
    let b ← diffKeys diffValue beforeFields path afterFields b
    some (deleteKeys afterFields path beforeFields b)

/-! ## Values -/

/-- Arrays are compared by their order first, and by regions when they are no rearrangement. -/
def diffArray (diffArrayRegion : Nat → Nat → Nat → Nat → Nat → Batch → Option Batch)
    (before after : Value) (xs ys : List Value) (path : Path Nat) (b : Batch) : Option Batch :=
  if before.same after || equalJson before after then some b
  else
    let order := if xs.length = ys.length ∧ xs.length > 1 ∧ testAt sameValue xs ys 0 0 = false ∧
        testAt sameValue xs ys (xs.length - 1) (ys.length - 1) = false then permutation xs ys else none
    match order with
    | some order => some (emitOperation b (.m path order))
    | none => diffArrayRegion 0 xs.length 0 ys.length 0 b

mutual

/-- The operations that turn `before` into `after` are emitted. The first argument bounds the recursion;
`none` means that it ran out. -/
def diffValue : Nat → Value → Value → Path Nat → Batch → Option Batch
  | 0, _, _, _, _ => none
  | rounds + 1, before, after, path, b =>
    if before.same after || b.overflowed then some b
    else
      match before, after with
      | .str s, .str t => some (if path ≠ [] then emitString s t path b else emitSet path (.str t) b)
      | .arr i xs, .arr j ys =>
        diffArray (diffArrayRegion rounds xs ys path) (.arr i xs) (.arr j ys) xs ys path b
      | .obj i fs, .obj j gs => diffObject (diffValue rounds) (.obj i fs) (.obj j gs) fs gs path b
      | _, after => some (emitSet path after b)

/-- A region of two arrays: the common start and end are skipped, what is left is matched, and what is
not matched is spliced. -/
def diffArrayRegion : Nat → List Value → List Value → Path Nat → Nat → Nat → Nat → Nat → Nat → Batch →
    Option Batch
  | 0, _, _, _, _, _, _, _, _, _ => none
  | rounds + 1, before, after, path, beforeStart, beforeEnd, afterStart, afterEnd, outputStart, b =>
    if b.overflowed then some b
    else
      let atStart := runLength
        (fun k => testAt sameValue before after (beforeStart + k) (afterStart + k))
        (min (beforeEnd - beforeStart) (afterEnd - afterStart))
      let beforeStart := beforeStart + atStart
      let afterStart := afterStart + atStart
      let atEnd := runLength
        (fun k => testAt sameValue before after (beforeEnd - 1 - k) (afterEnd - 1 - k))
        (min (beforeEnd - beforeStart) (afterEnd - afterStart))
      diffTrimmed (diffValue rounds) (diffArrayRegion rounds before after path) before after path
        beforeStart (beforeEnd - atEnd) afterStart (afterEnd - atEnd) (outputStart + atStart) b

end

/-! ## Costs -/

/-- A cost of elements with commas between them. -/
def listCost (costs : List Nat) : Nat := costs.sum + (costs.length - 1)

mutual

/-- The length of a value's JSON text, strings counted without escapes. -/
def jsonCost : Value → Nat
  | .null => 4
  | .str s => s.length + 2
  | .num n => n.text.length
  | .bool b => if b then 4 else 5
  | .arr _ items => 2 + listCost (itemCosts items)
  | .obj _ fields => 2 + listCost (fieldCosts fields)

/-- The costs of an array's elements. -/
def itemCosts : List Value → List Nat
  | [] => []
  | x :: xs => jsonCost x :: itemCosts xs

/-- The costs of an object's fields, each with its key, quotes and colon. -/
def fieldCosts : List (Str × Value) → List Nat
  | [] => []
  | (k, x) :: fields => (k.length + 3 + jsonCost x) :: fieldCosts fields

end

/-- `String(n).length` -/
def digits (n : Nat) : Nat := (IndexNumber.text n).length

/-- The cost of a path's JSON text. -/
def pathCost (path : Path Nat) : Nat :=
  2 + listCost (path.map fun
    | .key name => name.length + 2
    | .index n => digits n)

/-- The cost of an operation's JSON text. -/
def operationCost : Op Nat Value → Nat
  | .r value => 6 + jsonCost value
  | .s path value => 7 + pathCost path + jsonCost value
  | .d path => 6 + pathCost path
  | .a path text => 7 + pathCost path + text.length + 2
  | .t path count => 7 + pathCost path + digits count
  | .p path index remove items =>
    10 + pathCost path + digits index + digits remove + (2 + listCost (itemCosts items))
  | .m path permutation => 7 + pathCost path + (2 + listCost (permutation.map digits))

/-! ## Revisions -/

mutual

/-- How large a value is, for the rounds. -/
def weight : Value → Nat
  | .arr _ items => 1 + weightItems items
  | .obj _ fields => 1 + weightFields fields
  | _ => 1

/-- The weights of an array's elements, added up. -/
def weightItems : List Value → Nat
  | [] => 0
  | x :: xs => weight x + weightItems xs

/-- The weights of an object's field values, added up. -/
def weightFields : List (Str × Value) → Nat
  | [] => 0
  | (_, x) :: fields => weight x + weightFields fields

end

/-- The operations that lead from one revision to the next. -/
def diffRevisions (before after : Value) : Option (List (Op Nat Value)) := do
  let b ← diffValue (weight before + weight after) before after [] ⟨[], false⟩
  if b.overflowed then some [.r after]
  else if b.operations = [] ∨ isBase b.operations then some b.operations
  else
    let deltaCost := 2 + (b.operations.map fun operation => operationCost operation + 1).sum
    if deltaCost < 65536 then some b.operations
    else
      let snapshotCost := jsonCost after + 6
      some (if deltaCost ≥ snapshotCost then [.r after] else b.operations)

end Delta
