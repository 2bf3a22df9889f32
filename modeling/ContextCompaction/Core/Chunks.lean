import ContextCompaction.Core.Notes

/-!
# Source chunks

A fixed writer reads the uncovered records in chunks, each within a token budget. A record that
does not fit is split; a part of it is cut until it fits.

The products of the source are taken in whole numbers: `used > tokenBudget * 0.85` is
`tokenBudget * 85 < used * 100`.
-/

namespace Compaction

open Js

structure SourcePart where
  entryId : Str
  role : Str
  offset : Nat
  text : Str
  deriving DecidableEq

def SourcePart.toJson (part : SourcePart) : Json :=
  .obj [(lit "entryId", .str part.entryId), (lit "role", .str part.role),
    (lit "offset", .num (.ofNat part.offset)), (lit "text", .str part.text)]

/-- The chunks that are done, and the one being filled with its token estimate. -/
structure ChunkState where
  chunks : List (List SourcePart)
  chunk : List SourcePart
  used : Nat

/-- `yield chunk; chunk = []; used = 0`. -/
def ChunkState.yield (st : ChunkState) : ChunkState := ⟨st.chunks ++ [st.chunk], [], 0⟩

/-- The next part of a text, cut until it fits the whole budget. -/
def nextPart (tokenBudget used : Nat) (text : Str) (offset : Nat) : Str :=
  shrink (fun part => decide (tokenBudget < textTokens part + 100) && decide (1 < part.length))
    (slice text offset (offset + max 512 ((tokenBudget - used - 200) * 2)))

/-- The parts of one record from an offset on. A round that adds no part has yielded a chunk, so two
rounds for each character are enough. -/
def chunkEntry (tokenBudget : Nat) (entry : SessionRecord) : Nat → Nat → ChunkState → ChunkState
  | 0, _, st => st
  | fuel + 1, offset, st =>
    if offset < (sourceText entry).length then
      let part := nextPart tokenBudget st.used (sourceText entry) offset
      let tokens := textTokens part + 100
      if tokenBudget < st.used + tokens ∧ st.chunk ≠ [] then
        chunkEntry tokenBudget entry fuel offset st.yield
      else
        let filled : ChunkState :=
          { st with
            chunk := st.chunk ++ [⟨entry.id, sourceRole entry, offset, part⟩]
            used := st.used + tokens }
        chunkEntry tokenBudget entry fuel (offset + part.length)
          (if tokenBudget * 85 < filled.used * 100 then filled.yield else filled)
    else st

/-- The chunks of some records. -/
def sourceChunks (entries : List SessionRecord) (tokenBudget : Nat) : List (List SourcePart) :=
  let st := entries.foldl
    (fun st entry => chunkEntry tokenBudget entry (2 * (sourceText entry).length + 1) 0 st) ⟨[], [], 0⟩
  if st.chunk = [] then st.chunks else st.chunks ++ [st.chunk]

end Compaction
