/-
WireSolve/Solve/Chunks.lean

How a level is split among workers.

A worker should get about fifty instructions at least, so a level of fifty or
fewer is not split.  Otherwise the chunks are contiguous, their sizes differ by
one at most, and the larger ones come first: chunk `i` starts after `i` shares of
the quotient and as many of the remaining instructions as there are chunks before
it.  Dealt out one after the other, the chunks are the same (`dealChunks`): each
starts where the one before it ends, and takes one of the remaining instructions
as long as there are any.
-/
namespace WireSolve

/-- The number of instructions that a worker should get at least. -/
def minChunk : Nat := 50

/-- The number of chunks of a level of `len` instructions for a number of workers. -/
def chunkCount (len workers : Nat) : Nat := min workers ((len + minChunk - 1) / minChunk)

/-- Where chunk `i` of `k` starts in a level of `len` instructions. -/
def chunkStart (len k i : Nat) : Nat := i * (len / k) + min i (len % k)

/-- The bounds of the chunks of a level, unless it is processed in order. -/
def chunkBounds (len workers : Nat) : Option (List (Nat × Nat)) :=
  if workers ≤ 1 ∨ len ≤ minChunk then
    none
  else
    let k := chunkCount len workers
    some ((List.range k).map fun i => (chunkStart len k i, chunkStart len k (i + 1)))

/-- Deals out `n` chunks from a start.  Each gets a share, and one instruction more as long as some
are left over. -/
def dealChunks (share : Nat) : (n leftOver start : Nat) → List (Nat × Nat)
  | 0, _, _ => []
  | n + 1, 0, start => (start, start + share) :: dealChunks share n 0 (start + share)
  | n + 1, leftOver + 1, start =>
    (start, start + share + 1) :: dealChunks share n leftOver (start + share + 1)

/-- The chunks of a level, unless it is processed in order. -/
def chunks {α : Type} (level : List α) (workers : Nat) : Option (List (List α)) :=
  (chunkBounds level.length workers).map fun bounds =>
    bounds.map fun (start, stop) => (level.drop start).take (stop - start)

end WireSolve
