/-
WireSolve/Solve/Cycle.lean

The check that no hint needs its own outputs.

A hint needs the hints that produce the wires it reads (`Circuit.prerequisites`).
The search goes depth first along these, with the hints on the current path taken
out of `pending`: a prerequisite that is neither finished nor pending is on the
path, and closes a cycle.
-/
import WireSolve.Circuit.Basic

namespace WireSolve

namespace Circuit

variable {p : Nat} [Modulus p]

/-- Visits a hint and, before it is finished, its prerequisites, the last one first.  Returns
the finished hints, or a hint that was reached while it was on the path. -/
def visit (c : Circuit p) (pending finished : List Nat) (h : Nat) : Except Nat (List Nat) :=
  if h ∈ finished then
    .ok finished
  else if _present : h ∈ pending then do
    let finished ← (c.prerequisites h).reverse.foldlM
      (fun finished g => c.visit (pending.erase h) finished g) finished
    return h :: finished
  else
    -- `h` is on the path
    .error h
termination_by pending.length
decreasing_by exact length_erase_lt_of_mem _present

/-- Accepts a circuit in which no hint needs its own outputs, directly or through others. -/
def checkHints (c : Circuit p) : Except Fault Unit :=
  let all := List.range c.hints.size
  match all.foldlM (fun finished h => c.visit all finished h) [] with
  | .ok _ => .ok ()
  | .error h => .error (.hintCycle h)

end Circuit

end WireSolve
