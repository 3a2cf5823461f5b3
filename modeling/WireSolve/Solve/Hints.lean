/-
WireSolve/Solve/Hints.lean

Hints run in a solve, together with the hints they need.

A hint whose first output has a value is done.  Otherwise its inputs are
evaluated in order; an input wire that has no value is produced first, by the
hint that produces it, and so on.  The hints in progress are taken out of
`pending`, so the chain of them is never longer than the number of hints; a hint
that is needed while it is in progress is a fault, which a circuit that passes
`Circuit.checkHints` does not run into.
-/
import WireSolve.Options
import WireSolve.Solve.State

namespace WireSolve

namespace Circuit

variable {p : Nat} [Modulus p]

/-- Produces the wire of a term that is about to be read, if it has no value.  A term scaled by
the reserved zero does not read its wire. -/
def provide (c : Circuit p) (produce : Nat → Solve p Unit) (t : Term) : Solve p Unit := do
  if !t.isConstant && t.coeff != 0 && !(← Solve.wires).isSolved t.wire then
    match c.producer? t.wire with
    | none => throw (.fault (.unproducedWire t.wire))
    | some h => produce h

/-- Adds a term of a hint's input to a running sum, once its wire has a value. -/
def readTerm (c : Circuit p) (produce : Nat → Solve p Unit) (acc : Fp p) (t : Term) :
    Solve p (Fp p) := do
  c.provide produce t
  let s ← Solve.wires
  liftM (t.addTo c.pool s acc)

/-- The value of a hint's input. -/
def readInput (c : Circuit p) (produce : Nat → Solve p Unit) (e : LinComb) : Solve p (Fp p) :=
  e.foldlM (c.readTerm produce) 0

/-- Calls the function of hint number `h` and gives its outputs to the wires, in order. -/
def callHint (h : Nat) (call : HintCall) (f : NamedHint) (inputs : List (Fp p)) :
    Solve p Unit := do
  let inputs := inputs.map Fp.val
  Solve.emit (.hintCalled h call.hint f.name inputs call.outputs.size)
  match f.function.call p inputs (Vector.replicate call.outputs.size 0) with
  | .error e => throw (.hintFailed call.hint e.message)
  | .ok outputs =>
    (call.outputs.wires.zip outputs.toList).forM fun (w, x) => Solve.assign w (Fp.ofNat x)

/-- Runs a hint, unless its outputs have values.  The hints in `pending` are those that are not
in progress. -/
def resolve (c : Circuit p) (table : HintTable) (pending : List Nat) (h : Nat) : Solve p Unit :=
  match c.hints[h]? with
  | none => throw (.fault (.noInstruction h))
  | some call =>
    if _present : h ∈ pending then do
      -- the first output stands for all of them
      if 0 < call.outputs.size && (← Solve.wires).isSolved call.outputs.start then
        return
      match table.get? call.hint with
      | none => throw (.unboundHint call.hint)
      | some f =>
        let inputs ← call.inputs.mapM
          (c.readInput fun g => c.resolve table (pending.erase h) g)
        callHint h call f inputs
    else
      -- `h` is in progress: it needs its own outputs
      throw (.fault (.hintCycle h))
termination_by pending.length
decreasing_by exact length_erase_lt_of_mem _present

/-- Runs a hint, unless its outputs have values. -/
def solveHint (c : Circuit p) (table : HintTable) (h : Nat) : Solve p Unit :=
  c.resolve table (List.range c.hints.size) h

end Circuit

end WireSolve
