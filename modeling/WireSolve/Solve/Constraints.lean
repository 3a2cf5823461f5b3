/-
WireSolve/Solve/Constraints.lean

Constraints processed in a solve: the steps of `WireSolve/Step`, with their
results taken over into the state and their refusals turned into failures.

A constraint that does not hold is reported with its note, rendered with the
values found so far.  A custom constraint may fail as it likes; a fault and a
violation that it reports are passed on, and every other failure counts as a
violation of that constraint.
-/
import WireSolve.Solve.State
import WireSolve.Step.Gate

namespace WireSolve

namespace Circuit

variable {p : Nat} [Modulus p]

/-- The violation of constraint number `k`, with its note at an assignment. -/
def violation (c : Circuit p) (s : Assignment p) (k : Nat) (m : Mismatch) : Violation :=
  ⟨k, m, (c.noteFor? k).map fun n => n.render c.pool c.source s⟩

/-- The failure of a solve at a constraint that is refused. -/
def refusal (c : Circuit p) (s : Assignment p) (k : Nat) : Refusal → Failure
  | .fault f => .fault f
  | .mismatch m => .unsatisfied (c.violation s k m)

/-- Processes a rank-1 constraint and records its sides. -/
def solveRank1 (c : Circuit p) (k : Nat) (r : Rank1) : Solve p Unit := do
  let s ← Solve.wires
  match r.solve c.pool s k with
  | .error e => throw (c.refusal s k e)
  | .ok (s, x) =>
    Solve.setWires s
    Solve.record c.family k x

/-- Processes an arithmetic gate. -/
def solveGate (c : Circuit p) (k : Nat) (g : Gate) : Solve p Unit := do
  let s ← Solve.wires
  match g.solve c.pool s k with
  | .error e => throw (c.refusal s k e)
  | .ok s => Solve.setWires s

/-- Answers the queries of a routine until it stops, and returns its verdict. -/
def converse (c : Circuit p) (k : Nat) : Routine p → Solve p (Except Failure Unit)
  | .done verdict => return verdict
  | .ask q next => do
    let (reply, s) := q.answer c.pool (← Solve.wires)
    Solve.setWires s
    Solve.emit (.answered k q reply)
    c.converse k (next reply)

/-- Processes a custom constraint. -/
def solveCustom (c : Circuit p) (k : Nat) (body : Nat → Routine p) : Solve p Unit := do
  match ← c.converse k (body k) with
  | .ok () => return
  | .error (.fault f) => throw (.fault f)
  | .error (.unsatisfied v) => throw (.unsatisfied v)
  | .error e => throw (.unsatisfied (c.violation (← Solve.wires) k (.told e.message)))

/-- Processes constraint number `k`, of whatever kind. -/
def solveConstraint (c : Circuit p) (k : Nat) : Constraint p → Solve p Unit
  | .rank1 r => c.solveRank1 k r
  | .gate g => c.solveGate k g
  | .custom body => c.solveCustom k body

end Circuit

end WireSolve
