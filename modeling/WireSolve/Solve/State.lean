/-
WireSolve/Solve/State.lean

The state of a solve, and the few ways in which it changes.

A step of a solve may fail after it has changed the state, and what was found
before the failure is still wanted (the log notes show it), so the state survives
failures.  Wires change through `assign` and through the constraint steps, which
all go through `Assignment.set`; the sides of a rank-1 constraint are recorded
once.
-/
import WireSolve.Solve.Journal
import WireSolve.Step.Rank1

namespace WireSolve

/-- The state of a solve. -/
structure Run (p : Nat) where
  /-- The values found so far. -/
  wires : Assignment p
  /-- The evaluated sides of each constraint, once it is processed. -/
  sides : Array (Option (Sides p))
  /-- The events so far. -/
  journal : Journal p
  /-- The worker whose chunk is being processed. -/
  worker : Option Nat := none

/-- A step of a solve: it changes the state, and it may fail. -/
abbrev Solve (p : Nat) := EStateM Failure (Run p)

namespace Solve

variable {p : Nat}

/-- A fault of the circuit ends the solve. -/
instance : MonadLift (Except Fault) (Solve p) where
  monadLift
    | .ok a => pure a
    | .error f => throw (.fault f)

/-- Appends an event to the journal. -/
def emit (e : Event p) : Solve p Unit :=
  modify fun run => { run with journal := run.journal.push ⟨run.worker, e⟩ }

/-- The values found so far. -/
def wires : Solve p (Assignment p) := return (← get).wires

/-- Takes over an assignment. -/
def setWires (s : Assignment p) : Solve p Unit := modify fun run => { run with wires := s }

/-- Gives a wire its value. -/
def assign (w : Wire) (x : Fp p) : Solve p Unit
  | ⟨wires, sides, journal, worker⟩ =>
    match wires.set w x with
    | .ok wires => .ok () ⟨wires, sides, journal, worker⟩
    | .error f => .error (.fault f) ⟨wires, sides, journal, worker⟩

/-- Records the sides of constraint number `k`, in a circuit of rank-1 constraints. -/
def record (family : Family) (k : Nat) (x : Sides p) : Solve p Unit := do
  match family with
  | .gates => pure ()
  | .rank1 =>
    match (← get).sides[k]? with
    | none => throw (.fault (.noInstruction k))
    | some (some _) => throw (.fault (.processedTwice k))
    | some none => modify fun run => { run with sides := run.sides.setIfInBounds k (some x) }

end Solve

end WireSolve
