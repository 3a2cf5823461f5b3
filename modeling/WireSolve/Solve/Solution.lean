/-
WireSolve/Solve/Solution.lean

A solve from the witness to the solution.

The setup checks the witness, the hint functions and the number of wires, and
seeds the constant one and the witness.  The levels are then processed in order, and
the first level that fails ends the run.  A level that is long enough is processed in
chunks when there are several workers: a chunk stops at its first failure, but the
other chunks of the level are still processed, and the failure that comes first is
the level's.  Log notes are rendered after the run, whether it failed or not, and last
it is checked that every wire has a value.

The workers go through their chunks at the same time, and their instructions can come
in any order that keeps each chunk's own.  `Circuit.solve` takes the one in which the
chunks come one after the other, so that it can be run; all of them are in
`Circuit.outcomeInTurns`, which has this one as a case.  That the workers can be
started is taken for granted.
-/
import WireSolve.Capacity
import WireSolve.Solve.Chunks
import WireSolve.Solve.Constraints
import WireSolve.Solve.Cycle
import WireSolve.Solve.Hints

namespace WireSolve

/-- What a solve computes. -/
structure Solution (p : Nat) where
  /-- The value of every wire. -/
  values : Array (Fp p)
  /-- The evaluated sides of every constraint, in a circuit of rank-1 constraints; constraints
  of other kinds have zeros. -/
  sides : Option (Array (Sides p))
  deriving DecidableEq

/-- What a solve leaves behind. -/
structure Report (p : Nat) where
  /-- The solution, or why there is none. -/
  outcome : Except Failure (Solution p)
  /-- The events of the solve. -/
  journal : Journal p

namespace Circuit

variable {p : Nat} [Modulus p]

/-! ### Setup -/

/-- The names of the needed hint functions that are not at hand, in the order of the numbers. -/
def missingHints (c : Circuit p) (table : HintTable) : List String :=
  (c.hintNames.toList.filter fun (id, _) => !table.contains id).map Prod.snd

/-- Gives values to consecutive positions of the layout. -/
def seedFrom (s : Assignment p) (position : Nat) : List (Fp p) → Except Fault (Assignment p)
  | [] => .ok s
  | x :: rest => do seedFrom (← s.set (Wire.atPosition position) x) (position + 1) rest

/-- The assignment of the constant one and the witness. -/
def seed (c : Circuit p) (witness : List (Fp p)) : Except Fault (Assignment p) := do
  let s := Assignment.empty c.wireCount
  match c.family with
  | .rank1 => seedFrom (← s.set (Wire.atPosition 0) 1) 1 witness
  | .gates => seedFrom s 0 witness

/-- The assignment that a solve starts from. -/
def setup (c : Circuit p) (witness : List (Fp p)) (o : Options) :
    Except Failure (Assignment p) := do
  if witness.length ≠ c.witnessSize then
    throw (.witnessSize witness.length c.witnessSize)
  let missing := c.missingHints o.hints
  if !missing.isEmpty then
    throw (.missingHints missing)
  if maxLength < c.wireCount then
    throw (.tooManyWires c.wireCount)
  let s ← (c.seed witness).mapError Failure.fault
  c.checkHints.mapError Failure.fault
  return s

/-! ### The run -/

/-- Processes the instruction at a position. -/
def process (c : Circuit p) (o : Options) (i : Nat) : Solve p Unit :=
  match c.instructions[i]? with
  | some (.constraint k) =>
    match c.constraints[k]? with
    | some constraint => c.solveConstraint k constraint
    | none => throw (.fault (.noInstruction i))
  | some (.hint h) => c.solveHint o.hints h
  | none => throw (.fault (.noInstruction i))

/-- Processes instructions in order, up to the first that fails. -/
def processAll (c : Circuit p) (o : Options) (level : List Nat) : Solve p Unit :=
  level.forM (c.process o)

/-- Processes all chunks one after the other, from worker number `i` on.  In this order of the
workers, the failure of the earliest chunk that fails is the one that comes first. -/
def processChunks (c : Circuit p) (o : Options) (i : Nat) : List (List Nat) → Solve p Unit
  | [], run => .ok () { run with worker := none }
  | chunk :: rest, run =>
    match c.processAll o chunk { run with worker := some i } with
    | .ok _ run => c.processChunks o (i + 1) rest run
    | .error e run =>
      -- the other workers are not told: their chunks are processed all the same
      match c.processChunks o (i + 1) rest run with
      | .ok _ run => .error e run
      | .error _ run => .error e run

/-- Processes a level, in order or chunk by chunk. -/
def processLevel (c : Circuit p) (o : Options) (depth : Nat) (level : List Nat) :
    Solve p Unit :=
  match chunks level o.workers with
  | none => do
    Solve.emit (.levelStarted depth level.length)
    c.processAll o level
  | some parts => do
    Solve.emit (.levelDispatched depth level.length parts.length)
    c.processChunks o 0 parts

/-- Processes levels, the first of which is at the given depth. -/
def processLevels (c : Circuit p) (o : Options) (depth : Nat) : List (List Nat) → Solve p Unit
  | [] => return
  | level :: rest => do
    c.processLevel o depth level
    c.processLevels o (depth + 1) rest

/-- Renders the log notes into the journal. -/
def emitLogs (c : Circuit p) (run : Run p) : Journal p :=
  c.logs.foldl (fun journal n =>
    journal.push ⟨none, .logged n.caller (n.render c.pool c.source run.wires)⟩) run.journal

/-! ### The end -/

/-- The solution that a run has reached, if every wire has a value. -/
def conclude (c : Circuit p) (run : Run p) : Except Failure (Solution p) := do
  if !run.wires.isComplete then
    throw (.incomplete run.wires.solved run.wires.size)
  let values ← run.wires.values.mapError Failure.fault
  let sides := match c.family with
    | .rank1 => some (run.sides.map fun x => x.getD Sides.zero)
    | .gates => none
  return ⟨values, sides⟩

/-- The state in which the levels of a circuit start. -/
def initialRun (c : Circuit p) (o : Options) (s : Assignment p) (journal : Journal p) : Run p where
  wires := s
  sides := Array.replicate c.constraints.size none
  journal := journal.push ⟨none, .ready o.workers⟩

/-- Computes every wire of a circuit from the witness, with the chunks of a level one after the
other. -/
def solve (c : Circuit p) (witness : List (Fp p)) (o : Options) : Report p :=
  let started : Journal p := #[⟨none, .started c.family c.wireCount c.levels.length⟩]
  match c.setup witness o with
  | .error e => ⟨.error e, started⟩
  | .ok s =>
    let finish (run : Run p) := if o.logs then c.emitLogs run else run.journal
    match c.processLevels o 0 c.levels (c.initialRun o s started) with
    | .error e run => ⟨.error e, finish run⟩
    | .ok _ run =>
      match c.conclude run with
      | .error e => ⟨.error e, finish run⟩
      | .ok solution => ⟨.ok solution, (finish run).push ⟨none, .finished⟩⟩

end Circuit

end WireSolve
