/-
WireSolve/Solve/Turns.lean

The workers of a level at the same time.

The workers of a level that is dispatched all start at once, and which of them comes
next is not fixed.  Here they take turns, in any order: in its turn a worker
processes the next instruction of its chunk, if any is left.  An instruction is one
step, and nothing of the other workers comes in between.  A worker stops when an
instruction of its chunk fails; the others are not told, and the failure that came
first is that of the level.  Lists of turns that are long enough for all chunks are
the ways of interleaving them (`AllTaken`); the chunks one after the other, as
`Circuit.processChunks` goes through them, are one of these (`oneByOne`).

What is left of the turns when nothing fails is an order of the instructions, level
by level (`Circuit.orderInTurns`).  That the workers can be started is taken for
granted.
-/
import WireSolve.Solve.Solution

namespace WireSolve

/-- The workers of a level at some point of their work. -/
structure Crew (p : Nat) where
  /-- The state, which they share. -/
  run : Run p
  /-- What is left of each chunk; a worker that has stopped has nothing left. -/
  left : List (List Nat)
  /-- The failure that came first. -/
  failure : Option Failure

/-- Every worker has at least as many turns as its chunk has instructions. -/
def AllTaken (turns : List Nat) (parts : List (List Nat)) : Prop :=
  ∀ x ∈ parts.zipIdx, x.1.length ≤ turns.count x.2

instance (turns : List Nat) (parts : List (List Nat)) : Decidable (AllTaken turns parts) :=
  inferInstanceAs (Decidable (∀ _ ∈ _, _))

/-- The turns in which the chunks are processed one after the other, from worker number `i` on. -/
def oneByOne (i : Nat) : List (List Nat) → List Nat
  | [] => []
  | part :: rest => List.replicate part.length i ++ oneByOne (i + 1) rest

/-- The order in which turns process what is left, if nothing fails. -/
def order : List Nat → List (List Nat) → List Nat
  | [], _ => []
  | j :: turns, left =>
    match left[j]? with
    | some (i :: rest) => i :: order turns (left.set j rest)
    | _ => order turns left

/-- The order in which a level is processed, in turns if it is dispatched. -/
def levelOrder (workers : Nat) (turns level : List Nat) : List Nat :=
  match chunks level workers with
  | none => level
  | some parts => order turns parts

/-- The order of levels, the first of which is at the given depth; each depth has its turns. -/
def levelsOrder (workers : Nat) (turns : Nat → List Nat) (depth : Nat) :
    List (List Nat) → List Nat
  | [] => []
  | level :: rest =>
    levelOrder workers (turns depth) level ++ levelsOrder workers turns (depth + 1) rest

namespace Circuit

variable {p : Nat} [Modulus p]

/-- The turn of worker number `j`. -/
def takeTurn (c : Circuit p) (o : Options) (crew : Crew p) (j : Nat) : Crew p :=
  match crew.left[j]? with
  | some (i :: rest) =>
    match c.process o i { crew.run with worker := some j } with
    | .ok _ run => { crew with run, left := crew.left.set j rest }
    | .error e run => ⟨run, crew.left.set j [], some (crew.failure.getD e)⟩
  | _ => crew

/-- Processes all chunks, in the given turns. -/
def processTurns (c : Circuit p) (o : Options) (turns : List Nat) (parts : List (List Nat)) :
    Solve p Unit := fun run =>
  let crew := turns.foldl (c.takeTurn o) ⟨run, parts, none⟩
  match crew.failure with
  | none => .ok () { crew.run with worker := none }
  | some e => .error e { crew.run with worker := none }

/-- Processes a level, in order or in the given turns. -/
def processLevelInTurns (c : Circuit p) (o : Options) (turns : List Nat) (depth : Nat)
    (level : List Nat) : Solve p Unit :=
  match chunks level o.workers with
  | none => do
    Solve.emit (.levelStarted depth level.length)
    c.processAll o level
  | some parts => do
    Solve.emit (.levelDispatched depth level.length parts.length)
    c.processTurns o turns parts

/-- Processes levels, the first of which is at the given depth; each depth has its turns. -/
def processLevelsInTurns (c : Circuit p) (o : Options) (turns : Nat → List Nat) (depth : Nat) :
    List (List Nat) → Solve p Unit
  | [] => return
  | level :: rest => do
    c.processLevelInTurns o (turns depth) depth level
    c.processLevelsInTurns o turns (depth + 1) rest

/-- The outcome of a solve whose workers take turns. -/
def outcomeInTurns (c : Circuit p) (witness : List (Fp p)) (o : Options)
    (turns : Nat → List Nat) : Except Failure (Solution p) := do
  let s ← c.setup witness o
  match c.processLevelsInTurns o turns 0 c.levels (c.initialRun o s #[]) with
  | .ok _ run => c.conclude run
  | .error e _ => .error e

/-- The turns in which every level is processed chunk by chunk. -/
def chunkByChunk (c : Circuit p) (workers depth : Nat) : List Nat :=
  oneByOne 0 ((c.levels[depth]?.bind fun level => chunks level workers).getD [])

/-- The order in which turns process the instructions of a circuit, if nothing fails. -/
def orderInTurns (c : Circuit p) (workers : Nat) (turns : Nat → List Nat) : List Nat :=
  levelsOrder workers turns 0 c.levels

/-- Every level that is dispatched has enough turns for its chunks. -/
def AllTurnsTaken (c : Circuit p) (workers : Nat) (turns : Nat → List Nat) : Prop :=
  ∀ x ∈ c.levels.zipIdx, ∀ parts ∈ chunks x.1 workers, AllTaken (turns x.2) parts

instance (c : Circuit p) (workers : Nat) (turns : Nat → List Nat) :
    Decidable (c.AllTurnsTaken workers turns) :=
  inferInstanceAs (Decidable (∀ _ ∈ _, ∀ _ ∈ _, _))

end Circuit

end WireSolve
