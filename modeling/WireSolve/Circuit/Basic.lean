/-
WireSolve/Circuit/Basic.lean

A circuit: its wires, its constraints, the hint functions it uses and the order
in which all of them are to be processed.

Wires are laid out as public, secret, internal.  A circuit of rank-1 constraints
has the constant one as its first public wire; a circuit of gates has no such
wire.  The witness gives the public and the secret wires but not the constant.
The numbers of wires are words (`Count`), and so are their sums.

The instructions are processed level by level, in the order given: nothing here
checks that a level only needs what earlier levels provide.
-/
import Std.Data.TreeMap
import WireSolve.Gate
import WireSolve.Hint.Call
import WireSolve.Note
import WireSolve.Routine

namespace WireSolve

/-- The two families of circuits. -/
inductive Family where
  /-- Rank-1 constraints, with a constant-one wire. -/
  | rank1
  /-- Arithmetic gates, without a reserved wire. -/
  | gates
  deriving DecidableEq, Repr

/-- The number of leading public wires that the witness does not give. -/
def Family.reservedWires : Family → Nat
  | rank1 => 1
  | gates => 0

/-- A constraint on the wires. -/
inductive Constraint (p : Nat) where
  /-- A rank-1 constraint. -/
  | rank1 (r : Rank1)
  /-- An arithmetic gate. -/
  | gate (g : Gate)
  /-- A program that is told its own number. -/
  | custom (body : Nat → Routine p)

/-- A rank-1 constraint is shown in full, and every other one as `custom`. -/
def Constraint.text {p : Nat} : Constraint p → String
  | rank1 r => r.text
  | _ => "custom"

/-- One thing to process. -/
inductive Instruction where
  /-- Solve or check a constraint. -/
  | constraint (k : Nat)
  /-- Run a hint. -/
  | hint (h : Nat)
  deriving DecidableEq, Repr

/-- A circuit over the field of order `p`. -/
structure Circuit (p : Nat) [Modulus p] where
  /-- The family. -/
  family : Family
  /-- The number of public wires, the constant one included. -/
  publicWires : Count
  /-- The number of secret wires. -/
  secretWires : Count
  /-- The number of wires that a solve computes. -/
  internalWires : Count := 0
  /-- The coefficients of all terms. -/
  pool : CoeffPool p := .initial
  /-- The constraints. -/
  constraints : Array (Constraint p) := #[]
  /-- The uses of hint functions. -/
  hints : Array HintCall := #[]
  /-- The things to process. -/
  instructions : Array Instruction := #[]
  /-- Positions of instructions, level by level. -/
  levels : List (List Nat) := []
  /-- The hint functions that are needed, with their names. -/
  hintNames : Std.TreeMap HintId String := ∅
  /-- The notes that constraints refer to. -/
  notes : Array Note := #[]
  /-- The note of a constraint, by position. -/
  noteOf : Std.TreeMap Nat Nat := ∅
  /-- The notes to log after a solve. -/
  logs : Array Note := #[]
  /-- The locations that notes refer to. -/
  source : SourceMap := {}

namespace Circuit

variable {p : Nat} [Modulus p]

/-- The number of wires. -/
def wireCount (c : Circuit p) : Nat := (c.publicWires + c.secretWires + c.internalWires).toNat

/-- The number of wires that the witness gives. -/
def witnessSize (c : Circuit p) : Nat :=
  -- a circuit may have fewer public wires than it reserves; none of them is then given
  (UInt64.ofNat (c.publicWires.toNat - c.family.reservedWires) + c.secretWires).toNat

/-- The note attached to a constraint. -/
def noteFor? (c : Circuit p) (k : Nat) : Option Note := c.noteOf[k]? >>= fun i => c.notes[i]?

/-- The hint that produces a wire: of several, the last. -/
def producer? (c : Circuit p) (w : Wire) : Option Nat :=
  (List.range c.hints.size).reverse.find? fun h =>
    (c.hints[h]?).any fun call => call.outputs.contains w

/-- The wires that hints produce, each with its producer: of several, the last. -/
def hintOutputs (c : Circuit p) : Std.TreeMap Wire Nat :=
  c.hints.toList.zipIdx.foldl (fun producers (call, h) =>
    call.outputs.wires.foldl (fun producers w => producers.insert w h) producers) ∅

/-- Hints that are followed from one to the next, each taken out of those that are left, come to
an end. -/
theorem length_erase_lt_of_mem {pending : List Nat} {h : Nat} (hmem : h ∈ pending) :
    (pending.erase h).length < pending.length := by
  rw [List.length_erase_of_mem hmem]
  exact Nat.sub_one_lt (Nat.ne_of_gt (List.length_pos_of_mem hmem))

/-- The hints that produce a wire the inputs of a hint read; the reserved zero reads nothing. -/
def prerequisites (c : Circuit p) (h : Nat) : List Nat :=
  match c.hints[h]? with
  | none => []
  | some call =>
    call.inputs.flatten.filterMap fun t =>
      if t.isConstant || t.coeff == 0 then none else c.producer? t.wire

end Circuit

end WireSolve
