/-
WireSolve/Failure.lean

Why a solve ends without a solution.

A `Fault` points at the circuit: an instruction that does not exist, a wire
written twice, a coefficient out of range.  A `Mismatch` points at the witness:
the arithmetic of a constraint does not come out.  `Failure` is what the caller
of a solve sees, and it keeps the two apart.  Every wording is in one of the
`message` functions below.

There is no case for workers that cannot be started: that they can is taken for
granted wherever a solve has several.
-/
import WireSolve.Linear
import WireSolve.Hint.Id

namespace WireSolve

/-! ### Faults of the circuit -/

/-- A circuit that asks for something it may not ask for. -/
inductive Fault where
  /-- A wire is given a second value. -/
  | solvedTwice (wire : Wire)
  /-- A wire is not one of the circuit's wires. -/
  | wireOutOfRange (wire : Wire)
  /-- A term is read before its wire has a value. -/
  | unsolvedWire (wire : Wire)
  /-- A constraint still has two wires to solve when it is processed. -/
  | manyUnknowns (constraint : Nat)
  /-- The wire to solve is scaled by zero. -/
  | zeroDivisor
  /-- A hint reads a wire that has no value and that no hint produces. -/
  | unproducedWire (wire : Wire)
  /-- The sides of a constraint are recorded a second time. -/
  | processedTwice (constraint : Nat)
  /-- A level, an instruction or a record names something that does not exist. -/
  | noInstruction (index : Nat)
  /-- A coefficient is not in the pool. -/
  | coeffOutOfRange (coeff : Nat)
  /-- A hint needs its own outputs. -/
  | hintCycle (hint : Nat)
  deriving DecidableEq, Repr

/-- The wording of a fault. -/
def Fault.message : Fault → String
  | .solvedTwice w => s!"solving the same wire twice should never happen (wire {w.toNat})"
  | .wireOutOfRange w => s!"wire {w.toNat} is out of range"
  | .unsolvedWire w => s!"computing a term with an unsolved wire (wire {w.toNat})"
  | .manyUnknowns k => s!"found more than one wire to instantiate in constraint {k}"
  | .zeroDivisor => "division by a zero coefficient"
  | .unproducedWire w =>
      s!"hint input wire {w.toNat} is unsolved and not produced by any hint"
  | .processedTwice k => s!"constraint {k} was processed twice"
  | .noInstruction i => s!"instruction {i} does not exist"
  | .coeffOutOfRange c => s!"coefficient {c} is out of range"
  | .hintCycle h => s!"hint {h} depends on its own outputs"

/-! ### Mismatches with the witness -/

/-- How the arithmetic of a constraint fails to come out; field elements appear as residues. -/
inductive Mismatch where
  /-- The product of the factors is not the output. -/
  | product (left right out : Nat)
  /-- A gate whose wires are all known does not sum to zero. -/
  | gateSum (value : Nat)
  /-- The wire that a gate has to solve has coefficient zero, and the rest is not zero. -/
  | gateWire (rest : Nat) (wire : Wire)
  /-- A custom constraint gives a reason of its own. -/
  | told (reason : String)
  deriving DecidableEq, Repr

/-- The wording of a mismatch. -/
def Mismatch.message : Mismatch → String
  | .product a b c => s!"{a} ⋅ {b} != {c}"
  | .gateSum v => s!"qL⋅xa + qR⋅xb + qO⋅xc + qM⋅(xa⋅xb) + qC == {v} != 0"
  | .gateWire r w => s!"0 != {r}: gate cannot solve wire {w.toNat}"
  | .told reason => reason

/-- What stops a single constraint. -/
inductive Refusal where
  /-- The constraint is malformed. -/
  | fault (f : Fault)
  /-- The constraint does not hold. -/
  | mismatch (m : Mismatch)
  deriving DecidableEq, Repr

/-- What is malformed stops a constraint as a refusal. -/
instance : MonadLift (Except Fault) (Except Refusal) := ⟨Except.mapError Refusal.fault⟩

/-- A constraint that does not hold under the values found so far. -/
structure Violation where
  /-- The constraint. -/
  constraint : Nat
  /-- The arithmetic that failed. -/
  mismatch : Mismatch
  /-- The rendered note attached to the constraint, if it has one. -/
  note : Option String
  deriving DecidableEq, Repr

/-- The wording of a violation: the attached note if there is one, the arithmetic otherwise. -/
def Violation.message (v : Violation) : String :=
  s!"constraint #{v.constraint} is not satisfied: " ++ v.note.getD v.mismatch.message

/-! ### Failures of a solve -/

/-- Why a solve has no solution to return. -/
inductive Failure where
  /-- The witness has the wrong number of values. -/
  | witnessSize (got expected : Nat)
  /-- Hints that the circuit declares are not at hand. -/
  | missingHints (names : List String)
  /-- The circuit has more wires than can be laid out.  This stands for an allocation that is too
  large to be made, which would not return at all. -/
  | tooManyWires (count : Nat)
  /-- A hint that is called is not bound to a function. -/
  | unboundHint (id : HintId)
  /-- A constraint does not hold. -/
  | unsatisfied (v : Violation)
  /-- A hint function refuses its inputs. -/
  | hintFailed (id : HintId) (reason : String)
  /-- Some wires have no value at the end. -/
  | incomplete (solved total : Nat)
  /-- A custom constraint rejects the values. -/
  | custom (reason : String)
  /-- The circuit is malformed. -/
  | fault (f : Fault)
  deriving DecidableEq, Repr

namespace Failure

/-- The wording of a failure. -/
def message : Failure → String
  | .witnessSize got expected => s!"invalid witness size, got {got}, expected {expected}"
  | .missingHints names => "solver missing hint(s): " ++ ", ".intercalate names
  | .tooManyWires count => s!"a circuit of {count} wires is too large to solve"
  | .unboundHint id => "missing hint function " ++ id.text
  | .unsatisfied v => v.message
  | .hintFailed id reason => "hint " ++ id.text ++ " failed: " ++ reason
  | .incomplete solved total =>
      s!"solver didn't assign a value to all wires ({solved} of {total})"
  | .custom reason => reason
  | .fault f => "internal solver error: " ++ f.message

/-- Whether the failure is a fault, which points at the circuit. -/
def isFault : Failure → Bool
  | .fault _ => true
  | _ => false

end Failure

end WireSolve
