/-
WireSolve/Circuit/Draft.lean

A circuit under construction.

Wires are handed out in the order of the layout: the inputs are fixed when the
draft is started, and internal wires are appended one by one.  Instructions go to
the current level until it is closed; nothing is reordered.  Only a level that
holds something is closed, so no level of a finished circuit is empty.
-/
import WireSolve.Circuit.Basic

namespace WireSolve

/-- Why a draft has no wire to give. -/
inductive DraftError where
  /-- A circuit of gates has no constant one. -/
  | noOneWire
  /-- There is no such public input. -/
  | publicOutOfRange (i : Count)
  /-- There is no such secret input. -/
  | secretOutOfRange (i : Count)
  deriving DecidableEq, Repr

/-- The wording of a draft error. -/
def DraftError.message : DraftError → String
  | .noOneWire => "only R1CS systems have a one-wire"
  | .publicOutOfRange i => s!"public input {i} out of range"
  | .secretOutOfRange i => s!"secret input {i} out of range"

/-- A circuit under construction, with the level that is still open. -/
structure Draft (p : Nat) [Modulus p] where
  /-- The circuit so far; its levels are the closed ones. -/
  circuit : Circuit p
  /-- The instructions of the open level. -/
  level : List Nat := []

namespace Draft

variable {p : Nat} [Modulus p]

/-- A draft with the given numbers of inputs; the constant one comes on top of them. -/
def start (family : Family) (publicInputs secretInputs : Count) : Draft p where
  circuit :=
    { family := family
      publicWires := publicInputs + UInt64.ofNat family.reservedWires
      secretWires := secretInputs }

/-! ### Wires -/

/-- The wire that holds the constant one. -/
def one (d : Draft p) : Except DraftError Wire :=
  match d.circuit.family with
  | .rank1 => .ok (Wire.atPosition 0)
  | .gates => .error .noOneWire

/-- The wire of a public input. -/
def publicInput (d : Draft p) (i : Count) : Except DraftError Wire :=
  let position := i + UInt64.ofNat d.circuit.family.reservedWires
  if position < d.circuit.publicWires then
    .ok (Wire.atPosition position.toNat)
  else
    .error (.publicOutOfRange i)

/-- The wire of a secret input. -/
def secretInput (d : Draft p) (i : Count) : Except DraftError Wire :=
  if i < d.circuit.secretWires then
    .ok (Wire.atPosition (d.circuit.publicWires + i).toNat)
  else
    .error (.secretOutOfRange i)

/-- The wires of the next `n` internal positions, which are appended to the layout. -/
def internals (d : Draft p) (n : Nat) : Draft p × List Wire :=
  let first := d.circuit.wireCount
  let internalWires := d.circuit.internalWires + UInt64.ofNat n
  ({ d with circuit := { d.circuit with internalWires := internalWires } },
    (List.range n).map fun i => Wire.atPosition (first + i))

/-! ### Coefficients and terms -/

/-- The number for the position of a coefficient in the pool. -/
def coeff (d : Draft p) (x : Fp p) : Draft p × Nat :=
  let (pool, i) := d.circuit.pool.insert x
  ({ d with circuit := { d.circuit with pool := pool } }, i)

/-- A coefficient times a wire. -/
def term (d : Draft p) (x : Fp p) (w : Wire) : Draft p × Term :=
  let (d, i) := d.coeff x
  (d, ⟨i, w⟩)

/-- A bare coefficient. -/
def constant (d : Draft p) (x : Fp p) : Draft p × Term :=
  let (d, i) := d.coeff x
  (d, Term.constant i)

/-! ### Instructions -/

/-- Appends an instruction to the open level. -/
def schedule (d : Draft p) (i : Instruction) : Draft p where
  circuit := { d.circuit with instructions := d.circuit.instructions.push i }
  level := d.level ++ [d.circuit.instructions.size]

/-- Appends a constraint and schedules it. -/
def constrain (d : Draft p) (k : Constraint p) : Draft p × Nat :=
  let number := d.circuit.constraints.size
  let d := { d with circuit := { d.circuit with constraints := d.circuit.constraints.push k } }
  (d.schedule (.constraint number), number)

/-- Appends a use of a hint function, with fresh wires for its outputs, that runs only when
another hint needs it. -/
def detachedHint (d : Draft p) (name : String) (inputs : List LinComb) (n : Nat) :
    Draft p × List Wire :=
  let id := HintId.ofName name
  let first := Wire.atPosition d.circuit.wireCount
  let (d, wires) := d.internals n
  -- the end of the range wraps around with the wires themselves
  let call : HintCall := ⟨id, inputs, ⟨first, first + Wire.atPosition n⟩⟩
  ({ d with
      circuit :=
        { d.circuit with
          hints := d.circuit.hints.push call
          hintNames := d.circuit.hintNames.insertIfNew id name } }, wires)

/-- Appends a use of a hint function, with fresh wires for its outputs, and schedules it. -/
def hint (d : Draft p) (name : String) (inputs : List LinComb) (n : Nat) :
    Draft p × List Wire :=
  let number := d.circuit.hints.size
  let (d, wires) := d.detachedHint name inputs n
  (d.schedule (.hint number), wires)

/-- Closes the open level, unless it is empty. -/
def nextLevel (d : Draft p) : Draft p :=
  if d.level.isEmpty then
    d
  else
    { circuit := { d.circuit with levels := d.circuit.levels ++ [d.level] } }

/-! ### Notes and locations -/

/-- Records a source location. -/
def location (d : Draft p) (function file : String) (line : Nat) : Draft p × Nat :=
  let (source, id) := d.circuit.source.addLocation function file line
  ({ d with circuit := { d.circuit with source := source } }, id)

/-- Attaches a note to a constraint. -/
def annotate (d : Draft p) (k : Nat) (n : Note) : Draft p :=
  { d with
    circuit :=
      { d.circuit with
        notes := d.circuit.notes.push n
        noteOf := d.circuit.noteOf.insert k d.circuit.notes.size } }

/-- Adds a note to log after a solve. -/
def log (d : Draft p) (n : Note) : Draft p :=
  { d with circuit := { d.circuit with logs := d.circuit.logs.push n } }

/-- The finished circuit. -/
def finish (d : Draft p) : Circuit p := d.nextLevel.circuit

end Draft

end WireSolve
