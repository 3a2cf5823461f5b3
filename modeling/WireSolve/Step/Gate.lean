/-
WireSolve/Step/Gate.lean

One arithmetic gate processed against a partial assignment.

At most one of the wires that take part may be unknown.  The gate is then linear
in that wire, `scale * x + rest = 0`, and determines it when the scale is not
zero.  With scale zero the wire stays free and `rest` has to be zero.  When every
wire is known the whole sum has to be zero.
-/
import WireSolve.Evaluation
import WireSolve.Gate

namespace WireSolve

variable {p : Nat} [Modulus p]

/-- What is left of a gate when the values of its known wires are put in. -/
inductive Equation (p : Nat) where
  /-- `scale * x + rest = 0`, for a wire that has no value. -/
  | linear (wire : Wire) (scale rest : Fp p)
  /-- `sum = 0`: every wire that takes part is known. -/
  | constant (sum : Fp p)

/-- Solves an equation for its wire, or checks it. -/
def Equation.settle (s : Assignment p) : Equation p → Except Refusal (Assignment p)
  | .linear w scale rest =>
    match scale.inverse? with
    | some y => s.set w (-rest * y)
    | none => if -rest = 0 then .ok s else .error (.mismatch (.gateWire (-rest).val w))
  | .constant sum => if sum = 0 then .ok s else .error (.mismatch (.gateSum sum.val))

namespace Gate

/-- The product of a coefficient and a wire; the reserved zero does not read the wire. -/
def part (c : CoeffPool p) (s : Assignment p) (q : Nat) (w : Wire) : Except Fault (Fp p) :=
  Term.value c s ⟨q, w⟩

/-- The factor that the product term puts on one of its wires, given the other. -/
def cofactor (c : CoeffPool p) (s : Assignment p) (g : Gate) (other : Wire) :
    Except Fault (Fp p) :=
  if g.qM = 0 then .ok 0 else part c s g.qM other

/-- The product term `qM⋅(xa⋅xb)`. -/
def product (c : CoeffPool p) (s : Assignment p) (g : Gate) : Except Fault (Fp p) :=
  if g.qM = 0 then
    .ok 0
  else
    return (← part c s g.qM g.xa) * (← part c s 1 g.xb)

/-- Whether the left wire takes part and has no value. -/
def unknownA (s : Assignment p) (g : Gate) : Bool := g.usesA && !s.isSolved g.xa

/-- Whether the right wire takes part and has no value. -/
def unknownB (s : Assignment p) (g : Gate) : Bool := g.usesB && !s.isSolved g.xb

/-- Whether the output wire takes part and has no value. -/
def unknownC (s : Assignment p) (g : Gate) : Bool := g.usesC && !s.isSolved g.xc

/-- The number of wires the gate would have to solve. -/
def unknowns (s : Assignment p) (g : Gate) : Nat :=
  (g.unknownA s).toNat + (g.unknownB s).toNat + (g.unknownC s).toNat

/-- The gate with the values of its known wires put in, as an equation in the wire that is left.
It is only looked at for a gate with one unknown wire at most. -/
def equation (c : CoeffPool p) (s : Assignment p) (g : Gate) : Except Fault (Equation p) := do
  let qC ← c.fetch g.qC
  if g.unknownA s then
    let qL ← c.fetch g.qL
    let scale := qL + (← g.cofactor c s g.xb)
    let rest := (← part c s g.qR g.xb) + (← part c s g.qO g.xc) + qC
    return .linear g.xa scale rest
  else if g.unknownB s then
    let qR ← c.fetch g.qR
    let scale := qR + (← g.cofactor c s g.xa)
    let rest := (← part c s g.qL g.xa) + (← part c s g.qO g.xc) + qC
    return .linear g.xb scale rest
  else if g.unknownC s then
    let scale ← c.fetch g.qO
    let rest :=
      (← part c s g.qL g.xa) + (← part c s g.qR g.xb) + (← g.product c s) + qC
    return .linear g.xc scale rest
  else
    let sum :=
      (← part c s g.qL g.xa) + (← part c s g.qR g.xb) + (← part c s g.qO g.xc)
        + (← g.product c s) + qC
    return .constant sum

/-- Solves the unknown wire of the gate that is constraint number `k`, if there is one, and
checks the gate otherwise. -/
def solve (c : CoeffPool p) (s : Assignment p) (k : Nat) (g : Gate) :
    Except Refusal (Assignment p) := do
  if 1 < g.unknowns s then
    throw (.fault (.manyUnknowns k))
  (← g.equation c s).settle s

end Gate

end WireSolve
