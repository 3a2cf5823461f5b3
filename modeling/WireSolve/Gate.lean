/-
WireSolve/Gate.lean

The arithmetic gate `qL⋅xa + qR⋅xb + qO⋅xc + qM⋅(xa⋅xb) + qC = 0`.

Selectors are positions in the coefficient pool.  A wire takes part in the gate
when one of its selectors is not the reserved zero; the other wires are never
read, whatever they are.
-/
import WireSolve.Linear

namespace WireSolve

/-- An arithmetic gate over three wires. -/
structure Gate where
  /-- Left wire. -/
  xa : Wire
  /-- Right wire. -/
  xb : Wire
  /-- Output wire. -/
  xc : Wire
  /-- Selector of the left wire. -/
  qL : Nat
  /-- Selector of the right wire. -/
  qR : Nat
  /-- Selector of the output wire. -/
  qO : Nat
  /-- Selector of the product of the left and the right wire. -/
  qM : Nat
  /-- The constant. -/
  qC : Nat
  deriving DecidableEq, Repr

namespace Gate

/-- Whether the left wire takes part. -/
def usesA (g : Gate) : Bool := g.qL != 0 || g.qM != 0

/-- Whether the right wire takes part. -/
def usesB (g : Gate) : Bool := g.qR != 0 || g.qM != 0

/-- Whether the output wire takes part. -/
def usesC (g : Gate) : Bool := g.qO != 0

end Gate

end WireSolve
