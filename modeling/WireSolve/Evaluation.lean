/-
WireSolve/Evaluation.lean

Terms and linear combinations read against a partial assignment.

The reserved coefficients are dispatched on by position, without a look into the
pool: zero skips the term (and does not read its wire), one, two and minus one
become the value, its double and its negation.  Every other coefficient is looked
up after the wire has been read, so an unsolved wire is reported before a
coefficient out of range.

A running sum is handed on as a value (`Term.addTo`), which is how combinations are
summed up, or updated in place (`Term.accumulate`), where it can be seen what is left
of it when a term has no value.
-/
import WireSolve.CoeffPool
import WireSolve.Assignment

namespace WireSolve

variable {p : Nat} [Modulus p]

/-- The coefficient at a position, or the fault of a position out of range. -/
def CoeffPool.fetch (c : CoeffPool p) (i : Nat) : Except Fault (Fp p) :=
  match c.get? i with
  | some x => .ok x
  | none => .error (.coeffOutOfRange i)

namespace Term

/-- The value of a term. -/
def value (c : CoeffPool p) (s : Assignment p) (t : Term) : Except Fault (Fp p) :=
  if t.isConstant then
    c.fetch t.coeff
  else if t.coeff = 0 then
    .ok 0
  else
    match s.get? t.wire with
    | none => .error (.unsolvedWire t.wire)
    | some x =>
      match t.coeff with
      | 1 => .ok x
      | 2 => .ok (x + x)
      | 3 => .ok (-x)
      | i => return x * (← c.fetch i)

/-- Adds the value of a term to a running sum. -/
def addTo (c : CoeffPool p) (s : Assignment p) (t : Term) (acc : Fp p) : Except Fault (Fp p) :=
  if t.isConstant then
    return acc + (← c.fetch t.coeff)
  else if t.coeff = 0 then
    .ok acc
  else
    match s.get? t.wire with
    | none => .error (.unsolvedWire t.wire)
    | some x =>
      match t.coeff with
      | 1 => .ok (acc + x)
      | 2 => .ok (acc + x + x)
      | 3 => .ok (acc - x)
      | i => return acc + x * (← c.fetch i)

/-- Adds the value of a term to a running sum in place: the sum is the state.  The coefficient two
is added in two steps. -/
def accumulate (c : CoeffPool p) (s : Assignment p) (t : Term) : EStateM Fault (Fp p) Unit := do
  if t.isConstant then
    let q ← ofExcept (c.fetch t.coeff)
    modify (· + q)
  else if t.coeff ≠ 0 then
    match s.get? t.wire with
    | none => throw (.unsolvedWire t.wire)
    | some x =>
      match t.coeff with
      | 1 => modify (· + x)
      | 2 =>
        modify (· + x)
        modify (· + x)
      | 3 => modify (· - x)
      | i =>
        let q ← ofExcept (c.fetch i)
        modify (· + x * q)

end Term

/-- The sum of the terms of a linear combination. -/
def LinComb.value (c : CoeffPool p) (s : Assignment p) (e : LinComb) : Except Fault (Fp p) :=
  e.foldlM (fun acc t => t.addTo c s acc) 0

/-- A value divided by the coefficient at a position. -/
def CoeffPool.divide (c : CoeffPool p) (x : Fp p) : Nat → Except Fault (Fp p)
  | 0 => .error .zeroDivisor
  | 1 => .ok x
  | 3 => .ok (-x)
  | i => do
    match (← c.fetch i).inverse? with
    | some y => return x * y
    | none => .error .zeroDivisor

end WireSolve
