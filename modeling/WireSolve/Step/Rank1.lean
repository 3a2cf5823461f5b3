/-
WireSolve/Step/Rank1.lean

One rank-1 constraint `left * right = out` processed against a partial
assignment.

The three sides are summed over the terms whose wires are known, and at most one
term may be left over.  `Sides.missing` says what that term has to contribute for
the constraint to hold: in a factor this is a quotient by the other factor, and
when the other factor is zero the term cannot matter, so its wire stays free and
the constraint is only checked.  Otherwise the contribution is divided by the
term's coefficient and the wire gets its value.
-/
import WireSolve.Evaluation

namespace WireSolve

variable {p : Nat} [Modulus p]

/-! ### The evaluated sides -/

/-- The side of a constraint that a term stands on. -/
inductive Side where
  | left
  | right
  | out
  deriving DecidableEq, Repr

/-- The evaluated sides of a rank-1 constraint. -/
structure Sides (p : Nat) where
  /-- Left factor. -/
  left : Fp p
  /-- Right factor. -/
  right : Fp p
  /-- Output. -/
  out : Fp p
  deriving DecidableEq

namespace Sides

/-- Sides that are all zero. -/
def zero : Sides p := ⟨0, 0, 0⟩

/-- Whether the product of the factors is the output. -/
def balanced (x : Sides p) : Bool := x.left * x.right == x.out

/-- What a term left out of one side has to contribute, if the other sides decide it. -/
def missing (x : Sides p) : Side → Option (Fp p)
  | .left => if x.right = 0 then none else some (x.out / x.right - x.left)
  | .right => if x.left = 0 then none else some (x.out / x.left - x.right)
  | .out => some (x.left * x.right - x.out)

/-- Adds a contribution to one side. -/
def add (x : Sides p) (side : Side) (y : Fp p) : Sides p :=
  match side with
  | .left => { x with left := x.left + y }
  | .right => { x with right := x.right + y }
  | .out => { x with out := x.out + y }

end Sides

/-! ### Processing a constraint -/

namespace Rank1

/-- Sums the known terms of one side and remembers the term whose wire is unknown; a second
such term, on this side or an earlier one, is a fault. -/
def scanSide (c : CoeffPool p) (s : Assignment p) (k : Nat) (side : Side) :
    LinComb → Fp p → Option (Side × Term) → Except Fault (Fp p × Option (Side × Term))
  | [], acc, unknown => .ok (acc, unknown)
  | t :: rest, acc, unknown =>
    if t.isConstant || s.isSolved t.wire then do
      scanSide c s k side rest (← t.addTo c s acc) unknown
    else
      -- a term scaled by zero counts too: its wire has no value either
      match unknown with
      | none => scanSide c s k side rest acc (some (side, t))
      | some _ => .error (.manyUnknowns k)

/-- The known part of each side, and the unknown term if there is one. -/
def scan (c : CoeffPool p) (s : Assignment p) (k : Nat) (r : Rank1) :
    Except Fault (Sides p × Option (Side × Term)) := do
  let (left, unknown) ← scanSide c s k .left r.left 0 none
  let (right, unknown) ← scanSide c s k .right r.right 0 unknown
  let (out, unknown) ← scanSide c s k .out r.out 0 unknown
  return (⟨left, right, out⟩, unknown)

/-- Accepts sides that are balanced. -/
def check (x : Sides p) : Except Refusal Unit :=
  if x.balanced then .ok () else .error (.mismatch (.product x.left.val x.right.val x.out.val))

/-- Solves the unknown wire of constraint number `k`, if there is one, and checks the
constraint otherwise.  Returns the assignment reached and the evaluated sides. -/
def solve (c : CoeffPool p) (s : Assignment p) (k : Nat) (r : Rank1) :
    Except Refusal (Assignment p × Sides p) := do
  let (x, unknown) ← r.scan c s k
  match unknown with
  | none =>
    check x
    return (s, x)
  | some (side, t) =>
    match x.missing side with
    | none =>
      check x
      return (s, x)
    | some y =>
      -- the contribution is the coefficient times the value of the wire
      let s ← s.set t.wire (← c.divide y t.coeff)
      return (s, x.add side y)

end Rank1

end WireSolve
