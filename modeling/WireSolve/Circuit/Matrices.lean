/-
WireSolve/Circuit/Matrices.lean

The rank-1 constraints of a circuit as three matrices over its wires.

Row `i` belongs to constraint `i`; a constraint of another kind has an empty row.
A constant term goes to column 0, the constant-one wire.  Coefficients are looked
up before any column is checked.
-/
import WireSolve.Circuit.Basic
import WireSolve.Csr

namespace WireSolve

namespace Circuit

variable {p : Nat} [Modulus p]

/-- The column and the value of a term. -/
def matrixEntry (c : Circuit p) (t : Term) : Except MatrixError (Nat × Fp p) :=
  match c.pool.get? t.coeff with
  | some x => .ok (if t.isConstant then 0 else t.wire.toNat, x)
  | none => .error .coeffOutOfRange

/-- The matrix that holds one side of every rank-1 constraint, row by row. -/
def matrixRows (c : Circuit p) (side : Rank1 → LinComb) :
    Except MatrixError (List (List (Nat × Fp p))) :=
  c.constraints.toList.mapM fun
    | .rank1 r => (side r).mapM c.matrixEntry
    | _ => .ok []

/-- The matrices of the circuit's rank-1 constraints. -/
def matrices (c : Circuit p) : Except MatrixError (Rank1Matrices p) := do
  let left ← c.matrixRows Rank1.left
  let right ← c.matrixRows Rank1.right
  let out ← c.matrixRows Rank1.out
  return {
    a := ← CsrMatrix.ofRows left c.wireCount
    b := ← CsrMatrix.ofRows right c.wireCount
    c := ← CsrMatrix.ofRows out c.wireCount }

end Circuit

end WireSolve
