/-
WireSolve/Linear.lean

Wires, terms, linear combinations and rank-1 constraints, as data and as text.

A wire is a 32-bit word and the largest word is not a wire: a term that carries
it is a bare coefficient.  Coefficients are named by their position in a pool
(`WireSolve/CoeffPool.lean`), so the text of a term shows two numbers,
`c_4·v_7`, or one, `c_4`, when it is constant.
-/
namespace WireSolve

/-- The number of a wire. -/
abbrev Wire := UInt32

namespace Wire

/-- The word that marks a term as constant. -/
def constantTag : Wire := 4294967295

/-- The wire at a position of the layout; positions from `2 ^ 32` on wrap around. -/
def atPosition (n : Nat) : Wire := UInt32.ofNat n

end Wire

/-- A number of wires, or a position in their layout.  It is a 64-bit word, so a sum that is too
large wraps around. -/
abbrev Count := UInt64

/-! ### Terms -/

/-- A coefficient times a wire, or a bare coefficient. -/
structure Term where
  /-- Position of the coefficient in the pool. -/
  coeff : Nat
  /-- The wire, or the tag of constants. -/
  wire : Wire
  deriving DecidableEq, Repr

namespace Term

/-- The term that contributes its coefficient whatever the wires hold. -/
def constant (coeff : Nat) : Term := ⟨coeff, Wire.constantTag⟩

/-- Whether the term ignores the wires. -/
def isConstant (t : Term) : Bool := t.wire == Wire.constantTag

/-- The text of a term: `c_` and the coefficient, then `·v_` and the wire unless it is constant. -/
def text (t : Term) : String :=
  if t.isConstant then s!"c_{t.coeff}" else s!"c_{t.coeff}·v_{t.wire.toNat}"

end Term

/-! ### Linear combinations -/

/-- A sum of terms, in order. -/
abbrev LinComb := List Term

/-- The terms joined by plus signs; the empty sum reads `0`. -/
def LinComb.text (e : LinComb) : String :=
  if e.isEmpty then "0" else " + ".intercalate (e.map Term.text)

/-! ### Rank-1 constraints -/

/-- The constraint `left * right = out`. -/
structure Rank1 where
  /-- Left factor. -/
  left : LinComb
  /-- Right factor. -/
  right : LinComb
  /-- Output. -/
  out : LinComb
  deriving DecidableEq, Repr

/-- The text of a constraint: the factors in brackets, then the output. -/
def Rank1.text (r : Rank1) : String :=
  "(" ++ LinComb.text r.left ++ ") ⋅ (" ++ LinComb.text r.right ++ ") == " ++ LinComb.text r.out

end WireSolve
