/-
WireSolve/Circuit/RangeCheck.lean

A range check by bits.

A hint splits a wire into `n` bits, and a constraint in the next level asks that the
bits, weighed by the powers of two, add up to the wire.  The powers are coefficients,
so they are taken modulo the order of the field, and several of them may share a
position in the pool.
-/
import WireSolve.Circuit.Draft

namespace WireSolve

namespace Draft

variable {p : Nat} [Modulus p]

/-- Terms of the given wires, weighed by the powers of two from exponent `i` on. -/
def weigh (d : Draft p) (i : Nat) : List Wire → Draft p × LinComb
  | [] => (d, [])
  | w :: rest =>
    let (d, t) := d.term (Fp.ofNat (2 ^ i)) w
    let (d, e) := d.weigh (i + 1) rest
    (d, t :: e)

/-- Splits a wire into `n` bits in the open level, and closes the level. -/
def splitBits (d : Draft p) (x : Wire) (n : Nat) : Draft p × List Wire :=
  let (d, bits) := d.hint "witness_solver::hint::n_bits" [[⟨1, x⟩]] n
  (d.nextLevel, bits)

/-- Splits a wire into `n` bits, and asks in the next level that they add up to it. -/
def checkRange (d : Draft p) (x : Wire) (n : Nat) : Draft p :=
  let (d, bits) := d.splitBits x n
  let (d, sum) := d.weigh 0 bits
  (d.constrain (.rank1 ⟨sum, [Term.constant 1], [⟨1, x⟩]⟩)).1

end Draft

/-- The circuit that checks the range of its only input, which is secret. -/
def rangeCheck (p n : Nat) [Modulus p] : Circuit p :=
  ((Draft.start .rank1 0 1).checkRange (Wire.atPosition 1) n).finish

example (p : Nat) [Modulus p] :
    (Draft.start .rank1 0 1 : Draft p).secretInput 0 = .ok (Wire.atPosition 1) := rfl

end WireSolve
