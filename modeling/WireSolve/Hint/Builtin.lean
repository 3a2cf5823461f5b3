/-
WireSolve/Hint/Builtin.lean

The four hint functions that every solve knows: zero test, inverse, bits and
quotient.  Each checks how many inputs it is given, and all but `nBits` how many
outputs are asked for.
-/
import WireSolve.Hint.Function

namespace WireSolve

namespace HintFunction

/-- The refusal of a call with the wrong number of inputs or outputs. -/
def arity (name : String) (inputs outputs expected : Nat) : HintError :=
  .refused s!"{name}: got {inputs} input(s) and {outputs} output(s), expected {expected} input(s)"

/-- One if the input is zero, and zero otherwise. -/
def isZero : HintFunction where
  call _ inputs n _ :=
    match inputs, decide (n = 1) with
    | [a], true => .ok (Vector.replicate n (if a = 0 then 1 else 0))
    | _, _ => .error (arity "is_zero" inputs.length n 1)

/-- The inverse of the input; a multiple of the modulus leaves the output alone. -/
def invZero : HintFunction where
  call modulus inputs n outputs :=
    match inputs, decide (n = 1) with
    | [a], true => do
      let r ← remainder modulus a
      if r = 0 then return outputs
      return Vector.replicate n (← inverse modulus r)
    | _, _ => .error (arity "inv_zero" inputs.length n 1)

/-- The bits of the input, least significant first, as many as there are outputs. -/
def nBits : HintFunction where
  call _ inputs n _ :=
    match inputs with
    | [a] => .ok (Vector.ofFn fun i : Fin n => (a.testBit i).toNat)
    | _ => .error (arity "n_bits" inputs.length n 1)

/-- The first input divided by the second; a divisor that is a multiple of the modulus leaves
the output alone. -/
def div : HintFunction where
  call modulus inputs n outputs :=
    match inputs, decide (n = 1) with
    | [a, b], true => do
      let r ← remainder modulus b
      if r = 0 then return outputs
      return Vector.replicate n (← remainder modulus (a * (← inverse modulus r)))
    | _, _ => .error (arity "div" inputs.length n 2)

/-- The functions that every solve knows, with their names. -/
def builtins : List (String × HintFunction) :=
  [("witness_solver::hint::is_zero", isZero),
   ("witness_solver::hint::inv_zero", invZero),
   ("witness_solver::hint::n_bits", nBits),
   ("witness_solver::hint::div", div)]

end HintFunction

end WireSolve
