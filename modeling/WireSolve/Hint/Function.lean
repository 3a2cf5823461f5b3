/-
WireSolve/Hint/Function.lean

What a hint function is: a computation on natural numbers that fills a fixed
number of outputs from its inputs, with the modulus of the field at hand.  The
outputs arrive with values (zeros, in a solve) and a function may leave them
alone.

Remainders and inverses are the two operations that some moduli do not have.
They are checked here, so that a hint that is called with such a modulus fails
with a cause of its own and not with a made-up number.
-/
import WireSolve.Field

namespace WireSolve

/-- Why a hint function gives no outputs. -/
inductive HintError where
  /-- The function refuses its inputs. -/
  | refused (reason : String)
  /-- A remainder modulo zero. -/
  | zeroModulus
  /-- An inverse modulo a number below two. -/
  | smallModulus
  deriving DecidableEq, Repr

/-- The wording of a hint error. -/
def HintError.message : HintError → String
  | .refused reason => reason
  | .zeroModulus => "remainder modulo zero"
  | .smallModulus => "inverse modulo a number below two"

/-- A function that fills `n` outputs from a list of inputs. -/
structure HintFunction where
  /-- Computes the outputs from the modulus, the inputs and what the outputs hold before. -/
  call : (modulus : Nat) → (inputs : List Nat) → {n : Nat} → Vector Nat n →
    Except HintError (Vector Nat n)

namespace HintFunction

/-- The remainder modulo a number other than zero. -/
def remainder (modulus a : Nat) : Except HintError Nat :=
  if modulus = 0 then .error .zeroModulus else .ok (a % modulus)

/-- The power with exponent `modulus - 2`: the inverse of `a` when the modulus is a prime that
does not divide `a`. -/
def inverse (modulus a : Nat) : Except HintError Nat :=
  if modulus < 2 then .error .smallModulus else .ok (powMod modulus a (modulus - 2))

end HintFunction

end WireSolve
