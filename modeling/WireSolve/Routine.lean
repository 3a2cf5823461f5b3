/-
WireSolve/Routine.lean

Custom constraints: programs that see the assignment only through queries.

A routine is a tree.  It either stops with a verdict or asks a query and goes on
with the answer; the type of the answer depends on the query.  The only query
that changes anything is `assign`, and it is subject to the same refusal as every
other write.
-/
import WireSolve.Evaluation

namespace WireSolve

/-- What a routine may ask. -/
inductive Query (p : Nat) where
  /-- The product of a coefficient and a wire. -/
  | scaled (coeff : Nat) (wire : Wire)
  /-- A coefficient. -/
  | coeff (i : Nat)
  /-- To give a wire its value. -/
  | assign (wire : Wire) (value : Fp p)
  /-- Whether a wire has a value. -/
  | isSolved (wire : Wire)
  /-- The value of a linear combination. -/
  | eval (e : LinComb)

namespace Query

/-- The answers to a query. -/
abbrev Reply {p : Nat} : Query p → Type
  | scaled _ _ => Except Fault (Fp p)
  | coeff _ => Except Fault (Fp p)
  | assign _ _ => Except Fault Unit
  | isSolved _ => Bool
  | eval _ => Except Fault (Fp p)

variable {p : Nat} [Modulus p]

/-- The answer to a query, and the assignment after it. -/
def answer (c : CoeffPool p) (s : Assignment p) : (q : Query p) → q.Reply × Assignment p
  | scaled i w => (Term.value c s ⟨i, w⟩, s)
  | coeff i => (c.fetch i, s)
  | assign w x =>
    match s.set w x with
    | .ok s => (.ok (), s)
    | .error f => (.error f, s)
  | isSolved w => (s.isSolved w, s)
  | eval e => (LinComb.value c s e, s)

end Query

/-- A custom constraint at work. -/
inductive Routine (p : Nat) where
  /-- Stops with a verdict. -/
  | done (verdict : Except Failure Unit)
  /-- Asks a query and goes on with its answer. -/
  | ask (q : Query p) (next : q.Reply → Routine p)

end WireSolve
