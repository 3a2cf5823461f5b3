/-
WireSolve/Note.lean

Notes: messages about a circuit that show the values of linear combinations.

A combination is shown as the decimal text of its value, or as a mark when it has
none: because one of its wires is unsolved (even one that is scaled by zero), or
because a coefficient is out of range.  The rendered stack, if the note has one,
is one more value for the template.
-/
import WireSolve.Evaluation
import WireSolve.SourceMap
import WireSolve.Text.Template

namespace WireSolve

/-- A template with the combinations that fill it. -/
structure Note where
  /-- Where the note was made. -/
  caller : String := ""
  /-- The template. -/
  format : String
  /-- The combinations, in the order of the placeholders. -/
  exprs : List LinComb := []
  /-- The locations the note shows, innermost first. -/
  stack : List Nat := []
  deriving DecidableEq, Repr

variable {p : Nat} [Modulus p]

/-- What stands for a combination without a value. -/
def unsolvedMark : String := "<unsolved>"

/-- The text of a combination: the decimal text of its value, or the mark. -/
def LinComb.render (c : CoeffPool p) (s : Assignment p) (e : LinComb) : String :=
  if e.any fun t => !t.isConstant && !s.isSolved t.wire then
    unsolvedMark
  else
    match LinComb.value c s e with
    | .ok x => x.text
    | .error _ => unsolvedMark

/-- The text of a note at an assignment. -/
def Note.render (c : CoeffPool p) (m : SourceMap) (s : Assignment p) (n : Note) : String :=
  let frames := if n.stack.isEmpty then [] else [m.renderStack n.stack]
  Template.fill n.format (n.exprs.map (LinComb.render c s) ++ frames)

end WireSolve
