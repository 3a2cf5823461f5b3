/-
WireSolve/Options.lean

What a solve can be told: how many workers to count on, which hint functions are
at hand, and whether log notes are rendered.
-/
import WireSolve.Hint.Table

namespace WireSolve

/-- The options of a solve. -/
structure Options where
  /-- The number of workers. -/
  workers : Nat
  /-- The hint functions at hand. -/
  hints : HintTable
  /-- Whether log notes are rendered. -/
  logs : Bool

/-- The notice that a binding took the place of an earlier one. -/
structure Rebinding where
  /-- The number that was bound before. -/
  id : HintId
  /-- The name it is bound under now. -/
  name : String
  deriving DecidableEq, Repr

/-- The wording of the notice. -/
def Rebinding.message : String := "hint function registered twice, keeping the last one"

namespace Options

/-- One worker, the functions that every solve knows, and log notes rendered. -/
def initial : Options := ⟨1, HintTable.builtins, true⟩

/-- Sets the number of workers; there is always one. -/
def withWorkers (o : Options) (n : Nat) : Options := { o with workers := max n 1 }

/-- Turns the rendering of log notes on or off. -/
def withLogs (o : Options) (on : Bool) : Options := { o with logs := on }

/-- Binds the number of a name to a function, with a notice if it was bound before. -/
def withHint (o : Options) (name : String) (f : HintFunction) : Options × Option Rebinding :=
  let id := HintId.ofName name
  ({ o with hints := o.hints.insert id name f },
    if o.hints.contains id then some ⟨id, name⟩ else none)

/-- Binds everything that a table binds. -/
def withHints (o : Options) (t : HintTable) : Options := { o with hints := o.hints.merge t }

/-- Binds a number to another function under the name it has; a number that was not bound is
named by its digits. -/
def overrideHint (o : Options) (id : HintId) (f : HintFunction) : Options :=
  let name := match o.hints.get? id with
    | some h => h.name
    | none => id.text
  { o with hints := o.hints.insert id name f }

end Options

end WireSolve
