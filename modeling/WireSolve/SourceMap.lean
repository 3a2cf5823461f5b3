/-
WireSolve/SourceMap.lean

Where the parts of a circuit come from: functions, and lines in them.  A location
is named by its position; a stack of locations is rendered innermost first, one
frame for each location that is known.
-/
namespace WireSolve

/-- A function of the program that described the circuit. -/
structure SourceFunction where
  /-- The function's name. -/
  name : String
  /-- The file it is in. -/
  file : String
  deriving DecidableEq, Repr

/-- A line of a function. -/
structure Location where
  /-- Position of the function. -/
  function : Nat
  /-- Line number. -/
  line : Nat
  deriving DecidableEq, Repr

/-- A line of a function, as it is recorded. -/
structure SourceLine where
  /-- The function. -/
  function : SourceFunction
  /-- Line number. -/
  line : Nat
  deriving DecidableEq, Repr

/-- Functions and locations, by position. -/
structure SourceMap where
  /-- The functions. -/
  functions : Array SourceFunction := #[]
  /-- The locations. -/
  locations : Array Location := #[]
  deriving DecidableEq, Repr

namespace SourceMap

/-- The text of a frame: the function, then the file and the line on a line of their own. -/
def frame (f : SourceFunction) (line : Nat) : String :=
  f.name ++ "\n\t" ++ f.file ++ ":" ++ toString line ++ "\n"

/-- The frame of a location, if the location and its function are known. -/
def frame? (m : SourceMap) (id : Nat) : Option String := do
  let location ← m.locations[id]?
  let function ← m.functions[location.function]?
  return frame function location.line

/-- The frames of the locations that are known, in order. -/
def renderStack (m : SourceMap) (stack : List Nat) : String :=
  String.join (stack.filterMap m.frame?)

/-- The position of a function, which is appended if it is new. -/
def internFunction (m : SourceMap) (f : SourceFunction) : SourceMap × Nat :=
  match m.functions.findIdx? (· == f) with
  | some i => (m, i)
  | none => ({ m with functions := m.functions.push f }, m.functions.size)

/-- Appends a location and returns its position. -/
def addLocation (m : SourceMap) (name file : String) (line : Nat) : SourceMap × Nat :=
  let (m, function) := m.internFunction ⟨name, file⟩
  ({ m with locations := m.locations.push ⟨function, line⟩ }, m.locations.size)

/-- Records a line. -/
def record (m : SourceMap) (l : SourceLine) : SourceMap × Nat :=
  m.addLocation l.function.name l.function.file l.line

end SourceMap

end WireSolve
