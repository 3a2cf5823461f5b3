/-
WireSolve/IndexedSourceMap.lean

A source map with an index beside its functions.

`SourceMap.internFunction` looks for a function among the functions.  An index spares
the search: it has the position of every function that was recorded, as a 32-bit word.
The functions and the index are updated each on its own, and locations get their numbers
as words too.
-/
import Std.Data.HashMap
import WireSolve.SourceMap

namespace WireSolve

instance : Hashable SourceFunction := ⟨fun f => mixHash (hash f.name) (hash f.file)⟩

/-- Functions and locations by position, and positions by function. -/
structure IndexedSourceMap where
  /-- The functions and the locations. -/
  source : SourceMap := {}
  /-- The position of each function. -/
  index : Std.HashMap SourceFunction UInt32 := ∅

namespace IndexedSourceMap

/-- The position of a function, which is appended and indexed if it is not in the index. -/
def internFunction (m : IndexedSourceMap) (f : SourceFunction) : IndexedSourceMap × UInt32 :=
  match m.index[f]? with
  | some i => (m, i)
  | none =>
    let i := UInt32.ofNat m.source.functions.size
    (⟨{ m.source with functions := m.source.functions.push f }, m.index.insert f i⟩, i)

/-- Records a line of a function. -/
def record (m : IndexedSourceMap) (l : SourceLine) : IndexedSourceMap × UInt32 :=
  let (m, function) := m.internFunction l.function
  let locations := m.source.locations.push ⟨function.toNat, l.line⟩
  ({ m with source := { m.source with locations := locations } },
    UInt32.ofNat m.source.locations.size)

/-- Records lines one by one, and says which numbers they were given. -/
def recordAll (lines : List SourceLine) : IndexedSourceMap × List UInt32 :=
  lines.foldl (fun (m, ids) l => ((m.record l).1, ids ++ [(m.record l).2])) ({}, [])

end IndexedSourceMap

end WireSolve
