/-
WireSolve/Hint/Table.lean

The hint functions at hand, by number.  A number is bound to one function: a
later binding takes the place of an earlier one.  Listing goes in the order of
the numbers.
-/
import Std.Data.TreeMap
import WireSolve.Hint.Builtin
import WireSolve.Hint.Id
import WireSolve.Text.Quoted

namespace WireSolve

/-- A hint function with the name that diagnostics show. -/
structure NamedHint where
  /-- The name. -/
  name : String
  /-- The function. -/
  function : HintFunction

/-- The text that stands for a named hint where the function itself cannot be shown. -/
def NamedHint.text (h : NamedHint) : String :=
  "RegisteredHint \x7b name: " ++ Quoted.encode h.name ++ ", .. \x7d"

/-- Hint functions bound to numbers. -/
structure HintTable where
  /-- The bindings. -/
  entries : Std.TreeMap HintId NamedHint

namespace HintTable

/-- The table without bindings. -/
def empty : HintTable := ⟨∅⟩

/-- Binds a number to a function. -/
def insert (t : HintTable) (id : HintId) (name : String) (f : HintFunction) : HintTable :=
  ⟨t.entries.insert id ⟨name, f⟩⟩

/-- Binds the number that belongs to a name. -/
def register (t : HintTable) (name : String) (f : HintFunction) : HintTable :=
  t.insert (HintId.ofName name) name f

/-- Binds the functions that every solve knows. -/
def addBuiltins (t : HintTable) : HintTable :=
  HintFunction.builtins.foldl (fun t (name, f) => t.register name f) t

/-- The table of the functions that every solve knows. -/
def builtins : HintTable := empty.addBuiltins

/-- The function bound to a number, with its name. -/
def get? (t : HintTable) (id : HintId) : Option NamedHint := t.entries[id]?

/-- A name that is registered is found, and the others stay as they are. -/
theorem get?_register (t : HintTable) (name : String) (f : HintFunction) (id : HintId) :
    (t.register name f).get? id =
      if id = HintId.ofName name then some ⟨name, f⟩ else t.get? id := by
  show (t.entries.insert (HintId.ofName name) ⟨name, f⟩)[id]? = _
  rw [Std.TreeMap.getElem?_insert]
  exact ite_congr (propext (Std.LawfulEqCmp.compare_eq_iff_eq.trans eq_comm)) (fun _ => rfl)
    fun _ => rfl

/-- Whether a number is bound. -/
def contains (t : HintTable) (id : HintId) : Bool := t.entries.contains id

/-- The bindings, in the order of the numbers. -/
def toList (t : HintTable) : List (HintId × NamedHint) := t.entries.toList

/-- The number of bindings. -/
def size (t : HintTable) : Nat := t.entries.size

/-- Whether nothing is bound. -/
def isEmpty (t : HintTable) : Bool := t.entries.isEmpty

/-- Binds everything that another table binds. -/
def merge (t u : HintTable) : HintTable :=
  u.toList.foldl (fun t (id, h) => t.insert id h.name h.function) t

end HintTable

end WireSolve
