/-
WireSolve/IndexedPool.lean

A pool of coefficients with an index beside its entries.

`CoeffPool.insert` looks for a coefficient among the entries.  An index spares the
search: it has the position of every coefficient, as a 32-bit word, which is the id of
the coefficient.  The entries and the index are updated each on its own.  A reserved
coefficient is appended whatever the entries hold, and indexed unless it is in the
index, so where two of them coincide the index has the earlier position.  The id of a
position past the largest word is that of an earlier one.
-/
import Std.Data.HashMap
import WireSolve.CoeffPool

namespace WireSolve

instance {p : Nat} : Hashable (Fp p) := ⟨fun a => hash a.val⟩

/-- Coefficients by position, and positions by coefficient. -/
structure IndexedPool (p : Nat) where
  /-- The coefficients by position. -/
  entries : Array (Fp p)
  /-- The id of each coefficient. -/
  index : Std.HashMap (Fp p) UInt32

namespace IndexedPool

variable {p : Nat}

/-- The pool without coefficients. -/
def empty : IndexedPool p := ⟨#[], ∅⟩

/-- The position after the last, as a word. -/
def next (t : IndexedPool p) : UInt32 := UInt32.ofNat t.entries.size

/-- Appends a coefficient, and indexes it unless it is in the index. -/
def reserve (t : IndexedPool p) (x : Fp p) : IndexedPool p where
  entries := t.entries.push x
  index := t.index.insertIfNew x t.next

/-- The pool of the reserved coefficients alone. -/
def initial [Modulus p] : IndexedPool p := (reservedCoeffs p).foldl reserve empty

/-- The coefficient with an id, if there is one. -/
def get? (t : IndexedPool p) (i : UInt32) : Option (Fp p) := t.entries[i.toNat]?

/-- The id of a coefficient, and the pool that has it. -/
def insert (t : IndexedPool p) (x : Fp p) : IndexedPool p × UInt32 :=
  match t.index[x]? with
  | some i => (t, i)
  | none => (⟨t.entries.push x, t.index.insert x t.next⟩, t.next)

/-- The pool after coefficients are inserted one by one. -/
def insertAll (t : IndexedPool p) (xs : List (Fp p)) : IndexedPool p :=
  xs.foldl (fun t x => (t.insert x).1) t

end IndexedPool

end WireSolve
