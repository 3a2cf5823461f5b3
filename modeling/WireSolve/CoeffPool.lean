/-
WireSolve/CoeffPool.lean

The coefficients that the terms of a circuit share, each stored once.

Positions 0 to 3 are reserved for `0`, `1`, `2` and `-1`, so that arithmetic can
recognise those four by position.  A coefficient that is inserted goes to the
first position that already holds it, and to a new one at the end otherwise:
an entry past the reserved ones therefore differs from every entry before it
(`fresh`).  In the field of order three `2` and `-1` coincide, and then the
earlier of the two positions is the one that is found.

What an insertion gives is a 32-bit word.  A pool with more entries than there are
words has positions that wrap around (`CoeffPool.number`), and the words that are
given for them are those of earlier positions.
-/
import WireSolve.Field

namespace WireSolve

/-- The coefficients with a reserved position, in order. -/
def reservedCoeffs (p : Nat) [Modulus p] : List (Fp p) := [0, 1, 1 + 1, -1]

/-- A pool of coefficients, addressed by position. -/
structure CoeffPool (p : Nat) [Modulus p] where
  /-- The coefficients by position. -/
  entries : Array (Fp p)
  /-- The first four positions are the reserved ones. -/
  reserved : entries.toList.take 4 = reservedCoeffs p
  /-- An entry past the reserved ones differs from every entry before it. -/
  fresh : ∀ i j (hij : i < j) (hj : j < entries.size), 4 ≤ j → entries[i] ≠ entries[j]

namespace CoeffPool

variable {p : Nat} [Modulus p]

/-- The pool of the reserved coefficients alone. -/
def initial : CoeffPool p where
  entries := (reservedCoeffs p).toArray
  reserved := rfl
  fresh := by
    intro i j _ hj h4
    simp [reservedCoeffs] at hj
    omega

instance : Inhabited (CoeffPool p) := ⟨initial⟩

/-- The number of coefficients, the reserved ones included. -/
def size (c : CoeffPool p) : Nat := c.entries.size

/-- The coefficient at a position, if there is one. -/
def get? (c : CoeffPool p) (i : Nat) : Option (Fp p) := c.entries[i]?

/-- The first position that holds a coefficient. -/
def find? (c : CoeffPool p) (x : Fp p) : Option Nat := c.entries.findIdx? (· == x)

/-- The reserved entries are there. -/
theorem four_le_size (c : CoeffPool p) : 4 ≤ c.entries.size := by
  have h : min 4 c.entries.size = 4 := by
    rw [← Array.length_toList, ← List.length_take, c.reserved]
    rfl
  omega

/-- Appending leaves the reserved entries where they are. -/
theorem reserved_push (c : CoeffPool p) (x : Fp p) :
    (c.entries.push x).toList.take 4 = reservedCoeffs p := by
  have h : 4 ≤ c.entries.toList.length := c.four_le_size
  rw [Array.toList_push, List.take_append_of_le_length h]
  exact c.reserved

/-- Appending an absent coefficient keeps later entries different from earlier ones. -/
theorem fresh_push (c : CoeffPool p) (x : Fp p) (absent : x ∉ c.entries) (i j : Nat) (hij : i < j)
    (hj : j < (c.entries.push x).size) (h4 : 4 ≤ j) :
    (c.entries.push x)[i] ≠ (c.entries.push x)[j] := by
  have hj' : j ≤ c.entries.size := by
    rw [Array.size_push] at hj
    exact Nat.le_of_lt_succ hj
  rw [Array.getElem_push_lt (Nat.lt_of_lt_of_le hij hj'), Array.getElem_push]
  split
  · exact c.fresh i j hij _ h4
  · exact fun h => absent (h ▸ Array.getElem_mem _)

/-- A coefficient that is not found is absent. -/
theorem absent_of_find?_eq_none {c : CoeffPool p} {x : Fp p} (h : c.find? x = none) :
    x ∉ c.entries := by
  intro hx
  have := Array.findIdx?_eq_none_iff.1 h x hx
  simp at this

/-- Appends a coefficient that the pool does not hold. -/
def push (c : CoeffPool p) (x : Fp p) (absent : x ∉ c.entries) : CoeffPool p where
  entries := c.entries.push x
  reserved := c.reserved_push x
  fresh := c.fresh_push x absent

/-- The number that a position has as a 32-bit word. -/
def number (i : Nat) : Nat := (UInt32.ofNat i).toNat

/-- The number for the position of a coefficient, and the pool that holds it there. -/
def insert (c : CoeffPool p) (x : Fp p) : CoeffPool p × Nat :=
  match h : c.find? x with
  | some i => (c, number i)
  | none => (c.push x (absent_of_find?_eq_none h), number c.size)

/-- The pool after coefficients are inserted one by one. -/
def insertAll (c : CoeffPool p) (xs : List (Fp p)) : CoeffPool p :=
  xs.foldl (fun c x => (c.insert x).1) c

end CoeffPool

end WireSolve
