/-
WireSolve/Assignment.lean

The values found so far, one slot per wire.

A slot is filled once: `Assignment.set` refuses a wire that has a value, and a
wire that does not exist, and changes nothing when it refuses.  The number of
filled slots is kept beside them, so that the end of a solve can be recognised
without a scan.
-/
import WireSolve.Field
import WireSolve.Failure

namespace WireSolve

/-- A partial assignment of field elements to wires. -/
structure Assignment (p : Nat) where
  /-- The value of each wire, if it has one. -/
  slots : Array (Option (Fp p))
  /-- The number of wires that have been given a value. -/
  solved : Nat

namespace Assignment

variable {p : Nat}

/-- The assignment of `n` wires, none of which has a value. -/
def empty (n : Nat) : Assignment p := ⟨Array.replicate n none, 0⟩

/-- The number of wires. -/
def size (s : Assignment p) : Nat := s.slots.size

/-- The value of a wire, if it has one. -/
def get? (s : Assignment p) (w : Wire) : Option (Fp p) := s.slots[w.toNat]?.join

/-- Whether a wire has a value; a wire that does not exist has none. -/
def isSolved (s : Assignment p) (w : Wire) : Bool := (s.get? w).isSome

/-- Gives a wire its value. -/
@[inline] def set (s : Assignment p) (w : Wire) (x : Fp p) : Except Fault (Assignment p) :=
  if h : w.toNat < s.slots.size then
    match s.slots[w.toNat] with
    | some _ => .error (.solvedTwice w)
    | none => .ok ⟨s.slots.set w.toNat (some x), s.solved + 1⟩
  else
    .error (.wireOutOfRange w)

/-- A wire can be given a value exactly when it exists and has none. -/
theorem set_eq_ok_iff {s t : Assignment p} {w : Wire} {x : Fp p} :
    s.set w x = .ok t ↔ w.toNat < s.size ∧ s.get? w = none ∧
      t = ⟨s.slots.setIfInBounds w.toNat (some x), s.solved + 1⟩ := by
  by_cases h : w.toNat < s.slots.size
  · rcases hv : s.slots[w.toNat] with - | y
    · simp [set, get?, size, h, hv, Array.setIfInBounds, eq_comm]
    · simp [set, get?, h, hv]
  · simp [set, size, h]

/-- Giving a wire its value changes what that wire holds and nothing else. -/
theorem get?_of_set {s t : Assignment p} {w : Wire} {x : Fp p} (h : s.set w x = .ok t)
    (v : Wire) : t.get? v = if v = w then some x else s.get? v := by
  obtain ⟨hw, -, rfl⟩ := set_eq_ok_iff.1 h
  by_cases hv : v = w
  · subst hv
    simp [get?, show v.toNat < s.slots.size from hw]
  · have : w.toNat ≠ v.toNat := fun e => hv (UInt32.toNat_inj.1 e.symm)
    simp [get?, this, hv]

/-- Whether every wire has a value, by the count. -/
def isComplete (s : Assignment p) : Bool := s.solved == s.size

/-- The values of all wires from position `i` on, or the first of them that has none. -/
def valuesFrom (i : Nat) : List (Option (Fp p)) → Except Fault (List (Fp p))
  | [] => .ok []
  | some x :: rest => return x :: (← valuesFrom (i + 1) rest)
  | none :: _ => .error (.unsolvedWire (Wire.atPosition i))

/-- The values of all wires, or the first wire that has none. -/
def values (s : Assignment p) : Except Fault (Array (Fp p)) :=
  (valuesFrom 0 s.slots.toList).map List.toArray

end Assignment

end WireSolve
