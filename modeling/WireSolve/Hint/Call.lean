/-
WireSolve/Hint/Call.lean

A place in a circuit where a hint function is used: the combinations it reads and
the contiguous wires it fills.
-/
import WireSolve.Hint.Id
import WireSolve.Linear

namespace WireSolve

/-- The wires from `start` up to but not including `stop`. -/
structure WireRange where
  /-- The first wire. -/
  start : Wire
  /-- The wire after the last. -/
  stop : Wire
  deriving DecidableEq, Repr

namespace WireRange

/-- The number of wires in a range; a range that ends before it starts has none. -/
def size (r : WireRange) : Nat := r.stop.toNat - r.start.toNat

/-- Whether a wire is in a range. -/
def contains (r : WireRange) (w : Wire) : Bool :=
  r.start.toNat ≤ w.toNat && w.toNat < r.stop.toNat

/-- The wires of a range, in order. -/
def wires (r : WireRange) : List Wire :=
  (List.range r.size).map fun i => Wire.atPosition (r.start.toNat + i)

/-- The listed wires are those the range contains. -/
theorem mem_wires {r : WireRange} {w : Wire} : w ∈ r.wires ↔ r.contains w := by
  have hsize : UInt32.size = 2 ^ 32 := rfl
  have hstop := r.stop.toNat_lt
  simp only [wires, size, contains, Wire.atPosition, List.mem_map, List.mem_range,
    Bool.and_eq_true, decide_eq_true_eq]
  constructor
  · rintro ⟨i, hi, rfl⟩
    rw [UInt32.toNat_ofNat_of_lt' (by omega)]
    omega
  · intro h
    refine ⟨w.toNat - r.start.toNat, by omega, UInt32.toNat_inj.1 ?_⟩
    rw [UInt32.toNat_ofNat_of_lt' (by omega)]
    omega

end WireRange

/-- A use of a hint function. -/
structure HintCall where
  /-- The number of the function. -/
  hint : HintId
  /-- What the function reads. -/
  inputs : List LinComb
  /-- The wires the function fills. -/
  outputs : WireRange
  deriving DecidableEq, Repr

end WireSolve
