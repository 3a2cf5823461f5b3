/-
WireSolve/Proofs/Solve/Constraints.lean

An instruction that a solve gets through, and a constraint, said in terms of its step.

A rank-1 constraint takes over the assignment its step reaches and records the
sides, in a circuit that records any; a gate only takes over the assignment.
-/
import WireSolve.Proofs.Outcome
import WireSolve.Solve.Solution

namespace WireSolve

namespace Circuit

open Solve

variable {p : Nat} [Modulus p] {c : Circuit p} {o : Options} {i k : Nat} {run t : Run p}

theorem process_constraint {constraint : Constraint p}
    (hi : c.instructions[i]? = some (.constraint k))
    (hk : c.constraints[k]? = some constraint) :
    c.process o i = c.solveConstraint k constraint := by
  simp only [process, hi, hk]

/-- An instruction that goes through is a constraint or a hint of the circuit. -/
theorem process_eq_ok (hi : c.process o i run = .ok () t) :
    (∃ k q, c.instructions[i]? = some (.constraint k) ∧ c.constraints[k]? = some q ∧
        c.solveConstraint k q run = .ok () t) ∨
      ∃ h, c.instructions[i]? = some (.hint h) ∧ c.solveHint o.hints h run = .ok () t := by
  rcases hins : c.instructions[i]? with - | k | h
  · rw [process, hins] at hi
    cases hi
  · rcases hk : c.constraints[k]? with - | q
    · simp only [process, hins, hk] at hi
      cases hi
    · rw [process_constraint hins hk] at hi
      exact Or.inl ⟨k, q, rfl, hk, hi⟩
  · rw [process, hins] at hi
    exact Or.inr ⟨h, rfl, hi⟩

theorem exists_instruction (hi : c.process o i run = .ok () t) :
    ∃ ins, c.instructions[i]? = some ins := by
  rcases process_eq_ok hi with ⟨k, -, hk, -⟩ | ⟨h, hh, -⟩
  · exact ⟨_, hk⟩
  · exact ⟨_, hh⟩

/-- Two positions with the same instruction. -/
theorem process_of_same {j : Nat} (hij : c.instructions[i]? = c.instructions[j]?)
    (hi : c.process o i run = .ok () t) : c.process o j run = .ok () t := by
  rcases process_eq_ok hi with ⟨k, q, hins, hk, hsolve⟩ | ⟨h, hins, hsolve⟩
  · rw [process_constraint (hij ▸ hins) hk]
    exact hsolve
  · rw [process, ← hij, hins]
    exact hsolve

/-! ### Rank-1 constraints -/

variable {r : Rank1}

theorem solveRank1_apply (c : Circuit p) (k : Nat) (r : Rank1) (run : Run p) :
    c.solveRank1 k r run = match r.solve c.pool run.wires k with
      | .error e => .error (c.refusal run.wires k e) run
      | .ok (s, x) => record c.family k x { run with wires := s } := by
  change (match r.solve c.pool run.wires k with
    | .error e => throw (c.refusal run.wires k e)
    | .ok (s, x) => setWires s >>= fun _ => record c.family k x : Solve p Unit) run = _
  rcases r.solve c.pool run.wires k with e | ⟨s, x⟩ <;> rfl

/-- A rank-1 constraint takes over what its step reaches, and its sides are recorded in their
place, which was empty. -/
theorem solveRank1_eq_ok (h : c.solveRank1 k r run = .ok () t) :
    ∃ x, r.solve c.pool run.wires k = .ok (t.wires, x) ∧
      (c.family = .rank1 → run.sides[k]? = some none ∧
        t.sides = run.sides.setIfInBounds k (some x)) := by
  rw [solveRank1_apply] at h
  rcases hsolve : r.solve c.pool run.wires k with e | ⟨s, x⟩
  · rw [hsolve] at h
    cases h
  · rw [hsolve] at h
    dsimp only at h
    cases hfamily : c.family with
    | gates =>
      rw [hfamily] at h
      cases h
      exact ⟨x, rfl, by simp⟩
    | rank1 =>
      rw [hfamily, record_apply] at h
      dsimp only at h
      split at h
      · cases h
      · cases h
      · next hnone =>
        cases h
        exact ⟨x, rfl, fun _ => ⟨hnone, rfl⟩⟩

/-- A rank-1 constraint that fails is refused by its step, and then nothing changes, or its step
goes through and there is no place for its sides that is empty. -/
theorem solveRank1_eq_error {e : Failure} (h : c.solveRank1 k r run = .error e t) :
    (∃ q, r.solve c.pool run.wires k = .error q ∧ e = c.refusal run.wires k q ∧ t = run) ∨
      ∃ s x, r.solve c.pool run.wires k = .ok (s, x) ∧ t = { run with wires := s } ∧
        c.family = .rank1 ∧ (run.sides[k]? = none ∧ e = .fault (.noInstruction k) ∨
          (∃ y, run.sides[k]? = some (some y)) ∧ e = .fault (.processedTwice k)) := by
  rw [solveRank1_apply] at h
  rcases hsolve : r.solve c.pool run.wires k with q | ⟨s, x⟩
  · rw [hsolve] at h
    cases h
    exact Or.inl ⟨q, rfl, rfl, rfl⟩
  · rw [hsolve] at h
    refine Or.inr ⟨s, x, rfl, ?_⟩
    dsimp only at h
    cases hfamily : c.family with
    | gates =>
      rw [hfamily] at h
      cases h
    | rank1 =>
      rw [hfamily, record_apply] at h
      rcases hsides : run.sides[k]? with - | - | y
      · simp only [hsides] at h
        cases h
        exact ⟨rfl, rfl, Or.inl ⟨rfl, rfl⟩⟩
      · simp only [hsides] at h
        cases h
      · simp only [hsides] at h
        cases h
        exact ⟨rfl, rfl, Or.inr ⟨⟨y, rfl⟩, rfl⟩⟩

/-! ### Gates -/

variable {g : Gate}

theorem solveGate_apply (c : Circuit p) (k : Nat) (g : Gate) (run : Run p) :
    c.solveGate k g run = match g.solve c.pool run.wires k with
      | .error e => .error (c.refusal run.wires k e) run
      | .ok s => .ok () { run with wires := s } := by
  change (match g.solve c.pool run.wires k with
    | .error e => throw (c.refusal run.wires k e)
    | .ok s => setWires s : Solve p Unit) run = _
  rcases g.solve c.pool run.wires k with e | s <;> rfl

theorem solveGate_eq_ok (h : c.solveGate k g run = .ok () t) :
    g.solve c.pool run.wires k = .ok t.wires := by
  rw [solveGate_apply] at h
  rcases hsolve : g.solve c.pool run.wires k with e | s
  · rw [hsolve] at h
    cases h
  · rw [hsolve] at h
    cases h
    rfl

end Circuit

end WireSolve
