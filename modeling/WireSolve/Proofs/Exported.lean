/-
WireSolve/Proofs/Exported.lean

When a circuit that is solved can be exported.

A constraint that a solve accepts has its terms in range: those that are known have
been read, and the open one has been divided by its coefficient and given a value
(`Rank1.terms_of_solve`).  The exception is a term that the constraint is accepted
without (`Circuit.LeavesOut`).  It is not looked at, so nothing is known of its
coefficient or of its wire, and the export, which looks up every coefficient, may
still refuse the circuit.

Main result: `Circuit.exists_matrices_iff`.
-/
import WireSolve.Proofs.Sides

namespace WireSolve

namespace Circuit

variable {p : Nat} [Modulus p] {c : Circuit p} {witness : List (Fp p)} {o : Options} {run : Run p}
  {k : Nat} {r : Rank1} {is : List Nat}

/-- A rank-1 constraint that is scheduled has its terms in range in a solve that gets to its end,
all but those that are left out. -/
theorem terms_of_scheduled (hperm : is.Perm c.levels.flatten) (hk : c.Schedules k (.rank1 r))
    (hrun : c.Reaches witness o is run) :
    ∀ t ∈ r.terms, t.InRange c.pool c.wireCount ∨ ∃ side, c.LeavesOut witness o is k side t := by
  obtain ⟨before, i, after, hsplit, hi⟩ := hk.1.exists_split hperm
  obtain ⟨s, s', hs, hprocess, -⟩ := Reaches.processed (hsplit ▸ hrun)
  rw [process_constraint hi hk.2] at hprocess
  obtain ⟨x, hsolve, -⟩ := solveRank1_eq_ok hprocess
  intro t ht
  rcases (Rank1.terms_of_solve hsolve).1 t ht with hrange | ⟨side, hleft⟩
  · rw [hs.size_wires] at hrange
    exact Or.inl hrange
  · exact Or.inr ⟨side, before, i, after, s, r, hsplit, hi, hk.2, hs, hleft⟩

/-- A term that is left out is a term of its constraint. -/
theorem LeavesOut.mem_terms {side : Side} {t : Term} (h : c.LeavesOut witness o is k side t) :
    ∃ r, c.constraints[k]? = some (.rank1 r) ∧ t ∈ r.terms := by
  obtain ⟨-, -, -, s, r, -, -, hk, -, hleft⟩ := h
  obtain ⟨x, hscan, -⟩ := Rank1.leftOut_eq_some_iff.1 hleft
  exact ⟨r, hk, (Rank1.scan_terms hscan).2 side t rfl⟩

/-- A circuit that is solved, however its workers take turns, can be exported exactly if every term
that was left out when its constraint was accepted is in range. -/
theorem exists_matrices_iff [Fact p.Prime] {turns : Nat → List Nat} {solution : Solution p}
    (hfamily : c.family = .rank1)
    (hall : ∀ k < c.constraints.size, c.Scheduled (.constraint k))
    (hturns : c.AllTurnsTaken o.workers turns)
    (h : c.outcomeInTurns witness o turns = .ok solution) :
    (∃ m, c.matrices = .ok m) ↔
      ∀ k side t, c.LeavesOut witness o (c.orderInTurns o.workers turns) k side t →
        t.InRange c.pool c.wireCount := by
  obtain ⟨run, hrun, hsolution⟩ := exists_reaches_of_outcomeInTurns h
  have hperm := orderInTurns_perm hturns
  have hone := (hrun.seeded (Assignment.agrees_ofValues (conclude_eq_ok hsolution).1)).1 hfamily
  have hwires : 0 < c.wireCount := wireCount_pos (size_values_of_conclude hrun hsolution) hone
  rw [matrices_isOk_iff hwires]
  constructor
  · intro hterms k side t hleft
    obtain ⟨r, hk, ht⟩ := hleft.mem_terms
    exact Rank1.inRange_iff.1 (hterms _ (Array.mem_of_getElem? hk)) t ht
  · intro hleft q hq
    obtain ⟨k, hk, rfl⟩ := Array.getElem_of_mem hq
    have hget : c.constraints[k]? = some c.constraints[k] := Array.getElem?_eq_getElem hk
    rcases hkind : c.constraints[k] with r | g | body
    · refine Rank1.inRange_iff.2 fun t ht => ?_
      rw [hkind] at hget
      rcases terms_of_scheduled hperm ⟨hall k hk, hget⟩ hrun t ht with hrange | ⟨side, hout⟩
      · exact hrange
      · exact hleft k side t hout
    · trivial
    · trivial

/-- A circuit that asks for `c * w * x = 0`, with a coefficient that its pool does not have, before
it determines the wire by `w * 1 = 5`. -/
def unreadCoeff : Circuit 17 where
  family := .rank1
  publicWires := 1
  secretWires := 1
  internalWires := 1
  pool := (CoeffPool.initial.insert (.ofNat 5)).1
  constraints := #[.rank1 ⟨[⟨99, 2⟩], [⟨1, 1⟩], []⟩,
    .rank1 ⟨[⟨1, 2⟩], [.constant 1], [.constant 4]⟩]
  instructions := #[.constraint 0, .constraint 1]
  levels := [[0], [1]]

theorem unreadCoeff_scheduled :
    ∀ k < unreadCoeff.constraints.size, unreadCoeff.Scheduled (.constraint k) := by
  intro k hk
  have hcases : k = 0 ∨ k = 1 := by
    change k < 2 at hk
    omega
  rcases hcases with rfl | rfl
  · exact ⟨[0], by decide, 0, by decide, rfl⟩
  · exact ⟨[1], by decide, 1, by decide, rfl⟩

/-- For `x = 0` it is solved. -/
theorem unreadCoeff_solve : (unreadCoeff.solve [0] ⟨1, .empty, false⟩).outcome
    = .ok ⟨#[1, 0, .ofNat 5], some #[⟨0, 0, 0⟩, ⟨.ofNat 5, 1, .ofNat 5⟩]⟩ := by
  decide +kernel

theorem unreadCoeff_matrices (m : Rank1Matrices 17) : unreadCoeff.matrices ≠ .ok m := by
  intro hm
  have hnot : ¬ unreadCoeff.TermsInRange := by decide +kernel
  exact hnot (termsInRange_of_matrices hm)

/-- The term that the export trips over was left out. -/
theorem unreadCoeff_leavesOut :
    ∃ k side t, unreadCoeff.LeavesOut [0] ⟨1, .empty, false⟩ [0, 1] k side t ∧
      ¬ t.InRange unreadCoeff.pool unreadCoeff.wireCount := by
  have hsolve := unreadCoeff_solve
  rw [← outcomeInTurns_chunkByChunk] at hsolve
  have hiff := exists_matrices_iff rfl unreadCoeff_scheduled
    (allTurnsTaken_chunkByChunk unreadCoeff 1) hsolve
  rw [orderInTurns_chunkByChunk] at hiff
  by_contra hnone
  simp only [not_exists, not_and, not_not] at hnone
  obtain ⟨m, hm⟩ := hiff.2 hnone
  exact unreadCoeff_matrices m hm

/-- All constraints are scheduled and the solve goes through, but there are no matrices. -/
theorem unreadCoeff_unexported :
    unreadCoeff.family = .rank1 ∧
      (∀ k < unreadCoeff.constraints.size, unreadCoeff.Scheduled (.constraint k)) ∧
      (∃ solution, (unreadCoeff.solve [0] ⟨1, .empty, false⟩).outcome = .ok solution) ∧
      ∀ m, unreadCoeff.matrices ≠ .ok m :=
  ⟨rfl, unreadCoeff_scheduled, ⟨_, unreadCoeff_solve⟩, unreadCoeff_matrices⟩

end Circuit

end WireSolve
