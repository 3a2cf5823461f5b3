/-
WireSolve/Proofs/Repeated.lean

A rank-1 constraint that fails leaves the state as it is.

A step writes before the sides are recorded, and the place for them may be taken: a
level can hold an instruction twice.  That there is nothing left to write then takes
the whole solve.  Sides that are recorded are those of a step that was accepted, and
the values which that step has reached are still there (`Circuit.Accepted`, stable under
every change).  Against more values than these, either nothing of the constraint is
open any more, or the same term is open, with the same zero factor beside it
(`Rank1.later_cases`), and in both cases the constraint is only checked.

Main result: `Circuit.process_leaves_state`.
-/
import WireSolve.Proofs.Exact
import WireSolve.Proofs.WriteOnce

namespace WireSolve

variable {p : Nat} [Modulus p]

/-! ### A constraint that was accepted before -/

namespace Rank1

variable {c : CoeffPool p} {r : Rank1} {k : Nat} {s₀ t₀ s t : Assignment p} {x y : Sides p}

/-- Later on nothing of a constraint that was accepted is open, or the scan is still the one that
it was accepted with, and the open term does not matter. -/
theorem later_cases (h₀ : r.solve c s₀ k = .ok (t₀, x)) (hext : t₀.Extends s) :
    r.openTerms s = [] ∨
      ∃ u, r.scan c s k = .ok (x, u) ∧ x.Closed u ∧ x.balanced = true := by
  rcases solve_eq_ok h₀ with ⟨u, hscan, hu, hbalanced, rfl⟩ |
    ⟨_, _, v, _, q, hscan, -, -, hset, -⟩
  · by_cases hopens : r.openTerms s = []
    · exact Or.inl hopens
    · -- the term that is open now is the one that was, so all wires hold the same
      obtain ⟨v, hv⟩ := List.exists_mem_of_ne_nil _ hopens
      have hopens₀ : r.openTerms t₀ = [v] :=
        eq_singleton_of_mem (length_openTerms_of_scan hscan) (mem_openTerms_of_extends hext hv)
      have hsame : t₀.SameOn r.Mentions s := by
        refine ⟨hext.size_eq, fun w hw => ?_⟩
        rcases hw₀ : t₀.get? w with - | y
        · obtain ⟨v', hv', rfl⟩ :=
            exists_mem_openTerms hw (Assignment.isSolved_eq_false_iff.2 hw₀)
          rw [hopens₀, List.mem_singleton] at hv'
          rw [hv']
          exact Assignment.isSolved_eq_false_iff.1 (mem_openTerms.1 hv).2.2
        · exact hext.keeps w y hw₀
      rw [← scan_congr hsame] at hscan
      exact Or.inr ⟨u, hscan, hu, hbalanced⟩
  · -- the wire that was open has a value since
    refine Or.inl (List.eq_nil_iff_forall_not_mem.2 fun v' hv' => ?_)
    have hv₀ := mem_openTerms_of_extends ((Assignment.extends_of_set hset).trans hext) hv'
    rw [openTerms_of_scan hscan, List.mem_singleton] at hv₀
    have hopen := (mem_openTerms.1 hv').2.2
    rw [hv₀, Assignment.isSolved, hext.keeps _ _ (Assignment.get?_set_self hset)] at hopen
    cases hopen

/-- A constraint that was accepted writes nothing when it is accepted again. -/
theorem unchanged_again (h₀ : r.solve c s₀ k = .ok (t₀, x)) (hext : t₀.Extends s)
    (h : r.solve c s k = .ok (t, y)) : t = s := by
  rcases later_cases h₀ hext with hopens | ⟨u, hscan, hu, -⟩
  · rcases change_of_solve h with rfl | ⟨v, q, hopens', -⟩
    · rfl
    · rw [hopens] at hopens'
      cases hopens'
  · rw [solve_of_closed hscan hu] at h
    obtain ⟨_, -, h⟩ := Outcome.bind_eq_ok_iff.1 h
    exact (Prod.mk.inj (Outcome.pure_eq_ok_iff.1 h)).1.symm

/-- It is accepted again, if its coefficients are in the pool. -/
theorem accepted_again [Fact p.Prime] (h₀ : r.solve c s₀ k = .ok (t₀, x)) (hext : t₀.Extends s)
    (hr : ∀ v ∈ r.terms, v.coeff < c.size) : ∃ y, r.solve c s k = .ok (s, y) := by
  obtain ⟨y, u, hscan, hu, hbalanced⟩ :
      ∃ y u, r.scan c s k = .ok (y, u) ∧ y.Closed u ∧ y.balanced = true := by
    rcases later_cases h₀ hext with hopens | ⟨u, hscan⟩
    · obtain ⟨⟨y, u⟩, hscan⟩ := (scan_isOk_iff (k := k) hr).2 (by rw [hopens]; exact Nat.zero_le 1)
      obtain rfl : u = none := by
        have hu := scan_opens hscan
        rw [hopens] at hu
        simpa using hu
      -- the constraint holds at every valuation that the values agree with
      have hz := s.agrees_fill 0
      have hholds := ((agrees_iff_of_solve h₀).1 (hz.anti hext)).2
      rw [holds_iff_balanced, sides_eq_complete hscan hz] at hholds
      exact ⟨y, none, hscan, nofun, hholds⟩
    · exact ⟨x, u, hscan⟩
  refine ⟨y, ?_⟩
  rw [solve_of_closed hscan hu, check, if_pos hbalanced]
  rfl

end Rank1

namespace Circuit

variable {c : Circuit p} {o : Options} {i k : Nat} {r : Rank1} {run t : Run p}

/-! ### What is recorded -/

/-- Every state on the way of a solve is one that small steps lead to. -/
theorem Reaches.leadsTo {witness : List (Fp p)} {is : List Nat}
    (hrun : c.Reaches witness o is run) : c.LeadsTo c.blank run :=
  hrun.of_stable (stable_leadsTo c c.blank) fun _ hs => leadsTo_initialRun hs #[]

/-- Sides that are recorded were those of a step, and the values that it reached are still there. -/
def Accepted (c : Circuit p) (run : Run p) : Prop :=
  ∀ (k : Nat) (x : Sides p), run.sides[k]? = some (some x) → ∃ r s t,
    c.constraints[k]? = some (.rank1 r) ∧ r.solve c.pool s k = .ok (t, x) ∧ t.Extends run.wires

theorem stable_accepted (c : Circuit p) : Run.Stable c c.Accepted where
  bookkeeping _ _ _ h := h
  write run w x s h hset := by
    intro k y hy
    obtain ⟨r, s₀, t₀, hk, hsolve, hext⟩ := h k y hy
    exact ⟨r, s₀, t₀, hk, hsolve, hext.trans (Assignment.extends_of_set hset)⟩
  record run k r s x h hk hsolve _ := by
    intro j y hj
    rcases Run.eq_or_of_record hj with ⟨rfl, rfl⟩ | hbefore
    · exact ⟨r, s, run.wires, hk, hsolve, Assignment.Extends.refl _⟩
    · exact h j y hbefore

theorem LeadsTo.accepted (h : c.LeadsTo c.blank run) : c.Accepted run := by
  refine h.of_stable (stable_accepted c) fun k x hx => ?_
  rw [blank, Array.getElem?_replicate] at hx
  split at hx <;> cases hx

theorem LeadsTo.size_sides (h : c.LeadsTo c.blank run) :
    run.sides.size = c.constraints.size := by
  rw [(h.of_stable (Run.stable_below c c.blank) (Run.Below.refl _)).size_sides]
  exact Array.size_replicate

/-! ### The instruction of a rank-1 constraint -/

/-- What the instruction of a rank-1 constraint leaves of a state when it fails. -/
structure LeavesState (c : Circuit p) (o : Options) (i k : Nat) (r : Rank1) (run : Run p) :
    Prop where
  /-- Whatever it fails for, it leaves the state as it is. -/
  unchanged : ∀ e t, c.process o i run = .error e t → t = run
  /-- It fails where the sides of the constraint are recorded, and it does so for that reason if the
  coefficients of the constraint are in the pool. -/
  recorded : ∀ x, c.family = .rank1 → run.sides[k]? = some (some x) →
    ∃ e, c.process o i run = .error e run ∧
      ((∀ v ∈ r.terms, v.coeff < c.pool.size) → e = .fault (.processedTwice k))

/-- In every state that small steps lead to from the blank one, whatever hints, custom constraints
and repeated instructions there were on the way, the instruction of a rank-1 constraint leaves the
state as it is when it fails.  One that comes up again after it went through always fails.  The
instruction is one step here: nothing of other workers comes in between its start and its end. -/
theorem process_leaves_state [Fact p.Prime] (hrun : c.LeadsTo c.blank run)
    (hi : c.instructions[i]? = some (.constraint k)) (hk : c.constraints[k]? = some (.rank1 r)) :
    c.LeavesState o i k r run where
  unchanged e t he := by
    rw [process_constraint hi hk] at he
    rcases solveRank1_eq_error he with ⟨-, -, -, rfl⟩ |
      ⟨s, x, hsolve, rfl, -, ⟨hside, -⟩ | ⟨⟨y, hside⟩, -⟩⟩
    · rfl
    · -- every constraint has a place for its sides
      have hlt := (Array.getElem?_eq_some_iff.1 hk).1
      rw [← hrun.size_sides] at hlt
      rw [Array.getElem?_eq_getElem hlt] at hside
      cases hside
    · obtain ⟨r', s₀, t₀, hk', hsolve₀, hext⟩ := hrun.accepted k y hside
      obtain rfl : r = r' := by simpa using hk.symm.trans hk'
      rw [Rank1.unchanged_again hsolve₀ hext hsolve]
  recorded x hfamily hside := by
    obtain ⟨r', s₀, t₀, hk', hsolve₀, hext⟩ := hrun.accepted k x hside
    obtain rfl : r = r' := by simpa using hk.symm.trans hk'
    rw [process_constraint hi hk]
    change ∃ e, c.solveRank1 k r run = .error e run ∧ _
    rw [solveRank1_apply]
    rcases hsolve : r.solve c.pool run.wires k with q | ⟨s, y⟩
    · refine ⟨_, rfl, fun hr => ?_⟩
      obtain ⟨y, hy⟩ := Rank1.accepted_again hsolve₀ hext hr
      rw [hsolve] at hy
      cases hy
    · dsimp only
      rw [Rank1.unchanged_again hsolve₀ hext hsolve, hfamily, Solve.record_apply, hside]
      exact ⟨_, rfl, fun _ => rfl⟩

/-- The state of `w * x = y` for `x = 0` and `y = 0`, after the constraint went through and `w` was
left free. -/
def quotientRecorded : Run 17 :=
  { quotientRun 0 0 with sides := #[some Sides.zero], journal := #[⟨none, .ready 1⟩] }

theorem quotient_reaches : quotient.Reaches [0, 0] ⟨1, .empty, false⟩ [0] quotientRecorded :=
  ⟨(quotientRun 0 0).wires, rfl, rfl⟩

/-- The constraint cannot be processed again, and the attempt changes nothing. -/
theorem quotient_leaves_state :
    quotient.process ⟨1, .empty, false⟩ 0 quotientRecorded
      = .error (.fault (.processedTwice 0)) quotientRecorded := by
  have hleaves : quotient.LeavesState ⟨1, .empty, false⟩ 0 0 quotientRule quotientRecorded :=
    process_leaves_state quotient_reaches.leadsTo rfl rfl
  obtain ⟨e, he, htwice⟩ := hleaves.recorded Sides.zero rfl rfl
  rw [he, htwice (by decide +kernel)]

end Circuit

end WireSolve
