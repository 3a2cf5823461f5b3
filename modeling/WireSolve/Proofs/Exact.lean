/-
WireSolve/Proofs/Exact.lean

What one constraint does to the valuations that the values found so far stand for.

The valuations that agree with a partial assignment are the ways to complete it.  A
constraint that goes through cuts them down to those at which it holds, and to no
fewer, although it only gives a value to the one wire that it finds open, or to none
(`Assignment.Cut`).  Where the open wire is left free, the constraint holds at all of
them; where the constraint is violated, it holds at none.  What else can keep a
constraint from being processed is not about values: there is more than one open
place, the open one is scaled by zero, or the sides cannot be recorded.

Main results: `Circuit.solveRank1_cuts` for rank-1 constraints, and `Gate.solve_cuts`
for gates, which do not depend on the wires that take no part in them.
-/
import WireSolve.Proofs.Solve.Constraints
import WireSolve.Proofs.Step.Faults

namespace WireSolve

variable {p : Nat}

/-- A step from one assignment to another that keeps those valuations at which `H` holds. -/
structure Assignment.Cut (W : Wire → Prop) (H : Valuation p → Prop) (s t : Assignment p) :
    Prop where
  /-- The step changes nothing, or it gives a value to the only wire in `W` that has none. -/
  change : t = s ∨ ∃ w x, s.set w x = .ok t ∧ W w ∧ s.isSolved w = false ∧
    ∀ v, W v → s.isSolved v = false → v = w
  /-- The valuations that are left are those at which `H` holds. -/
  agrees_iff : ∀ z, t.Agrees z ↔ s.Agrees z ∧ H z

variable [Modulus p] {s t : Assignment p} {k : Nat}

/-! ### Rank-1 constraints -/

theorem Rank1.cut_of_solve [Fact p.Prime] {c : CoeffPool p} {r : Rank1} {x : Sides p}
    (h : r.solve c s k = .ok (t, x)) : s.Cut r.Mentions (fun z => r.Holds c z) t where
  change := by
    refine (change_of_solve h).imp_right ?_
    rintro ⟨v, y, hopens, hset⟩
    have hv : v ∈ r.openTerms s := by
      rw [hopens]
      exact List.mem_singleton_self v
    obtain ⟨hmem, hconst, hopen⟩ := mem_openTerms.1 hv
    refine ⟨v.wire, y, hset, ⟨v, hmem, Bool.eq_false_iff.1 hconst, rfl⟩, hopen, ?_⟩
    -- every wire without a value that is mentioned belongs to the one open term
    intro w hw hopen'
    obtain ⟨v', hv', rfl⟩ := exists_mem_openTerms hw hopen'
    rw [hopens, List.mem_singleton] at hv'
    rw [hv']
  agrees_iff _ := agrees_iff_of_solve h

namespace Circuit

/-- What keeps a rank-1 constraint from being processed, apart from the values. -/
inductive Blocks (c : Circuit p) (k : Nat) (r : Rank1) (run : Run p) : Fault → Prop
  /-- More than one of its terms is open. -/
  | manyUnknowns : 2 ≤ (r.openTerms run.wires).length → Blocks c k r run (.manyUnknowns k)
  /-- The open term is scaled by zero. -/
  | zeroDivisor {v : Term} : r.openTerms run.wires = [v] → c.pool.denote v.coeff = 0 →
      Blocks c k r run .zeroDivisor
  /-- There is no place for its sides. -/
  | noPlace : c.family = .rank1 → run.sides[k]? = none → Blocks c k r run (.noInstruction k)
  /-- Its sides are recorded already. -/
  | recorded {x : Sides p} : c.family = .rank1 → run.sides[k]? = some (some x) →
      Blocks c k r run (.processedTwice k)

/-- What a rank-1 constraint does in a state. -/
structure CutsRank1 (c : Circuit p) (k : Nat) (r : Rank1) (run : Run p) : Prop where
  /-- Where it goes through, the values stand for the valuations at which it holds, of those that
  they stood for before. -/
  accepted : ∀ t, c.solveRank1 k r run = .ok () t →
    run.wires.Cut r.Mentions (fun z => r.Holds c.pool z) t.wires
  /-- Where it is violated, it holds at none of them. -/
  violated : ∀ v t, c.solveRank1 k r run = .error (.unsatisfied v) t →
    ∀ z, run.wires.Agrees z → ¬ r.Holds c.pool z
  /-- Where it fails otherwise, it is blocked. -/
  blocked : ∀ e t, c.solveRank1 k r run = .error e t →
    (∃ v, e = .unsatisfied v) ∨ ∃ f, e = .fault f ∧ c.Blocks k r run f

/-- One rank-1 constraint preserves the solutions exactly, in every state: it cuts the valuations
that the values found so far stand for down to those at which it holds, and it is violated only
if there are none. -/
theorem solveRank1_cuts [Fact p.Prime] {c : Circuit p} {k : Nat} {r : Rank1} {run : Run p}
    (hr : r.InRange c.pool run.wires.size) : c.CutsRank1 k r run where
  accepted t h := by
    obtain ⟨x, hsolve, -⟩ := solveRank1_eq_ok h
    exact Rank1.cut_of_solve hsolve
  violated v t h z hz := by
    rcases solveRank1_eq_error h with ⟨f | m, hsolve, hv, -⟩ |
      ⟨-, -, -, -, -, ⟨-, hv⟩ | ⟨-, hv⟩⟩
    · cases hv
    · exact Rank1.not_holds_of_solve hsolve hz
    · cases hv
    · cases hv
  blocked e t h := by
    rcases solveRank1_eq_error h with ⟨f | m, hsolve, rfl, -⟩ |
      ⟨-, -, -, -, hfamily, ⟨hside, rfl⟩ | ⟨⟨y, hside⟩, rfl⟩⟩
    · -- of the faults of a step, two are left when all names are in range
      refine Or.inr ⟨f, rfl, ?_⟩
      rcases Rank1.solve_eq_fault hsolve hr with ⟨rfl, hmany⟩ | ⟨rfl, v, hopens, hzero⟩
      · exact .manyUnknowns hmany
      · exact .zeroDivisor hopens hzero
    · exact Or.inl ⟨_, rfl⟩
    · exact Or.inr ⟨_, rfl, .noPlace hfamily hside⟩
    · exact Or.inr ⟨_, rfl, .recorded hfamily hside⟩

/-- The constraint `w * x = y`. -/
def quotientRule : Rank1 := ⟨[⟨1, 3⟩], [⟨1, 1⟩], [⟨1, 2⟩]⟩

/-- A circuit of this one constraint, in which `x` and `y` are secret. -/
def quotient : Circuit 17 where
  family := .rank1
  publicWires := 1
  secretWires := 2
  internalWires := 1
  pool := .initial
  constraints := #[.rank1 quotientRule]
  instructions := #[.constraint 0]
  levels := [[0]]

/-- Its state when `x` and `y` have values. -/
def quotientRun (x y : Fp 17) : Run 17 :=
  ⟨⟨#[some 1, some x, some y, none], 3⟩, #[none], #[], none⟩

/-- With `x = 0` the wire `w` cannot be determined.  For `y = 0` it is left free, and then the
constraint holds whatever its value is; for `y = 1` the constraint is violated, and then it holds
for no value of `w`. -/
theorem quotient_cuts :
    (∀ z, (quotientRun 0 0).wires.Agrees z → z 3 * z 1 = z 2) ∧
      ∀ z, (quotientRun 0 1).wires.Agrees z → z 3 * z 1 ≠ z 2 := by
  have hholds : ∀ z, quotientRule.Holds quotient.pool z ↔ z 3 * z 1 = z 2 := by
    intro z
    simp [quotientRule, Rank1.Holds, Term.denote, Term.isConstant, Wire.constantTag]
  constructor
  · have hcuts : quotient.CutsRank1 0 quotientRule (quotientRun 0 0) :=
      solveRank1_cuts (by decide +kernel)
    have hcut := hcuts.accepted { quotientRun 0 0 with sides := #[some Sides.zero] } rfl
    exact fun z hz => (hholds z).1 ((hcut.agrees_iff z).1 hz).2
  · have hcuts : quotient.CutsRank1 0 quotientRule (quotientRun 0 1) :=
      solveRank1_cuts (by decide +kernel)
    have hviolated := hcuts.violated ⟨0, .product 0 0 1, none⟩ (quotientRun 0 1) rfl
    exact fun z hz h => hviolated z hz ((hholds z).2 h)

end Circuit

/-! ### Gates -/

namespace Gate

variable {c : CoeffPool p} {g : Gate}

theorem cut_of_solve [Fact p.Prime] (h : g.solve c s k = .ok t) (hg : g.Untagged) :
    s.Cut g.Mentions (fun z => g.Holds c z) t where
  change := by
    obtain ⟨hcount, e, he, hsettle⟩ := solve_eq_ok h
    refine (Equation.change_of_settle hsettle).imp_right ?_
    rintro ⟨w, x, hwire, hset⟩
    have hopens := wire?_of_equation he hcount
    rw [hwire, Option.toList_some] at hopens
    have hmem : ∀ v, v ∈ [w] ↔ g.Mentions v ∧ s.isSolved v = false := by
      rw [hopens]
      exact fun v => mem_openPositions
    obtain ⟨hmentions, hopen⟩ := (hmem w).1 (List.mem_singleton_self w)
    exact ⟨w, x, hset, hmentions, hopen, fun v hv hopen' =>
      List.mem_singleton.1 ((hmem v).2 ⟨hv, hopen'⟩)⟩
  agrees_iff _ := agrees_iff_of_solve h hg

/-- What a gate that is in range does against an assignment. -/
structure Cuts (c : CoeffPool p) (s : Assignment p) (k : Nat) (g : Gate) : Prop where
  /-- Where it goes through, the values stand for the valuations at which it holds, of those that
  they stood for before. -/
  accepted : ∀ t, g.solve c s k = .ok t → s.Cut g.Mentions (fun z => g.Holds c z) t
  /-- Where it does not come out, it holds at none of them. -/
  mismatch : ∀ m, g.solve c s k = .error (.mismatch m) → ∀ z, s.Agrees z → ¬ g.Holds c z
  /-- It has too many unknowns exactly if two of its positions are open. -/
  manyUnknowns_iff :
    g.solve c s k = .error (.fault (.manyUnknowns k)) ↔ 2 ≤ (g.openPositions s).length
  /-- There is no other fault. -/
  fault : ∀ f, g.solve c s k = .error (.fault f) → f = .manyUnknowns k
  /-- In particular it does not read a wire before that has a value. -/
  unsolvedWire : ∀ w, g.solve c s k ≠ .error (.fault (.unsolvedWire w))
  /-- What the other wires hold makes no difference. -/
  unread : ∀ s', g.InRange c s'.size → (∀ w, g.Mentions w → s'.get? w = s.get? w) →
    Outcome.Matches (fun t t' => Assignment.SameChange g.Mentions s t s' t') (g.solve c s k)
      (g.solve c s' k)

/-- One gate preserves the solutions exactly, against every assignment, and it looks at nothing but
the wires that take part in it. -/
theorem solve_cuts [Fact p.Prime] (hg : g.InRange c s.size) : g.Cuts c s k where
  accepted t h := cut_of_solve h hg.untagged
  mismatch m h z hz := not_holds_of_solve h hg.untagged hz
  manyUnknowns_iff := by
    rw [length_openPositions]
    exact ⟨fun h => (solve_eq_fault h hg).2, solve_of_manyUnknowns⟩
  fault f h := (solve_eq_fault h hg).1
  unsolvedWire w h := by cases (solve_eq_fault h hg).1
  unread s' hg' hsame := solve_matches hsame fun w hw =>
    iff_of_true (hg'.lt_of_mentions hw) (hg.lt_of_mentions hw)

/-- The gate `x * x = y`, which reads the wire of `x` at two positions. -/
def square : Gate := ⟨0, 0, 1, 0, 0, 3, 1, 0⟩

/-- An assignment of `x` and `y`. -/
def squareValues (x y : Option (Fp 17)) : Assignment 17 := ⟨#[x, y], 1⟩

/-- It cannot be solved for `x`: two of its positions are open then, although they are for the same
wire.  For `y` it can, and the valuations that are left are those at which it holds. -/
theorem square_cuts :
    square.solve .initial (squareValues none (some 9)) 5 = .error (.fault (.manyUnknowns 5)) ∧
      ∃ t, square.solve .initial (squareValues (some 3) none) 5 = .ok t ∧
        (squareValues (some 3) none).Cut square.Mentions (fun z => square.Holds .initial z) t := by
  constructor
  · exact (solve_cuts (by decide +kernel)).manyUnknowns_iff.2 (by decide +kernel)
  · have hok : (square.solve .initial (squareValues (some 3) none) 5).isOk = true := by
      decide +kernel
    rcases hsolve : square.solve .initial (squareValues (some 3) none) 5 with e | t
    · rw [hsolve] at hok
      cases hok
    · exact ⟨t, rfl, (solve_cuts (by decide +kernel)).accepted t hsolve⟩

end Gate

end WireSolve
