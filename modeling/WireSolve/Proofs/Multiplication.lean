/-
WireSolve/Proofs/Multiplication.lean

A product is the same in both families of circuits.

`(m * xa) * xb = xc` can be asked for by a gate, with selectors for the product and for
the output, and by a rank-1 constraint, with a term on each side.  The gate counts
positions that take part and puts the values of its wires into a polynomial; the
constraint is scanned side by side, and a missing contribution is divided by the
coefficient of its term.  They leave the same wires open, place by place, also where
some of the three wires are the same, and their left sides are the same; so they come
out alike (`Gate.comesOutAlike`).

This needs a coefficient that is not zero.  By position that is all of them but the
reserved zero, and two in the field of order two (`CoeffPool.denote_ne_zero`).

Main result: `Circuit.solveConstraint_times`.
-/
import WireSolve.Proofs.CoeffPool
import WireSolve.Proofs.Solve.Constraints
import WireSolve.Proofs.Step.Settled

namespace WireSolve

variable {p : Nat} [Modulus p]

/-! ### The two constraints -/

/-- The gate `m⋅(xa⋅xb) - xc = 0`. -/
def Gate.times (m : Nat) (xa xb xc : Wire) : Gate where
  xa := xa
  xb := xb
  xc := xc
  qL := 0
  qR := 0
  qO := 3
  qM := m
  qC := 0

/-- The rank-1 constraint `(m⋅xa) * xb = xc`. -/
def Rank1.times (m : Nat) (xa xb xc : Wire) : Rank1 where
  left := [⟨m, xa⟩]
  right := [⟨1, xb⟩]
  out := [⟨1, xc⟩]

section Times

variable {c : CoeffPool p} {s : Assignment p} {z : Valuation p} {m : Nat} {xa xb xc : Wire}
  (ha : xa ≠ Wire.constantTag) (hb : xb ≠ Wire.constantTag) (hc : xc ≠ Wire.constantTag)

include ha hb hc

omit [Modulus p] in
/-- Both leave the same wires open, place by place. -/
theorem openTerms_times (hm : m ≠ 0) :
    ((Rank1.times m xa xb xc).openTerms s).map Term.wire
      = (Gate.times m xa xb xc).openPositions s := by
  have hwires : (Gate.times m xa xb xc).positions
      = (Rank1.times m xa xb xc).terms.map Term.wire := by
    simp [Gate.positions, Gate.usesA, Gate.usesB, Gate.usesC, Gate.times, Rank1.terms, Rank1.times,
      hm]
  rw [Gate.openPositions, hwires, List.filter_map, Rank1.openTerms]
  congr 1
  refine List.filter_congr fun v hv => ?_
  have hconst : v.isConstant = false := by
    simp only [Rank1.terms, Rank1.times, List.cons_append, List.nil_append, List.mem_cons,
      List.not_mem_nil, or_false] at hv
    rcases hv with rfl | rfl | rfl <;> simpa [Term.isConstant]
  rw [Term.isOpen, hconst, Bool.false_or]
  rfl

/-- Both have the same left side. -/
theorem denote_times :
    (Gate.times m xa xb xc).denote c z = ((Rank1.times m xa xb xc).sides c z).excess := by
  simp [Gate.denote, Gate.times, Sides.excess, Rank1.sides, Rank1.times, Term.denote,
    Term.isConstant, ha, hb, hc]
  ring

omit [Modulus p] in
theorem untagged_times : (Gate.times m xa xb xc).Untagged :=
  ⟨fun _ => ha, fun _ => hb, fun _ => hc⟩

/-- Both come out alike. -/
theorem comesOutAlike_times [Fact p.Prime] {j k : Nat} (hm : m < c.size) (hzero : m ≠ 0)
    (htwo : m ≠ 2 ∨ p ≠ 2) :
    ComesOutAlike j k ((Gate.times m xa xb xc).solve c s j)
      ((Rank1.times m xa xb xc).solve c s k) := by
  have hfour : 4 ≤ c.size := c.four_le_size
  refine Gate.comesOutAlike (untagged_times ha hb hc) ?_ ?_ (openTerms_times ha hb hc hzero)
    fun z _ => denote_times ha hb hc
  · intro q hq
    simp only [Gate.times, List.mem_cons, List.not_mem_nil, or_false] at hq
    omega
  · have hone : 1 < c.size ∧ c.denote 1 ≠ 0 :=
      ⟨by omega, CoeffPool.denote_ne_zero (by omega) one_ne_zero (Or.inl (by decide))⟩
    have hleft : m < c.size ∧ c.denote m ≠ 0 := ⟨hm, CoeffPool.denote_ne_zero hm hzero htwo⟩
    simp only [Rank1.terms, Rank1.times, List.cons_append, List.nil_append, List.forall_mem_cons,
      List.not_mem_nil, false_implies, implies_true, and_true]
    exact ⟨hleft, hone, hone⟩

end Times

/-! ### Processing them -/

namespace Circuit

/-- A gate that is constraint number `j` of its circuit and a rank-1 constraint that is number `k`
of its own end alike: both go through and leave the same values, or both fail for the same kind of
reason, and leave the states as they are. -/
inductive EndsAlike (j k : Nat) (run run' : Run p) :
    EStateM.Result Failure (Run p) Unit → EStateM.Result Failure (Run p) Unit → Prop
  | accepted {t t' : Run p} : t'.wires = t.wires → EndsAlike j k run run' (.ok () t) (.ok () t')
  | manyUnknowns : EndsAlike j k run run' (.error (.fault (.manyUnknowns j)) run)
      (.error (.fault (.manyUnknowns k)) run')
  | unsatisfied {v v' : Violation} : v.constraint = j → v'.constraint = k →
      EndsAlike j k run run' (.error (.unsatisfied v) run) (.error (.unsatisfied v') run')
  | wireOutOfRange (w : Wire) : EndsAlike j k run run' (.error (.fault (.wireOutOfRange w)) run)
      (.error (.fault (.wireOutOfRange w)) run')

variable {c d : Circuit p} {j k : Nat} {run run' : Run p}

/-- Steps that come out alike end alike, if there is an empty place for the sides. -/
theorem endsAlike_of_comesOutAlike {g : Gate} {r : Rank1}
    (hfirst : d.family = .rank1 → run'.sides[k]? = some none)
    (h : ComesOutAlike j k (g.solve c.pool run.wires j) (r.solve d.pool run'.wires k)) :
    EndsAlike j k run run' (c.solveGate j g run) (d.solveRank1 k r run') := by
  rw [solveGate_apply, solveRank1_apply]
  generalize g.solve c.pool run.wires j = m at h
  generalize r.solve d.pool run'.wires k = n at h
  cases h with
  | accepted t x =>
    dsimp only
    cases hfamily : d.family with
    | gates => exact .accepted rfl
    | rank1 =>
      rw [Solve.record_apply, hfirst hfamily]
      exact .accepted rfl
  | mismatch m m' => exact .unsatisfied rfl rfl
  | manyUnknowns => exact .manyUnknowns
  | wireOutOfRange w => exact .wireOutOfRange w

/-- The product of two wires, with any coefficient of the pool but the reserved zero, is processed
alike as a gate and as a rank-1 constraint that comes up for the first time, in states with the same
values.  The wires may be the same or not, may have values or not, and need not exist.  In the field
of order two the reserved two is zero as well. -/
theorem solveConstraint_times [Fact p.Prime] {m : Nat} {xa xb xc : Wire} (hpool : d.pool = c.pool)
    (hwires : run'.wires = run.wires) (hfirst : d.family = .rank1 → run'.sides[k]? = some none)
    (hm : m < c.pool.size) (hzero : m ≠ 0) (htwo : m ≠ 2 ∨ p ≠ 2) (ha : xa ≠ Wire.constantTag)
    (hb : xb ≠ Wire.constantTag) (hc : xc ≠ Wire.constantTag) :
    EndsAlike j k run run' (c.solveConstraint j (.gate (.times m xa xb xc)) run)
      (d.solveConstraint k (.rank1 (.times m xa xb xc)) run') := by
  refine endsAlike_of_comesOutAlike hfirst ?_
  rw [hpool, hwires]
  exact comesOutAlike_times ha hb hc hm hzero htwo

/-- A circuit of the one gate `2⋅(x⋅y) - z = 0`. -/
def twiceGate : Circuit 17 where
  family := .gates
  publicWires := 0
  secretWires := 3
  internalWires := 0
  pool := .initial
  constraints := #[.gate (.times 2 0 1 2)]
  instructions := #[.constraint 0]
  levels := [[0]]

/-- A circuit of the one rank-1 constraint `2x * y = z`. -/
def twiceRank1 : Circuit 17 :=
  { twiceGate with family := .rank1, constraints := #[.rank1 (.times 2 0 1 2)] }

/-- A state with `y = 0` and `z = 0`, in which `x` has no value. -/
def twiceRun : Run 17 := ⟨⟨#[none, some 0, some 0], 2⟩, #[none], #[], none⟩

/-- The gate goes through and leaves `x` free, and so does the rank-1 constraint. -/
theorem twice_endsAlike :
    twiceGate.solveConstraint 0 (.gate (.times 2 0 1 2)) twiceRun = .ok () twiceRun ∧
      ∃ t, twiceRank1.solveConstraint 0 (.rank1 (.times 2 0 1 2)) twiceRun = .ok () t ∧
        t.wires = twiceRun.wires := by
  have hgate : twiceGate.solveConstraint 0 (.gate (.times 2 0 1 2)) twiceRun
      = .ok () twiceRun := rfl
  have hends : EndsAlike 0 0 twiceRun twiceRun
      (twiceGate.solveConstraint 0 (.gate (.times 2 0 1 2)) twiceRun)
      (twiceRank1.solveConstraint 0 (.rank1 (.times 2 0 1 2)) twiceRun) :=
    solveConstraint_times rfl rfl (fun _ => rfl) (by decide +kernel) (by decide)
      (Or.inr (by decide)) (by decide) (by decide) (by decide)
  refine ⟨hgate, ?_⟩
  rw [hgate] at hends
  cases hrank1 : twiceRank1.solveConstraint 0 (.rank1 (.times 2 0 1 2)) twiceRun with
  | ok _ t =>
    rw [hrank1] at hends
    cases hends with
    | accepted hwires => exact ⟨t, rfl, hwires⟩
  | error e t =>
    rw [hrank1] at hends
    cases hends

end Circuit

end WireSolve
