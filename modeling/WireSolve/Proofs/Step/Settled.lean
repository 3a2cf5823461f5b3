/-
WireSolve/Proofs/Step/Settled.lean

A rank-1 constraint and a gate that say the same come out alike.

A gate becomes an equation in its open wire when the values of the others are put in,
and so does a rank-1 constraint: what the product of its factors exceeds its output by
is linear in the open term, and the slope is the other factor, or minus one
(`Rank1.equation`).  Apart from the sides that it returns, a rank-1 constraint settles
that equation, if its open term is not scaled by zero (`Rank1.comesOutAlike_settle`).

An equation is determined by what it says.  Two that are for the same open wire, and
whose left sides are the same at every valuation that the assignment agrees with, are
equal (`Equation.eq_of_denote`).  So it does not matter how the two kinds of constraint
arrive at theirs.

Main result: `Gate.comesOutAlike`.
-/
import WireSolve.Proofs.Step.Faults

namespace WireSolve

variable {p : Nat} [Modulus p] {c : CoeffPool p} {s : Assignment p} {z : Valuation p} {k : Nat}

/-! ### Equations -/

/-- Equations for the same wire, which has no value, are equal if they say the same at every
valuation that the assignment agrees with. -/
theorem Equation.eq_of_denote {e e' : Equation p} (hwire : e.wire? = e'.wire?)
    (hopen : ∀ w, e.wire? = some w → s.isSolved w = false)
    (hdenote : ∀ z, s.Agrees z → e.denote z = e'.denote z) : e = e' := by
  have hzero := hdenote (s.fill 0) (s.agrees_fill 0)
  have hone := hdenote (s.fill 1) (s.agrees_fill 1)
  cases e with
  | constant sum =>
    cases e' with
    | constant sum' => exact congrArg constant hzero
    | linear w' scale' rest' => cases hwire
  | linear w scale rest =>
    cases e' with
    | constant sum' => cases hwire
    | linear w' scale' rest' =>
      obtain rfl : w = w' := Option.some.inj hwire
      have hfill : ∀ x, s.fill x w = x := fun x => by
        rw [Assignment.fill, Assignment.isSolved_eq_false_iff.1 (hopen w rfl), Option.getD_none]
      -- the rest is the value at zero, and the scale the difference to the value at one
      simp only [denote, hfill, mul_zero, zero_add] at hzero
      simp only [denote, hfill, mul_one, hzero, add_left_inj] at hone
      rw [hzero, hone]

/-! ### Sides -/

namespace Sides

variable {x : Sides p} {side : Side} {y : Fp p}

/-- What the product of the factors exceeds the output by. -/
def excess (x : Sides p) : Fp p := x.left * x.right - x.out

/-- What the excess grows by with what is added to one side. -/
def slope (x : Sides p) : Side → Fp p
  | .left => x.right
  | .right => x.left
  | .out => -1

theorem balanced_iff_excess : x.balanced = true ↔ x.excess = 0 := by
  rw [balanced_iff, excess, sub_eq_zero]

theorem excess_add (x : Sides p) (side : Side) (y : Fp p) :
    (x.add side y).excess = x.slope side * y + x.excess := by
  cases side <;> simp only [excess, add, slope] <;> ring

/-- Nothing is missing where no contribution changes the excess. -/
theorem missing_eq_none_iff [Fact p.Prime] : x.missing side = none ↔ x.slope side = 0 := by
  cases side <;> simp [missing, slope]

/-- What is missing makes up for the excess. -/
theorem slope_mul_missing [Fact p.Prime] (h : x.missing side = some y) :
    x.slope side * y + x.excess = 0 := by
  rw [← excess_add, ← balanced_iff_excess]
  exact (balanced_add_iff h y).2 rfl

end Sides

/-! ### Verdicts -/

/-- A gate that is constraint number `j` and a rank-1 constraint that is number `k` come out alike:
both go through and reach the same assignment, or both do not come out, or both have too many
unknowns, or both are for a wire that does not exist. -/
inductive ComesOutAlike (j k : Nat) :
    Except Refusal (Assignment p) → Except Refusal (Assignment p × Sides p) → Prop
  | accepted (t : Assignment p) (x : Sides p) : ComesOutAlike j k (.ok t) (.ok (t, x))
  | mismatch (m m' : Mismatch) :
      ComesOutAlike j k (.error (.mismatch m)) (.error (.mismatch m'))
  | manyUnknowns : ComesOutAlike j k (.error (.fault (.manyUnknowns j)))
      (.error (.fault (.manyUnknowns k)))
  | wireOutOfRange (w : Wire) : ComesOutAlike j k (.error (.fault (.wireOutOfRange w)))
      (.error (.fault (.wireOutOfRange w)))

/-! ### Rank-1 constraints -/

namespace Rank1

variable {r : Rank1} {x : Sides p} {u : Option (Side × Term)}

/-- A rank-1 constraint with the values of its known wires put in, as an equation in the wire of
its open term. -/
def equation (c : CoeffPool p) (x : Sides p) : Option (Side × Term) → Equation p
  | none => .constant x.excess
  | some (side, v) => .linear v.wire (x.slope side * c.denote v.coeff) x.excess

/-- At a valuation its left side is what the product of the factors exceeds the output by. -/
theorem denote_equation (h : r.scan c s k = .ok (x, u)) (hz : s.Agrees z) :
    (equation c x u).denote z = (r.sides c z).excess := by
  rw [sides_eq_complete h hz]
  rcases u with - | ⟨side, v⟩
  · rfl
  · change _ = (x.add side (v.denote c z)).excess
    rw [Sides.excess_add, denote_open h, ← mul_assoc]
    rfl

theorem wire?_equation (h : r.scan c s k = .ok (x, u)) :
    (equation c x u).wire?.toList = (r.openTerms s).map Term.wire := by
  rw [← scan_opens h]
  rcases u with - | ⟨side, v⟩ <;> rfl

/-- Where the sides are closed the equation is checked, as it has no wire or scale zero. -/
theorem settle_of_closed [Fact p.Prime] (hu : x.Closed u) :
    (x.excess = 0 → (equation c x u).settle s = .ok s) ∧
      (x.excess ≠ 0 → ∃ m, (equation c x u).settle s = .error (.mismatch m)) := by
  rcases u with - | ⟨side, v⟩
  · rw [equation, Equation.settle_constant]
    exact ⟨fun h => if_pos h, fun h => ⟨_, if_neg h⟩⟩
  · rw [equation, Sides.missing_eq_none_iff.1 (hu side v rfl), zero_mul, Equation.settle_free]
    exact ⟨fun h => if_pos (neg_eq_zero.2 h), fun h => ⟨_, if_neg (mt neg_eq_zero.1 h)⟩⟩

/-- A constraint whose open term is not scaled by zero settles its equation. -/
theorem comesOutAlike_settle [Fact p.Prime] {j : Nat} (hscan : r.scan c s k = .ok (x, u))
    (hcoeff : ∀ side v, u = some (side, v) → v.coeff < c.size ∧ c.denote v.coeff ≠ 0) :
    ComesOutAlike j k ((equation c x u).settle s) (r.solve c s k) := by
  rcases x.closed_or_missing u with hu | ⟨side, v, y, rfl, hy⟩
  · obtain ⟨hbalanced, hunbalanced⟩ := settle_of_closed (c := c) (s := s) hu
    rw [solve_of_closed hscan hu, check]
    by_cases hexcess : x.excess = 0
    · rw [hbalanced hexcess, if_pos (Sides.balanced_iff_excess.2 hexcess)]
      exact .accepted s x
    · obtain ⟨m, hm⟩ := hunbalanced hexcess
      rw [hm, if_neg (mt Sides.balanced_iff_excess.1 hexcess)]
      exact .mismatch m _
  · -- the value of the wire is the solution of the equation
    have hslope : x.slope side ≠ 0 := by
      rw [ne_eq, ← Sides.missing_eq_none_iff, hy]
      exact Option.some_ne_none y
    obtain ⟨hlt, hne⟩ := hcoeff side v rfl
    obtain ⟨q, hq⟩ := CoeffPool.divide_isOk (x := y) hlt hne
    have hvalue : -x.excess * (x.slope side * c.denote v.coeff)⁻¹ = q := by
      rw [← eq_neg_of_add_eq_zero_left (Sides.slope_mul_missing hy),
        ← (CoeffPool.divide_eq_ok hq).2, ← mul_assoc, mul_comm _ q,
        mul_inv_cancel_right₀ (mul_ne_zero hslope hne)]
    rw [equation, Equation.settle_linear (mul_ne_zero hslope hne), hvalue,
      solve_of_missing hscan hy, hq, Outcome.lift_ok_bind]
    rcases hset : s.set v.wire q with f | t
    · rcases Assignment.set_eq_error hset with ⟨-, hsolved⟩ | ⟨rfl, -⟩
      · rw [Assignment.isSolved, (open_of_scan hscan side v rfl).2] at hsolved
        cases hsolved
      · exact .wireOutOfRange v.wire
    · exact .accepted t _

end Rank1

/-! ### Gates -/

/-- A gate and a rank-1 constraint that leave the same wires open, place by place, and whose left
sides are the same at every valuation that the assignment agrees with. -/
theorem Gate.comesOutAlike [Fact p.Prime] {j : Nat} {g : Gate} {r : Rank1} (hg : g.Untagged)
    (hselectors : ∀ q ∈ [g.qL, g.qR, g.qO, g.qM, g.qC], q < c.size)
    (hcoeffs : ∀ v ∈ r.terms, v.coeff < c.size ∧ c.denote v.coeff ≠ 0)
    (hopen : (r.openTerms s).map Term.wire = g.openPositions s)
    (hdenote : ∀ z, s.Agrees z → g.denote c z = (r.sides c z).excess) :
    ComesOutAlike j k (g.solve c s j) (r.solve c s k) := by
  have hlength : (r.openTerms s).length = g.unknowns s := by
    rw [← length_openPositions, ← hopen, List.length_map]
  have hlt : ∀ v ∈ r.terms, v.coeff < c.size := fun v hv => (hcoeffs v hv).1
  by_cases hcount : g.unknowns s ≤ 1
  · obtain ⟨⟨x, u⟩, hscan⟩ := (Rank1.scan_isOk_iff (k := k) hlt).2 (hlength ▸ hcount)
    obtain ⟨e, he⟩ := equation_isOk hselectors hcount
    have heq : e = Rank1.equation c x u := by
      refine Equation.eq_of_denote (s := s) ?_ ?_ ?_
      · have hwires := (wire?_of_equation he hcount).trans
          (hopen.symm.trans (Rank1.wire?_equation hscan).symm)
        rw [← Option.head?_toList (o := e.wire?), hwires, Option.head?_toList]
      · exact fun w hw => (open_of_equation he hw).2
      · intro z hz
        rw [← denote_eq_equation he hg hz, Rank1.denote_equation hscan hz, hdenote z hz]
    rw [solve_of_equation hcount he, heq]
    exact Rank1.comesOutAlike_settle hscan fun side v hu =>
      hcoeffs v ((Rank1.scan_terms hscan).2 side v hu)
  · have hmany : 1 < g.unknowns s := Nat.lt_of_not_le hcount
    rw [solve_of_manyUnknowns hmany, Rank1.solve_of_manyUnknowns hlt (hlength ▸ hmany)]
    exact .manyUnknowns

end WireSolve
