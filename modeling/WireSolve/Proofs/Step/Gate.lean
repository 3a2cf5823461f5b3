/-
WireSolve/Proofs/Step/Gate.lean

One arithmetic gate cuts the valuations down to those at which it holds.

Putting in the values of the known wires leaves an equation in one wire at most,
and at each valuation that agrees with the assignment its left side is the
polynomial of the gate (`Gate.denote_eq_equation`).  Here a wire that takes part
must not be the tag of constants, which a term would read as the number one.
Settling the equation keeps exactly the valuations that solve it
(`Equation.agrees_iff_of_settle`): a scale that is zero leaves the wire free, but
then the rest is zero as well.

Main results, the same two as for a rank-1 constraint:
`Gate.agrees_iff_of_solve` and `Gate.not_holds_of_solve`.
-/
import WireSolve.Proofs.Evaluation
import WireSolve.Proofs.Outcome
import WireSolve.Step.Gate

namespace WireSolve

variable {p : Nat} [Modulus p] {c : CoeffPool p} {s t : Assignment p} {z : Valuation p}

/-! ### Equations -/

namespace Equation

/-- The left side of an equation at a valuation. -/
def denote (z : Valuation p) : Equation p → Fp p
  | linear w scale rest => scale * z w + rest
  | constant sum => sum

variable {e : Equation p}

/-- The wire that an equation is to be solved for. -/
def wire? : Equation p → Option Wire
  | linear w _ _ => some w
  | constant _ => none

/-- The wire has scale zero: nothing determines its value. -/
def Free : Equation p → Prop
  | linear _ scale _ => scale = 0
  | constant _ => False

/-! What settling does: a write where the wire has a scale, and a check otherwise. -/

theorem settle_linear {w : Wire} {scale : Fp p} (hscale : scale ≠ 0) (rest : Fp p) :
    (linear w scale rest).settle s = liftM (s.set w (-rest * scale⁻¹)) := by
  simp only [settle, Fp.inverse?_eq_some_iff.2 ⟨hscale, rfl⟩]

theorem settle_free (w : Wire) (rest : Fp p) :
    (linear w 0 rest).settle s =
      if -rest = 0 then .ok s else .error (.mismatch (.gateWire (-rest).val w)) := by
  simp only [settle, Fp.inverse?_eq_none_iff.2]

theorem settle_constant (sum : Fp p) :
    (constant sum).settle s =
      if sum = 0 then .ok s else .error (.mismatch (.gateSum sum.val)) :=
  rfl

/-- An equation that is settled gives its wire a value, or changes nothing. -/
theorem change_of_settle (h : e.settle s = .ok t) :
    t = s ∨ ∃ w x, e.wire? = some w ∧ s.set w x = .ok t := by
  cases e with
  | linear w scale rest =>
    by_cases hscale : scale = 0
    · rw [hscale, settle_free] at h
      split at h
      · exact Or.inl (Except.ok.inj h).symm
      · cases h
    · rw [settle_linear hscale] at h
      exact Or.inr ⟨w, _, rfl, Outcome.lift_eq_ok_iff.1 h⟩
  | constant sum =>
    rw [settle_constant] at h
    split at h
    · exact Or.inl (Except.ok.inj h).symm
    · cases h

theorem grows_of_settle (h : e.settle s = .ok t) : s.Grows t :=
  (change_of_settle h).imp_right fun ⟨w, x, _, hset⟩ => ⟨w, x, hset⟩

/-- Settling keeps exactly the valuations that solve the equation. -/
theorem agrees_iff_of_settle [Fact p.Prime] (h : e.settle s = .ok t) :
    t.Agrees z ↔ s.Agrees z ∧ e.denote z = 0 := by
  cases e with
  | linear w scale rest =>
    by_cases hscale : scale = 0
    · -- the wire stays free, and every value of it solves the equation
      rw [hscale, settle_free] at h
      split at h
      · next hrest =>
        obtain rfl := Except.ok.inj h
        rw [denote, hscale, zero_mul, zero_add, neg_eq_zero.1 hrest]
        exact (and_iff_left rfl).symm
      · cases h
    · -- the wire gets the only value that solves the equation
      rw [settle_linear hscale] at h
      rw [Assignment.agrees_of_set (Outcome.lift_eq_ok_iff.1 h), denote, add_eq_zero_iff_eq_neg,
        eq_mul_inv_iff_mul_eq₀ hscale, mul_comm]
  | constant sum =>
    rw [settle_constant] at h
    split at h
    · next hsum =>
      obtain rfl := Except.ok.inj h
      exact (and_iff_left hsum).symm
    · cases h

/-- An equation that is refused as a mismatch has no solution. -/
theorem denote_ne_zero_of_settle {m : Mismatch} (h : e.settle s = .error (.mismatch m))
    (z : Valuation p) : e.denote z ≠ 0 := by
  cases e with
  | linear w scale rest =>
    by_cases hscale : scale = 0
    · rw [hscale, settle_free] at h
      split at h
      · cases h
      · next hrest =>
        rw [denote, hscale, zero_mul, zero_add]
        exact fun hz => hrest (neg_eq_zero.2 hz)
    · rw [settle_linear hscale] at h
      exact absurd h Outcome.lift_ne_mismatch
  | constant sum =>
    rw [settle_constant] at h
    split at h
    · cases h
    · assumption

end Equation

namespace Gate

variable {g : Gate} {k : Nat} {e : Equation p}

/-- A gate none of whose wires is the tag of constants, as far as they take part. -/
structure Untagged (g : Gate) : Prop where
  left : g.usesA → g.xa ≠ Wire.constantTag
  right : g.usesB → g.xb ≠ Wire.constantTag
  out : g.usesC → g.xc ≠ Wire.constantTag

theorem InRange.untagged {n : Nat} (h : g.InRange c n) : g.Untagged :=
  ⟨fun ha => (h.left ha).2, fun hb => (h.right hb).2, fun hc => (h.out hc).2⟩

theorem usesA_iff : g.usesA = true ↔ g.qL ≠ 0 ∨ g.qM ≠ 0 := by
  simp [usesA]

theorem usesB_iff : g.usesB = true ↔ g.qR ≠ 0 ∨ g.qM ≠ 0 := by
  simp [usesB]

theorem usesC_iff : g.usesC = true ↔ g.qO ≠ 0 := by
  simp [usesC]

/-! ### The parts of the polynomial -/

/-- A part is a selector times a wire: where the selector is the reserved zero, the wire may be
anything. -/
theorem part_eq_ok {q : Nat} {w : Wire} {x : Fp p} (h : part c s q w = .ok x)
    (hw : q ≠ 0 → w ≠ Wire.constantTag) (hz : s.Agrees z) : x = c.denote q * z w := by
  rw [← Term.denote_eq_of_value h hz, Term.denote]
  by_cases hq : q = 0
  · simp [hq]
  · rw [if_neg]
    simpa [Term.isConstant] using hw hq

theorem partA_eq_ok {x : Fp p} (h : part c s g.qL g.xa = .ok x) (hg : g.Untagged)
    (hz : s.Agrees z) : x = c.denote g.qL * z g.xa :=
  part_eq_ok h (fun hq => hg.left (usesA_iff.2 (Or.inl hq))) hz

theorem partB_eq_ok {x : Fp p} (h : part c s g.qR g.xb = .ok x) (hg : g.Untagged)
    (hz : s.Agrees z) : x = c.denote g.qR * z g.xb :=
  part_eq_ok h (fun hq => hg.right (usesB_iff.2 (Or.inl hq))) hz

theorem partC_eq_ok {x : Fp p} (h : part c s g.qO g.xc = .ok x) (hg : g.Untagged)
    (hz : s.Agrees z) : x = c.denote g.qO * z g.xc :=
  part_eq_ok h (fun hq => hg.out (usesC_iff.2 hq)) hz

theorem cofactor_eq_ok {w : Wire} {x : Fp p} (h : g.cofactor c s w = .ok x)
    (hw : g.qM ≠ 0 → w ≠ Wire.constantTag) (hz : s.Agrees z) : x = c.denote g.qM * z w := by
  unfold cofactor at h
  split at h
  · next hqM =>
    rw [hqM, CoeffPool.denote_zero, zero_mul]
    exact (Except.ok.inj h).symm
  · exact part_eq_ok h hw hz

theorem product_eq_ok {x : Fp p} (h : g.product c s = .ok x) (hg : g.Untagged)
    (hz : s.Agrees z) : x = c.denote g.qM * (z g.xa * z g.xb) := by
  unfold product at h
  split at h
  · next hqM =>
    rw [hqM, CoeffPool.denote_zero, zero_mul]
    exact (Except.ok.inj h).symm
  · next hqM =>
    have ha := hg.left (usesA_iff.2 (Or.inr hqM))
    have hb := hg.right (usesB_iff.2 (Or.inr hqM))
    obtain ⟨a, hxa, h⟩ := Outcome.bind_eq_ok_iff.1 h
    obtain ⟨b, hxb, h⟩ := Outcome.bind_eq_ok_iff.1 h
    rw [← Outcome.pure_eq_ok_iff.1 h, part_eq_ok hxa (fun _ => ha) hz,
      part_eq_ok hxb (fun _ => hb) hz, CoeffPool.denote_one]
    ring

/-! ### The equation -/

/-- At a valuation the polynomial of the gate is the left side of its equation. -/
theorem denote_eq_equation (h : g.equation c s = .ok e) (hg : g.Untagged) (hz : s.Agrees z) :
    g.denote c z = e.denote z := by
  unfold equation at h
  obtain ⟨qC, hqC, h⟩ := Outcome.bind_eq_ok_iff.1 h
  rw [denote, CoeffPool.denote_eq_of_fetch hqC]
  split at h
  · -- the left wire is open
    obtain ⟨qL, hqL, h⟩ := Outcome.bind_eq_ok_iff.1 h
    obtain ⟨m, hm, h⟩ := Outcome.bind_eq_ok_iff.1 h
    obtain ⟨xb, hxb, h⟩ := Outcome.bind_eq_ok_iff.1 h
    obtain ⟨xc, hxc, h⟩ := Outcome.bind_eq_ok_iff.1 h
    have hb : g.qM ≠ 0 → g.xb ≠ Wire.constantTag := fun hq => hg.right (usesB_iff.2 (Or.inr hq))
    rw [← Outcome.pure_eq_ok_iff.1 h, Equation.denote, CoeffPool.denote_eq_of_fetch hqL,
      cofactor_eq_ok hm hb hz, partB_eq_ok hxb hg hz, partC_eq_ok hxc hg hz]
    ring
  · split at h
    · -- the right wire is open
      obtain ⟨qR, hqR, h⟩ := Outcome.bind_eq_ok_iff.1 h
      obtain ⟨m, hm, h⟩ := Outcome.bind_eq_ok_iff.1 h
      obtain ⟨xa, hxa, h⟩ := Outcome.bind_eq_ok_iff.1 h
      obtain ⟨xc, hxc, h⟩ := Outcome.bind_eq_ok_iff.1 h
      have ha : g.qM ≠ 0 → g.xa ≠ Wire.constantTag := fun hq => hg.left (usesA_iff.2 (Or.inr hq))
      rw [← Outcome.pure_eq_ok_iff.1 h, Equation.denote, CoeffPool.denote_eq_of_fetch hqR,
        cofactor_eq_ok hm ha hz, partA_eq_ok hxa hg hz, partC_eq_ok hxc hg hz]
      ring
    · split at h
      · -- the output wire is open
        obtain ⟨qO, hqO, h⟩ := Outcome.bind_eq_ok_iff.1 h
        obtain ⟨xa, hxa, h⟩ := Outcome.bind_eq_ok_iff.1 h
        obtain ⟨xb, hxb, h⟩ := Outcome.bind_eq_ok_iff.1 h
        obtain ⟨m, hm, h⟩ := Outcome.bind_eq_ok_iff.1 h
        rw [← Outcome.pure_eq_ok_iff.1 h, Equation.denote, CoeffPool.denote_eq_of_fetch hqO,
          partA_eq_ok hxa hg hz, partB_eq_ok hxb hg hz, product_eq_ok hm hg hz]
        ring
      · -- every wire is known
        obtain ⟨xa, hxa, h⟩ := Outcome.bind_eq_ok_iff.1 h
        obtain ⟨xb, hxb, h⟩ := Outcome.bind_eq_ok_iff.1 h
        obtain ⟨xc, hxc, h⟩ := Outcome.bind_eq_ok_iff.1 h
        obtain ⟨m, hm, h⟩ := Outcome.bind_eq_ok_iff.1 h
        rw [← Outcome.pure_eq_ok_iff.1 h, Equation.denote, partA_eq_ok hxa hg hz,
          partB_eq_ok hxb hg hz, partC_eq_ok hxc hg hz, product_eq_ok hm hg hz]

/-! ### The step -/

/-- A gate that is accepted has one unknown wire at most, and its equation is settled. -/
theorem solve_eq_ok (h : g.solve c s k = .ok t) :
    g.unknowns s ≤ 1 ∧ ∃ e, g.equation c s = .ok e ∧ e.settle s = .ok t := by
  unfold solve at h
  split at h
  · cases h
  · next hcount =>
    obtain ⟨e, he, h⟩ := Outcome.bind_eq_ok_iff.1 h
    exact ⟨Nat.le_of_not_lt hcount, e, Outcome.lift_eq_ok_iff.1 he, h⟩

theorem solve_eq_mismatch {m : Mismatch} (h : g.solve c s k = .error (.mismatch m)) :
    ∃ e, g.equation c s = .ok e ∧ e.settle s = .error (.mismatch m) := by
  unfold solve at h
  split at h
  · cases h
  · rcases Outcome.bind_eq_error_iff.1 h with h | ⟨e, he, h⟩
    · exact absurd h Outcome.lift_ne_mismatch
    · exact ⟨e, Outcome.lift_eq_ok_iff.1 he, h⟩

/-- A step gives a value to one wire at most. -/
theorem grows_of_solve (h : g.solve c s k = .ok t) : s.Grows t := by
  obtain ⟨-, e, -, hsettle⟩ := solve_eq_ok h
  exact Equation.grows_of_settle hsettle

/-- The assignment that is reached stands for exactly the valuations at which the gate holds, of
those that the assignment before stood for. -/
theorem agrees_iff_of_solve [Fact p.Prime] (h : g.solve c s k = .ok t) (hg : g.Untagged) :
    t.Agrees z ↔ s.Agrees z ∧ g.Holds c z := by
  obtain ⟨-, e, he, hsettle⟩ := solve_eq_ok h
  rw [Equation.agrees_iff_of_settle hsettle]
  refine and_congr_right fun hz => ?_
  rw [Holds, denote_eq_equation he hg hz]

/-- No valuation that the assignment stands for survives a mismatch. -/
theorem not_holds_of_solve {m : Mismatch} (h : g.solve c s k = .error (.mismatch m))
    (hg : g.Untagged) (hz : s.Agrees z) : ¬ g.Holds c z := by
  obtain ⟨e, he, hsettle⟩ := solve_eq_mismatch h
  rw [Holds, denote_eq_equation he hg hz]
  exact Equation.denote_ne_zero_of_settle hsettle z

end Gate

end WireSolve
