/-
WireSolve/Proofs/Circuit/Check.lean

The exported matrices check what the constraints check.

Against an assignment in which every wire has a value, a rank-1 constraint that is
in range has no open term: its scan evaluates the three sides
(`Rank1.scan_ofValues`), and what is left of it is the check of their product
(`Circuit.solveRank1_of_holds`, `Circuit.solveRank1_of_not_holds`).  The rows of the
matrices evaluate the same sides, so the first row in which the products differ
belongs to the first constraint that is rejected.

Main result: `Circuit.matrices_check`.
-/
import WireSolve.Proofs.Circuit.Matrices
import WireSolve.Proofs.Solve.Constraints
import WireSolve.Proofs.Step.Rank1

namespace WireSolve

variable {p : Nat} [Modulus p] {values : Array (Fp p)}

/-! ### Sides against an assignment with all wires solved -/

/-- The value of one side of a constraint against an assignment; constraints that are not rank-1
have no sides. -/
def Constraint.value (c : CoeffPool p) (s : Assignment p) (side : Rank1 → LinComb) :
    Constraint p → Except Fault (Fp p)
  | rank1 r => LinComb.value c s (side r)
  | gate _ => .ok 0
  | custom _ => .ok 0

section Sides

variable {c : CoeffPool p} {k : Nat} {r : Rank1}

/-- A term that is in range has a value, and so it is known to the scan. -/
theorem Term.known_ofValues {t : Term} (h : t.InRange c values.size) :
    t.isConstant ∨ (Assignment.ofValues values).isSolved t.wire := by
  refine h.2.imp_right fun hw => Assignment.isSolved_eq_true_iff.2 ⟨values[t.wire.toNat], ?_⟩
  rw [Assignment.get?_ofValues, Array.getElem?_eq_getElem hw]

theorem Term.value_ofValues {t : Term} (h : t.InRange c values.size) :
    ∃ x, t.value c (.ofValues values) = .ok x :=
  Term.value_isOk_iff.2 ⟨h.1, (Term.known_ofValues h).imp_right Or.inr⟩

/-- A combination that is in range has the value that it denotes. -/
theorem LinComb.value_ofValues {e : LinComb} (h : ∀ t ∈ e, t.InRange c values.size) :
    LinComb.value c (.ofValues values) e = .ok (LinComb.denote c (.ofValues values) e) :=
  LinComb.value_eq_denote (fun t ht => Term.value_ofValues (h t ht))
    (Assignment.agrees_ofValues (Assignment.values_ofValues values))

namespace Rank1

theorem scanSide_ofValues {side : Side} {e : LinComb} {u : Option (Side × Term)}
    (h : ∀ t ∈ e, t.InRange c values.size) :
    scanSide c (.ofValues values) k side e 0 u
      = .ok (LinComb.denote c (.ofValues values) e, u) := by
  rw [scanSide_of_known fun t ht => Term.known_ofValues (h t ht)]
  show (LinComb.value c (.ofValues values) e).map _ = _
  rw [LinComb.value_ofValues h]
  rfl

/-- The scan leaves nothing open. -/
theorem scan_ofValues (h : r.InRange c values.size) :
    r.scan c (.ofValues values) k = .ok (r.sides c (.ofValues values), none) := by
  unfold scan
  refine Outcome.bind_eq_ok_iff.2 ⟨_, scanSide_ofValues h.1, ?_⟩
  refine Outcome.bind_eq_ok_iff.2 ⟨_, scanSide_ofValues h.2.1, ?_⟩
  exact Outcome.bind_eq_ok_iff.2 ⟨_, scanSide_ofValues h.2.2, rfl⟩

/-- The constraint is only checked. -/
theorem solve_ofValues (h : r.InRange c values.size) :
    r.solve c (.ofValues values) k
      = check (r.sides c (.ofValues values)) >>= fun _ =>
          pure (.ofValues values, r.sides c (.ofValues values)) :=
  solve_of_closed (scan_ofValues h) (by rintro side v ⟨⟩)

end Rank1

end Sides

namespace Circuit

variable {c : Circuit p} {run : Run p} {k : Nat} {r : Rank1}

/-! ### Constraints in a state with all wires solved -/

/-- A constraint that holds at the values is accepted. -/
theorem solveRank1_of_holds (hr : r.InRange c.pool values.size)
    (hwires : run.wires = .ofValues values) (hside : run.sides[k]? = some none)
    (h : r.Holds c.pool (.ofValues values)) : ∃ t, c.solveRank1 k r run = .ok () t := by
  have hcheck : Rank1.check (r.sides c.pool (.ofValues values)) = .ok () := by
    rw [Rank1.check, if_pos (Rank1.holds_iff_balanced.1 h)]
  rw [solveRank1_apply, hwires, Rank1.solve_ofValues hr, hcheck]
  cases hfamily : c.family with
  | gates => exact ⟨_, rfl⟩
  | rank1 =>
    change ∃ t, Solve.record .rank1 k _ _ = _
    rw [Solve.record_apply, hside]
    exact ⟨_, rfl⟩

/-- A constraint that does not hold at the values is rejected, by its own number. -/
theorem solveRank1_of_not_holds (hr : r.InRange c.pool values.size)
    (hwires : run.wires = .ofValues values) (h : ¬ r.Holds c.pool (.ofValues values)) :
    ∃ m, c.solveRank1 k r run = .error (.unsatisfied (c.violation run.wires k m)) run := by
  have hcheck : ∃ m, Rank1.check (r.sides c.pool (.ofValues values)) = .error (.mismatch m) := by
    rw [Rank1.check, if_neg (mt Rank1.holds_iff_balanced.2 h)]
    exact ⟨_, rfl⟩
  obtain ⟨m, hm⟩ := hcheck
  refine ⟨m, ?_⟩
  rw [solveRank1_apply, hwires, Rank1.solve_ofValues hr, hm]
  rfl

/-- Constraint number `k` is accepted in a state, if it is a rank-1 constraint. -/
def Accepts (c : Circuit p) (run : Run p) (k : Nat) : Prop :=
  ∀ r, c.constraints[k]? = some (.rank1 r) → ∃ t, c.solveRank1 k r run = .ok () t

/-- Constraint number `k` is a rank-1 constraint that is rejected in a state as not satisfied. -/
def Rejects (c : Circuit p) (run : Run p) (k : Nat) : Prop :=
  ∃ r v t, c.constraints[k]? = some (.rank1 r) ∧
    c.solveRank1 k r run = .error (.unsatisfied v) t ∧ v.constraint = k

/-- A state to check constraints in: every wire has its value, and no sides are recorded. -/
structure ChecksAt (c : Circuit p) (values : Array (Fp p)) (run : Run p) : Prop where
  wires_eq : run.wires = .ofValues values
  sides_eq : ∀ k < c.constraints.size, run.sides[k]? = some none

/-- Whether the sides of a constraint do not come out. -/
def isViolated (c : Circuit p) (values : Array (Fp p)) (q : Constraint p) : Bool :=
  q.denote c.pool (.ofValues values) Rank1.left * q.denote c.pool (.ofValues values) Rank1.right
    != q.denote c.pool (.ofValues values) Rank1.out

theorem isViolated_rank1 :
    c.isViolated values (.rank1 r) = true ↔ ¬ r.Holds c.pool (.ofValues values) :=
  bne_iff_ne

/-- Only rank-1 constraints are violated; all others have zeros on both sides. -/
theorem exists_of_isViolated {q : Constraint p} (h : c.isViolated values q = true) :
    ∃ r, q = .rank1 r ∧ ¬ r.Holds c.pool (.ofValues values) := by
  cases q with
  | rank1 r => exact ⟨r, rfl, isViolated_rank1.1 h⟩
  | gate g => exact absurd (zero_mul (0 : Fp p)) (bne_iff_ne.1 h)
  | custom body => exact absurd (zero_mul (0 : Fp p)) (bne_iff_ne.1 h)

variable (hc : c.TermsInRange) (hsize : values.size = c.wireCount) (hrun : c.ChecksAt values run)

include hc hsize in
/-- A rank-1 constraint of the circuit is in range of the values. -/
theorem inRange_of_getElem? (hk : c.constraints[k]? = some (.rank1 r)) :
    r.InRange c.pool values.size := by
  rw [hsize]
  exact hc _ (Array.mem_of_getElem? hk)

include hc hsize hrun in
/-- The constraints that are accepted are those that are not violated. -/
theorem accepts_iff :
    c.Accepts run k ↔ ∀ q, c.constraints[k]? = some q → c.isViolated values q = false := by
  constructor
  · intro haccepts q hq
    refine Bool.eq_false_iff.2 fun hviolated => ?_
    obtain ⟨r, rfl, hr⟩ := exists_of_isViolated hviolated
    obtain ⟨t, ht⟩ := haccepts r hq
    obtain ⟨m, hm⟩ :=
      solveRank1_of_not_holds (k := k) (inRange_of_getElem? hc hsize hq) hrun.wires_eq hr
    rw [hm] at ht
    cases ht
  · intro h r hk
    have hholds : r.Holds c.pool (.ofValues values) := by
      by_contra hr
      rw [← isViolated_rank1, h _ hk] at hr
      cases hr
    exact solveRank1_of_holds (inRange_of_getElem? hc hsize hk) hrun.wires_eq
      (hrun.sides_eq k (Array.getElem?_eq_some_iff.1 hk).1) hholds

include hc hsize hrun in
/-- The constraints that are rejected are those that are violated. -/
theorem rejects_iff :
    c.Rejects run k ↔ ∃ q, c.constraints[k]? = some q ∧ c.isViolated values q = true := by
  constructor
  · rintro ⟨r, v, t, hk, hreject, -⟩
    refine ⟨_, hk, isViolated_rank1.2 fun hholds => ?_⟩
    obtain ⟨t', ht'⟩ := solveRank1_of_holds (inRange_of_getElem? hc hsize hk) hrun.wires_eq
      (hrun.sides_eq k (Array.getElem?_eq_some_iff.1 hk).1) hholds
    rw [hreject] at ht'
    cases ht'
  · rintro ⟨q, hq, hviolated⟩
    obtain ⟨r, rfl, hr⟩ := exists_of_isViolated hviolated
    obtain ⟨m, hm⟩ :=
      solveRank1_of_not_holds (k := k) (inRange_of_getElem? hc hsize hq) hrun.wires_eq hr
    exact ⟨r, _, _, hq, hm, rfl⟩

/-! ### Rows -/

/-- The first row in which the products differ is the first constraint that is violated. -/
theorem violated?_eq {m : Rank1Matrices p} (ha : c.IsMatrix Rank1.left m.a)
    (hb : c.IsMatrix Rank1.right m.b) (hd : c.IsMatrix Rank1.out m.c)
    (hsize : values.size = c.wireCount) (hone : Valuation.ofValues values 0 = 1) :
    m.violated? values = .ok (c.constraints.toList.findIdx? (c.isViolated values)) := by
  unfold Rank1Matrices.violated?
  rw [ha.mulVector_eq hsize hone, hb.mulVector_eq hsize hone, hd.mulVector_eq hsize hone]
  refine congrArg Except.ok ?_
  rw [List.zip_map', List.zip_map', List.findIdx?_map]
  rfl

/-- In range, a side has a value at the assignment, which is what it denotes. -/
theorem value_eq_denote {side : Rank1 → LinComb} (hc : c.TermsInRange) (hside : c.Covers side)
    (hsize : values.size = c.wireCount) :
    (c.constraints.toList.map (Constraint.denote c.pool (.ofValues values) side)).map Except.ok
      = c.constraints.toList.map (Constraint.value c.pool (.ofValues values) side) := by
  rw [List.map_map]
  refine List.map_congr_left fun q hq => ?_
  have hrange := hc q (Array.mem_toList_iff.1 hq)
  cases q with
  | rank1 r =>
    refine (LinComb.value_ofValues fun t ht => ?_).symm
    rw [hsize]
    exact hside r hrange t ht
  | gate g => rfl
  | custom body => rfl

/-- The products of the exported matrices with a vector of values are the sides of the constraints,
evaluated against the assignment that has these values.  The first row that is reported is the
first rank-1 constraint that is rejected there, and no row is reported exactly when all of them are
accepted. -/
theorem matrices_check (hc : c.TermsInRange) (hsize : values.size = c.wireCount)
    (hone : values[0]? = some 1) (hrun : c.ChecksAt values run) :
    ∃ m az bz cz first, c.matrices = .ok m ∧
      m.a.mulVector values = .ok az ∧ m.b.mulVector values = .ok bz ∧
      m.c.mulVector values = .ok cz ∧
      az.map .ok = c.constraints.toList.map (Constraint.value c.pool run.wires Rank1.left) ∧
      bz.map .ok = c.constraints.toList.map (Constraint.value c.pool run.wires Rank1.right) ∧
      cz.map .ok = c.constraints.toList.map (Constraint.value c.pool run.wires Rank1.out) ∧
      m.violated? values = .ok first ∧
      (first = none ↔ ∀ k, c.Accepts run k) ∧
      ∀ k, first = some k ↔ c.Rejects run k ∧ ∀ j < k, c.Accepts run j := by
  have hone' : Valuation.ofValues values 0 = 1 := by
    show values.getD 0 0 = 1
    rw [Array.getD_eq_getD_getElem?, hone, Option.getD_some]
  have hwires : 0 < c.wireCount := hsize ▸ (Array.getElem?_eq_some_iff.1 hone).1
  obtain ⟨m, hm, ha, hb, hd⟩ := matrices_of_terms hc hwires
  refine ⟨m, _, _, _, _, hm, ha.mulVector_eq hsize hone', hb.mulVector_eq hsize hone',
    hd.mulVector_eq hsize hone', ?_, ?_, ?_, violated?_eq ha hb hd hsize hone', ?_, fun k => ?_⟩
  · rw [hrun.wires_eq]
    exact value_eq_denote hc covers_left hsize
  · rw [hrun.wires_eq]
    exact value_eq_denote hc covers_right hsize
  · rw [hrun.wires_eq]
    exact value_eq_denote hc covers_out hsize
  · simp only [List.findIdx?_eq_none_iff, accepts_iff hc hsize hrun, ← Array.getElem?_toList]
    exact ⟨fun h k q hq => h q (List.mem_of_getElem? hq), fun h q hq =>
      (List.getElem?_of_mem hq).elim fun k hk => h k q hk⟩
  · rw [List.findIdx?_eq_some_iff_getElem, rejects_iff hc hsize hrun]
    simp only [accepts_iff hc hsize hrun, ← Array.getElem?_toList]
    constructor
    · rintro ⟨hk, hviolated, hbefore⟩
      refine ⟨⟨_, List.getElem?_eq_getElem hk, hviolated⟩, fun j hj q hq => ?_⟩
      obtain ⟨hlt, rfl⟩ := List.getElem?_eq_some_iff.1 hq
      exact Bool.eq_false_iff.2 (hbefore j hj)
    · rintro ⟨⟨q, hq, hviolated⟩, hbefore⟩
      obtain ⟨hk, rfl⟩ := List.getElem?_eq_some_iff.1 hq
      refine ⟨hk, hviolated, fun j hj => Bool.eq_false_iff.1 ?_⟩
      exact hbefore j hj _ (List.getElem?_eq_getElem (hj.trans hk))

/-- A circuit with a program and the constraint `(x + 1 + one) * x = 2 * x`, whose left factor has
two entries in the column of the constant one. -/
def twoOnes : Circuit 17 where
  family := .rank1
  publicWires := 1
  secretWires := 1
  constraints := #[.custom fun _ => .done (.ok ()),
    .rank1 ⟨[⟨1, 1⟩, .constant 1, ⟨1, 0⟩], [⟨1, 1⟩], [⟨2, 1⟩]⟩]

theorem twoOnes_rank1 : twoOnes.constraints[1]?
    = some (.rank1 ⟨[⟨1, 1⟩, .constant 1, ⟨1, 0⟩], [⟨1, 1⟩], [⟨2, 1⟩]⟩) :=
  rfl

/-- The constraint does not hold for `x = 3`, and so row 1 is reported. -/
theorem twoOnes_violated :
    ∃ m, twoOnes.matrices = .ok m ∧ m.violated? #[1, .ofNat 3] = .ok (some 1) := by
  have hrun : twoOnes.ChecksAt #[1, .ofNat 3]
      ⟨.ofValues #[1, .ofNat 3], #[none, none], #[], none⟩ := ⟨rfl, by decide⟩
  obtain ⟨m, -, -, -, first, hm, -, -, -, -, -, -, hfirst, -, hsome⟩ :=
    matrices_check (c := twoOnes) (by decide +kernel) rfl rfl hrun
  obtain ⟨mismatch, hreject⟩ := solveRank1_of_not_holds (k := 1)
    (inRange_of_getElem? (by decide +kernel) rfl twoOnes_rank1) hrun.wires_eq (by decide +kernel)
  obtain rfl : first = some 1 := by
    refine (hsome 1).2 ⟨⟨_, _, _, twoOnes_rank1, hreject, rfl⟩, fun j hj r hr => ?_⟩
    obtain rfl := Nat.lt_one_iff.1 hj
    cases hr
  exact ⟨m, hm, hfirst⟩

end Circuit

end WireSolve
