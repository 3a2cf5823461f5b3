/-
WireSolve/Proofs/Sides.lean

When the sides that a solve returns are those at the solution.

The sides of a constraint are recorded when it is processed.  If its open term
stands in a factor and the other factor is zero, the constraint is accepted as it
is, and the term is left out of what is recorded; a later instruction may still
give its wire a value (`Circuit.LeavesOut`).  In all other cases what is recorded is
what the sides denote at every valuation that the assignment goes on to.  The
matrices of the circuit evaluate the sides at the solution, so the two differ in
exactly those terms.  Which they are depends on the order in which the instructions
come, and so on the turns that the workers take.

Main result: `Circuit.sides_eq_iff`.
-/
import WireSolve.Proofs.Circuit.Matrices
import WireSolve.Proofs.Soundness

namespace WireSolve

variable {p : Nat} [Modulus p]

/-! ### Terms that are left out -/

namespace Sides

variable {c : CoeffPool p} {z : Valuation p} {x : Sides p} {u : Option (Side × Term)}

/-- A term that is left out of a factor makes no difference to the output, and none to the factors
exactly if it denotes zero. -/
theorem complete_eq_iff (hu : ∀ t, u ≠ some (.out, t)) :
    (x.complete c z u).out = x.out ∧
      ((x.complete c z u).left = x.left ∧ (x.complete c z u).right = x.right ↔
        ∀ side t, u = some (side, t) → t.denote c z = 0) := by
  rcases u with - | ⟨side, t⟩
  · simp [complete]
  · cases side with
    | left => simp [complete, add]
    | right => simp [complete, add]
    | out => exact absurd rfl (hu t)

end Sides

/-- A term of the output is never left out. -/
theorem Rank1.leftOut_ne_out {c : CoeffPool p} {s : Assignment p} {k : Nat} {r : Rank1}
    (t : Term) : r.leftOut c s k ≠ some (.out, t) := by
  intro h
  unfold leftOut at h
  split at h
  · next x side v _ =>
    split at h
    · next hmissing =>
      cases h
      cases hmissing
    · cases h
  · cases h

namespace Circuit

variable {c : Circuit p} {witness : List (Fp p)} {o : Options} {run : Run p} {z : Valuation p}
  {k : Nat} {is : List Nat}

/-- A solve along some instructions processes constraint number `k` in a state in which it accepts
the constraint without one of its terms. -/
def LeavesOut (c : Circuit p) (witness : List (Fp p)) (o : Options) (is : List Nat) (k : Nat)
    (side : Side) (t : Term) : Prop :=
  ∃ before i after run r, is = before ++ i :: after ∧
    c.instructions[i]? = some (.constraint k) ∧ c.constraints[k]? = some (.rank1 r) ∧
    c.Reaches witness o before run ∧ r.leftOut c.pool run.wires k = some (side, t)

/-! ### What is recorded -/

/-- Sides are recorded for rank-1 constraints only. -/
def RecordsRank1 (c : Circuit p) (run : Run p) : Prop :=
  ∀ (k : Nat) (x : Sides p), run.sides[k]? = some (some x) →
    ∃ r, c.constraints[k]? = some (.rank1 r)

theorem stable_recordsRank1 (c : Circuit p) : Run.Stable c c.RecordsRank1 where
  bookkeeping _ _ _ h := h
  write _ _ _ _ h _ := h
  record run k r s x h hk _ _ := by
    intro j y hj
    rcases Run.eq_or_of_record hj with ⟨rfl, -⟩ | hbefore
    · exact ⟨r, hk⟩
    · exact h j y hbefore

theorem Reaches.recordsRank1 (hrun : c.Reaches witness o is run) :
    c.RecordsRank1 run :=
  hrun.of_stable (stable_recordsRank1 c) fun s _ _ x h =>
    absurd h (getElem?_sides_initialRun s #[] x)

/-- What is recorded of a constraint, with the term that was left out, is what its sides denote. -/
theorem sides_of_processed [Fact p.Prime] (hfamily : c.family = .rank1) {before after : List Nat}
    {i : Nat} {r : Rank1} {s : Run p} (hsplit : is = before ++ i :: after)
    (hi : c.instructions[i]? = some (.constraint k)) (hk : c.constraints[k]? = some (.rank1 r))
    (hs : c.Reaches witness o before s) (hrun : c.Reaches witness o is run)
    (hz : run.wires.Agrees z) :
    ∃ x, run.sides[k]? = some (some x) ∧
      r.sides c.pool z = x.complete c.pool z (r.leftOut c.pool s.wires k) := by
  rw [hsplit] at hrun
  obtain ⟨s', t, hs', hprocess, hafter⟩ := hrun.processed
  obtain rfl := hs.unique hs'
  rw [process_constraint hi hk] at hprocess
  obtain ⟨x, hsolve, hrecord⟩ := solveRank1_eq_ok hprocess
  obtain ⟨hnone, hsides⟩ := hrecord hfamily
  have hbelow := below_of_processAll hafter
  refine ⟨x, hbelow.keeps_sides k x ?_, ?_⟩
  · have hlt : k < s.sides.size := (Array.getElem?_eq_some_iff.1 hnone).1
    rw [hsides, Array.getElem?_setIfInBounds_self, if_pos hlt]
  · exact Rank1.sides_of_solve hsolve (hz.anti hbelow.extends_wires)

/-! ### Entry by entry -/

/-- What is returned for a rank-1 constraint that was processed: the output that it denotes, and the
factors that it denotes unless a term was left out that makes a difference. -/
theorem rank1_sides_iff [Fact p.Prime] (hfamily : c.family = .rank1)
    (hperm : is.Perm c.levels.flatten) {r : Rank1} (hk : c.Schedules k (.rank1 r))
    (hrun : c.Reaches witness o is run) (hz : run.wires.Agrees z) :
    ∃ x, run.sides[k]? = some (some x) ∧ (r.sides c.pool z).out = x.out ∧
      ((r.sides c.pool z).left = x.left ∧ (r.sides c.pool z).right = x.right ↔
        ∀ side t, c.LeavesOut witness o is k side t → t.denote c.pool z = 0) := by
  obtain ⟨before, i, after, hsplit, hi⟩ := hk.1.exists_split hperm
  obtain ⟨s, hs, -⟩ := Reaches.of_append (hsplit ▸ hrun)
  obtain ⟨x, hx, hsides⟩ := sides_of_processed hfamily hsplit hi hk.2 hs hrun hz
  obtain ⟨hout, hiff⟩ := Sides.complete_eq_iff (c := c.pool) (z := z) (x := x)
    fun t => Rank1.leftOut_ne_out (c := c.pool) (s := s.wires) (k := k) (r := r) t
  rw [← hsides] at hout hiff
  refine ⟨x, hx, hout, ?_, ?_⟩
  · -- a constraint is processed once, so the other place where it is scheduled has the same sides
    rintro heq side t ⟨before', i', after', s', r', hsplit', hi', hk', hs', hleft⟩
    obtain rfl : r = r' := by simpa using hk.2.symm.trans hk'
    obtain ⟨x', hx', hsides'⟩ := sides_of_processed hfamily hsplit' hi' hk.2 hs' hrun hz
    obtain rfl : x = x' := by simpa using hx.symm.trans hx'
    have hiff' := (Sides.complete_eq_iff (c := c.pool) (z := z) (x := x)
      fun t => Rank1.leftOut_ne_out (c := c.pool) (s := s'.wires) (k := k) (r := r) t).2
    rw [← hsides'] at hiff'
    exact hiff'.1 heq side t hleft
  · intro hzero
    exact hiff.2 fun side t hleft =>
      hzero side t ⟨before, i, after, s, r, hsplit, hi, hk.2, hs, hleft⟩

/-- A constraint without sides is returned with zeros, and no term of it is left out. -/
theorem sides_iff_of_ne_rank1 (hrun : c.Reaches witness o is run)
    {q : Constraint p} {y : Option (Sides p)} (hq : c.constraints[k]? = some q)
    (hne : ∀ r, q ≠ .rank1 r) (hy : run.sides[k]? = some y) :
    q.denote c.pool z Rank1.out = (y.getD Sides.zero).out ∧
      (q.denote c.pool z Rank1.left = (y.getD Sides.zero).left ∧
        q.denote c.pool z Rank1.right = (y.getD Sides.zero).right ↔
        ∀ side t, c.LeavesOut witness o is k side t → t.denote c.pool z = 0) := by
  have hnot : ∀ r, c.constraints[k]? ≠ some (.rank1 r) := fun r hr =>
    hne r (Option.some.inj (hq.symm.trans hr))
  have hdenote : ∀ side, q.denote c.pool z side = 0 := by
    intro side
    cases q with
    | rank1 r => exact absurd rfl (hne r)
    | gate g => rfl
    | custom body => rfl
  rcases y with - | x
  · -- zeros are returned, and zeros are in the rows of the matrices
    rw [hdenote, hdenote, hdenote]
    refine ⟨rfl, fun _ side t hleft => ?_, fun _ => ⟨rfl, rfl⟩⟩
    obtain ⟨-, -, -, -, r, -, -, hk, -, -⟩ := hleft
    exact absurd hk (hnot r)
  · obtain ⟨r, hr⟩ := hrun.recordsRank1 k x hy
    exact absurd hr (hnot r)

/-- The same for a constraint of any kind. -/
theorem sides_iff [Fact p.Prime] (hfamily : c.family = .rank1) (hperm : is.Perm c.levels.flatten)
    (hall : ∀ k < c.constraints.size, c.Scheduled (.constraint k))
    (hrun : c.Reaches witness o is run) (hz : run.wires.Agrees z)
    {q : Constraint p} {y : Option (Sides p)} (hq : c.constraints[k]? = some q)
    (hy : run.sides[k]? = some y) :
    q.denote c.pool z Rank1.out = (y.getD Sides.zero).out ∧
      (q.denote c.pool z Rank1.left = (y.getD Sides.zero).left ∧
        q.denote c.pool z Rank1.right = (y.getD Sides.zero).right ↔
        ∀ side t, c.LeavesOut witness o is k side t → t.denote c.pool z = 0) := by
  have hk : k < c.constraints.size := (Array.getElem?_eq_some_iff.1 hq).1
  cases q with
  | rank1 r =>
    obtain ⟨x, hx, hsides⟩ := rank1_sides_iff hfamily hperm ⟨hall k hk, hq⟩ hrun hz
    obtain rfl : some x = y := by simpa using hx.symm.trans hy
    exact hsides
  | gate g => exact sides_iff_of_ne_rank1 hrun hq (by simp) hy
  | custom body => exact sides_iff_of_ne_rank1 hrun hq (by simp) hy

/-! ### All entries -/

/-- Two sequences of the same length have the same images when they do so place by place. -/
theorem map_toList_eq_iff {α β γ : Type} {xs : Array α} {ys : Array β} (h : xs.size = ys.size)
    (f : α → γ) (g : β → γ) :
    xs.toList.map f = ys.toList.map g ↔
      ∀ (k : Nat) (x : α) (y : β), xs[k]? = some x → ys[k]? = some y → f x = g y := by
  rw [List.ext_getElem?_iff]
  refine forall_congr' fun k => ?_
  rw [List.getElem?_map, List.getElem?_map, Array.getElem?_toList, Array.getElem?_toList]
  by_cases hk : k < xs.size
  · have hk' : k < ys.size := h ▸ hk
    simp [hk, hk']
  · have hk' : ¬ k < ys.size := h ▸ hk
    simp [Array.getElem?_eq_none (Nat.le_of_not_lt hk),
      Array.getElem?_eq_none (Nat.le_of_not_lt hk')]

/-- The product of the matrix of a side is what is returned when it is so for every constraint. -/
theorem mulVector_eq_sides_iff {m : CsrMatrix p} {side : Rank1 → LinComb} {values : Array (Fp p)}
    (hm : c.IsMatrix side m) (hsize : values.size = c.wireCount)
    (hone : Valuation.ofValues values 0 = 1) (hrun : run.sides.size = c.constraints.size)
    (f : Sides p → Fp p) :
    m.mulVector values = .ok ((run.sides.map fun y => y.getD Sides.zero).toList.map f) ↔
      ∀ (k : Nat) (q : Constraint p) (y : Option (Sides p)), c.constraints[k]? = some q →
        run.sides[k]? = some y →
        q.denote c.pool (.ofValues values) side = f (y.getD Sides.zero) := by
  rw [hm.mulVector_eq hsize hone, Except.ok.injEq, Array.toList_map, List.map_map,
    map_toList_eq_iff hrun.symm]
  rfl

/-- A circuit with a constant one has a wire. -/
theorem wireCount_pos [Fact p.Prime] {values : Array (Fp p)} (hsize : values.size = c.wireCount)
    (hone : Valuation.ofValues values 0 = 1) : 0 < c.wireCount := by
  refine Nat.pos_of_ne_zero fun hzero => ?_
  rw [← hsize] at hzero
  obtain rfl := Array.eq_empty_of_size_eq_zero hzero
  exact zero_ne_one hone

/-- However the workers take turns, the outputs that a solve returns are the values of the output
matrix at the solution.  The factors that it returns are the values of their matrices exactly if
every term that was left out when its constraint was accepted is zero at the solution. -/
theorem sides_eq_iff [Fact p.Prime] {turns : Nat → List Nat} {solution : Solution p}
    (hfamily : c.family = .rank1) (hc : c.InRange)
    (hall : ∀ k < c.constraints.size, c.Scheduled (.constraint k))
    (hturns : c.AllTurnsTaken o.workers turns)
    (h : c.outcomeInTurns witness o turns = .ok solution) :
    ∃ m sides, c.matrices = .ok m ∧ solution.sides = some sides ∧
      m.c.mulVector solution.values = .ok (sides.toList.map Sides.out) ∧
      (m.a.mulVector solution.values = .ok (sides.toList.map Sides.left) ∧
        m.b.mulVector solution.values = .ok (sides.toList.map Sides.right) ↔
        ∀ k side t, c.LeavesOut witness o (c.orderInTurns o.workers turns) k side t →
          t.denote c.pool (.ofValues solution.values) = 0) := by
  obtain ⟨run, hrun, hsolution⟩ := exists_reaches_of_outcomeInTurns h
  obtain ⟨hvalues, hsides⟩ := conclude_eq_ok hsolution
  rw [hfamily] at hsides
  have hperm := orderInTurns_perm hturns
  have hz := Assignment.agrees_ofValues hvalues
  have hone := (hrun.seeded hz).1 hfamily
  have hsize := size_values_of_conclude hrun hsolution
  obtain ⟨m, hm, ha, hb, hd⟩ := matrices_eq_ok hc (wireCount_pos hsize hone)
  refine ⟨m, _, hm, hsides, ?_, ?_⟩
  · rw [mulVector_eq_sides_iff hd hsize hone hrun.size_sides]
    intro k q y hq hy
    exact (sides_iff hfamily hperm hall hrun hz hq hy).1
  · rw [mulVector_eq_sides_iff ha hsize hone hrun.size_sides,
      mulVector_eq_sides_iff hb hsize hone hrun.size_sides]
    constructor
    · -- a term that is left out belongs to a constraint that has an entry
      rintro ⟨hleft, hright⟩ k side t hout
      obtain ⟨-, -, -, -, r, -, -, hk, -, -⟩ := id hout
      obtain ⟨y, hy⟩ : ∃ y, run.sides[k]? = some y := by
        have hlt : k < c.constraints.size := (Array.getElem?_eq_some_iff.1 hk).1
        rw [← hrun.size_sides] at hlt
        exact ⟨_, Array.getElem?_eq_getElem hlt⟩
      exact (sides_iff hfamily hperm hall hrun hz hk hy).2.1
        ⟨hleft k _ y hk hy, hright k _ y hk hy⟩ side t hout
    · intro hzero
      have hboth := fun k q y hq hy =>
        (sides_iff (k := k) (q := q) (y := y) hfamily hperm hall hrun hz hq hy).2.2 (hzero k)
      exact ⟨fun k q y hq hy => (hboth k q y hq hy).1, fun k q y hq hy => (hboth k q y hq hy).2⟩

/-- A circuit that asks for `w * x = 0` before it determines the wire by `w * 1 = 5`. -/
def settledLate : Circuit 17 where
  family := .rank1
  publicWires := 1
  secretWires := 1
  internalWires := 1
  pool := (CoeffPool.initial.insert (.ofNat 5)).1
  constraints := #[.rank1 ⟨[⟨1, 2⟩], [⟨1, 1⟩], []⟩, .rank1 ⟨[⟨1, 2⟩], [⟨1, 0⟩], [⟨4, 0⟩]⟩]
  instructions := #[.constraint 0, .constraint 1]
  levels := [[0], [1]]

/-- What it returns for `x = 0`: the first constraint is recorded without its left factor. -/
def settledLateSolution : Solution 17 :=
  ⟨#[1, 0, .ofNat 5], some #[⟨0, 0, 0⟩, ⟨.ofNat 5, 1, .ofNat 5⟩]⟩

theorem settledLate_schedules (k : Nat) (hk : k < settledLate.constraints.size) :
    settledLate.Scheduled (.constraint k) := by
  have hcases : k = 0 ∨ k = 1 := by
    change k < 2 at hk
    omega
  rcases hcases with rfl | rfl
  · exact ⟨[0], by decide, 0, by decide, rfl⟩
  · exact ⟨[1], by decide, 1, by decide, rfl⟩

/-- The outputs are those at the solution. -/
theorem settledLate_outputs :
    ∃ m, settledLate.matrices = .ok m ∧
      m.c.mulVector settledLateSolution.values = .ok [0, .ofNat 5] := by
  have hsolve : (settledLate.solve [0] ⟨1, .empty, false⟩).outcome = .ok settledLateSolution := by
    decide +kernel
  rw [← outcomeInTurns_chunkByChunk] at hsolve
  obtain ⟨m, sides, hm, hsides, hout, -⟩ := sides_eq_iff rfl (by decide +kernel)
    settledLate_schedules (allTurnsTaken_chunkByChunk settledLate 1) hsolve
  obtain rfl := Option.some.inj hsides
  exact ⟨m, hm, hout⟩

/-- The left factors are not. -/
theorem settledLate_factors :
    ∃ solution sides m, (settledLate.solve [0] ⟨1, .empty, false⟩).outcome = .ok solution ∧
      solution.sides = some sides ∧ settledLate.matrices = .ok m ∧
      m.a.mulVector solution.values ≠ .ok (sides.toList.map Sides.left) := by
  have hsolve : (settledLate.solve [0] ⟨1, .empty, false⟩).outcome = .ok settledLateSolution := by
    decide +kernel
  obtain ⟨m, hm, ha, -, -⟩ := matrices_eq_ok (c := settledLate) (by decide +kernel) (by decide)
  refine ⟨settledLateSolution, _, m, hsolve, rfl, hm, ?_⟩
  rw [ha.mulVector_eq rfl rfl]
  decide +kernel

end Circuit

end WireSolve
