/-
WireSolve/Proofs/Step/Faults.lean

What is malformed about a constraint whose wires and coefficients all exist.

Such a constraint can still be more than one step can solve: two of its places may
be open, and the term that is the only open one may be scaled by zero.  A step finds
no other fault (`Rank1.solve_eq_fault`, `Gate.solve_eq_fault`).  What it reads has a
value by then, what it looks up is in the pool, and the wire that it gives a value to
exists and has none.
-/
import WireSolve.Proofs.Step.Open

namespace WireSolve

variable {p : Nat} [Modulus p] {c : CoeffPool p} {s t : Assignment p} {k : Nat} {f : Fault}

/-- A fault of a part of a step is a fault of the step. -/
theorem Outcome.lift_eq_fault_iff {α : Type} {n : Except Fault α} :
    (liftM n : Except Refusal α) = .error (.fault f) ↔ n = .error f := by
  rcases n with f' | a
  · simp [lift_error]
  · simp [lift_ok]

omit [Modulus p] in
/-- A wire that exists and has no value can be given one. -/
theorem Assignment.set_ne_error {w : Wire} {x : Fp p} (hw : w.toNat < s.size)
    (hopen : s.isSolved w = false) : s.set w x ≠ .error f := by
  intro h
  rcases set_eq_error h with ⟨-, hsolved⟩ | ⟨-, hle⟩
  · rw [hopen] at hsolved
    cases hsolved
  · exact Nat.not_le.2 hw hle

/-- A coefficient that is refused as a divisor is zero, or it is not in the pool. -/
theorem CoeffPool.divide_eq_error {x : Fp p} {i : Nat} (h : c.divide x i = .error f) :
    c.denote i = 0 ∧ f = .zeroDivisor ∨ c.size ≤ i ∧ f = .coeffOutOfRange i := by
  unfold divide at h
  split at h
  · exact Or.inl ⟨denote_zero, (Except.error.inj h).symm⟩
  · cases h
  · cases h
  rcases Outcome.bind_eq_error_iff.1 h with h | ⟨y, hy, h⟩
  · exact Or.inr (fetch_eq_error h)
  split at h
  · cases h
  · next hinverse =>
    refine Or.inl ⟨?_, (Except.error.inj h).symm⟩
    rw [denote_eq_of_fetch hy, Fp.inverse?_eq_none_iff.1 hinverse]

/-- A coefficient of the pool divides, unless it is zero. -/
theorem CoeffPool.divide_isOk {x : Fp p} {i : Nat} (hi : i < c.size) (hne : c.denote i ≠ 0) :
    ∃ y, c.divide x i = .ok y := by
  rcases h : c.divide x i with f | y
  · rcases divide_eq_error h with ⟨hzero, -⟩ | ⟨hle, -⟩
    · exact absurd hzero hne
    · exact absurd hi (Nat.not_lt.2 hle)
  · exact ⟨y, rfl⟩

/-! ### Rank-1 constraints -/

namespace Rank1

variable {r : Rank1}

/-- A side that only names coefficients of the pool can have one open term too many. -/
theorem scanSide_eq_error {side : Side} {e : LinComb} {acc : Fp p} {u : Option (Side × Term)}
    (h : scanSide c s k side e acc u = .error f) (he : ∀ v ∈ e, v.coeff < c.size) :
    f = .manyUnknowns k := by
  induction e generalizing acc u with
  | nil => cases h
  | cons v rest ih =>
    obtain ⟨hv, hrest⟩ := List.forall_mem_cons.1 he
    unfold scanSide at h
    split at h
    · next hknown =>
      -- a known term whose coefficient is in the pool can be added
      rw [Bool.or_eq_true] at hknown
      obtain ⟨acc', hacc⟩ := Term.addTo_isOk_iff.2 ⟨hv, hknown.imp_right Or.inr⟩
      rw [hacc] at h
      exact ih h hrest
    · split at h
      · exact ih h hrest
      · exact (Except.error.inj h).symm

theorem scan_eq_error (h : r.scan c s k = .error f) (hr : ∀ v ∈ r.terms, v.coeff < c.size) :
    f = .manyUnknowns k := by
  simp only [terms, List.forall_mem_append] at hr
  unfold scan at h
  rcases Outcome.bind_eq_error_iff.1 h with h | ⟨⟨left, u₁⟩, -, h⟩
  · exact scanSide_eq_error h hr.1.1
  rcases Outcome.bind_eq_error_iff.1 h with h | ⟨⟨right, u₂⟩, -, h⟩
  · exact scanSide_eq_error h hr.1.2
  rcases Outcome.bind_eq_error_iff.1 h with h | ⟨⟨out, u₃⟩, -, h⟩
  · exact scanSide_eq_error h hr.2
  · cases h

/-- A constraint that is in range has at most two things wrong with it: more than one of its terms
is open, or the open one is scaled by zero. -/
theorem solve_eq_fault (h : r.solve c s k = .error (.fault f)) (hr : r.InRange c s.size) :
    f = .manyUnknowns k ∧ 2 ≤ (r.openTerms s).length ∨
      f = .zeroDivisor ∧ ∃ v, r.openTerms s = [v] ∧ c.denote v.coeff = 0 := by
  rw [inRange_iff] at hr
  have hcoeffs : ∀ v ∈ r.terms, v.coeff < c.size := fun v hv => (hr v hv).1
  rcases hscan : r.scan c s k with f' | ⟨x, u⟩
  · have hmany : ¬ (r.openTerms s).length ≤ 1 := by
      rw [← scan_isOk_iff (k := k) hcoeffs, hscan]
      rintro ⟨y, ⟨⟩⟩
    unfold solve at h
    rw [hscan] at h
    cases h
    exact Or.inl ⟨scan_eq_error hscan hcoeffs, Nat.lt_of_not_le hmany⟩
  rcases x.closed_or_missing u with hu | ⟨side, v, y, rfl, hy⟩
  · -- the constraint is only checked
    rw [solve_of_closed hscan hu, check] at h
    split at h <;> cases h
  · rw [solve_of_missing hscan hy] at h
    obtain ⟨hconst, hopen⟩ := open_of_scan hscan side v rfl
    obtain ⟨hcoeff, hwire⟩ := hr v ((scan_terms hscan).2 side v rfl)
    rcases Outcome.bind_eq_error_iff.1 h with h | ⟨q, -, h⟩
    · rcases CoeffPool.divide_eq_error (Outcome.lift_eq_fault_iff.1 h) with
        ⟨hzero, hf⟩ | ⟨hsize, -⟩
      · exact Or.inr ⟨hf, v, openTerms_of_scan hscan, hzero⟩
      · exact absurd hcoeff (Nat.not_lt.2 hsize)
    rcases Outcome.bind_eq_error_iff.1 h with h | ⟨t, -, h⟩
    · refine absurd (Outcome.lift_eq_fault_iff.1 h) (Assignment.set_ne_error ?_ ?_)
      · exact hwire.resolve_left (Bool.eq_false_iff.1 hconst)
      · exact Assignment.isSolved_eq_false_iff.2 hopen
    · cases h

/-- More than one open term is too many. -/
theorem solve_of_manyUnknowns (hr : ∀ v ∈ r.terms, v.coeff < c.size)
    (hmany : 2 ≤ (r.openTerms s).length) :
    r.solve c s k = .error (.fault (.manyUnknowns k)) := by
  rcases hscan : r.scan c s k with f | y
  · unfold solve
    rw [hscan, scan_eq_error hscan hr]
    rfl
  · exact absurd ((scan_isOk_iff hr).1 ⟨y, hscan⟩) (Nat.not_le.2 hmany)

end Rank1

/-! ### Gates -/

namespace Gate

variable {g : Gate}

/-! Wires that are not open have values, as far as they take part. -/

omit [Modulus p] in
theorem isSolved_xa (ha : g.unknownA s = false) (huses : g.usesA = true) :
    s.isSolved g.xa = true := by
  simpa [unknownA, huses] using ha

omit [Modulus p] in
theorem isSolved_xb (hb : g.unknownB s = false) (huses : g.usesB = true) :
    s.isSolved g.xb = true := by
  simpa [unknownB, huses] using hb

omit [Modulus p] in
theorem isSolved_xc (hc : g.unknownC s = false) (huses : g.usesC = true) :
    s.isSolved g.xc = true := by
  simpa [unknownC, huses] using hc

/-- A part has a value when its selector is in the pool and its wire has one; the reserved zero does
not read the wire. -/
theorem part_isOk {q : Nat} {w : Wire} (hq : q < c.size) (hw : q ≠ 0 → s.isSolved w = true) :
    ∃ x, part c s q w = .ok x := by
  refine Term.value_isOk_iff.2 ⟨hq, Or.inr ?_⟩
  by_cases hzero : q = 0
  · exact Or.inl hzero
  · exact Or.inr (hw hzero)

theorem partA_isOk (hq : g.qL < c.size) (ha : g.unknownA s = false) :
    ∃ x, part c s g.qL g.xa = .ok x :=
  part_isOk hq fun h => isSolved_xa ha (usesA_iff.2 (Or.inl h))

theorem partB_isOk (hq : g.qR < c.size) (hb : g.unknownB s = false) :
    ∃ x, part c s g.qR g.xb = .ok x :=
  part_isOk hq fun h => isSolved_xb hb (usesB_iff.2 (Or.inl h))

theorem partC_isOk (hq : g.qO < c.size) (hc : g.unknownC s = false) :
    ∃ x, part c s g.qO g.xc = .ok x :=
  part_isOk hq fun h => isSolved_xc hc (usesC_iff.2 h)

theorem cofactor_isOk {w : Wire} (hq : g.qM < c.size) (hw : g.qM ≠ 0 → s.isSolved w = true) :
    ∃ x, g.cofactor c s w = .ok x := by
  unfold cofactor
  split
  · exact ⟨0, rfl⟩
  · exact part_isOk hq hw

theorem product_isOk (hq : g.qM < c.size) (ha : g.unknownA s = false)
    (hb : g.unknownB s = false) : ∃ x, g.product c s = .ok x := by
  unfold product
  split
  · exact ⟨0, rfl⟩
  · next hqM =>
    obtain ⟨a, hxa⟩ := part_isOk hq fun _ => isSolved_xa ha (usesA_iff.2 (Or.inr hqM))
    obtain ⟨b, hxb⟩ := part_isOk c.one_lt_size fun _ => isSolved_xb hb (usesB_iff.2 (Or.inr hqM))
    rw [hxa, hxb]
    exact ⟨a * b, rfl⟩

omit [Modulus p] in
/-- With one open wire at most, the others are known. -/
theorem known_of_unknowns (hcount : g.unknowns s ≤ 1) :
    (g.unknownA s = true → g.unknownB s = false ∧ g.unknownC s = false) ∧
      (g.unknownB s = true → g.unknownC s = false) := by
  unfold unknowns at hcount
  cases ha : g.unknownA s <;> cases hb : g.unknownB s <;> cases hc : g.unknownC s <;> simp_all

/-- A gate that leaves one wire open at most, and whose selectors are in the pool, has an
equation. -/
theorem equation_isOk (hq : ∀ q ∈ [g.qL, g.qR, g.qO, g.qM, g.qC], q < c.size)
    (hcount : g.unknowns s ≤ 1) : ∃ e, g.equation c s = .ok e := by
  simp only [List.forall_mem_cons, List.not_mem_nil, false_implies, implies_true, and_true] at hq
  obtain ⟨hL, hR, hO, hM, hC⟩ := hq
  obtain ⟨hopenA, hopenB⟩ := known_of_unknowns hcount
  obtain ⟨qC, hqC⟩ := CoeffPool.fetch_isOk_iff.2 hC
  unfold equation
  rw [hqC, Outcome.ok_bind]
  -- the equation is for the open wire, and reads the parts of the others
  cases ha : g.unknownA s with
  | true =>
    obtain ⟨hb, hc⟩ := hopenA ha
    obtain ⟨qL, hqL⟩ := CoeffPool.fetch_isOk_iff.2 hL
    obtain ⟨m, hm⟩ :=
      cofactor_isOk (w := g.xb) hM fun h => isSolved_xb hb (usesB_iff.2 (Or.inr h))
    obtain ⟨xb, hxb⟩ := partB_isOk hR hb
    obtain ⟨xc, hxc⟩ := partC_isOk hO hc
    rw [if_pos rfl, hqL, hm, hxb, hxc]
    exact ⟨_, rfl⟩
  | false =>
    rw [if_neg Bool.false_ne_true]
    obtain ⟨xa, hxa⟩ := partA_isOk hL ha
    cases hb : g.unknownB s with
    | true =>
      obtain ⟨qR, hqR⟩ := CoeffPool.fetch_isOk_iff.2 hR
      obtain ⟨m, hm⟩ :=
        cofactor_isOk (w := g.xa) hM fun h => isSolved_xa ha (usesA_iff.2 (Or.inr h))
      obtain ⟨xc, hxc⟩ := partC_isOk hO (hopenB hb)
      rw [if_pos rfl, hqR, hm, hxa, hxc]
      exact ⟨_, rfl⟩
    | false =>
      rw [if_neg Bool.false_ne_true]
      obtain ⟨xb, hxb⟩ := partB_isOk hR hb
      obtain ⟨m, hm⟩ := product_isOk hM ha hb
      cases hc : g.unknownC s with
      | true =>
        obtain ⟨qO, hqO⟩ := CoeffPool.fetch_isOk_iff.2 hO
        rw [if_pos rfl, hqO, hxa, hxb, hm]
        exact ⟨_, rfl⟩
      | false =>
        obtain ⟨xc, hxc⟩ := partC_isOk hO hc
        rw [if_neg Bool.false_ne_true, hxa, hxb, hxc, hm]
        exact ⟨_, rfl⟩

/-- More than one open position is too many. -/
theorem solve_of_manyUnknowns (hmany : 1 < g.unknowns s) :
    g.solve c s k = .error (.fault (.manyUnknowns k)) := by
  unfold solve
  rw [if_pos hmany]
  rfl

/-- An equation whose wire exists and has no value is settled, or it has no solution. -/
theorem settle_ne_fault {e : Equation p}
    (he : ∀ w, e.wire? = some w → w.toNat < s.size ∧ s.isSolved w = false) :
    e.settle s ≠ .error (.fault f) := by
  cases e with
  | linear w scale rest =>
    obtain ⟨hw, hopen⟩ := he w rfl
    by_cases hscale : scale = 0
    · rw [hscale, Equation.settle_free]
      split <;> nofun
    · rw [Equation.settle_linear hscale, ne_eq, Outcome.lift_eq_fault_iff]
      exact Assignment.set_ne_error hw hopen
  | constant sum =>
    rw [Equation.settle_constant]
    split <;> nofun

theorem InRange.lt_of_mentions {n : Nat} (hg : g.InRange c n) {w : Wire} (hw : g.Mentions w) :
    w.toNat < n := by
  rcases hw with ⟨ha, rfl⟩ | ⟨hb, rfl⟩ | ⟨hc, rfl⟩
  · exact (hg.left ha).1
  · exact (hg.right hb).1
  · exact (hg.out hc).1

/-- A gate that is in range has nothing wrong with it but that more than one of its positions is
open. -/
theorem solve_eq_fault (h : g.solve c s k = .error (.fault f)) (hg : g.InRange c s.size) :
    f = .manyUnknowns k ∧ 1 < g.unknowns s := by
  unfold solve at h
  split at h
  · next hmany =>
    cases h
    exact ⟨rfl, hmany⟩
  next hcount =>
  obtain ⟨e, he⟩ := equation_isOk hg.selectors (Nat.le_of_not_lt hcount)
  rw [he] at h
  refine absurd h (settle_ne_fault fun w hw => ?_)
  obtain ⟨hmentions, hopen⟩ := open_of_equation he hw
  exact ⟨hg.lt_of_mentions hmentions, hopen⟩

end Gate

end WireSolve
