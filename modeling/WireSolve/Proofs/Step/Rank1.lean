/-
WireSolve/Proofs/Step/Rank1.lean

One rank-1 constraint cuts the valuations down to those at which it holds.

The scan splits every side into the terms that are known and at most one that is
not, so at each valuation that agrees with the assignment the sides are the
scanned ones plus the contribution of the open term (`Rank1.sides_eq_complete`).
`Sides.missing` is the only contribution that balances them; where it gives none,
the open term does not matter (`Sides.balanced_add_iff`,
`Sides.balanced_add_of_missing`).

Main results: the assignment that is reached agrees with exactly those valuations
that agreed before and at which the constraint holds
(`Rank1.agrees_iff_of_solve`); a mismatch rules all of them out
(`Rank1.not_holds_of_solve`); and the sides that are returned are those at the
valuation, less the term that was left out (`Rank1.sides_of_solve`).
-/
import WireSolve.Proofs.Evaluation
import WireSolve.Proofs.Outcome
import WireSolve.Step.Rank1

namespace WireSolve

variable {p : Nat} [Modulus p] {c : CoeffPool p} {s t : Assignment p} {z : Valuation p}

/-! ### Sides at a valuation -/

namespace Sides

/-- No term is open, or the open one does not matter. -/
def Closed (x : Sides p) (u : Option (Side × Term)) : Prop :=
  ∀ side v, u = some (side, v) → x.missing side = none

/-- Sides are closed, or there is an open term that has to make up for something. -/
theorem closed_or_missing (x : Sides p) (u : Option (Side × Term)) :
    x.Closed u ∨ ∃ side v y, u = some (side, v) ∧ x.missing side = some y := by
  rcases u with - | ⟨side, v⟩
  · refine Or.inl ?_
    rintro side v ⟨⟩
  · rcases hmissing : x.missing side with - | y
    · refine Or.inl ?_
      rintro side' v' ⟨⟩
      exact hmissing
    · exact Or.inr ⟨side, v, y, rfl, hmissing⟩

/-- Sides with the contribution that an open term makes at a valuation. -/
def complete (c : CoeffPool p) (z : Valuation p) (x : Sides p) : Option (Side × Term) → Sides p
  | none => x
  | some (side, t) => x.add side (t.denote c z)

variable {x : Sides p} {side : Side} {y : Fp p}

theorem balanced_iff : x.balanced = true ↔ x.left * x.right = x.out :=
  beq_iff_eq

/-- Where nothing is missing, a contribution does not matter: the other factor is zero. -/
theorem balanced_add_of_missing (h : x.missing side = none) (y : Fp p) :
    (x.add side y).balanced = x.balanced := by
  cases side with
  | left =>
    have hright : x.right = 0 := by
      by_contra hne
      simp [missing, hne] at h
    simp [balanced, add, hright]
  | right =>
    have hleft : x.left = 0 := by
      by_contra hne
      simp [missing, hne] at h
    simp [balanced, add, hleft]
  | out => cases h

/-- Where something is missing, it is the only contribution that balances the sides. -/
theorem balanced_add_iff [Fact p.Prime] (h : x.missing side = some y) (v : Fp p) :
    (x.add side v).balanced = true ↔ v = y := by
  rw [balanced_iff]
  cases side with
  | left =>
    by_cases hne : x.right = 0
    · simp [missing, hne] at h
    · simp only [missing, if_neg hne, Option.some.injEq] at h
      rw [← h, eq_sub_iff_add_eq', eq_div_iff hne]
      rfl
  | right =>
    by_cases hne : x.left = 0
    · simp [missing, hne] at h
    · simp only [missing, if_neg hne, Option.some.injEq] at h
      rw [← h, eq_sub_iff_add_eq', eq_div_iff hne, mul_comm (x.right + v)]
      rfl
  | out =>
    simp only [missing, Option.some.injEq] at h
    rw [← h, eq_sub_iff_add_eq', eq_comm]
    rfl

end Sides

namespace Rank1

/-- The sides of a constraint at a valuation. -/
def sides (c : CoeffPool p) (z : Valuation p) (r : Rank1) : Sides p :=
  ⟨LinComb.denote c z r.left, LinComb.denote c z r.right, LinComb.denote c z r.out⟩

variable {r : Rank1} {k : Nat} {x : Sides p} {u : Option (Side × Term)}

theorem holds_iff_balanced : r.Holds c z ↔ (r.sides c z).balanced = true :=
  (Sides.balanced_iff (x := r.sides c z)).symm

/-! ### The scan -/

/-- A side that is scanned either is known in full, or opens one term whose wire has no value. -/
theorem scanSide_eq_ok {side : Side} {e : LinComb} {acc y : Fp p} {u' : Option (Side × Term)}
    (h : scanSide c s k side e acc u = .ok (y, u')) :
    (u' = u ∧ ∀ z, s.Agrees z → acc + LinComb.denote c z e = y) ∨
      (u = none ∧ ∃ v, u' = some (side, v) ∧ v.isConstant = false ∧ s.get? v.wire = none ∧
        ∀ z, s.Agrees z → acc + LinComb.denote c z e = y + v.denote c z) := by
  induction e generalizing acc u with
  | nil =>
    simp only [scanSide, Except.ok.injEq, Prod.mk.injEq] at h
    obtain ⟨rfl, rfl⟩ := h
    exact Or.inl ⟨rfl, fun z _ => add_zero acc⟩
  | cons v rest ih =>
    unfold scanSide at h
    split at h
    · -- the term is known and goes into the sum
      rcases hv : v.addTo c s acc with f | acc'
      · rw [hv] at h
        cases h
      · rw [hv] at h
        have hsum : ∀ z, s.Agrees z →
            acc + LinComb.denote c z (v :: rest) = acc' + LinComb.denote c z rest := by
          intro z hz
          rw [Term.eq_add_denote_of_addTo hv hz, LinComb.denote_cons, add_assoc]
        rcases ih h with ⟨rfl, hy⟩ | ⟨rfl, v', rfl, hconst, hnone, hy⟩
        · exact Or.inl ⟨rfl, fun z hz => (hsum z hz).trans (hy z hz)⟩
        · exact Or.inr ⟨rfl, v', rfl, hconst, hnone, fun z hz => (hsum z hz).trans (hy z hz)⟩
    · next hopen =>
      simp only [Bool.or_eq_true, not_or, Bool.not_eq_true] at hopen
      split at h
      · -- the term is the one that stays open: no other can follow
        rcases ih h with ⟨rfl, hy⟩ | ⟨hcontra, -⟩
        · refine Or.inr ⟨rfl, v, rfl, hopen.1, Assignment.isSolved_eq_false_iff.1 hopen.2, ?_⟩
          intro z hz
          rw [LinComb.denote_cons, ← hy z hz]
          ring
        · cases hcontra
      · cases h

/-- A side with no open term is scanned to its value. -/
theorem scanSide_of_known {side : Side} {e : LinComb} {acc : Fp p}
    (h : ∀ v ∈ e, v.isConstant ∨ s.isSolved v.wire) :
    scanSide c s k side e acc u
      = (e.foldlM (fun acc (v : Term) => v.addTo c s acc) acc).map fun y => (y, u) := by
  induction e generalizing acc with
  | nil => rfl
  | cons v rest ih =>
    have hv : (v.isConstant || s.isSolved v.wire) = true := by
      rw [Bool.or_eq_true]
      exact h v List.mem_cons_self
    unfold scanSide
    rw [if_pos hv, List.foldlM_cons]
    rcases v.addTo c s acc with f | acc'
    · rfl
    · exact ih fun v' hv' => h v' (List.mem_cons_of_mem v hv')

/-- The scan runs over the left factor, the right factor and the output, in this order. -/
theorem scan_eq_ok (h : r.scan c s k = .ok (x, u)) :
    ∃ u₁ u₂, scanSide c s k .left r.left 0 none = .ok (x.left, u₁) ∧
      scanSide c s k .right r.right 0 u₁ = .ok (x.right, u₂) ∧
      scanSide c s k .out r.out 0 u₂ = .ok (x.out, u) := by
  unfold scan at h
  obtain ⟨⟨left, u₁⟩, h₁, h⟩ := Outcome.bind_eq_ok_iff.1 h
  obtain ⟨⟨right, u₂⟩, h₂, h⟩ := Outcome.bind_eq_ok_iff.1 h
  obtain ⟨⟨out, u₃⟩, h₃, h⟩ := Outcome.bind_eq_ok_iff.1 h
  obtain ⟨rfl, rfl⟩ := Prod.mk.inj (Outcome.pure_eq_ok_iff.1 h)
  exact ⟨u₁, u₂, h₁, h₂, h₃⟩

/-- The terms of a side that is scanned are in range, all but the one that is open; and what is
open in the end is one of them, or was open before. -/
theorem scanSide_terms {side : Side} {e : LinComb} {acc y : Fp p} {u' : Option (Side × Term)}
    (h : scanSide c s k side e acc u = .ok (y, u')) :
    (∀ v ∈ e, v.InRange c s.size ∨ u' = some (side, v)) ∧
      ∀ side' v, u' = some (side', v) → v ∈ e ∨ u = some (side', v) := by
  induction e generalizing acc u with
  | nil =>
    simp only [scanSide, Except.ok.injEq, Prod.mk.injEq] at h
    exact ⟨fun v hv => absurd hv List.not_mem_nil, fun side' v hu => Or.inr (h.2.trans hu)⟩
  | cons v rest ih =>
    unfold scanSide at h
    split at h
    · next hknown =>
      rw [Bool.or_eq_true] at hknown
      obtain ⟨acc', hv, h⟩ := Outcome.bind_eq_ok_iff.1 h
      have hrange : v.InRange c s.size :=
        ⟨(Term.addTo_isOk_iff.1 ⟨acc', hv⟩).1, hknown.imp_right Assignment.lt_size_of_isSolved⟩
      obtain ⟨hterms, hopen⟩ := ih h
      exact ⟨List.forall_mem_cons.2 ⟨Or.inl hrange, hterms⟩, fun side' v' hu =>
        (hopen side' v' hu).imp_left (List.mem_cons_of_mem v)⟩
    · split at h
      · -- no other term is opened after this one
        have hu' : u' = some (side, v) := by
          rcases scanSide_eq_ok h with ⟨hu', -⟩ | ⟨hcontra, -⟩
          · exact hu'
          · cases hcontra
        obtain ⟨hterms, -⟩ := ih h
        refine ⟨List.forall_mem_cons.2 ⟨Or.inr hu', hterms⟩, fun side' v' hv' => ?_⟩
        cases hu'.symm.trans hv'
        exact Or.inl List.mem_cons_self
      · cases h

/-- What the scan leaves open is at most one term, and its wire has no value. -/
theorem open_of_scan (h : r.scan c s k = .ok (x, u)) :
    ∀ side v, u = some (side, v) → v.isConstant = false ∧ s.get? v.wire = none := by
  obtain ⟨u₁, u₂, h₁, h₂, h₃⟩ := scan_eq_ok h
  rcases scanSide_eq_ok h₁ with ⟨rfl, -⟩ | ⟨-, v₁, rfl, hv₁⟩ <;>
    rcases scanSide_eq_ok h₂ with ⟨rfl, -⟩ | ⟨⟨⟩, v₂, rfl, hv₂⟩ <;>
    rcases scanSide_eq_ok h₃ with ⟨rfl, -⟩ | ⟨⟨⟩, v₃, rfl, hv₃⟩ <;>
    rintro side v ⟨⟩
  · exact ⟨hv₃.1, hv₃.2.1⟩
  · exact ⟨hv₂.1, hv₂.2.1⟩
  · exact ⟨hv₁.1, hv₁.2.1⟩

/-- What is open after one side stays open. -/
theorem open_of_scanSide {side : Side} {e : LinComb} {acc y : Fp p} {u' : Option (Side × Term)}
    {q : Side × Term} (h : scanSide c s k side e acc u = .ok (y, u')) (hu : u = some q) :
    u' = some q := by
  rcases scanSide_eq_ok h with ⟨rfl, -⟩ | ⟨hnone, -⟩
  · exact hu
  · rw [hu] at hnone
    cases hnone

/-- The terms of a constraint that is scanned are in range, all but the open one, which is one of
them. -/
theorem scan_terms (h : r.scan c s k = .ok (x, u)) :
    (∀ v ∈ r.terms, v.InRange c s.size ∨ ∃ side, u = some (side, v)) ∧
      ∀ side v, u = some (side, v) → v ∈ r.terms := by
  obtain ⟨u₁, u₂, h₁, h₂, h₃⟩ := scan_eq_ok h
  obtain ⟨hleft, hleft'⟩ := scanSide_terms h₁
  obtain ⟨hright, hright'⟩ := scanSide_terms h₂
  obtain ⟨hout, hout'⟩ := scanSide_terms h₃
  simp only [terms, List.mem_append]
  constructor
  · rintro v ((hv | hv) | hv)
    · exact (hleft v hv).imp_right fun hu => ⟨_, open_of_scanSide h₃ (open_of_scanSide h₂ hu)⟩
    · exact (hright v hv).imp_right fun hu => ⟨_, open_of_scanSide h₃ hu⟩
    · exact (hout v hv).imp_right fun hu => ⟨_, hu⟩
  · intro side v hu
    rcases hout' side v hu with hv | hu
    · exact Or.inr hv
    · rcases hright' side v hu with hv | hu
      · exact Or.inl (Or.inr hv)
      · exact Or.inl (Or.inl ((hleft' side v hu).resolve_right (by simp)))

/-- At a valuation the sides are the scanned ones plus the contribution of the open term. -/
theorem sides_eq_complete (h : r.scan c s k = .ok (x, u)) (hz : s.Agrees z) :
    r.sides c z = x.complete c z u := by
  obtain ⟨u₁, u₂, h₁, h₂, h₃⟩ := scan_eq_ok h
  simp only [sides]
  rcases scanSide_eq_ok h₁ with ⟨rfl, hl⟩ | ⟨-, v₁, rfl, -, -, hl⟩ <;>
    rcases scanSide_eq_ok h₂ with ⟨rfl, hr⟩ | ⟨⟨⟩, v₂, rfl, -, -, hr⟩ <;>
    rcases scanSide_eq_ok h₃ with ⟨rfl, ho⟩ | ⟨⟨⟩, v₃, rfl, -, -, ho⟩ <;>
    rw [← zero_add (LinComb.denote c z r.left), ← zero_add (LinComb.denote c z r.right),
      ← zero_add (LinComb.denote c z r.out), hl z hz, hr z hz, ho z hz] <;>
    rfl

/-! ### The step -/

/-- The open term that the constraint is accepted without: the other factor is zero, so nothing
determines the value of its wire. -/
def leftOut (c : CoeffPool p) (s : Assignment p) (k : Nat) (r : Rank1) : Option (Side × Term) :=
  match r.scan c s k with
  | .ok (x, some (side, v)) => if x.missing side = none then some (side, v) else none
  | _ => none

theorem leftOut_eq_some_iff {side : Side} {v : Term} :
    r.leftOut c s k = some (side, v) ↔
      ∃ x, r.scan c s k = .ok (x, some (side, v)) ∧ x.missing side = none := by
  unfold leftOut
  rcases r.scan c s k with f | ⟨x, - | ⟨side', v'⟩⟩
  · simp
  · simp
  · dsimp only
    split
    · next hmissing =>
      simp only [Option.some.injEq, Except.ok.injEq, Prod.mk.injEq]
      constructor
      · rintro ⟨rfl, rfl⟩
        exact ⟨x, ⟨rfl, rfl, rfl⟩, hmissing⟩
      · rintro ⟨-, ⟨-, rfl, rfl⟩, -⟩
        exact ⟨rfl, rfl⟩
    · next hmissing =>
      simp only [reduceCtorEq, Except.ok.injEq, Prod.mk.injEq, false_iff, Option.some.injEq]
      rintro ⟨y, ⟨rfl, rfl, rfl⟩, hnone⟩
      exact hmissing hnone

theorem check_eq_ok (h : check x = .ok ()) : x.balanced = true := by
  unfold check at h
  split at h
  · assumption
  · cases h

theorem check_eq_error {e : Refusal} (h : check x = .error e) : x.balanced = false := by
  unfold check at h
  split at h
  · cases h
  · next hb => exact Bool.eq_false_iff.2 hb

/-- What is left of a constraint whose sides are closed: its check. -/
theorem solve_of_closed (hscan : r.scan c s k = .ok (x, u)) (hu : x.Closed u) :
    r.solve c s k = check x >>= fun _ => pure (s, x) := by
  unfold solve
  rw [hscan]
  rcases u with - | ⟨side, v⟩
  · rfl
  · simp only [Outcome.lift_ok_bind, hu side v rfl]

/-- What is left of a constraint that determines its open wire: a quotient, and a write. -/
theorem solve_of_missing {side : Side} {v : Term} {y : Fp p}
    (hscan : r.scan c s k = .ok (x, some (side, v))) (hy : x.missing side = some y) :
    r.solve c s k = (do
      let t ← liftM (s.set v.wire (← c.divide y v.coeff))
      pure (t, x.add side y)) := by
  unfold solve
  rw [hscan]
  simp only [Outcome.lift_ok_bind, hy]

/-- A constraint that is accepted either was balanced as it stood and changed nothing, or was
balanced by the value that its open wire was given. -/
theorem solve_eq_ok (h : r.solve c s k = .ok (t, x)) :
    (∃ u, r.scan c s k = .ok (x, u) ∧ x.Closed u ∧ x.balanced = true ∧ t = s) ∨
      ∃ x₀ side v y q, r.scan c s k = .ok (x₀, some (side, v)) ∧ x₀.missing side = some y ∧
        c.divide y v.coeff = .ok q ∧ s.set v.wire q = .ok t ∧ x = x₀.add side y := by
  obtain ⟨⟨x₀, u⟩, hscan, -⟩ := Outcome.bind_eq_ok_iff.1 h
  rw [Outcome.lift_eq_ok_iff] at hscan
  rcases x₀.closed_or_missing u with hu | ⟨side, v, y, rfl, hy⟩
  · rw [solve_of_closed hscan hu] at h
    obtain ⟨_, hcheck, h⟩ := Outcome.bind_eq_ok_iff.1 h
    obtain ⟨rfl, rfl⟩ := Prod.mk.inj (Outcome.pure_eq_ok_iff.1 h)
    exact Or.inl ⟨u, hscan, hu, check_eq_ok hcheck, rfl⟩
  · rw [solve_of_missing hscan hy] at h
    obtain ⟨q, hq, h⟩ := Outcome.bind_eq_ok_iff.1 h
    obtain ⟨t', ht, h⟩ := Outcome.bind_eq_ok_iff.1 h
    obtain ⟨rfl, rfl⟩ := Prod.mk.inj (Outcome.pure_eq_ok_iff.1 h)
    exact Or.inr ⟨x₀, side, v, y, q, hscan, hy, Outcome.lift_eq_ok_iff.1 hq,
      Outcome.lift_eq_ok_iff.1 ht, rfl⟩

/-- A constraint that does not come out is not balanced, and no value of an open wire could
balance it. -/
theorem solve_eq_mismatch {m : Mismatch} (h : r.solve c s k = .error (.mismatch m)) :
    ∃ x u, r.scan c s k = .ok (x, u) ∧ x.Closed u ∧ x.balanced = false := by
  rcases Outcome.bind_eq_error_iff.1 h with hscan | ⟨⟨x, u⟩, hscan, -⟩
  · exact absurd hscan Outcome.lift_ne_mismatch
  rw [Outcome.lift_eq_ok_iff] at hscan
  rcases x.closed_or_missing u with hu | ⟨side, v, y, rfl, hy⟩
  · rw [solve_of_closed hscan hu] at h
    rcases Outcome.bind_eq_error_iff.1 h with h | ⟨-, -, h⟩
    · exact ⟨x, u, hscan, hu, check_eq_error h⟩
    · exact absurd h Outcome.pure_ne_error
  · -- a wire that is determined can only be refused as malformed
    rw [solve_of_missing hscan hy] at h
    rcases Outcome.bind_eq_error_iff.1 h with h | ⟨q, -, h⟩
    · exact absurd h Outcome.lift_ne_mismatch
    · rcases Outcome.bind_eq_error_iff.1 h with h | ⟨t, -, h⟩
      · exact absurd h Outcome.lift_ne_mismatch
      · exact absurd h Outcome.pure_ne_error

/-! ### What the step says about valuations -/

variable {side : Side} {v : Term}

/-- An open term that does not matter leaves the balance of the sides as it is. -/
theorem balanced_complete (hu : x.Closed u) :
    (x.complete c z u).balanced = x.balanced := by
  rcases u with - | ⟨side, v⟩
  · rfl
  · exact Sides.balanced_add_of_missing (hu side v rfl) _

/-- The open term of a constraint has no constant: it is a coefficient times its wire. -/
theorem denote_open (h : r.scan c s k = .ok (x, some (side, v))) :
    v.denote c z = c.denote v.coeff * z v.wire := by
  rw [Term.denote, if_neg]
  simp [(open_of_scan h side v rfl).1]

/-- The sides that a constraint is accepted with are balanced. -/
theorem balanced_of_solve [Fact p.Prime] (h : r.solve c s k = .ok (t, x)) :
    x.balanced = true := by
  rcases solve_eq_ok h with ⟨-, -, -, hbalanced, -⟩ | ⟨x₀, side, v, y, q, -, hy, -, -, rfl⟩
  · exact hbalanced
  · exact (Sides.balanced_add_iff hy y).2 rfl

/-- A step gives a value to one wire at most. -/
theorem grows_of_solve (h : r.solve c s k = .ok (t, x)) : s.Grows t := by
  rcases solve_eq_ok h with ⟨-, -, -, -, rfl⟩ | ⟨-, -, v, -, q, -, -, -, hset, -⟩
  · exact Or.inl rfl
  · exact Or.inr ⟨v.wire, q, hset⟩

/-- The assignment that is reached stands for exactly the valuations at which the constraint
holds, of those that the assignment before stood for. -/
theorem agrees_iff_of_solve [Fact p.Prime] (h : r.solve c s k = .ok (t, x)) :
    t.Agrees z ↔ s.Agrees z ∧ r.Holds c z := by
  rcases solve_eq_ok h with ⟨u, hscan, hu, hbalanced, rfl⟩ | ⟨x₀, side, v, y, q, hscan, hy, hq,
    hset, -⟩
  · -- the constraint holds at every valuation, whatever value the open wire has
    refine ⟨fun hz => ⟨hz, ?_⟩, And.left⟩
    rw [holds_iff_balanced, sides_eq_complete hscan hz, balanced_complete hu, hbalanced]
  · rw [Assignment.agrees_of_set hset]
    refine and_congr_right fun hz => ?_
    rw [holds_iff_balanced, sides_eq_complete hscan hz]
    change _ ↔ (x₀.add side (v.denote c z)).balanced = true
    obtain ⟨hne, hmul⟩ := CoeffPool.divide_eq_ok hq
    rw [Sides.balanced_add_iff hy, denote_open hscan, ← hmul, mul_right_inj' hne]

/-- No valuation that the assignment stands for survives a mismatch. -/
theorem not_holds_of_solve {m : Mismatch} (h : r.solve c s k = .error (.mismatch m))
    (hz : s.Agrees z) : ¬ r.Holds c z := by
  obtain ⟨x, u, hscan, hu, hbalanced⟩ := solve_eq_mismatch h
  rw [holds_iff_balanced, sides_eq_complete hscan hz, balanced_complete hu, hbalanced]
  exact Bool.false_ne_true

/-- The sides of the constraint are those that are returned, and the contribution of the term
that was left out. -/
theorem sides_of_solve [Fact p.Prime] (h : r.solve c s k = .ok (t, x)) (hz : t.Agrees z) :
    r.sides c z = x.complete c z (r.leftOut c s k) := by
  have hs : s.Agrees z := (agrees_iff_of_solve h |>.1 hz).1
  rcases solve_eq_ok h with ⟨u, hscan, hu, -, -⟩ | ⟨x₀, side, v, y, q, hscan, hy, hq, hset, rfl⟩
  · rw [sides_eq_complete hscan hs, leftOut, hscan]
    rcases u with - | ⟨side, v⟩
    · rfl
    · simp only [hu side v rfl, if_true]
  · have hv : v.denote c z = y := by
      rw [denote_open hscan, hz _ _ (Assignment.get?_set_self hset),
        (CoeffPool.divide_eq_ok hq).2]
    rw [sides_eq_complete hscan hs, leftOut, hscan]
    simp only [hy, reduceCtorEq, if_false, Sides.complete, hv]

/-! ### What the step says about ranges -/

/-- The terms of a constraint that is accepted are in range, all but the one that is left out, which
is one of them. -/
theorem terms_of_solve (h : r.solve c s k = .ok (t, x)) :
    (∀ v ∈ r.terms, v.InRange c s.size ∨ ∃ side, r.leftOut c s k = some (side, v)) ∧
      ∀ side v, r.leftOut c s k = some (side, v) → v ∈ r.terms := by
  refine ⟨fun v hv => ?_, fun side v hleft => ?_⟩
  · rcases solve_eq_ok h with ⟨u, hscan, hu, -, -⟩ | ⟨x₀, side, v', y, q, hscan, -, hq, hset, -⟩
    · refine ((scan_terms hscan).1 v hv).imp_right ?_
      rintro ⟨side, rfl⟩
      exact ⟨side, leftOut_eq_some_iff.2 ⟨x, hscan, hu side v rfl⟩⟩
    · -- the open term was divided by its coefficient, and its wire was given a value
      rcases (scan_terms hscan).1 v hv with hrange | ⟨side', hopen⟩
      · exact Or.inl hrange
      · cases hopen
        exact Or.inl ⟨CoeffPool.lt_size_of_divide hq,
          Or.inr (Assignment.set_eq_ok_iff.1 hset).1⟩
  · obtain ⟨x', hscan, -⟩ := leftOut_eq_some_iff.1 hleft
    exact (scan_terms hscan).2 side v rfl

end Rank1

end WireSolve
