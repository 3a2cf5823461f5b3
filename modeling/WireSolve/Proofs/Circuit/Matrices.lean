/-
WireSolve/Proofs/Circuit/Matrices.lean

The exported matrices evaluate the sides of the constraints.

A circuit that has a wire at all, for the column of constant terms, has matrices
exactly when the terms of its rank-1 constraints are in range
(`Circuit.matrices_isOk_iff`).  The product of such a matrix with the values of
all wires, the constant one among them, is what one side of each constraint
denotes there, and zero for the constraints that are not rank-1
(`Circuit.IsMatrix.mulVector_eq`).
-/
import WireSolve.Circuit.Matrices
import WireSolve.Proofs.Csr
import WireSolve.Proofs.Evaluation

namespace WireSolve

variable {p : Nat} [Modulus p]

/-- What one side of a constraint denotes; constraints that are not rank-1 have no sides. -/
def Constraint.denote (c : CoeffPool p) (z : Valuation p) (side : Rank1 → LinComb) :
    Constraint p → Fp p
  | rank1 r => LinComb.denote c z (side r)
  | gate _ => 0
  | custom _ => 0

theorem CoeffPool.get?_of_lt {c : CoeffPool p} {i : Nat} (h : i < c.size) :
    c.get? i = some (c.denote i) := by
  have hget : c.get? i = some c.entries[i] := Array.getElem?_eq_getElem h
  rw [denote, hget, Option.getD_some]

namespace Circuit

variable {c : Circuit p} {side : Rank1 → LinComb} {t : Term}

/-! ### Rows -/

/-- The column and the value of a term that is in range. -/
def entryOf (c : Circuit p) (t : Term) : Nat × Fp p :=
  (if t.isConstant then 0 else t.wire.toNat, c.pool.denote t.coeff)

/-- The row of a constraint in the matrix of one side. -/
def rowOf (c : Circuit p) (side : Rank1 → LinComb) : Constraint p → List (Nat × Fp p)
  | .rank1 r => (side r).map c.entryOf
  | .gate _ => []
  | .custom _ => []

theorem matrixEntry_eq_ok (ht : t.InRange c.pool c.wireCount) :
    c.matrixEntry t = .ok (c.entryOf t) := by
  rw [matrixEntry, CoeffPool.get?_of_lt ht.1, entryOf]

/-- The column of a term is inside the matrix. -/
theorem entryOf_lt (ht : t.InRange c.pool c.wireCount) (hwires : 0 < c.wireCount) :
    (c.entryOf t).1 < c.wireCount := by
  rw [entryOf]
  split
  · exact hwires
  · next hconst => exact ht.2.resolve_left hconst

/-- A side all of whose terms are in range, in constraints that are. -/
def Covers (c : Circuit p) (side : Rank1 → LinComb) : Prop :=
  ∀ r, r.InRange c.pool c.wireCount → ∀ t ∈ side r, t.InRange c.pool c.wireCount

theorem matrixRows_eq_ok (hc : c.TermsInRange) (hside : c.Covers side) :
    c.matrixRows side = .ok (c.constraints.toList.map (c.rowOf side)) := by
  refine Outcome.mapM_eq_ok fun q hq => ?_
  have hrange := hc q (Array.mem_toList_iff.1 hq)
  cases q with
  | rank1 r => exact Outcome.mapM_eq_ok fun t ht => matrixEntry_eq_ok (hside r hrange t ht)
  | gate g => rfl
  | custom body => rfl

theorem rowOf_lt (hc : c.TermsInRange) (hside : c.Covers side) (hwires : 0 < c.wireCount) :
    ∀ row ∈ c.constraints.toList.map (c.rowOf side), ∀ e ∈ row, e.1 < c.wireCount := by
  intro row hrow e he
  obtain ⟨q, hq, rfl⟩ := List.mem_map.1 hrow
  have hrange := hc q (Array.mem_toList_iff.1 hq)
  cases q with
  | rank1 r =>
    obtain ⟨t, ht, rfl⟩ := List.mem_map.1 he
    exact entryOf_lt (hside r hrange t ht) hwires
  | gate g => cases he
  | custom body => cases he

/-! ### Matrices -/

/-- The matrix of one side of the constraints of a circuit. -/
structure IsMatrix (c : Circuit p) (side : Rank1 → LinComb) (m : CsrMatrix p) : Prop where
  width_eq : m.width = c.wireCount
  represents : m.Represents (c.constraints.toList.map (c.rowOf side))

theorem exists_isMatrix (hc : c.TermsInRange) (hside : c.Covers side) (hwires : 0 < c.wireCount) :
    ∃ m, CsrMatrix.ofRows (c.constraints.toList.map (c.rowOf side)) c.wireCount = .ok m ∧
      c.IsMatrix side m := by
  obtain ⟨m, hm, hwidth, hrows⟩ := CsrMatrix.ofRows_eq_ok (rowOf_lt hc hside hwires)
  exact ⟨m, hm, hwidth, hrows⟩

theorem covers_left : c.Covers Rank1.left := fun _ h => h.1

theorem covers_right : c.Covers Rank1.right := fun _ h => h.2.1

theorem covers_out : c.Covers Rank1.out := fun _ h => h.2.2

/-- A circuit whose terms are in range has the matrices of its three sides. -/
theorem matrices_of_terms (hc : c.TermsInRange) (hwires : 0 < c.wireCount) :
    ∃ m, c.matrices = .ok m ∧ c.IsMatrix Rank1.left m.a ∧ c.IsMatrix Rank1.right m.b ∧
      c.IsMatrix Rank1.out m.c := by
  obtain ⟨a, ha, hma⟩ := exists_isMatrix hc covers_left hwires
  obtain ⟨b, hb, hmb⟩ := exists_isMatrix hc covers_right hwires
  obtain ⟨d, hd, hmd⟩ := exists_isMatrix hc covers_out hwires
  refine ⟨⟨a, b, d⟩, ?_, hma, hmb, hmd⟩
  rw [matrices]
  refine Outcome.bind_eq_ok_iff.2 ⟨_, matrixRows_eq_ok hc covers_left, ?_⟩
  refine Outcome.bind_eq_ok_iff.2 ⟨_, matrixRows_eq_ok hc covers_right, ?_⟩
  refine Outcome.bind_eq_ok_iff.2 ⟨_, matrixRows_eq_ok hc covers_out, ?_⟩
  refine Outcome.bind_eq_ok_iff.2 ⟨a, ha, ?_⟩
  refine Outcome.bind_eq_ok_iff.2 ⟨b, hb, ?_⟩
  exact Outcome.bind_eq_ok_iff.2 ⟨d, hd, rfl⟩

/-- In a circuit that is in range, so are its terms. -/
theorem InRange.terms (hc : c.InRange) : c.TermsInRange := by
  intro q hq
  cases q with
  | rank1 r => exact hc _ hq
  | gate g => trivial
  | custom body => trivial

theorem matrices_eq_ok (hc : c.InRange) (hwires : 0 < c.wireCount) :
    ∃ m, c.matrices = .ok m ∧ c.IsMatrix Rank1.left m.a ∧ c.IsMatrix Rank1.right m.b ∧
      c.IsMatrix Rank1.out m.c :=
  matrices_of_terms hc.terms hwires

/-! ### What the matrices check -/

/-- The matrix of a side has the terms of that side in range. -/
theorem inRange_of_matrixRows {rows : List (List (Nat × Fp p))} {m : CsrMatrix p}
    (hrows : c.matrixRows side = .ok rows) (hm : CsrMatrix.ofRows rows c.wireCount = .ok m)
    {r : Rank1} (hr : Constraint.rank1 r ∈ c.constraints) (ht : t ∈ side r) :
    t.InRange c.pool c.wireCount := by
  obtain ⟨row, hrow, hterms⟩ := Outcome.exists_of_mapM_eq_ok hrows (Array.mem_toList_iff.2 hr)
  obtain ⟨e, he, hentry⟩ := Outcome.exists_of_mapM_eq_ok hterms ht
  have hcolumn : e.1 < c.wireCount := CsrMatrix.lt_of_ofRows hm hrow he
  unfold matrixEntry at hentry
  split at hentry
  · next x hx =>
    obtain rfl := Except.ok.inj hentry
    refine ⟨CoeffPool.fetch_isOk_iff.1 ⟨x, CoeffPool.fetch_eq_ok_iff.2 hx⟩, ?_⟩
    by_cases hconst : t.isConstant = true
    · exact Or.inl hconst
    · exact Or.inr (by simpa [hconst] using hcolumn)
  · cases hentry

/-- A circuit that has matrices has its terms in range. -/
theorem termsInRange_of_matrices {m : Rank1Matrices p} (h : c.matrices = .ok m) :
    c.TermsInRange := by
  unfold matrices at h
  obtain ⟨left, hleft, h⟩ := Outcome.bind_eq_ok_iff.1 h
  obtain ⟨right, hright, h⟩ := Outcome.bind_eq_ok_iff.1 h
  obtain ⟨out, hout, h⟩ := Outcome.bind_eq_ok_iff.1 h
  obtain ⟨a, ha, h⟩ := Outcome.bind_eq_ok_iff.1 h
  obtain ⟨b, hb, h⟩ := Outcome.bind_eq_ok_iff.1 h
  obtain ⟨d, hd, -⟩ := Outcome.bind_eq_ok_iff.1 h
  intro q hq
  cases q with
  | rank1 r =>
    exact ⟨fun t ht => inRange_of_matrixRows hleft ha hq ht,
      fun t ht => inRange_of_matrixRows hright hb hq ht,
      fun t ht => inRange_of_matrixRows hout hd hq ht⟩
  | gate g => trivial
  | custom body => trivial

/-- The matrices can be made exactly when the terms are in range. -/
theorem matrices_isOk_iff (hwires : 0 < c.wireCount) :
    (∃ m, c.matrices = .ok m) ↔ c.TermsInRange := by
  constructor
  · rintro ⟨m, hm⟩
    exact termsInRange_of_matrices hm
  · intro hc
    obtain ⟨m, hm, -⟩ := matrices_of_terms hc hwires
    exact ⟨m, hm⟩

/-! ### Products -/

variable {values : Array (Fp p)}

/-- A term that is in a row contributes what it denotes; constant terms meet the constant one. -/
theorem entryOf_mul (hone : Valuation.ofValues values 0 = 1) (t : Term) :
    (c.entryOf t).2 * values.getD (c.entryOf t).1 0
      = t.denote c.pool (.ofValues values) := by
  rw [entryOf, Term.denote]
  split
  · -- a constant term is in the first column
    show _ * Valuation.ofValues values 0 = _
    rw [hone, mul_one]
  · rfl

/-- The product of a row is what the side denotes. -/
theorem dot_rowOf (hone : Valuation.ofValues values 0 = 1) (q : Constraint p) :
    CsrMatrix.dot (c.rowOf side q) values = q.denote c.pool (.ofValues values) side := by
  rw [CsrMatrix.dot_eq_sum]
  cases q with
  | rank1 r =>
    rw [rowOf, List.map_map]
    exact congrArg List.sum (List.map_congr_left fun t _ => entryOf_mul hone t)
  | gate g => rfl
  | custom body => rfl

/-- The product of the matrix of a side with the values of all wires. -/
theorem IsMatrix.mulVector_eq {m : CsrMatrix p} (h : c.IsMatrix side m)
    (hsize : values.size = c.wireCount) (hone : Valuation.ofValues values 0 = 1) :
    m.mulVector values
      = .ok (c.constraints.toList.map (Constraint.denote c.pool (.ofValues values) side)) := by
  rw [h.represents.mulVector_eq (hsize.trans h.width_eq.symm), List.map_map]
  exact congrArg Except.ok (List.map_congr_left fun q _ => dot_rowOf hone q)

end Circuit

end WireSolve
