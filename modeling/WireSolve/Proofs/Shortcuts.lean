/-
WireSolve/Proofs/Shortcuts.lean

The shortcuts for the reserved coefficients are the arithmetic with the pool.

Three dispatches recognise the reserved coefficients by position: the value of a term,
the running sum that it is added to, and the division by a coefficient.  Each of them
comes to what a look-up in the pool and one operation of the field come to, because the
reserved positions hold what the dispatch takes them for.

A running sum that is updated in place is the one that is handed on as a value
(`Term.accumulate_eq`), so a term that has no value leaves it alone.  A division goes by
what the pool holds at the position: nothing, zero, or a coefficient that can be divided
by (`CoeffPool.divide_eq_ok_iff`, `CoeffPool.divide_eq_zeroDivisor_iff`,
`CoeffPool.divide_eq_outOfRange_iff`).

Main result: `CoeffPool.shortcuts_plain`.
-/
import WireSolve.Proofs.Evaluation

namespace WireSolve

variable {p : Nat} [Modulus p] {c : CoeffPool p} {s : Assignment p}

/-! ### Terms -/

namespace Term

variable {t : Term} {q x : Fp p}

/-- A constant term is its coefficient. -/
theorem value_of_constant (hconst : t.isConstant = true) (hq : c.get? t.coeff = some q) :
    t.value c s = .ok q := by
  rw [value, if_pos hconst]
  exact CoeffPool.fetch_eq_ok_iff.2 hq

/-- A term whose wire has a value is the product with it. -/
theorem value_of_get? (hconst : t.isConstant = false) (hq : c.get? t.coeff = some q)
    (hx : s.get? t.wire = some x) : t.value c s = .ok (q * x) := by
  have hlt : t.coeff < c.size := CoeffPool.fetch_isOk_iff.1 ⟨q, CoeffPool.fetch_eq_ok_iff.2 hq⟩
  have hsolved : s.isSolved t.wire = true := Assignment.isSolved_eq_true_iff.2 ⟨x, hx⟩
  obtain ⟨y, hy⟩ := value_isOk_iff.2 ⟨hlt, Or.inr (Or.inr hsolved)⟩
  -- what the term denotes does not depend on the other wires, so any values will do for them
  have hz : s.Agrees fun w => (s.get? w).getD 0 := by
    intro w v hv
    show (s.get? w).getD 0 = v
    rw [hv, Option.getD_some]
  rw [hy, ← denote_eq_of_value hy hz, denote, if_neg (by simp [hconst]), CoeffPool.denote, hq, hx]
  rfl

/-- A running sum that is updated in place becomes the sum that is handed on, and stays as it is
where there is none. -/
theorem accumulate_eq (t : Term) (acc : Fp p) :
    t.accumulate c s acc = match t.addTo c s acc with
      | .ok y => .ok () y
      | .error f => .error f acc := by
  unfold accumulate addTo
  by_cases hconst : t.isConstant = true
  · rw [if_pos hconst, if_pos hconst]
    rcases c.fetch t.coeff with f | q <;> rfl
  rw [if_neg hconst, if_neg hconst]
  by_cases hzero : t.coeff = 0
  · rw [if_pos hzero, if_neg (not_not.2 hzero)]
    rfl
  rw [if_neg hzero, if_pos hzero]
  rcases s.get? t.wire with - | x
  · rfl
  dsimp only
  generalize t.coeff = i
  split
  · rfl
  · rfl
  · rfl
  · rcases c.fetch i with f | q <;> rfl

/-- It fails where the term has no value, with the fault of the term, and the sum is unchanged. -/
theorem accumulate_eq_error_iff {acc acc' : Fp p} {f : Fault} :
    t.accumulate c s acc = .error f acc' ↔ t.value c s = .error f ∧ acc' = acc := by
  rw [accumulate_eq, addTo_eq]
  rcases t.value c s with f' | x
  · simp [Except.map, eq_comm]
  · simp [Except.map]

/-- It grows by the value of the term. -/
theorem accumulate_of_value (acc : Fp p) (h : t.value c s = .ok x) :
    t.accumulate c s acc = .ok () (acc + x) := by
  rw [accumulate_eq, addTo_eq, h]
  rfl

end Term

/-! ### Division -/

namespace CoeffPool

variable {x y : Fp p} {i : Nat}

/-- A division goes by what the pool holds at the position. -/
theorem divide_eq [Fact p.Prime] (c : CoeffPool p) (x : Fp p) (i : Nat) :
    c.divide x i = match c.get? i with
      | some q => if q = 0 then .error .zeroDivisor else .ok (x / q)
      | none => .error (.coeffOutOfRange i) := by
  unfold divide
  split
  · rw [get?_reserved (by decide)]
    exact (if_pos rfl).symm
  · have hone : c.get? 1 = some 1 := get?_reserved (by decide)
    simp [hone]
  · have hminus : c.get? 3 = some (-1) := get?_reserved (by decide)
    simp [hminus, div_neg]
  · rw [fetch]
    rcases c.get? i with - | q
    · rfl
    · show (match q.inverse? with
        | some y => pure (x * y)
        | none => Except.error Fault.zeroDivisor) = _
      by_cases hq : q = 0
      · rw [Fp.inverse?_eq_none_iff.2 hq]
        exact (if_pos hq).symm
      · rw [Fp.inverse?_eq_some_iff.2 ⟨hq, rfl⟩]
        exact (if_neg hq).symm

/-- It goes through where the pool holds a coefficient other than zero, and what it gives back is
the one number whose product with the coefficient is the dividend. -/
theorem divide_eq_ok_iff [Fact p.Prime] :
    c.divide x i = .ok y ↔ ∃ q, c.get? i = some q ∧ q ≠ 0 ∧ y * q = x := by
  rw [divide_eq]
  rcases c.get? i with - | q
  · simp
  · by_cases hq : q = 0
    · simp [hq]
    · simpa [hq] using (div_eq_iff hq).trans eq_comm

theorem divide_eq_zeroDivisor_iff [Fact p.Prime] :
    c.divide x i = .error .zeroDivisor ↔ c.get? i = some 0 := by
  rw [divide_eq]
  rcases c.get? i with - | q
  · simp
  · by_cases hq : q = 0 <;> simp [hq]

theorem divide_eq_outOfRange_iff [Fact p.Prime] :
    c.divide x i = .error (.coeffOutOfRange i) ↔ c.get? i = none := by
  rw [divide_eq]
  rcases c.get? i with - | q
  · simp
  · by_cases hq : q = 0 <;> simp [hq]

theorem divide_isOk_iff [Fact p.Prime] :
    (∃ y, c.divide x i = .ok y) ↔ ∃ q, c.get? i = some q ∧ q ≠ 0 := by
  simp only [divide_eq_ok_iff]
  constructor
  · rintro ⟨-, q, hq, hne, -⟩
    exact ⟨q, hq, hne⟩
  · rintro ⟨q, hq, hne⟩
    exact ⟨x / q, q, hq, hne, div_mul_cancel₀ x hne⟩

end CoeffPool

/-! ### All shortcuts -/

/-- A term is read with the plain arithmetic of the field, as a value and into a running sum. -/
structure Term.ReadsPlainly (c : CoeffPool p) (s : Assignment p) (t : Term) : Prop where
  /-- A constant term is its coefficient. -/
  constant : ∀ q, c.get? t.coeff = some q → t.isConstant = true → t.value c s = .ok q
  /-- Any other term is the product of its coefficient with the value of its wire. -/
  product : ∀ q x, c.get? t.coeff = some q → t.isConstant = false → s.get? t.wire = some x →
    t.value c s = .ok (q * x)
  /-- A running sum grows by the value of the term. -/
  accumulate_ok : ∀ x acc, t.value c s = .ok x → t.accumulate c s acc = .ok () (acc + x)
  /-- It fails exactly where the term has no value, with the same fault, and is left as it was. -/
  accumulate_error : ∀ f acc acc',
    t.accumulate c s acc = .error f acc' ↔ t.value c s = .error f ∧ acc' = acc
  /-- The sum that is handed on as a value does the same. -/
  addTo : ∀ acc, t.addTo c s acc = (t.value c s).map (acc + ·)

/-- A value is divided by the coefficient at a position with the plain arithmetic of the field. -/
structure CoeffPool.DividesPlainly (c : CoeffPool p) (x : Fp p) (i : Nat) : Prop where
  /-- The division goes through exactly if the pool has a coefficient there that is not zero. -/
  isOk_iff : (∃ y, c.divide x i = .ok y) ↔ ∃ q, c.get? i = some q ∧ q ≠ 0
  /-- The product of the quotient with the coefficient is the dividend. -/
  quotient : ∀ y q, c.divide x i = .ok y → c.get? i = some q → y * q = x
  /-- A coefficient that is zero is reported as such. -/
  zeroDivisor_iff : c.divide x i = .error .zeroDivisor ↔ c.get? i = some 0
  /-- So is a position that the pool does not have. -/
  outOfRange_iff : c.divide x i = .error (.coeffOutOfRange i) ↔ c.get? i = none

/-- Whatever a pool holds past its reserved positions, the shortcuts for these are the arithmetic of
the field: for every term against every assignment, for every running sum and for every division. -/
theorem CoeffPool.shortcuts_plain [Fact p.Prime] (c : CoeffPool p) :
    (∀ (s : Assignment p) (t : Term), t.ReadsPlainly c s) ∧
      ∀ (x : Fp p) (i : Nat), c.DividesPlainly x i := by
  refine ⟨fun s t => ?_, fun x i => ?_⟩
  · exact {
      constant := fun q hq hconst => Term.value_of_constant hconst hq
      product := fun q x hq hconst hx => Term.value_of_get? hconst hq hx
      accumulate_ok := fun x acc h => Term.accumulate_of_value acc h
      accumulate_error := fun f acc acc' => Term.accumulate_eq_error_iff
      addTo := Term.addTo_eq t }
  · refine ⟨divide_isOk_iff, fun y q hy hq => ?_, divide_eq_zeroDivisor_iff,
      divide_eq_outOfRange_iff⟩
    obtain ⟨q', hq', -, hmul⟩ := divide_eq_ok_iff.1 hy
    obtain rfl := Option.some.inj (hq'.symm.trans hq)
    exact hmul

/-- In the field of order three, two is minus one, and both positions are reserved. -/
theorem CoeffPool.shortcuts_three :
    Nat.Prime 3 ∧ (CoeffPool.initial : CoeffPool 3).get? 2 = CoeffPool.initial.get? 3 ∧
      Term.accumulate .initial ⟨#[some 2], 1⟩ ⟨2, 0⟩ (1 : Fp 3) = .ok () (1 + 2 * 2) ∧
      Term.accumulate .initial ⟨#[none], 0⟩ ⟨2, 0⟩ (1 : Fp 3) = .error (.unsolvedWire 0) 1 ∧
      CoeffPool.initial.divide (1 : Fp 3) 0 = .error .zeroDivisor ∧
      CoeffPool.initial.divide (1 : Fp 3) 4 = .error (.coeffOutOfRange 4) := by
  have hterm := (shortcuts_plain (CoeffPool.initial : CoeffPool 3)).1
  have hdivide := (shortcuts_plain (CoeffPool.initial : CoeffPool 3)).2
  refine ⟨by decide, by decide, ?_, ?_, ?_, ?_⟩
  · exact (hterm _ _).accumulate_ok _ _
      ((hterm _ _).product 2 2 (by decide) (by decide) (by decide))
  · exact ((hterm _ _).accumulate_error _ _ _).2 ⟨rfl, rfl⟩
  · exact (hdivide 1 0).zeroDivisor_iff.2 rfl
  · exact (hdivide 1 4).outOfRange_iff.2 rfl

end WireSolve
