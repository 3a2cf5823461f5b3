/-
WireSolve/Proofs/Evaluation.lean

What is read against a partial assignment is what it denotes at every valuation
that the assignment agrees with.

The reserved coefficients are where the dispatch of `Term.value` expects them
(`CoeffPool.denote_zero` to `CoeffPool.denote_three`), so each shortcut is the
product with the coefficient that it stands for (`Term.denote_eq_of_value`).  A
running sum grows by exactly that product (`Term.addTo_eq`), hence a combination
that is read denotes its value (`LinComb.denote_eq_of_value`), and a value that
is divided by a coefficient gives back the value when it is multiplied
(`CoeffPool.divide_eq_ok`).
-/
import Mathlib.Tactic.Ring
import WireSolve.Proofs.Assignment
import WireSolve.Proofs.Field
import WireSolve.Proofs.Outcome

namespace WireSolve

variable {p : Nat} [Modulus p] {c : CoeffPool p} {s : Assignment p} {z : Valuation p}

/-! ### Coefficients -/

namespace CoeffPool

theorem fetch_eq_ok_iff {i : Nat} {x : Fp p} : c.fetch i = .ok x ↔ c.get? i = some x := by
  rw [fetch]
  rcases c.get? i with - | y <;> simp

/-- A coefficient that is fetched is the one that the position denotes. -/
theorem denote_eq_of_fetch {i : Nat} {x : Fp p} (h : c.fetch i = .ok x) : c.denote i = x := by
  rw [denote, fetch_eq_ok_iff.1 h, Option.getD_some]

/-- The reserved positions hold the reserved coefficients. -/
theorem get?_reserved {i : Nat} (hi : i < 4) : c.get? i = (reservedCoeffs p)[i]? := by
  rw [← c.reserved, List.getElem?_take_of_lt hi, get?, Array.getElem?_toList]

/-- A coefficient can be fetched exactly when it is in the pool. -/
theorem fetch_isOk_iff {i : Nat} : (∃ x, c.fetch i = .ok x) ↔ i < c.size := by
  simp only [fetch_eq_ok_iff, get?, size, Array.getElem?_eq_some_iff]
  exact ⟨fun ⟨_, hi, _⟩ => hi, fun hi => ⟨_, hi, rfl⟩⟩

/-- What is looked up in vain is not in the pool. -/
theorem fetch_eq_error {i : Nat} {f : Fault} (h : c.fetch i = .error f) :
    c.size ≤ i ∧ f = .coeffOutOfRange i := by
  have hlt : ¬ i < c.size := by
    rw [← fetch_isOk_iff, h]
    simp
  rw [fetch] at h
  split at h
  · cases h
  · exact ⟨Nat.le_of_not_lt hlt, (Except.error.inj h).symm⟩

/-- The position of the coefficient one is taken. -/
theorem one_lt_size (c : CoeffPool p) : 1 < c.size :=
  Nat.lt_of_lt_of_le (by decide) c.four_le_size

@[simp] theorem denote_zero : c.denote 0 = 0 := by
  rw [denote, get?_reserved (by decide)]
  rfl

@[simp] theorem denote_one : c.denote 1 = 1 := by
  rw [denote, get?_reserved (by decide)]
  rfl

@[simp] theorem denote_two : c.denote 2 = 2 := by
  rw [denote, get?_reserved (by decide)]
  exact one_add_one_eq_two

@[simp] theorem denote_three : c.denote 3 = -1 := by
  rw [denote, get?_reserved (by decide)]
  rfl

/-- Only a coefficient of the pool is divided by. -/
theorem lt_size_of_divide {x y : Fp p} {i : Nat} (h : c.divide x i = .ok y) : i < c.size := by
  have hfour := c.four_le_size
  unfold divide at h
  split at h
  · cases h
  · exact Nat.lt_of_lt_of_le (by decide) hfour
  · exact Nat.lt_of_lt_of_le (by decide) hfour
  · obtain ⟨q, hq, -⟩ := Outcome.bind_eq_ok_iff.1 h
    exact fetch_isOk_iff.1 ⟨q, hq⟩

/-- Only a coefficient other than zero is divided by, and the multiplication with it undoes the
division. -/
theorem divide_eq_ok [Fact p.Prime] {x y : Fp p} {i : Nat} (h : c.divide x i = .ok y) :
    c.denote i ≠ 0 ∧ c.denote i * y = x := by
  unfold divide at h
  split at h
  · cases h
  · obtain rfl := Except.ok.inj h
    rw [denote_one]
    exact ⟨one_ne_zero, one_mul x⟩
  · obtain rfl := Except.ok.inj h
    rw [denote_three, neg_mul_neg, one_mul]
    exact ⟨neg_ne_zero.2 one_ne_zero, rfl⟩
  · obtain ⟨q, hq, h⟩ := Outcome.bind_eq_ok_iff.1 h
    split at h
    · next r hr =>
      obtain ⟨hne, rfl⟩ := Fp.inverse?_eq_some_iff.1 hr
      obtain rfl := Outcome.pure_eq_ok_iff.1 h
      rw [denote_eq_of_fetch hq, mul_comm x]
      exact ⟨hne, mul_inv_cancel_left₀ hne x⟩
    · cases h

end CoeffPool

/-! ### Terms -/

namespace Term

/-- The value of a term is what it denotes. -/
theorem denote_eq_of_value {t : Term} {x : Fp p} (h : t.value c s = .ok x) (hz : s.Agrees z) :
    t.denote c z = x := by
  rw [denote]
  unfold value at h
  split at h
  · next hconst => rw [if_pos hconst, CoeffPool.denote_eq_of_fetch h]
  · next hconst =>
    rw [if_neg hconst]
    split at h
    · next hzero =>
      rw [hzero, CoeffPool.denote_zero, zero_mul]
      exact Except.ok.inj h
    · rcases hw : s.get? t.wire with - | y
      · rw [hw] at h
        cases h
      · simp only [hw] at h
        rw [hz _ _ hw]
        -- the four arms are the reserved one, two and minus one, and the look-up
        split at h
        · next hi => rw [hi, CoeffPool.denote_one, one_mul, Except.ok.inj h]
        · next hi => rw [hi, CoeffPool.denote_two, two_mul, Except.ok.inj h]
        · next hi => rw [hi, CoeffPool.denote_three, neg_one_mul, Except.ok.inj h]
        · rcases hq : c.fetch t.coeff with f | q
          · rw [hq] at h
            cases h
          · rw [hq] at h
            rw [CoeffPool.denote_eq_of_fetch hq, mul_comm]
            exact Except.ok.inj h

/-- A term has a value exactly when its coefficient is in the pool and its wire has one, unless it
is not read: a constant term has no wire, and the reserved zero skips it. -/
theorem value_isOk_iff {t : Term} :
    (∃ x, t.value c s = .ok x) ↔
      t.coeff < c.size ∧ (t.isConstant ∨ t.coeff = 0 ∨ s.isSolved t.wire) := by
  have hfour : 4 ≤ c.size := c.four_le_size
  rw [Assignment.isSolved]
  unfold value
  split
  · next hconst => simp [CoeffPool.fetch_isOk_iff, hconst]
  · next hconst =>
    split
    · next hzero => simp [hzero, Nat.lt_of_lt_of_le (by decide : 0 < 4) hfour]
    · next hzero =>
      rcases s.get? t.wire with - | y
      · simp [hconst, hzero]
      · -- the reserved coefficients are in every pool
        have hlt : ∀ i < 4, i < c.size := fun i hi => Nat.lt_of_lt_of_le hi hfour
        dsimp only
        split
        · next hi => simp [hi, hlt]
        · next hi => simp [hi, hlt]
        · next hi => simp [hi, hlt]
        · rw [← CoeffPool.fetch_isOk_iff]
          rcases c.fetch t.coeff with f | q
          · simp [bind, Except.bind]
          · simp [bind, Except.bind, pure, Except.pure]

/-- A term that has a value keeps it. -/
theorem value_of_extends {s' : Assignment p} {t : Term} {x : Fp p} (hs : s.Extends s')
    (h : t.value c s = .ok x) : t.value c s' = .ok x := by
  unfold value at h ⊢
  split at h
  · next hconst =>
    rw [if_pos hconst]
    exact h
  · next hconst =>
    rw [if_neg hconst]
    split at h
    · next hzero =>
      rw [if_pos hzero]
      exact h
    · next hzero =>
      rw [if_neg hzero]
      rcases hw : s.get? t.wire with - | y
      · rw [hw] at h
        cases h
      · rw [hw] at h
        rw [hs.keeps _ _ hw]
        exact h

/-- A running sum grows by the value of the term, and fails where the value does. -/
theorem addTo_eq (t : Term) (acc : Fp p) : t.addTo c s acc = (t.value c s).map (acc + ·) := by
  unfold addTo value
  split
  · rcases c.fetch t.coeff with f | q <;> rfl
  · split
    · exact congrArg Except.ok (add_zero acc).symm
    · rcases s.get? t.wire with - | y
      · rfl
      · dsimp only
        split
        · rfl
        · exact congrArg Except.ok (add_assoc acc y y)
        · exact congrArg Except.ok (sub_eq_add_neg acc y)
        · rcases c.fetch t.coeff with f | q <;> rfl

/-- A term can be added exactly when it has a value. -/
theorem addTo_isOk_iff {t : Term} {acc : Fp p} :
    (∃ x, t.addTo c s acc = .ok x) ↔
      t.coeff < c.size ∧ (t.isConstant ∨ t.coeff = 0 ∨ s.isSolved t.wire) := by
  rw [← value_isOk_iff, addTo_eq]
  rcases t.value c s with f | x <;> simp [Except.map]

theorem addTo_of_extends {s' : Assignment p} {t : Term} {acc x : Fp p} (hs : s.Extends s')
    (h : t.addTo c s acc = .ok x) : t.addTo c s' acc = .ok x := by
  rw [addTo_eq] at h ⊢
  rcases hv : t.value c s with f | y
  · rw [hv] at h
    cases h
  · rw [hv] at h
    rw [value_of_extends hs hv]
    exact h

/-- A term that has no value is read before its wire has one, or its coefficient is not in the
pool. -/
theorem value_eq_error {t : Term} {f : Fault} (h : t.value c s = .error f) :
    (t.coeff ≠ 0 ∧ s.isSolved t.wire = false) ∧ f = .unsolvedWire t.wire ∨
      c.size ≤ t.coeff ∧ f = .coeffOutOfRange t.coeff := by
  unfold value at h
  split at h
  · exact Or.inr (CoeffPool.fetch_eq_error h)
  split at h
  · cases h
  next hcoeff =>
  rcases hw : s.get? t.wire with - | x
  · rw [hw] at h
    exact Or.inl ⟨⟨hcoeff, Assignment.isSolved_eq_false_iff.2 hw⟩, (Except.error.inj h).symm⟩
  simp only [hw] at h
  -- the reserved coefficients are not looked up
  split at h
  · cases h
  · cases h
  · cases h
  rcases Outcome.bind_eq_error_iff.1 h with h | ⟨y, -, h⟩
  · exact Or.inr (CoeffPool.fetch_eq_error h)
  · cases h

theorem addTo_eq_error {t : Term} {acc : Fp p} {f : Fault} (h : t.addTo c s acc = .error f) :
    (t.coeff ≠ 0 ∧ s.isSolved t.wire = false) ∧ f = .unsolvedWire t.wire ∨
      c.size ≤ t.coeff ∧ f = .coeffOutOfRange t.coeff := by
  rw [addTo_eq] at h
  rcases hv : t.value c s with f' | x
  · rw [hv] at h
    obtain rfl := Except.error.inj h
    exact value_eq_error hv
  · rw [hv] at h
    cases h

/-- What a running sum grows by is what the term denotes. -/
theorem eq_add_denote_of_addTo {t : Term} {acc x : Fp p} (h : t.addTo c s acc = .ok x)
    (hz : s.Agrees z) : x = acc + t.denote c z := by
  rw [addTo_eq] at h
  rcases hv : t.value c s with f | y
  · rw [hv] at h
    cases h
  · rw [hv] at h
    rw [denote_eq_of_value hv hz]
    exact (Except.ok.inj h).symm

end Term

/-! ### Combinations -/

namespace LinComb

@[simp] theorem denote_nil : LinComb.denote c z [] = 0 := rfl

@[simp] theorem denote_cons (t : Term) (e : LinComb) :
    LinComb.denote c z (t :: e) = t.denote c z + LinComb.denote c z e := rfl

/-- A sum that starts from `acc` ends at `acc` plus what the combination denotes. -/
theorem eq_add_denote_of_foldlM {e : LinComb} {acc x : Fp p}
    (h : e.foldlM (fun acc t => t.addTo c s acc) acc = .ok x) (hz : s.Agrees z) :
    x = acc + LinComb.denote c z e := by
  induction e generalizing acc with
  | nil =>
    rw [denote_nil, add_zero]
    exact (Except.ok.inj h).symm
  | cons t rest ih =>
    rw [List.foldlM_cons] at h
    rcases ht : t.addTo c s acc with f | y
    · rw [ht] at h
      cases h
    · rw [ht] at h
      rw [ih h, Term.eq_add_denote_of_addTo ht hz, denote_cons, add_assoc]

/-- A sum has a value exactly when each of its terms has one. -/
theorem foldlM_isOk_iff {e : LinComb} {acc : Fp p} :
    (∃ x, e.foldlM (fun acc t => t.addTo c s acc) acc = .ok x) ↔
      ∀ t ∈ e, ∃ x, t.value c s = .ok x := by
  induction e generalizing acc with
  | nil => exact ⟨fun _ t ht => absurd ht List.not_mem_nil, fun _ => ⟨acc, rfl⟩⟩
  | cons t rest ih =>
    have hterm : (∃ y, t.addTo c s acc = .ok y) ↔ ∃ x, t.value c s = .ok x :=
      Term.addTo_isOk_iff.trans Term.value_isOk_iff.symm
    rw [List.forall_mem_cons, ← hterm, List.foldlM_cons]
    rcases t.addTo c s acc with f | y
    · simp [bind, Except.bind]
    · rw [← @ih y]
      exact ⟨fun h => ⟨⟨y, rfl⟩, h⟩, And.right⟩

theorem value_isOk_iff {e : LinComb} :
    (∃ x, LinComb.value c s e = .ok x) ↔ ∀ t ∈ e, ∃ x, t.value c s = .ok x :=
  foldlM_isOk_iff

theorem foldlM_of_extends {s' : Assignment p} {e : LinComb} {acc x : Fp p} (hs : s.Extends s')
    (h : e.foldlM (fun acc t => t.addTo c s acc) acc = .ok x) :
    e.foldlM (fun acc t => t.addTo c s' acc) acc = .ok x := by
  induction e generalizing acc with
  | nil => exact h
  | cons t rest ih =>
    rw [List.foldlM_cons] at h ⊢
    obtain ⟨y, hy, h⟩ := Outcome.bind_eq_ok_iff.1 h
    exact Outcome.bind_eq_ok_iff.2 ⟨y, Term.addTo_of_extends hs hy, ih h⟩

/-- A combination that has a value keeps it. -/
theorem value_of_extends {s' : Assignment p} {e : LinComb} {x : Fp p} (hs : s.Extends s')
    (h : LinComb.value c s e = .ok x) : LinComb.value c s' e = .ok x :=
  foldlM_of_extends hs h

/-- The value of a combination is what it denotes. -/
theorem denote_eq_of_value {e : LinComb} {x : Fp p} (h : LinComb.value c s e = .ok x)
    (hz : s.Agrees z) : LinComb.denote c z e = x := by
  rw [eq_add_denote_of_foldlM h hz, zero_add]

/-- A combination all of whose terms have values has the value that it denotes. -/
theorem value_eq_denote {e : LinComb} (h : ∀ t ∈ e, ∃ x, t.value c s = .ok x) (hz : s.Agrees z) :
    LinComb.value c s e = .ok (LinComb.denote c z e) := by
  obtain ⟨x, hx⟩ := value_isOk_iff.2 h
  rw [hx, denote_eq_of_value hx hz]

end LinComb

end WireSolve
