/-
WireSolve/Proofs/Shape.lean

What a step does, as far as the values do not matter.

Two assignments have the same shape when the same wires have values.  A wire can
then be given a value in both or in neither; a term can be read in both, or it is
refused with the same fault; the scan of a constraint leaves the same term open,
and a gate becomes an equation in the same wire.  Values matter in one place
only: whether the factor beside an open term, or the scale of an equation, is
zero, and the wire is left free (`Rank1.leftOut`, `Gate.LeavesFree`).

Main results: where two assignments of the same shape agree on that, a step that
one of them gets through leaves the same shape in the other, or it refuses the
values of the other (`Rank1.solve_shape`, `Gate.solve_shape`).
-/
import WireSolve.Proofs.Step.Gate
import WireSolve.Proofs.Step.Rank1

namespace WireSolve

variable {p : Nat}

/-! ### The same outcome but for the values -/

/-- Two computations go through with results related by `Q`, or they fail in the same way. -/
def Outcome.Matches {ε α β : Type} (Q : α → β → Prop) : Except ε α → Except ε β → Prop
  | .ok a, .ok b => Q a b
  | .error e, .error e' => e = e'
  | _, _ => False

namespace Outcome

variable {ε α β γ δ : Type} {Q : α → β → Prop} {S : γ → δ → Prop} {m : Except ε α}
  {n : Except ε β}

theorem matches_self (m : Except ε α) : Matches (fun _ _ => True) m m := by
  rcases m with e | a
  · rfl
  · trivial

theorem matches_bind {f : α → Except ε γ} {g : β → Except ε δ} (hmn : Matches Q m n)
    (hfg : ∀ a b, Q a b → Matches S (f a) (g b)) : Matches S (m >>= f) (n >>= g) := by
  rcases m with e | a <;> rcases n with e' | b
  · exact hmn
  · cases hmn
  · cases hmn
  · exact hfg a b hmn

theorem matches_map {f : α → γ} {g : β → δ} (hmn : Matches Q m n)
    (hfg : ∀ a b, Q a b → S (f a) (g b)) : Matches S (m.map f) (n.map g) := by
  rcases m with e | a <;> rcases n with e' | b
  · exact hmn
  · cases hmn
  · cases hmn
  · exact hfg a b hmn

theorem Matches.cases (h : Matches Q m n) :
    (∃ a b, m = .ok a ∧ n = .ok b ∧ Q a b) ∨ ∃ e, m = .error e ∧ n = .error e := by
  rcases m with e | a <;> rcases n with e' | b
  · obtain rfl : e = e' := h
    exact Or.inr ⟨e, rfl, rfl⟩
  · cases h
  · cases h
  · exact Or.inl ⟨a, b, rfl, rfl, h⟩

theorem Matches.of_ok {a : α} (h : Matches Q m n) (hm : m = .ok a) :
    ∃ b, n = .ok b ∧ Q a b := by
  rcases h.cases with ⟨a', b, hm', hn, hab⟩ | ⟨e, hm', -⟩
  · obtain rfl := Except.ok.inj (hm.symm.trans hm')
    exact ⟨b, hn, hab⟩
  · rw [hm] at hm'
    cases hm'

end Outcome

/-! ### Assignments -/

namespace Assignment

variable {s t : Assignment p}

/-- The same wires have values. -/
def SameShape (s t : Assignment p) : Prop :=
  s.slots.map Option.isSome = t.slots.map Option.isSome

theorem SameShape.size_eq (h : s.SameShape t) : s.size = t.size := by
  have hsize := congrArg Array.size h
  rw [Array.size_map, Array.size_map] at hsize
  exact hsize

theorem isSolved_eq (s : Assignment p) (w : Wire) :
    s.isSolved w = (s.slots.map Option.isSome)[w.toNat]?.getD false := by
  rw [isSolved, get?, Array.getElem?_map]
  rcases s.slots[w.toNat]? with - | - | x <;> rfl

theorem SameShape.isSolved_eq (h : s.SameShape t) (w : Wire) : s.isSolved w = t.isSolved w := by
  rw [Assignment.isSolved_eq, Assignment.isSolved_eq, h]

/-- What a write does, by the shape. -/
theorem set_eq (s : Assignment p) (w : Wire) (x : Fp p) :
    s.set w x =
      if w.toNat < s.size then
        if s.isSolved w then .error (.solvedTwice w)
        else .ok ⟨s.slots.setIfInBounds w.toNat (some x), s.solved + 1⟩
      else .error (.wireOutOfRange w) := by
  by_cases hw : w.toNat < s.slots.size
  · rcases hslot : s.slots[w.toNat] with - | y
    · simp [set, size, isSolved, get?, hw, hslot, Array.setIfInBounds]
    · simp [set, size, isSolved, get?, hw, hslot]
  · simp [set, size, hw]

/-- A wire is given a value in both assignments, or it is refused in both. -/
theorem SameShape.set (h : s.SameShape t) (w : Wire) (x y : Fp p) :
    Outcome.Matches SameShape (s.set w x) (t.set w y) := by
  rw [set_eq, set_eq, ← h.size_eq, ← h.isSolved_eq]
  split
  · split
    · rfl
    · show Array.map Option.isSome _ = Array.map Option.isSome _
      rw [Array.map_setIfInBounds, Array.map_setIfInBounds, h]
      rfl
  · rfl

end Assignment

/-! ### Terms -/

variable [Modulus p] {c : CoeffPool p} {s t : Assignment p}

/-- Whatever the values are. -/
abbrev Anyhow {α β : Type} (_ : α) (_ : β) : Prop := True

open Outcome

theorem Term.value_shape (h : s.SameShape t) (u : Term) :
    Matches Anyhow (u.value c s) (u.value c t) := by
  unfold Term.value
  split
  · exact matches_self _
  · split
    · trivial
    · have hsolved : (s.get? u.wire).isSome = (t.get? u.wire).isSome := h.isSolved_eq u.wire
      rcases hs : s.get? u.wire with - | x <;> rcases ht : t.get? u.wire with - | y
      · rfl
      · rw [hs, ht] at hsolved
        cases hsolved
      · rw [hs, ht] at hsolved
        cases hsolved
      · dsimp only
        split
        · trivial
        · trivial
        · trivial
        · exact matches_bind (matches_self _) fun _ _ _ => trivial

theorem Term.addTo_shape (h : s.SameShape t) (u : Term) (acc acc' : Fp p) :
    Matches Anyhow (u.addTo c s acc) (u.addTo c t acc') := by
  rw [addTo_eq, addTo_eq]
  exact matches_map (value_shape h u) fun _ _ _ => trivial

/-- Whether a division goes through is up to the coefficient. -/
theorem CoeffPool.divide_shape (x y : Fp p) (i : Nat) :
    Matches Anyhow (c.divide x i) (c.divide y i) := by
  unfold CoeffPool.divide
  split
  · rfl
  · trivial
  · trivial
  · refine matches_bind (Q := Eq) ?_ fun q _ hq => ?_
    · rcases c.fetch _ with f | q <;> rfl
    · subst hq
      rcases q.inverse? with - | z
      · rfl
      · trivial

/-! ### Rank-1 constraints -/

namespace Rank1

variable {r : Rank1} {k : Nat} {s' : Assignment p} {x : Sides p}

theorem scanSide_shape (h : s.SameShape t) (side : Side) (e : LinComb) (acc acc' : Fp p)
    (u : Option (Side × Term)) :
    Matches (fun a b => a.2 = b.2) (scanSide c s k side e acc u)
      (scanSide c t k side e acc' u) := by
  induction e generalizing acc acc' u with
  | nil => exact rfl
  | cons v rest ih =>
    unfold scanSide
    rw [h.isSolved_eq]
    split
    · exact matches_bind (Term.addTo_shape h v acc acc') fun y y' _ => ih y y' u
    · split
      · exact ih acc acc' _
      · rfl

/-- The scan leaves the same term open. -/
theorem scan_shape (h : s.SameShape t) :
    Matches (fun a b => a.2 = b.2) (r.scan c s k) (r.scan c t k) := by
  refine matches_bind (scanSide_shape h .left r.left 0 0 none) ?_
  rintro ⟨left, u⟩ ⟨left', -⟩ rfl
  refine matches_bind (scanSide_shape h .right r.right 0 0 u) ?_
  rintro ⟨right, u⟩ ⟨right', -⟩ rfl
  refine matches_bind (scanSide_shape h .out r.out 0 0 u) ?_
  rintro ⟨out, u⟩ ⟨out', -⟩ rfl
  rfl

/-- A step that one assignment gets through, in another of the same shape that agrees on whether
the open term is left out: it reaches the same shape, or it refuses the values. -/
theorem solve_shape (h : s.SameShape t)
    (hleft : (r.leftOut c s k).isSome = (r.leftOut c t k).isSome)
    (hs : r.solve c s k = .ok (s', x)) :
    (∃ t' y, r.solve c t k = .ok (t', y) ∧ s'.SameShape t') ∨
      ∃ m, r.solve c t k = .error (.mismatch m) := by
  rcases solve_eq_ok hs with ⟨u, hscan, hu, -, rfl⟩ | ⟨x₀, side, v, y, q, hscan, hy, hq, hset, -⟩
  · -- nothing is determined in either, and the constraint is only checked
    obtain ⟨⟨x', -⟩, hscan', rfl⟩ := (scan_shape (c := c) (r := r) (k := k) h).of_ok hscan
    have hu' : x'.Closed u := by
      rintro side v rfl
      rw [leftOut, hscan, leftOut, hscan'] at hleft
      simpa [hu side v rfl] using hleft
    rw [solve_of_closed hscan' hu', check]
    split
    · exact Or.inl ⟨t, x', rfl, h⟩
    · exact Or.inr ⟨_, rfl⟩
  · -- the open wire gets a value in both, if not the same
    obtain ⟨⟨x', -⟩, hscan', rfl⟩ := (scan_shape (c := c) (r := r) (k := k) h).of_ok hscan
    rw [leftOut, hscan, leftOut, hscan'] at hleft
    obtain ⟨y', hy'⟩ : ∃ y', x'.missing side = some y' := by
      rw [← Option.ne_none_iff_exists']
      simpa [hy] using hleft
    obtain ⟨q', hq', -⟩ := (CoeffPool.divide_shape y y' v.coeff).of_ok hq
    obtain ⟨t', ht', hshape⟩ := (h.set v.wire q q').of_ok hset
    refine Or.inl ⟨t', x'.add side y', ?_, hshape⟩
    rw [solve_of_missing hscan' hy']
    exact bind_eq_ok_iff.2 ⟨q', lift_eq_ok_iff.2 hq',
      bind_eq_ok_iff.2 ⟨t', lift_eq_ok_iff.2 ht', rfl⟩⟩

end Rank1

/-! ### Gates -/

/-- Both equations determine the same wire, or neither has a wire left. -/
def Equation.SameForm : Equation p → Equation p → Prop
  | .linear w _ _, .linear w' _ _ => w = w'
  | .constant _, .constant _ => True
  | _, _ => False

/-- An equation that can be settled in one assignment, in another of the same shape. -/
theorem Equation.settle_shape {e e' : Equation p} {s' : Assignment p} (h : s.SameShape t)
    (hform : e.SameForm e') (hfree : e.Free ↔ e'.Free) (hs : e.settle s = .ok s') :
    (∃ t', e'.settle t = .ok t' ∧ s'.SameShape t') ∨
      ∃ m, e'.settle t = .error (.mismatch m) := by
  cases e with
  | constant sum =>
    cases e' with
    | linear w scale rest => cases hform
    | constant sum' =>
      rw [settle_constant] at hs ⊢
      split at hs
      · obtain rfl := Except.ok.inj hs
        split
        · exact Or.inl ⟨t, rfl, h⟩
        · exact Or.inr ⟨_, rfl⟩
      · cases hs
  | linear w scale rest =>
    cases e' with
    | constant sum => cases hform
    | linear w' scale' rest' =>
      obtain rfl : w = w' := hform
      change scale = 0 ↔ scale' = 0 at hfree
      by_cases hscale : scale = 0
      · -- the wire stays free in both
        rw [hscale, settle_free] at hs
        rw [hfree.1 hscale, settle_free]
        split at hs
        · obtain rfl := Except.ok.inj hs
          split
          · exact Or.inl ⟨t, rfl, h⟩
          · exact Or.inr ⟨_, rfl⟩
        · cases hs
      · -- the wire gets a value in both
        rw [settle_linear hscale] at hs
        rw [settle_linear fun hscale' => hscale (hfree.2 hscale')]
        obtain ⟨t', ht', hshape⟩ :=
          (h.set w (-rest * scale⁻¹) (-rest' * scale'⁻¹)).of_ok (lift_eq_ok_iff.1 hs)
        exact Or.inl ⟨t', lift_eq_ok_iff.2 ht', hshape⟩

namespace Gate

variable {g : Gate} {k : Nat} {s' : Assignment p}

/-- A gate whose unknown wire has scale zero: nothing determines the value of that wire. -/
def LeavesFree (c : CoeffPool p) (s : Assignment p) (g : Gate) : Prop :=
  ∃ e, g.equation c s = .ok e ∧ e.Free

theorem part_shape (h : s.SameShape t) (q : Nat) (w : Wire) :
    Matches Anyhow (part c s q w) (part c t q w) :=
  Term.value_shape h ⟨q, w⟩

theorem cofactor_shape (h : s.SameShape t) (w : Wire) :
    Matches Anyhow (g.cofactor c s w) (g.cofactor c t w) := by
  unfold cofactor
  split
  · trivial
  · exact part_shape h g.qM w

theorem product_shape (h : s.SameShape t) :
    Matches Anyhow (g.product c s) (g.product c t) := by
  unfold product
  split
  · trivial
  · exact matches_bind (part_shape h _ _) fun _ _ _ =>
      matches_bind (part_shape h _ _) fun _ _ _ => trivial

/-- The gate is an equation in the same wire. -/
theorem equation_shape (h : s.SameShape t) :
    Matches Equation.SameForm (g.equation c s) (g.equation c t) := by
  unfold equation unknownA unknownB unknownC
  rw [h.isSolved_eq, h.isSolved_eq, h.isSolved_eq]
  refine matches_bind (matches_self _) fun _ _ _ => ?_
  split
  · exact matches_bind (matches_self _) fun _ _ _ =>
      matches_bind (cofactor_shape h g.xb) fun _ _ _ =>
      matches_bind (part_shape h g.qR g.xb) fun _ _ _ =>
      matches_bind (part_shape h g.qO g.xc) fun _ _ _ => rfl
  · split
    · exact matches_bind (matches_self _) fun _ _ _ =>
        matches_bind (cofactor_shape h g.xa) fun _ _ _ =>
        matches_bind (part_shape h g.qL g.xa) fun _ _ _ =>
        matches_bind (part_shape h g.qO g.xc) fun _ _ _ => rfl
    · split
      · exact matches_bind (matches_self _) fun _ _ _ =>
          matches_bind (part_shape h g.qL g.xa) fun _ _ _ =>
          matches_bind (part_shape h g.qR g.xb) fun _ _ _ =>
          matches_bind (product_shape h) fun _ _ _ => rfl
      · exact matches_bind (part_shape h g.qL g.xa) fun _ _ _ =>
          matches_bind (part_shape h g.qR g.xb) fun _ _ _ =>
          matches_bind (part_shape h g.qO g.xc) fun _ _ _ =>
          matches_bind (product_shape h) fun _ _ _ => trivial

omit [Modulus p] in
theorem unknowns_shape (h : s.SameShape t) : g.unknowns s = g.unknowns t := by
  rw [unknowns, unknowns, unknownA, unknownA, unknownB, unknownB, unknownC, unknownC,
    h.isSolved_eq, h.isSolved_eq, h.isSolved_eq]

/-- A gate with one unknown wire at most is settled as an equation. -/
theorem solve_of_equation {e : Equation p} (hcount : g.unknowns s ≤ 1)
    (he : g.equation c s = .ok e) : g.solve c s k = e.settle s := by
  unfold solve
  rw [if_neg (Nat.not_lt.2 hcount), he]
  rfl

/-- A step that one assignment gets through, in another of the same shape that agrees on whether
the unknown wire is left free: it reaches the same shape, or it refuses the values. -/
theorem solve_shape (h : s.SameShape t) (hfree : g.LeavesFree c s ↔ g.LeavesFree c t)
    (hs : g.solve c s k = .ok s') :
    (∃ t', g.solve c t k = .ok t' ∧ s'.SameShape t') ∨
      ∃ m, g.solve c t k = .error (.mismatch m) := by
  obtain ⟨hcount, e, he, hsettle⟩ := solve_eq_ok hs
  obtain ⟨e', he', hform⟩ := (equation_shape h).of_ok he
  rw [solve_of_equation (unknowns_shape h ▸ hcount) he']
  refine Equation.settle_shape h hform ?_ hsettle
  rw [LeavesFree, he, LeavesFree, he'] at hfree
  simpa using hfree

end Gate

end WireSolve
