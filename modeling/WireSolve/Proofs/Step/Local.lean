/-
WireSolve/Proofs/Step/Local.lean

A constraint looks at the wires that it mentions, and at no others.

Two assignments that hold the same on these wires are the same to the constraint:
the scan of its sides and the equation of a gate do not tell them apart
(`Rank1.scan_congr`, `Gate.equation_congr`).  So a constraint that is accepted
against one of them is accepted against the other, and the two steps do the same:
they change nothing, or they give the same value to the same wire, which is one
that the constraint mentions (`Rank1.solve_local`, `Gate.solve_matches`).
-/
import WireSolve.Proofs.Shape

namespace WireSolve

variable {p : Nat}

/-! ### The same on some wires -/

namespace Assignment

/-- An assignment over the same wires that holds the same on some of them. -/
structure SameOn (W : Wire → Prop) (s s' : Assignment p) : Prop where
  /-- Both have the same wires. -/
  size_eq : s'.size = s.size
  /-- The wires in question hold the same. -/
  get?_eq : ∀ w, W w → s'.get? w = s.get? w

variable {V W : Wire → Prop} {s s' t t' u : Assignment p} {w : Wire} {x : Fp p}

theorem SameOn.symm (h : s.SameOn W t) : t.SameOn W s :=
  ⟨h.size_eq.symm, fun w hw => (h.get?_eq w hw).symm⟩

/-- Wires among which none is given a value hold the same afterwards. -/
theorem Extends.sameOn (hst : s.Extends t)
    (hV : ∀ w, t.isSolved w = true → s.isSolved w = true ∨ V w)
    (hW : ∀ w, s.isSolved w = false → W w → ¬ V w) : s.SameOn W t := by
  refine ⟨hst.size_eq, fun w hw => ?_⟩
  rcases hbefore : s.get? w with - | x
  · rw [← isSolved_eq_false_iff] at hbefore ⊢
    refine Bool.eq_false_iff.2 fun hafter => ?_
    rcases hV w hafter with hsolved | hgiven
    · rw [hsolved] at hbefore
      cases hbefore
    · exact hW w hbefore hw hgiven
  · exact hst.keeps w x hbefore

/-- Two steps that change nothing, or give the same value to the same wire. -/
def SameChange (W : Wire → Prop) (s t s' t' : Assignment p) : Prop :=
  (t = s ∧ t' = s') ∨ ∃ w x, W w ∧ s.set w x = .ok t ∧ s'.set w x = .ok t'

/-- What can be written to one of the wires in one assignment can be written in the other, and what
is refused in one is refused in the other. -/
theorem set_matches (hsize : w.toNat < s'.size ↔ w.toNat < s.size)
    (hget : s'.get? w = s.get? w) (hw : W w) (x : Fp p) :
    Outcome.Matches (fun t t' => SameChange W s t s' t') (s.set w x) (s'.set w x) := by
  by_cases hwrite : w.toNat < s.size ∧ s.get? w = none
  · have hset : s.set w x = .ok _ := set_eq_ok_iff.2 ⟨hwrite.1, hwrite.2, rfl⟩
    have hset' : s'.set w x = .ok _ :=
      set_eq_ok_iff.2 ⟨hsize.2 hwrite.1, hget.trans hwrite.2, rfl⟩
    rw [hset, hset']
    exact Or.inr ⟨w, x, hw, hset, hset'⟩
  · -- the wire does not exist in either, or it has a value in both
    rw [set_eq, set_eq, isSolved, isSolved, hget]
    by_cases hlt : w.toNat < s.size
    · rw [if_pos hlt, if_pos (hsize.2 hlt)]
      obtain ⟨y, hy⟩ := Option.ne_none_iff_exists'.1 fun hnone => hwrite ⟨hlt, hnone⟩
      rw [hy]
      rfl
    · rw [if_neg hlt, if_neg (mt hsize.1 hlt)]
      rfl

theorem SameOn.set (h : s.SameOn W s') (hw : W w) (x : Fp p) :
    Outcome.Matches (fun t t' => SameChange W s t s' t') (s.set w x) (s'.set w x) :=
  set_matches (by rw [h.size_eq]) (h.get?_eq w hw) hw x

/-- The second step stays below what the second start and the first end are below of. -/
theorem SameChange.extends (h : SameChange W s t s' t') (hs : s'.Extends u) (ht : t.Extends u) :
    t'.Extends u := by
  rcases h with ⟨-, rfl⟩ | ⟨w, x, -, hset, hset'⟩
  · exact hs
  · refine ⟨hs.size_eq.trans (size_of_set hset').symm, fun v y hv => ?_⟩
    rw [get?_of_set hset'] at hv
    split at hv
    · next hvw =>
      rw [hvw, ← hv]
      exact ht.keeps w x (get?_set_self hset)
    · exact hs.keeps v y hv

/-- Other wires keep what they hold, in the first step. -/
theorem SameChange.get?_eq (h : SameChange W s t s' t') (hw : ¬ W w) : t.get? w = s.get? w := by
  rcases h with ⟨rfl, -⟩ | ⟨v, x, hv, hset, -⟩
  · rfl
  · rw [get?_of_set hset, if_neg]
    rintro rfl
    exact hw hv

end Assignment

/-! ### Wires of a gate -/

namespace Gate

variable {g : Gate} {s s' : Assignment p} (h : ∀ w, g.Mentions w → s'.get? w = s.get? w)

include h

theorem get?_xa (ha : g.usesA = true) : s'.get? g.xa = s.get? g.xa :=
  h _ (Or.inl ⟨ha, rfl⟩)

theorem get?_xb (hb : g.usesB = true) : s'.get? g.xb = s.get? g.xb :=
  h _ (Or.inr (Or.inl ⟨hb, rfl⟩))

theorem get?_xc (hc : g.usesC = true) : s'.get? g.xc = s.get? g.xc :=
  h _ (Or.inr (Or.inr ⟨hc, rfl⟩))

theorem unknownA_congr : g.unknownA s' = g.unknownA s := by
  unfold unknownA
  cases ha : g.usesA with
  | false => rfl
  | true => rw [Assignment.isSolved, Assignment.isSolved, get?_xa h ha]

theorem unknownB_congr : g.unknownB s' = g.unknownB s := by
  unfold unknownB
  cases hb : g.usesB with
  | false => rfl
  | true => rw [Assignment.isSolved, Assignment.isSolved, get?_xb h hb]

theorem unknownC_congr : g.unknownC s' = g.unknownC s := by
  unfold unknownC
  cases hc : g.usesC with
  | false => rfl
  | true => rw [Assignment.isSolved, Assignment.isSolved, get?_xc h hc]

theorem unknowns_congr : g.unknowns s' = g.unknowns s := by
  unfold unknowns
  rw [unknownA_congr h, unknownB_congr h, unknownC_congr h]

end Gate

variable [Modulus p] {c : CoeffPool p} {s s' t : Assignment p} {k : Nat}

/-! ### Terms -/

/-- A term looks at its wire, if it reads one. -/
theorem Term.value_congr {v : Term}
    (h : v.isConstant = false → v.coeff ≠ 0 → s'.get? v.wire = s.get? v.wire) :
    v.value c s' = v.value c s := by
  unfold value
  split
  · rfl
  · next hconst =>
    split
    · rfl
    · next hcoeff => rw [h (Bool.eq_false_iff.2 hconst) hcoeff]

theorem Term.addTo_congr {v : Term} {acc : Fp p}
    (h : v.isConstant = false → s'.get? v.wire = s.get? v.wire) :
    v.addTo c s' acc = v.addTo c s acc := by
  rw [addTo_eq, addTo_eq, value_congr fun hconst _ => h hconst]

/-! ### Rank-1 constraints -/

namespace Rank1

variable {r : Rank1} {x : Sides p} {u : Option (Side × Term)}

theorem scanSide_congr {side : Side} {e : LinComb} {acc : Fp p}
    (h : ∀ v ∈ e, v.isConstant = false → s'.get? v.wire = s.get? v.wire) :
    scanSide c s' k side e acc u = scanSide c s k side e acc u := by
  induction e generalizing acc u with
  | nil => rfl
  | cons v rest ih =>
    have hrest := fun v' hv' => h v' (List.mem_cons_of_mem v hv')
    have hknown : (v.isConstant || s'.isSolved v.wire) = (v.isConstant || s.isSolved v.wire) := by
      cases hconst : v.isConstant with
      | true => rfl
      | false => rw [Assignment.isSolved, Assignment.isSolved, h v List.mem_cons_self hconst]
    unfold scanSide
    rw [hknown, Term.addTo_congr (h v List.mem_cons_self)]
    split
    · rcases v.addTo c s acc with f | y
      · rfl
      · exact ih hrest
    · split
      · exact ih hrest
      · rfl

theorem scan_congr (h : s.SameOn r.Mentions s') : r.scan c s' k = r.scan c s k := by
  have hterm : ∀ v ∈ r.terms, v.isConstant = false → s'.get? v.wire = s.get? v.wire :=
    fun v hv hconst => h.get?_eq _ ⟨v, hv, by simp [hconst], rfl⟩
  simp only [terms, List.forall_mem_append] at hterm
  unfold scan
  rw [scanSide_congr hterm.1.1]
  refine bind_congr fun left => ?_
  obtain ⟨left, u₁⟩ := left
  dsimp only
  rw [scanSide_congr hterm.1.2]
  refine bind_congr fun right => ?_
  obtain ⟨right, u₂⟩ := right
  dsimp only
  rw [scanSide_congr hterm.2]

/-- A constraint that is accepted against one assignment is accepted against every other that holds
the same on its wires, with the same sides and the same change. -/
theorem solve_local (h : s.SameOn r.Mentions s') (hsolve : r.solve c s k = .ok (t, x)) :
    ∃ t', r.solve c s' k = .ok (t', x) ∧ Assignment.SameChange r.Mentions s t s' t' := by
  rcases solve_eq_ok hsolve with
    ⟨u, hscan, hu, -, rfl⟩ | ⟨x₀, side, v, y, q, hscan, hy, hq, hset, rfl⟩
  · rw [solve_of_closed hscan hu] at hsolve
    rw [← scan_congr h] at hscan
    rw [solve_of_closed hscan hu]
    obtain ⟨_, hcheck, -⟩ := Outcome.bind_eq_ok_iff.1 hsolve
    rw [hcheck]
    exact ⟨s', rfl, Or.inl ⟨rfl, rfl⟩⟩
  · have hmentions : r.Mentions v.wire :=
      ⟨v, (scan_terms hscan).2 side v rfl, by simp [(open_of_scan hscan side v rfl).1], rfl⟩
    obtain ⟨t', hset', hchange⟩ := (h.set hmentions q).of_ok hset
    rw [← scan_congr h] at hscan
    refine ⟨t', ?_, hchange⟩
    rw [solve_of_missing hscan hy, hq, Outcome.lift_ok_bind, hset']
    rfl

end Rank1

/-! ### Gates -/

namespace Gate

variable {g : Gate}

theorem part_congr {q : Nat} {w : Wire} (h : q ≠ 0 → s'.get? w = s.get? w) :
    part c s' q w = part c s q w :=
  Term.value_congr fun _ hq => h hq

section Congr

variable (h : ∀ w, g.Mentions w → s'.get? w = s.get? w)

include h

theorem partA_congr : part c s' g.qL g.xa = part c s g.qL g.xa :=
  part_congr fun hq => get?_xa h (usesA_iff.2 (Or.inl hq))

theorem partB_congr : part c s' g.qR g.xb = part c s g.qR g.xb :=
  part_congr fun hq => get?_xb h (usesB_iff.2 (Or.inl hq))

theorem partC_congr : part c s' g.qO g.xc = part c s g.qO g.xc :=
  part_congr fun hq => get?_xc h (usesC_iff.2 hq)

theorem cofactorA_congr : g.cofactor c s' g.xa = g.cofactor c s g.xa := by
  unfold cofactor
  split
  · rfl
  · next hqM => exact part_congr fun _ => get?_xa h (usesA_iff.2 (Or.inr hqM))

theorem cofactorB_congr : g.cofactor c s' g.xb = g.cofactor c s g.xb := by
  unfold cofactor
  split
  · rfl
  · next hqM => exact part_congr fun _ => get?_xb h (usesB_iff.2 (Or.inr hqM))

theorem product_congr : g.product c s' = g.product c s := by
  unfold product
  split
  · rfl
  · next hqM =>
    rw [part_congr fun _ => get?_xa h (usesA_iff.2 (Or.inr hqM)),
      part_congr fun _ => get?_xb h (usesB_iff.2 (Or.inr hqM))]

theorem equation_congr : g.equation c s' = g.equation c s := by
  unfold equation
  rw [unknownA_congr h, unknownB_congr h, unknownC_congr h, partA_congr h, partB_congr h,
    partC_congr h, cofactorA_congr h, cofactorB_congr h, product_congr h]

end Congr

/-- The equation of a gate is for the first of its wires that is unknown, if there is one. -/
theorem equation_cases {e : Equation p} (h : g.equation c s = .ok e) :
    (g.unknownA s = true ∧ e.wire? = some g.xa) ∨
      (g.unknownA s = false ∧ g.unknownB s = true ∧ e.wire? = some g.xb) ∨
      (g.unknownA s = false ∧ g.unknownB s = false ∧ g.unknownC s = true ∧ e.wire? = some g.xc) ∨
      g.unknownA s = false ∧ g.unknownB s = false ∧ g.unknownC s = false ∧ e.wire? = none := by
  unfold equation at h
  obtain ⟨qC, -, h⟩ := Outcome.bind_eq_ok_iff.1 h
  -- the branches are tried in the order of the wires, and each one reads four parts
  split at h
  · next ha =>
    simp only [Outcome.bind_eq_ok_iff, Outcome.pure_eq_ok_iff] at h
    obtain ⟨-, -, -, -, -, -, -, -, rfl⟩ := h
    exact Or.inl ⟨ha, rfl⟩
  next ha =>
  refine Or.inr ?_
  rw [Bool.not_eq_true] at ha
  split at h
  · next hb =>
    simp only [Outcome.bind_eq_ok_iff, Outcome.pure_eq_ok_iff] at h
    obtain ⟨-, -, -, -, -, -, -, -, rfl⟩ := h
    exact Or.inl ⟨ha, hb, rfl⟩
  next hb =>
  refine Or.inr ?_
  rw [Bool.not_eq_true] at hb
  split at h
  · next hc =>
    simp only [Outcome.bind_eq_ok_iff, Outcome.pure_eq_ok_iff] at h
    obtain ⟨-, -, -, -, -, -, -, -, rfl⟩ := h
    exact Or.inl ⟨ha, hb, hc, rfl⟩
  · next hc =>
    simp only [Outcome.bind_eq_ok_iff, Outcome.pure_eq_ok_iff] at h
    obtain ⟨-, -, -, -, -, -, -, -, rfl⟩ := h
    exact Or.inr ⟨ha, hb, Bool.eq_false_iff.2 hc, rfl⟩

/-- The wire that a gate is to be solved for takes part in it, and has no value. -/
theorem open_of_equation {e : Equation p} {w : Wire} (h : g.equation c s = .ok e)
    (hw : e.wire? = some w) : g.Mentions w ∧ s.isSolved w = false := by
  rcases equation_cases h with ⟨ha, hwire⟩ | ⟨-, hb, hwire⟩ | ⟨-, -, hc, hwire⟩ | ⟨-, -, -, hwire⟩
  · obtain rfl := Option.some.inj (hwire.symm.trans hw)
    obtain ⟨huses, hopen⟩ := Bool.and_eq_true_iff.1 ha
    exact ⟨Or.inl ⟨huses, rfl⟩, by simpa using hopen⟩
  · obtain rfl := Option.some.inj (hwire.symm.trans hw)
    obtain ⟨huses, hopen⟩ := Bool.and_eq_true_iff.1 hb
    exact ⟨Or.inr (Or.inl ⟨huses, rfl⟩), by simpa using hopen⟩
  · obtain rfl := Option.some.inj (hwire.symm.trans hw)
    obtain ⟨huses, hopen⟩ := Bool.and_eq_true_iff.1 hc
    exact ⟨Or.inr (Or.inr ⟨huses, rfl⟩), by simpa using hopen⟩
  · rw [hwire] at hw
    cases hw

/-- An equation is settled alike in assignments that take the same values for its wire. -/
theorem settle_matches {W : Wire → Prop} {e : Equation p}
    (hset : ∀ w x, e.wire? = some w →
      Outcome.Matches (fun t t' => Assignment.SameChange W s t s' t') (s.set w x) (s'.set w x)) :
    Outcome.Matches (fun t t' => Assignment.SameChange W s t s' t') (e.settle s)
      (e.settle s') := by
  cases e with
  | linear w scale rest =>
    by_cases hscale : scale = 0
    · rw [hscale, Equation.settle_free, Equation.settle_free]
      split
      · exact Or.inl ⟨rfl, rfl⟩
      · rfl
    · rw [Equation.settle_linear hscale, Equation.settle_linear hscale]
      rcases (hset w (-rest * scale⁻¹) rfl).cases with ⟨t, t', ht, ht', hchange⟩ | ⟨f, hf, hf'⟩
      · rw [ht, ht']
        exact hchange
      · rw [hf, hf']
        rfl
  | constant sum =>
    rw [Equation.settle_constant, Equation.settle_constant]
    split
    · exact Or.inl ⟨rfl, rfl⟩
    · rfl

/-- A gate does the same in assignments that hold the same on its wires, if these exist in both or
in neither: it changes both alike, or it refuses both for the same reason. -/
theorem solve_matches (hget : ∀ w, g.Mentions w → s'.get? w = s.get? w)
    (hsize : ∀ w, g.Mentions w → (w.toNat < s'.size ↔ w.toNat < s.size)) :
    Outcome.Matches (fun t t' => Assignment.SameChange g.Mentions s t s' t') (g.solve c s k)
      (g.solve c s' k) := by
  unfold solve
  rw [unknowns_congr hget, equation_congr hget]
  split
  · rfl
  · rcases he : g.equation c s with f | e
    · rfl
    · refine settle_matches fun w x hwire => ?_
      have hmentions := (open_of_equation he hwire).1
      exact Assignment.set_matches (hsize w hmentions) (hget w hmentions) hmentions x

/-- A gate that is accepted against one assignment is accepted against every other that holds the
same on its wires, with the same change. -/
theorem solve_local (h : s.SameOn g.Mentions s') (hsolve : g.solve c s k = .ok t) :
    ∃ t', g.solve c s' k = .ok t' ∧ Assignment.SameChange g.Mentions s t s' t' :=
  (solve_matches h.get?_eq fun w _ => by rw [h.size_eq]).of_ok hsolve

end Gate

end WireSolve
