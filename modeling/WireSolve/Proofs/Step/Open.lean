/-
WireSolve/Proofs/Step/Open.lean

What a constraint leaves open against a partial assignment.

A term is open when it has a wire and that wire has no value (`Rank1.openTerms`); a
position of a gate is open when its wire takes part and has no value
(`Gate.openPositions`).  What is counted are places and not wires: a wire without a
value that stands in two of them is open twice.

A step is for one open place at most.  A rank-1 constraint whose coefficients are
in the pool is scanned exactly then (`Rank1.scan_isOk_iff`), and the term that the
scan remembers is the open one (`Rank1.scan_opens`).  A gate becomes an equation in
the wire of its open position, or in no wire (`Gate.wire?_of_equation`).
-/
import WireSolve.Proofs.Step.Local

namespace WireSolve

variable {p : Nat}

/-- The only thing in a list that cannot hold two. -/
theorem eq_singleton_of_mem {α : Type} {l : List α} {a : α} (hl : l.length ≤ 1) (ha : a ∈ l) :
    l = [a] := by
  rcases l with - | ⟨b, - | ⟨b', rest⟩⟩
  · cases ha
  · rw [List.mem_singleton.1 ha]
  · simp at hl

/-! ### Rank-1 constraints -/

/-- A term whose wire has no value. -/
def Term.isOpen (s : Assignment p) (t : Term) : Bool := !(t.isConstant || s.isSolved t.wire)

theorem Term.isOpen_iff {s : Assignment p} {t : Term} :
    t.isOpen s = true ↔ t.isConstant = false ∧ s.isSolved t.wire = false := by
  rw [isOpen, Bool.not_eq_true', Bool.or_eq_false_iff]

namespace Rank1

/-- The open terms of a constraint, side by side. -/
def openTerms (s : Assignment p) (r : Rank1) : LinComb := r.terms.filter (Term.isOpen s)

variable {s : Assignment p} {r : Rank1}

theorem mem_openTerms {v : Term} :
    v ∈ r.openTerms s ↔ v ∈ r.terms ∧ v.isConstant = false ∧ s.isSolved v.wire = false := by
  rw [openTerms, List.mem_filter, Term.isOpen_iff]

/-- What is open later was open before. -/
theorem mem_openTerms_of_extends {t : Assignment p} (hst : s.Extends t) {v : Term}
    (hv : v ∈ r.openTerms t) : v ∈ r.openTerms s := by
  obtain ⟨hmem, hconst, hopen⟩ := mem_openTerms.1 hv
  exact mem_openTerms.2 ⟨hmem, hconst, hst.isSolved_eq_false hopen⟩

/-- A wire without a value that a constraint mentions is that of an open term. -/
theorem exists_mem_openTerms {w : Wire} (hw : r.Mentions w) (hopen : s.isSolved w = false) :
    ∃ v ∈ r.openTerms s, v.wire = w := by
  obtain ⟨v, hv, hconst, rfl⟩ := hw
  exact ⟨v, mem_openTerms.2 ⟨hv, Bool.eq_false_iff.2 hconst, hopen⟩, rfl⟩

variable [Modulus p] {c : CoeffPool p} {k : Nat} {x : Sides p} {u : Option (Side × Term)}

/-- What is remembered after a side are the open terms up to its end. -/
theorem scanSide_opens {side : Side} {e : LinComb} {acc y : Fp p} {u' : Option (Side × Term)}
    (h : scanSide c s k side e acc u = .ok (y, u')) :
    (u'.map Prod.snd).toList = (u.map Prod.snd).toList ++ e.filter (Term.isOpen s) := by
  induction e generalizing acc u with
  | nil =>
    simp only [scanSide, Except.ok.injEq, Prod.mk.injEq] at h
    rw [h.2, List.filter_nil, List.append_nil]
  | cons v rest ih =>
    unfold scanSide at h
    split at h
    · next hknown =>
      obtain ⟨acc', -, h⟩ := Outcome.bind_eq_ok_iff.1 h
      rw [ih h, List.filter_cons_of_neg (by simp [Term.isOpen, hknown])]
    · next hopen =>
      -- the term is remembered, and only the first such term can be
      rw [List.filter_cons_of_pos (by simpa [Term.isOpen] using hopen)]
      rcases u with - | q
      · exact ih h
      · cases h

/-- A side goes through if its coefficients are in the pool and one term is open at most, those
before it included. -/
theorem scanSide_isOk {side : Side} {e : LinComb} {acc : Fp p}
    (he : ∀ v ∈ e, v.coeff < c.size)
    (hcount : (u.map Prod.snd).toList.length + (e.filter (Term.isOpen s)).length ≤ 1) :
    ∃ y, scanSide c s k side e acc u = .ok y := by
  induction e generalizing acc u with
  | nil => exact ⟨(acc, u), rfl⟩
  | cons v rest ih =>
    obtain ⟨hv, hrest⟩ := List.forall_mem_cons.1 he
    unfold scanSide
    split
    · next hknown =>
      rw [List.filter_cons_of_neg (by simp [Term.isOpen, hknown])] at hcount
      rw [Bool.or_eq_true] at hknown
      obtain ⟨acc', hacc⟩ := Term.addTo_isOk_iff.2 ⟨hv, hknown.imp_right Or.inr⟩
      rw [hacc]
      exact ih hrest hcount
    · next hopen =>
      rw [List.filter_cons_of_pos (by simpa [Term.isOpen] using hopen),
        List.length_cons] at hcount
      rcases u with - | q
      · refine ih hrest ?_
        rw [Option.map_some, Option.toList_some, List.length_singleton]
        rw [Option.map_none, Option.toList_none, List.length_nil] at hcount
        omega
      · rw [Option.map_some, Option.toList_some, List.length_singleton] at hcount
        omega

/-- The term that a scan remembers is the open one. -/
theorem scan_opens (h : r.scan c s k = .ok (x, u)) :
    (u.map Prod.snd).toList = r.openTerms s := by
  obtain ⟨u₁, u₂, h₁, h₂, h₃⟩ := scan_eq_ok h
  rw [openTerms, terms, List.filter_append, List.filter_append, scanSide_opens h₃,
    scanSide_opens h₂, scanSide_opens h₁]
  rfl

theorem openTerms_of_scan {side : Side} {v : Term} (h : r.scan c s k = .ok (x, some (side, v))) :
    r.openTerms s = [v] :=
  (scan_opens h).symm

theorem length_openTerms_of_scan (h : r.scan c s k = .ok (x, u)) :
    (r.openTerms s).length ≤ 1 := by
  rw [← scan_opens h]
  rcases u with - | q <;> simp

/-- A constraint whose coefficients are in the pool is scanned exactly when one of its terms is open
at most. -/
theorem scan_isOk_iff (hr : ∀ v ∈ r.terms, v.coeff < c.size) :
    (∃ y, r.scan c s k = .ok y) ↔ (r.openTerms s).length ≤ 1 := by
  constructor
  · rintro ⟨⟨x, u⟩, h⟩
    exact length_openTerms_of_scan h
  · intro hcount
    simp only [terms, List.forall_mem_append] at hr
    simp only [openTerms, terms, List.filter_append, List.length_append] at hcount
    obtain ⟨⟨left, u₁⟩, h₁⟩ : ∃ y, scanSide c s k .left r.left 0 none = .ok y :=
      scanSide_isOk hr.1.1 (by rw [Option.map_none, Option.toList_none, List.length_nil]; omega)
    have hopens₁ := congrArg List.length (scanSide_opens h₁)
    rw [Option.map_none, Option.toList_none, List.nil_append] at hopens₁
    obtain ⟨⟨right, u₂⟩, h₂⟩ : ∃ y, scanSide c s k .right r.right 0 u₁ = .ok y :=
      scanSide_isOk hr.1.2 (by omega)
    have hopens₂ := congrArg List.length (scanSide_opens h₂)
    rw [List.length_append] at hopens₂
    obtain ⟨⟨out, u₃⟩, h₃⟩ : ∃ y, scanSide c s k .out r.out 0 u₂ = .ok y :=
      scanSide_isOk hr.2 (by omega)
    refine ⟨(⟨left, right, out⟩, u₃), ?_⟩
    rw [scan, h₁, Outcome.ok_bind]
    dsimp only
    rw [h₂, Outcome.ok_bind]
    dsimp only
    rw [h₃, Outcome.ok_bind]
    rfl

/-- A constraint that is accepted changes nothing, or it gives the wire of its open term a value. -/
theorem change_of_solve {t : Assignment p} (h : r.solve c s k = .ok (t, x)) :
    t = s ∨ ∃ v y, r.openTerms s = [v] ∧ s.set v.wire y = .ok t := by
  rcases solve_eq_ok h with ⟨-, -, -, -, rfl⟩ | ⟨_, _, v, _, y, hscan, -, -, hset, -⟩
  · exact Or.inl rfl
  · exact Or.inr ⟨v, y, openTerms_of_scan hscan, hset⟩

end Rank1

/-! ### Gates -/

namespace Gate

/-- The wires at the positions that take part. -/
def positions (g : Gate) : List Wire :=
  (if g.usesA then [g.xa] else []) ++ (if g.usesB then [g.xb] else []) ++
    if g.usesC then [g.xc] else []

/-- The wires without values at the positions that take part. -/
def openPositions (s : Assignment p) (g : Gate) : List Wire :=
  g.positions.filter fun w => !s.isSolved w

variable {s : Assignment p} {g : Gate}

theorem mem_positions {w : Wire} : w ∈ g.positions ↔ g.Mentions w := by
  simp only [positions, Mentions, List.mem_append, or_assoc]
  cases g.usesA <;> cases g.usesB <;> cases g.usesC <;> simp [eq_comm]

theorem mem_openPositions {w : Wire} :
    w ∈ g.openPositions s ↔ g.Mentions w ∧ s.isSolved w = false := by
  rw [openPositions, List.mem_filter, mem_positions, Bool.not_eq_true']

theorem length_openPositions : (g.openPositions s).length = g.unknowns s := by
  simp only [openPositions, positions, List.filter_append, List.length_append, unknowns, unknownA,
    unknownB, unknownC]
  congr 1
  · congr 1
    · cases g.usesA <;> cases hw : s.isSolved g.xa <;> simp [hw]
    · cases g.usesB <;> cases hw : s.isSolved g.xb <;> simp [hw]
  · cases g.usesC <;> cases hw : s.isSolved g.xc <;> simp [hw]

end Gate

variable [Modulus p] {c : CoeffPool p} {s : Assignment p} {g : Gate} {e : Equation p}

/-- A gate is an equation in the wire of its open position. -/
theorem Gate.wire?_of_equation (h : g.equation c s = .ok e) (hcount : g.unknowns s ≤ 1) :
    e.wire?.toList = g.openPositions s := by
  rw [← length_openPositions] at hcount
  rcases hwire : e.wire? with - | w
  · -- an equation in no wire leaves no position open
    have hnone : (g.openPositions s).length = 0 := by
      rw [length_openPositions, unknowns]
      rcases equation_cases h with ⟨-, hw⟩ | ⟨-, -, hw⟩ | ⟨-, -, -, hw⟩ | ⟨ha, hb, hc, -⟩
      · rw [hwire] at hw
        cases hw
      · rw [hwire] at hw
        cases hw
      · rw [hwire] at hw
        cases hw
      · rw [ha, hb, hc]
        rfl
    exact (List.length_eq_zero_iff.1 hnone).symm
  · exact (eq_singleton_of_mem hcount (mem_openPositions.2 (open_of_equation h hwire))).symm

end WireSolve
