/-
WireSolve/Proofs/Rendering.lean

What a note shows of a combination is its value, and it does not change.

A combination is looked through for wires without a value before it is summed up, and
the look goes further than the sum: it minds a wire that is scaled by zero, which the
sum does not read.  What is left to go wrong in the sum is a coefficient that is not in
the pool, at the first term that has one (`LinComb.render_eq_mark_iff`).  Where nothing
goes wrong, the text is that of what the combination denotes, at every valuation that
the values agree with (`LinComb.render_eq_of_ne_mark`); digits are not a mark.

Values stay, so a text that is not the mark stays too (`LinComb.render_of_extends`),
from any state of a solve to any later one, and to the solution in the end.

Main result: `Circuit.renders_exactly`.
-/
import WireSolve.Proofs.WriteOnce

namespace WireSolve

variable {p : Nat}

/-- The text of a number is not the mark: it has digits only. -/
theorem Fp.text_ne_unsolvedMark (x : Fp p) : x.text ≠ unsolvedMark := by
  intro h
  have hmem : '<' ∈ x.text.toList := by
    rw [h]
    decide
  have hdigits : x.text.toList = Nat.toDigits 10 x.val := Nat.toList_repr
  rw [hdigits] at hmem
  exact absurd (Nat.isDigit_of_mem_toDigits (by decide) (by decide) hmem) (by decide)

variable [Modulus p] {c : CoeffPool p} {s t : Assignment p} {e : LinComb} {z : Valuation p}

namespace LinComb

/-! ### What is looked at -/

/-- A combination mentions a wire that has no value, scaled by whatever coefficient. -/
def HasUnsolved (s : Assignment p) (e : LinComb) : Prop :=
  ∃ t ∈ e, t.isConstant = false ∧ s.isSolved t.wire = false

/-- The sum of a combination comes to a term: all terms before it have been added. -/
def ComesTo (c : CoeffPool p) (s : Assignment p) (e : LinComb) (t : Term) : Prop :=
  ∃ before after, e = before ++ t :: after ∧ ∃ x, LinComb.value c s before = .ok x

theorem ComesTo.mem {t : Term} (h : ComesTo c s e t) : t ∈ e := by
  obtain ⟨before, after, rfl, -⟩ := h
  exact List.mem_append_right before List.mem_cons_self

omit [Modulus p] in
theorem not_hasUnsolved_iff :
    ¬ HasUnsolved s e ↔ ∀ t ∈ e, t.isConstant = true ∨ s.isSolved t.wire = true := by
  simp only [HasUnsolved, not_exists, not_and, Bool.not_eq_false]
  exact forall₂_congr fun t _ => by cases t.isConstant <;> simp

theorem render_of_hasUnsolved (c : CoeffPool p) (h : HasUnsolved s e) :
    LinComb.render c s e = unsolvedMark := by
  obtain ⟨t, ht, hconst, hsolved⟩ := h
  apply if_pos
  rw [List.any_eq_true]
  exact ⟨t, ht, by rw [hconst, hsolved]; rfl⟩

theorem render_of_not_hasUnsolved (c : CoeffPool p) (h : ¬ HasUnsolved s e) :
    LinComb.render c s e = match LinComb.value c s e with
      | .ok x => x.text
      | .error _ => unsolvedMark := by
  apply if_neg
  rw [List.any_eq_true]
  rintro ⟨t, ht, hopen⟩
  rw [Bool.and_eq_true, Bool.not_eq_true', Bool.not_eq_true'] at hopen
  exact h ⟨t, ht, hopen⟩

/-- Where no wire is without a value, a term has one exactly if its coefficient is in the pool. -/
theorem value_isOk_iff_of_mem (h : ¬ HasUnsolved s e) {t : Term} (ht : t ∈ e) :
    (∃ x, t.value c s = .ok x) ↔ t.coeff < c.size := by
  rw [Term.value_isOk_iff]
  rcases not_hasUnsolved_iff.1 h t ht with hconst | hsolved
  · simp [hconst]
  · simp [hsolved]

/-- A sum that fails comes to a term that has no value: to the first of them. -/
theorem exists_comesTo {f : Fault} (h : LinComb.value c s e = .error f) :
    ∃ t, ComesTo c s e t ∧ ¬ ∃ x, t.value c s = .ok x := by
  classical
  have hbad : ∃ t ∈ e, ¬ ∃ x, t.value c s = .ok x := by
    by_contra hall
    simp only [not_exists, not_and, not_forall, not_not] at hall
    obtain ⟨x, hx⟩ := value_isOk_iff.2 hall
    rw [hx] at h
    cases h
  obtain ⟨t, hfind⟩ : ∃ t, e.find? (fun t => ¬ ∃ x, t.value c s = .ok x) = some t := by
    rw [← Option.isSome_iff_exists, List.find?_isSome]
    obtain ⟨t, ht, hvalue⟩ := hbad
    exact ⟨t, ht, decide_eq_true hvalue⟩
  obtain ⟨ht, before, after, he, hbefore⟩ := List.find?_eq_some_iff_append.1 hfind
  refine ⟨t, ⟨before, after, he, value_isOk_iff.2 fun u hu => ?_⟩, of_decide_eq_true ht⟩
  simpa using hbefore u hu

/-! ### What is shown -/

/-- The mark is shown exactly if some wire has no value, or the sum comes to a coefficient that is
not in the pool. -/
theorem render_eq_mark_iff :
    LinComb.render c s e = unsolvedMark ↔
      HasUnsolved s e ∨ ∃ t, ComesTo c s e t ∧ c.size ≤ t.coeff := by
  by_cases h : HasUnsolved s e
  · exact iff_of_true (render_of_hasUnsolved c h) (Or.inl h)
  rw [render_of_not_hasUnsolved c h, or_iff_right h]
  rcases hvalue : LinComb.value c s e with f | x
  · refine iff_of_true rfl ?_
    obtain ⟨t, ht, hbad⟩ := exists_comesTo hvalue
    rw [value_isOk_iff_of_mem h ht.mem, Nat.not_lt] at hbad
    exact ⟨t, ht, hbad⟩
  · refine iff_of_false x.text_ne_unsolvedMark ?_
    rintro ⟨t, ht, hcoeff⟩
    have hlt := (value_isOk_iff_of_mem h ht.mem).1 (value_isOk_iff.1 ⟨x, hvalue⟩ t ht.mem)
    exact absurd hlt (Nat.not_lt.2 hcoeff)

/-- Where it is not, the text is that of the value. -/
theorem value_of_render_ne_mark (h : LinComb.render c s e ≠ unsolvedMark) :
    ¬ HasUnsolved s e ∧ ∃ x, LinComb.value c s e = .ok x ∧ LinComb.render c s e = x.text := by
  have hsolved : ¬ HasUnsolved s e := fun hopen => h (render_of_hasUnsolved c hopen)
  rw [render_of_not_hasUnsolved c hsolved] at h ⊢
  rcases hvalue : LinComb.value c s e with f | x
  · rw [hvalue] at h
    exact absurd rfl h
  · exact ⟨hsolved, x, rfl, rfl⟩

/-- It is the decimal text of the canonical residue of what the combination denotes. -/
theorem render_eq_toString (h : LinComb.render c s e ≠ unsolvedMark) (hz : s.Agrees z) :
    LinComb.render c s e = toString (LinComb.denote c z e).val := by
  obtain ⟨-, x, hvalue, hrender⟩ := value_of_render_ne_mark h
  rw [hrender, denote_eq_of_value hvalue hz]
  rfl

/-- A text that is not the mark does not change when more wires have values. -/
theorem render_of_extends (hst : s.Extends t) (h : LinComb.render c s e ≠ unsolvedMark) :
    LinComb.render c t e = LinComb.render c s e := by
  obtain ⟨hsolved, x, hvalue, hrender⟩ := value_of_render_ne_mark h
  have hsolved' : ¬ HasUnsolved t e := by
    rw [not_hasUnsolved_iff] at hsolved ⊢
    exact fun u hu => (hsolved u hu).imp_right hst.isSolved
  rw [hrender, render_of_not_hasUnsolved c hsolved', value_of_extends hst hvalue]

end LinComb

/-- A note that shows no mark does not change either. -/
theorem Note.render_of_extends (m : SourceMap) (hst : s.Extends t) {n : Note}
    (h : ∀ e ∈ n.exprs, LinComb.render c s e ≠ unsolvedMark) :
    n.render c m t = n.render c m s := by
  unfold Note.render
  rw [List.map_congr_left fun e he => LinComb.render_of_extends hst (h e he)]

/-! ### In a solve -/

namespace Circuit

/-- What is shown of a combination in the states of a solve. -/
structure RendersExactly (c : Circuit p) (witness : List (Fp p)) (o : Options) (e : LinComb) :
    Prop where
  /-- In every state it is the mark, or what is shown in all later ones. -/
  stable : ∀ run t, c.LeadsTo c.blank run → c.LeadsTo run t →
    LinComb.render c.pool run.wires e = unsolvedMark ∨
      LinComb.render c.pool run.wires e = LinComb.render c.pool t.wires e
  /-- It is the mark exactly if a wire that is mentioned has no value, or the sum comes to a
  coefficient that is not in the pool. -/
  mark_iff : ∀ run, c.LeadsTo c.blank run →
    (LinComb.render c.pool run.wires e = unsolvedMark ↔
      (∃ t ∈ e, t.isConstant = false ∧ run.wires.isSolved t.wire = false) ∨
        ∃ t, LinComb.ComesTo c.pool run.wires e t ∧ c.pool.size ≤ t.coeff)
  /-- Otherwise it is the decimal text of what the combination denotes, with the values of the
  state. -/
  text : ∀ run z, c.LeadsTo c.blank run → run.wires.Agrees z →
    LinComb.render c.pool run.wires e ≠ unsolvedMark →
      LinComb.render c.pool run.wires e = toString (LinComb.denote c.pool z e).val
  /-- And with the values of the solution, if there is one in the end, however the workers take
  turns. -/
  solution : ∀ turns solution, c.outcomeInTurns witness o turns = .ok solution →
    ∃ t, c.Completes witness o turns t ∧ c.LeadsTo c.blank t ∧ ∀ run, c.LeadsTo run t →
      LinComb.render c.pool run.wires e ≠ unsolvedMark → LinComb.render c.pool run.wires e
        = toString (LinComb.denote c.pool (Valuation.ofValues solution.values) e).val

theorem renders_exactly (c : Circuit p) (witness : List (Fp p)) (o : Options) (e : LinComb) :
    c.RendersExactly witness o e where
  stable run t _ ht := by
    rw [or_iff_not_imp_left]
    exact fun h => (LinComb.render_of_extends ht.extends_wires h).symm
  mark_iff run _ := LinComb.render_eq_mark_iff
  text run z _ hz h := LinComb.render_eq_toString h hz
  solution turns solution h := by
    obtain ⟨t, ht, hend⟩ := exists_completes h
    refine ⟨t, ht, ht.leadsTo, fun run hrun hmark => LinComb.render_eq_toString hmark ?_⟩
    -- the values that are returned are those of the last state, and it has all earlier ones
    exact (Assignment.agrees_ofValues (conclude_eq_ok hend).1).anti hrun.extends_wires

/-- Twice the wire that the custom constraint of `stubborn` gives a value to, plus one. -/
def twicePlusOne : LinComb := [⟨2, 1⟩, Term.constant 1]

/-- It is not known before the constraint is processed.  Afterwards it is 2 * 3 + 1, although the
constraint has tried to give the wire another value. -/
theorem stubborn_renders :
    let t := (stubborn.process ⟨1, HintTable.empty, false⟩ 0).after stubborn.blank
    stubborn.LeadsTo stubborn.blank t ∧
      LinComb.render stubborn.pool stubborn.blank.wires twicePlusOne = "<unsolved>" ∧
      LinComb.render stubborn.pool t.wires twicePlusOne = "7" := by
  intro t
  have hleads : stubborn.LeadsTo stubborn.blank t :=
    stepwise_of_keeps (fun _ hP => keeps_process hP _ 0) stubborn.blank
  have hrenders := renders_exactly stubborn [1] ⟨1, HintTable.empty, false⟩ twicePlusOne
  have hne : LinComb.render stubborn.pool t.wires twicePlusOne ≠ unsolvedMark := by
    decide +kernel
  refine ⟨hleads, ?_, ?_⟩
  · rw [show "<unsolved>" = unsolvedMark from rfl,
      hrenders.mark_iff stubborn.blank Relation.ReflTransGen.refl]
    exact Or.inl ⟨⟨2, 1⟩, List.mem_cons_self, by decide, by decide⟩
  · rw [hrenders.text t (t.wires.fill 0) hleads (Assignment.agrees_fill _ _) hne]
    decide +kernel

end Circuit

end WireSolve
