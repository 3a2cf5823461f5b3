/-
WireSolve/Proofs/Commute.lean

Independent instructions commute.

Instructions of a level are independent in a state when every wire without a
value that a constraint of the level mentions is touched by no other instruction
(`Circuit.Independent`); hints may share the hints that they need.  When one such
instruction follows another, they can also be processed the other way round: a
constraint finds the wires that it mentions as they were
(`Circuit.constraint_again`), and a hint comes out as it did
(`Circuit.hint_again`).  Both stay below the state that was reached the first
time, and as this can be turned round, the two orders end in the same data
(`Circuit.process_comm`).  So a level goes through in one order exactly when it
does in another (`Circuit.processAll_perm`).
-/
import WireSolve.Proofs.Solve.Constraints
import WireSolve.Proofs.Solve.Progress
import WireSolve.Proofs.Solve.Sequential
import WireSolve.Proofs.Step.Local

namespace WireSolve

variable {p : Nat}

/-! ### States -/

namespace Run

variable {run run' s t t' T : Run p} {k : Nat} {W : Wire → Prop}

/-- The wires are as writes leave them: those with values have numbers, and they are counted. -/
def Tidy (run : Run p) : Prop := run.wires.Numbered ∧ run.wires.Counted

theorem Tidy.of_sameData (hrun : run.Tidy) (h : run.SameData t) : t.Tidy := by
  rw [Tidy, ← h.wires_eq]
  exact hrun

theorem Below.antisymm (hrun : run.Tidy) (ht : t.Tidy) (h : run.Below t) (h' : t.Below run) :
    run.SameData t :=
  ⟨h.extends_wires.antisymm hrun ht h'.extends_wires, eq_of_filled h'.size_sides
    fun k x => ⟨h.keeps_sides k x, h'.keeps_sides k x⟩⟩

/-- Two steps of constraint number `k` that do the same: to the wires, and to the sides. -/
structure SameStep (W : Wire → Prop) (k : Nat) (run t run' t' : Run p) : Prop where
  wires : Assignment.SameChange W run.wires t.wires run'.wires t'.wires
  sides : (t.sides = run.sides ∧ t'.sides = run'.sides) ∨ ∃ x, run.sides[k]? = some none ∧
    t.sides = run.sides.setIfInBounds k (some x) ∧ t'.sides = run'.sides.setIfInBounds k (some x)

/-- The second step stays below what the second start and the first end are below of. -/
theorem SameStep.below (h : SameStep W k run t run' t')
    (hrun' : run'.Below T) (ht : t.Below T) : t'.Below T := by
  refine ⟨h.wires.extends hrun'.extends_wires ht.extends_wires, ?_, ?_⟩
  · rcases h.sides with ⟨-, heq⟩ | ⟨x, -, -, heq⟩
    · rw [heq, hrun'.size_sides]
    · rw [heq, Array.size_setIfInBounds, hrun'.size_sides]
  · intro j y hj
    rcases h.sides with ⟨-, heq⟩ | ⟨x, hnone, heq', heq⟩
    · exact hrun'.keeps_sides j y (heq ▸ hj)
    · rw [heq] at hj
      rcases eq_or_of_record hj with ⟨rfl, rfl⟩ | hbefore
      · have hk := (Array.getElem?_eq_some_iff.1 hnone).1
        refine ht.keeps_sides k x ?_
        rw [heq', Array.getElem?_setIfInBounds_self, if_pos hk]
      · exact hrun'.keeps_sides j y hbefore

/-- The first step gives values to the wires in question only, and records no other sides. -/
theorem SameStep.frame (h : SameStep W k run t run' t') :
    (∀ w, t.wires.isSolved w = true → run.wires.isSolved w = true ∨ W w) ∧
      ∀ j, j ≠ k → t.sides[j]? = run.sides[j]? := by
  refine ⟨fun w hw => ?_, fun j hj => ?_⟩
  · by_cases hmentions : W w
    · exact Or.inr hmentions
    · rw [Assignment.isSolved, h.wires.get?_eq hmentions] at hw
      exact Or.inl hw
  · rcases h.sides with ⟨heq, -⟩ | ⟨x, -, heq, -⟩
    · rw [heq]
    · rw [heq, Array.getElem?_setIfInBounds_ne hj.symm]

end Run

namespace Circuit

open Solve

variable [Modulus p] {c : Circuit p} {o : Options} {i j k h : Nat} {ins ins' : Instruction}
  {run run' s t T : Run p}

/-! ### Instructions that are independent -/

/-- A wire that an instruction may look at or give a value to: one that the constraint mentions, or
an input or output of a hint that is involved. -/
def Touches (c : Circuit p) : Instruction → Wire → Prop
  | .constraint k => c.Mentions k
  | .hint h => fun w => ∃ g, c.Involves h g ∧ (c.Reads g w ∨ c.Produces g w)

/-- The wires without values that a constraint of a level mentions are touched by no other
instruction of the level. -/
def Independent (c : Circuit p) (s : Assignment p) (level : List Nat) : Prop :=
  ∀ i ∈ level, ∀ j ∈ level, ∀ k ins, c.instructions[i]? = some (.constraint k) →
    c.instructions[j]? = some ins → ins ≠ .constraint k →
    ∀ w, s.isSolved w = false → c.Mentions k w → ¬ c.Touches ins w

/-- The wires that an instruction may give values to as a constraint, from a start. -/
def Settles (c : Circuit p) (S : Assignment p) : Instruction → Wire → Prop
  | .constraint k => fun w => S.isSolved w = false ∧ c.Mentions k w
  | .hint _ => fun _ => False

/-- A hint has nothing to do with the wires of a constraint that is independent of it. -/
theorem untouched_settles {S : Assignment p}
    (hfree : ∀ k, ins = .constraint k → ∀ w, S.isSolved w = false → c.Mentions k w →
      ¬ c.Touches (.hint h) w) : c.Untouched (c.Involves h) (c.Settles S ins) := by
  intro g hg w hw
  cases ins with
  | constraint k =>
    have hnot := hfree k rfl w hw.1 hw.2
    exact ⟨fun hproduces => hnot ⟨g, hg, Or.inr hproduces⟩,
      fun hreads => hnot ⟨g, hg, Or.inl hreads⟩⟩
  | hint h => exact hw.elim

/-- Part of a level, with more values. -/
theorem Independent.mono {s t : Assignment p} {level level' : List Nat}
    (hlevel : c.Independent s level) (hst : s.Extends t) (hsub : level' ⊆ level) :
    c.Independent t level' :=
  fun i hi j hj k ins hk hins hne w hw =>
    hlevel i (hsub hi) j (hsub hj) k ins hk hins hne w (hst.isSolved_eq_false hw)

theorem tidy_of_process (hrun : run.Tidy) (hi : c.process o i run = .ok () t) : t.Tidy :=
  ⟨(keeps_process (Run.stable_wires Assignment.persistent_numbered c) o i).of_ok hrun.1 hi,
    (keeps_process (Run.stable_wires Assignment.persistent_counted c) o i).of_ok hrun.2 hi⟩

/-! ### Constraints -/

/-- An arithmetic constraint that goes through goes through in every state with the same values on
the wires that it mentions and the same sides, and does the same there. -/
theorem solveConstraint_local {q : Constraint p} (hq : q.isArithmetic = true)
    (hsame : run.wires.SameOn q.Mentions run'.wires) (hsides : run'.sides[k]? = run.sides[k]?)
    (hrun : c.solveConstraint k q run = .ok () t) :
    ∃ t', c.solveConstraint k q run' = .ok () t' ∧ Run.SameStep q.Mentions k run t run' t' := by
  cases q with
  | rank1 r =>
    obtain ⟨x, hsolve, -⟩ := solveRank1_eq_ok hrun
    obtain ⟨s', hsolve', hchange⟩ := Rank1.solve_local hsame hsolve
    change c.solveRank1 k r run = _ at hrun
    change ∃ t', c.solveRank1 k r run' = _ ∧ _
    rw [solveRank1_apply, hsolve] at hrun
    rw [solveRank1_apply, hsolve']
    dsimp only at hrun ⊢
    cases hfamily : c.family with
    | gates =>
      rw [hfamily] at hrun
      have ht := (EStateM.Result.ok.inj hrun).2
      exact ⟨_, rfl, hchange, Or.inl ⟨(congrArg Run.sides ht).symm, rfl⟩⟩
    | rank1 =>
      rw [hfamily, record_apply] at hrun
      rw [record_apply]
      dsimp only at hrun ⊢
      rw [hsides]
      split at hrun
      · cases hrun
      · cases hrun
      · next hnone =>
        have ht := (EStateM.Result.ok.inj hrun).2
        exact ⟨_, rfl, hchange, Or.inr ⟨x, hnone, (congrArg Run.sides ht).symm, rfl⟩⟩
  | gate g =>
    have hsolve := solveGate_eq_ok hrun
    obtain ⟨s', hsolve', hchange⟩ := Gate.solve_local hsame hsolve
    change c.solveGate k g run = _ at hrun
    change ∃ t', c.solveGate k g run' = _ ∧ _
    rw [solveGate_apply, hsolve] at hrun
    have ht := (EStateM.Result.ok.inj hrun).2
    rw [solveGate_apply, hsolve']
    exact ⟨_, rfl, hchange, Or.inl ⟨(congrArg Run.sides ht).symm, rfl⟩⟩
  | custom body => cases hq

section Again

variable (harith : c.Arithmetic)

include harith

/-- A constraint goes through again where the wires that it mentions are as they were. -/
theorem constraint_again (hi : c.instructions[i]? = some (.constraint k))
    (hprocess : c.process o i run = .ok () t) (hsame : run.wires.SameOn (c.Mentions k) run'.wires)
    (hsides : run'.sides[k]? = run.sides[k]?) (hrun' : run'.Below T) (ht : t.Below T) :
    ∃ t', c.process o i run' = .ok () t' ∧ t'.Below T := by
  rcases process_eq_ok hprocess with ⟨k', q, hi', hk, hsolve⟩ | ⟨h, hi', -⟩
  · obtain rfl : k = k' := by simpa [hi] using hi'
    have hq := harith q (Array.mem_of_getElem? hk)
    have hsame' : run.wires.SameOn q.Mentions run'.wires :=
      ⟨hsame.size_eq, fun w hw => hsame.get?_eq w ⟨q, hk, hw⟩⟩
    obtain ⟨t', hsolve', hstep⟩ := solveConstraint_local hq hsame' hsides hsolve
    rw [process_constraint hi hk]
    exact ⟨t', hsolve', hstep.below hrun' ht⟩
  · rw [hi] at hi'
    cases hi'

/-- An instruction gives values to wires that it touches, and only a constraint records sides, its
own. -/
theorem frame_of_process (hi : c.instructions[i]? = some ins)
    (hprocess : c.process o i run = .ok () t) :
    (∀ w, t.wires.isSolved w = true → run.wires.isSolved w = true ∨ c.Touches ins w) ∧
      ∀ k, ins ≠ .constraint k → t.sides[k]? = run.sides[k]? := by
  rcases process_eq_ok hprocess with ⟨k, q, hi', hk, hsolve⟩ | ⟨h, hi', hsolve⟩
  · obtain rfl := Option.some.inj (hi.symm.trans hi')
    have hq := harith q (Array.mem_of_getElem? hk)
    obtain ⟨t', -, hstep⟩ := solveConstraint_local hq ⟨rfl, fun _ _ => rfl⟩ rfl hsolve
    refine ⟨fun w hw => (hstep.frame.1 w hw).imp_right fun hmentions => ⟨q, hk, hmentions⟩,
      fun j hj => hstep.frame.2 j ?_⟩
    rintro rfl
    exact hj rfl
  · obtain rfl := Option.some.inj (hi.symm.trans hi')
    obtain ⟨hsides, hwires⟩ := frame_of_resolve hsolve
    refine ⟨fun w hw => (hwires w hw).imp_right ?_, fun j _ => by rw [hsides]⟩
    rintro ⟨g, hinvolves, hg⟩
    exact ⟨g, hinvolves, Or.inr hg⟩

/-- What an independent instruction leaves as it is to a constraint. -/
theorem sameOn_of_process (hi : c.instructions[i]? = some ins)
    (hprocess : c.process o i run = .ok () t) (hne : ins ≠ .constraint k)
    (hfree : ∀ w, run.wires.isSolved w = false → c.Mentions k w → ¬ c.Touches ins w) :
    run.wires.SameOn (c.Mentions k) t.wires ∧ t.sides[k]? = run.sides[k]? := by
  obtain ⟨hwires, hsides⟩ := frame_of_process harith hi hprocess
  exact ⟨(below_of_process hprocess).extends_wires.sameOn hwires hfree, hsides k hne⟩

/-- An instruction grows an assignment by wires that it settles as a constraint, and by calls. -/
theorem grownBy_of_process {W : Wire → Prop} {S : Assignment p}
    (hi : c.instructions[i]? = some ins) (hprocess : c.process o i run = .ok () t)
    (hrun : c.GrownBy o.hints W S run.wires) (hW : ∀ w, c.Settles S ins w → W w) :
    c.GrownBy o.hints W S t.wires := by
  cases ins with
  | constraint k =>
    refine hrun.of_extends (below_of_process hprocess).extends_wires fun w hw => ?_
    rcases (frame_of_process harith hi hprocess).1 w hw with hbefore | hmentions
    · exact Or.inl hbefore
    cases hstart : S.isSolved w with
    | true => exact Or.inl (hrun.extends_start.isSolved hstart)
    | false => exact Or.inr (hW w ⟨hstart, hmentions⟩)
  | hint h =>
    rw [process, hi] at hprocess
    exact grownBy_of_resolve hrun hprocess

end Again

section Swap

variable (harith : c.Arithmetic) (hsep : c.SeparateOutputs)
  (hwf : WellFounded fun g h => c.Needs h g)

include hsep hwf

/-- A hint goes through again where only constraints and calls have given values, and the
constraints to wires that it has nothing to do with. -/
theorem hint_again {W : Wire → Prop} {S : Assignment p}
    (hi : c.instructions[i]? = some (.hint h)) (hprocess : c.process o i run = .ok () t)
    (hW : c.Untouched (c.Involves h) W) (hT : c.GrownBy o.hints W S T.wires)
    (hgrown : c.GrownBy o.hints W S run'.wires) (hrun' : run'.Below T) (ht : t.Below T) :
    ∃ t', c.process o i run' = .ok () t' ∧ t'.Below T := by
  rw [process, hi] at hprocess ⊢
  obtain ⟨call, hcall, -, -⟩ := resolve_eq_ok hprocess
  -- at the start of an instruction no hint is in progress
  have hpending : ∀ g, c.Involves h g → g ∈ List.range c.hints.size :=
    fun _ => mem_range_of_involves (Array.getElem?_eq_some_iff.1 hcall).1
  have hsolved : T.wires.isSolved call.outputs.start = true :=
    ht.extends_wires.isSolved (isSolved_of_resolve hprocess hcall (hsep.nonempty h call hcall))
  obtain ⟨t', hres, hbelow⟩ := comesOut hsep hwf (closed_involves c h) hW hT
    Relation.ReflTransGen.refl hpending run' call hgrown hrun'.extends_wires hcall hsolved
  obtain ⟨hsides, -⟩ := frame_of_resolve hres
  exact ⟨t', hres, hbelow, hsides ▸ hrun'.size_sides, hsides ▸ hrun'.keeps_sides⟩

include harith

/-- Independent instructions can be processed the other way round, which gives nothing that was not
there the first time. -/
theorem process_swap (hindep : c.Independent run.wires [i, j])
    (hi : c.process o i run = .ok () s) (hj : c.process o j s = .ok () t) :
    ∃ s' t', c.process o j run = .ok () s' ∧ c.process o i s' = .ok () t' ∧ t'.Below t := by
  obtain ⟨ins, hins⟩ := exists_instruction hi
  obtain ⟨ins', hins'⟩ := exists_instruction hj
  by_cases heq : ins = ins'
  · -- the same instruction twice
    subst heq
    have hij := hins.trans hins'.symm
    exact ⟨s, t, process_of_same hij hi, process_of_same hij.symm hj, Run.Below.refl t⟩
  -- both orders are compared with the state that the first one ends in
  have hst := below_of_process hj
  have hrun : ∀ W, c.GrownBy o.hints W run.wires run.wires := fun W => GrownBy.refl run.wires
  have hfirst : ∃ s', c.process o j run = .ok () s' ∧ s'.Below t := by
    have hbelow := (below_of_process hi).trans hst
    cases ins' with
    | constraint k =>
      obtain ⟨hsame, hsides⟩ := sameOn_of_process harith hins hi heq
        (hindep j (by simp) i (by simp) k ins hins' hins heq)
      exact constraint_again harith hins' hj hsame.symm hsides.symm hbelow (Run.Below.refl t)
    | hint h =>
      -- what the first instruction settles as a constraint is excepted
      have hs := grownBy_of_process harith hins hi (hrun _) fun _ hw => hw
      have hT := grownBy_of_process harith hins' hj hs fun _ hw => hw.elim
      have hW := untouched_settles fun k hk =>
        hindep i (by simp) j (by simp) k _ (hk ▸ hins) hins' (hk ▸ Ne.symm heq)
      exact hint_again hsep hwf hins' hj hW hT (hrun _) hbelow (Run.Below.refl t)
  obtain ⟨s', hs', hbelow⟩ := hfirst
  have hsecond : ∃ t', c.process o i s' = .ok () t' ∧ t'.Below t := by
    cases ins with
    | constraint k =>
      obtain ⟨hsame, hsides⟩ := sameOn_of_process harith hins' hs' (Ne.symm heq)
        (hindep i (by simp) j (by simp) k ins' hins hins' (Ne.symm heq))
      exact constraint_again harith hins hi hsame hsides hbelow hst
    | hint h =>
      -- now the second is the constraint, if there is one
      have hs := grownBy_of_process harith hins hi (hrun (c.Settles run.wires ins'))
        fun _ hw => hw.elim
      have hT := grownBy_of_process harith hins' hj hs fun _ hw => hw
      have hgrown := grownBy_of_process harith hins' hs' (hrun _) fun _ hw => hw
      have hW := untouched_settles fun k hk =>
        hindep j (by simp) i (by simp) k _ (hk ▸ hins') hins (hk ▸ heq)
      exact hint_again hsep hwf hins hi hW hT hgrown hbelow hst
  obtain ⟨t', ht', hbelow'⟩ := hsecond
  exact ⟨s', t', hs', ht', hbelow'⟩

/-- Independent instructions that go through in one order go through in the other, and end in the
same data. -/
theorem process_comm (hindep : c.Independent run.wires [i, j]) (hrun : run.Tidy)
    (hi : c.process o i run = .ok () s) (hj : c.process o j s = .ok () t) :
    ∃ s' t', c.process o j run = .ok () s' ∧ c.process o i s' = .ok () t' ∧ t.SameData t' := by
  obtain ⟨s', t', hs', ht', hbelow⟩ := process_swap harith hsep hwf hindep hi hj
  -- turned round again, the first state is below the second
  have hindep' : c.Independent run.wires [j, i] :=
    hindep.mono (Assignment.Extends.refl _) (List.Perm.swap i j []).subset
  obtain ⟨s₂, t₂, hs₂, ht₂, hbelow'⟩ := process_swap harith hsep hwf hindep' hs' ht'
  obtain rfl : s = s₂ := by simpa [hi] using hs₂
  obtain rfl : t = t₂ := by simpa [hj] using ht₂
  exact ⟨s', t', hs', ht', hbelow'.antisymm (tidy_of_process (tidy_of_process hrun hi) hj)
    (tidy_of_process (tidy_of_process hrun hs') ht') hbelow⟩

/-! ### Sequences -/

/-- Independent instructions that go through in one order go through in every other, and end in the
same data. -/
theorem processAll_perm {is js : List Nat} (hperm : is.Perm js)
    (hindep : c.Independent run.wires is) (hrun : run.Tidy) (hsame : run.SameData run')
    (hprocess : c.processAll o is run = .ok () t) :
    ∃ t', c.processAll o js run' = .ok () t' ∧ t.SameData t' := by
  induction hperm generalizing run run' t with
  | nil => exact ⟨run', rfl, (EStateM.Result.ok.inj hprocess).2 ▸ hsame⟩
  | cons i hperm ih =>
    obtain ⟨s, hi, hrest⟩ := processAll_cons_eq_ok_iff.1 hprocess
    obtain ⟨s', hi', hsame'⟩ := ok_of_alike (alike_process o i) hsame hi
    obtain ⟨t', hrest', hsame''⟩ := ih
      (hindep.mono (below_of_process hi).extends_wires (List.subset_cons_self _ _))
      (tidy_of_process hrun hi) hsame' hrest
    exact ⟨t', processAll_cons_eq_ok_iff.2 ⟨s', hi', hrest'⟩, hsame''⟩
  | swap i j rest =>
    -- the two are exchanged in one run, and the result is carried over to the other
    obtain ⟨s, hj, hprocess⟩ := processAll_cons_eq_ok_iff.1 hprocess
    obtain ⟨u, hi, hrest⟩ := processAll_cons_eq_ok_iff.1 hprocess
    obtain ⟨s₂, u₂, hi₂, hj₂, hsame₂⟩ := process_comm harith hsep hwf
      (hindep.mono (Assignment.Extends.refl _) (List.subset_append_left [j, i] rest)) hrun hj hi
    obtain ⟨s₃, hi₃, hsame₃⟩ := ok_of_alike (alike_process o i) hsame hi₂
    obtain ⟨u₃, hj₃, hsame₄⟩ := ok_of_alike (alike_process o j) hsame₃ hj₂
    obtain ⟨t', hrest', hsame'⟩ := ok_of_alike (alike_processAll o rest) (hsame₂.trans hsame₄) hrest
    exact ⟨t', processAll_cons_eq_ok_iff.2
      ⟨s₃, hi₃, processAll_cons_eq_ok_iff.2 ⟨u₃, hj₃, hrest'⟩⟩, hsame'⟩
  | trans hperm hperm' ih ih' =>
    obtain ⟨t₁, ht₁, hsame₁⟩ := ih hindep hrun hsame hprocess
    have hindep' := hindep.mono (Assignment.Extends.refl _) hperm.symm.subset
    rw [hsame.wires_eq] at hindep'
    obtain ⟨t', ht', hsame'⟩ := ih' hindep' (hrun.of_sameData hsame) (Run.SameData.refl run') ht₁
    exact ⟨t', ht', hsame₁.trans hsame'⟩

end Swap

end Circuit

end WireSolve
