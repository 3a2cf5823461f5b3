/-
WireSolve/Proofs/Turns.lean

Workers that take turns do what one worker does alone.

Turns are an order of the instructions in which every level is rearranged
(`Circuit.orderInTurns_perm`).  Where the instructions of a level are independent in the
state that the level is reached with, rearranging them makes no difference to whether
the level goes through and to the data it ends in (`Circuit.couples_processAll_perm`).
From level to level, turns then make none to the solution
(`Circuit.outcomeInTurns_eq_ok_iff`).
-/
import WireSolve.Proofs.Commute
import WireSolve.Proofs.Soundness
import WireSolve.Proofs.Solve.Turns

namespace WireSolve

variable {p : Nat}

/-! ### Success alone -/

namespace Solve

/-- Both steps fail, whatever the failures are, or neither does. -/
def BothFail (e e' : Option Failure) : Prop := e.isSome = e'.isSome

theorem endings_bothFail : Endings BothFail where
  left _ _ h := by cases h
  right _ _ h := by cases h

end Solve

namespace Circuit

open Solve

variable [Modulus p] {c : Circuit p} {o : Options}

/-! ### Any turns -/

section Levels

variable {witness : List (Fp p)} {turns : Nat → List Nat}

/-- In every level, the instructions are independent in the state that one worker reaches the level
with. -/
def IndependentLevels (c : Circuit p) (witness : List (Fp p)) (o : Options) : Prop :=
  ∀ before level after run, c.levels = before ++ level :: after →
    c.Reaches witness { o with workers := 1 } before.flatten run →
    c.Independent run.wires level

/-- A state with the data that one worker has when it has processed some levels. -/
def Abreast (c : Circuit p) (witness : List (Fp p)) (o : Options) (before : List (List Nat))
    (run run' : Run p) : Prop :=
  run.SameData run' ∧ c.Reaches witness { o with workers := 1 } before.flatten run'

theorem Reaches.tidy {is : List Nat} {run : Run p} (hrun : c.Reaches witness o is run) :
    run.Tidy :=
  ⟨hrun.of_persistent Assignment.persistent_numbered (Assignment.numbered_empty c.wireCount),
    hrun.of_persistent Assignment.persistent_counted (Assignment.counted_empty c.wireCount)⟩

variable (harith : c.Arithmetic) (hsep : c.SeparateOutputs)

include harith hsep

/-- Independent instructions in another order. -/
theorem couples_processAll_perm (hwf : WellFounded fun g h => c.Needs h g) {is js : List Nat}
    (hperm : is.Perm js) :
    Couples (fun run run' => run.SameData run' ∧ run'.Tidy ∧ c.Independent run'.wires js)
      (c.processAll o is) (c.processAll o js) (fun _ _ => Run.SameData) BothFail := by
  rintro run run' ⟨hsame, htidy, hindep⟩
  have hback := fun t' => processAll_perm (o := o) (t := t') harith hsep hwf hperm.symm hindep htidy
    hsame.symm
  rcases hrun : c.processAll o is run with ⟨_, t⟩ | ⟨e, t⟩ <;>
    rcases hrun' : c.processAll o js run' with ⟨_, t'⟩ | ⟨e', t'⟩
  · obtain ⟨t₂, ht₂, hsame'⟩ := hback t' hrun'
    obtain rfl : t = t₂ := by simpa [hrun] using ht₂
    exact hsame'.symm
  · -- an order that goes through would take the other one along
    have hindep' : c.Independent run.wires is := by
      rw [hsame.wires_eq]
      exact hindep.mono (Assignment.Extends.refl _) hperm.subset
    obtain ⟨t₂, ht₂, -⟩ := processAll_perm harith hsep hwf hperm hindep'
      (htidy.of_sameData hsame.symm) hsame hrun
    rw [hrun'] at ht₂
    cases ht₂
  · obtain ⟨t₂, ht₂, -⟩ := hback t' hrun'
    rw [hrun] at ht₂
    cases ht₂
  · rfl

/-- The next level, rearranged by its turns. -/
theorem couples_nextLevel (hwf : WellFounded fun g h => c.Needs h g)
    (hindep : c.IndependentLevels witness o) (hturns : c.AllTurnsTaken o.workers turns)
    {before after : List (List Nat)} {level : List Nat}
    (hsplit : c.levels = before ++ level :: after) :
    Couples (c.Abreast witness o before)
      (c.processAll o (levelOrder o.workers (turns before.length) level))
      (c.processAll o level) (fun _ _ => c.Abreast witness o (before ++ [level])) BothFail := by
  rintro run run' ⟨hsame, hreaches⟩
  have hdepth : (level, before.length) ∈ c.levels.zipIdx := by
    rw [List.mem_zipIdx_iff_getElem?]
    simp [hsplit]
  have hperm := levelOrder_perm (hturns _ hdepth)
  -- the state of the one worker is the one that independence is about
  have hcouples := couples_processAll_perm (o := o) harith hsep hwf hperm run run'
    ⟨hsame, hreaches.tidy, hindep before level after run' hsplit hreaches⟩
  rcases hrun : c.processAll o (levelOrder o.workers (turns before.length) level) run with
      ⟨_, t⟩ | ⟨e, t⟩ <;>
    rcases hrun' : c.processAll o level run' with ⟨_, t'⟩ | ⟨e', t'⟩ <;>
    rw [hrun, hrun'] at hcouples
  · refine ⟨hcouples, ?_⟩
    obtain ⟨s, hs, hbefore⟩ := hreaches
    rw [List.flatten_append, List.flatten_singleton]
    exact ⟨s, hs, processAll_append_eq_ok_iff.2 ⟨run', hbefore, hrun'⟩⟩
  · exact hcouples
  · exact hcouples
  · exact hcouples

/-- All levels that are left, rearranged by their turns. -/
theorem couples_levelsOrder (hwf : WellFounded fun g h => c.Needs h g)
    (hindep : c.IndependentLevels witness o) (hturns : c.AllTurnsTaken o.workers turns)
    {before after : List (List Nat)} (hsplit : c.levels = before ++ after) :
    Couples (c.Abreast witness o before)
      (c.processAll o (levelsOrder o.workers turns before.length after))
      (c.processAll o after.flatten) (fun _ _ => Run.SameData) BothFail := by
  induction after generalizing before with
  | nil => exact couples_pure fun _ _ h => h.1
  | cons level rest ih =>
    rw [levelsOrder, List.flatten_cons, processAll_append, processAll_append]
    have hlevel := couples_nextLevel harith hsep hwf hindep hturns hsplit
    refine couples_bind endings_bothFail hlevel fun _ _ => ?_
    have hrest := ih (hsplit.trans (List.append_cons before level rest))
    rwa [List.length_append, List.length_singleton] at hrest

/-- Where the instructions of every level are independent, a solve whose workers take turns, in
whatever way, succeeds exactly when one worker alone does, and with the same solution. -/
theorem outcomeInTurns_eq_ok_iff (hindep : c.IndependentLevels witness o)
    (hturns : c.AllTurnsTaken o.workers turns) {solution : Solution p} :
    c.outcomeInTurns witness o turns = .ok solution ↔
      (c.solve witness { o with workers := 1 }).outcome = .ok solution := by
  rw [outcomeInTurns_eq, outcome_solve, outcomeAlong, outcomeAlong]
  have hsetup : c.setup witness { o with workers := 1 } = c.setup witness o := rfl
  have hprocess : c.processAll { o with workers := 1 } = c.processAll o := rfl
  rw [hsetup, hprocess, Outcome.bind_eq_ok_iff, Outcome.bind_eq_ok_iff]
  refine exists_congr fun s => and_congr_right fun hs => ?_
  have hwf := wellFounded_needs (setup_eq_ok_iff.1 hs).2.2.2.2
  -- the two start with different journals, but with the same data
  have hall : Couples (c.Abreast witness o [])
      (c.processAll o (c.orderInTurns o.workers turns)) (c.processAll o c.levels.flatten)
      (fun _ _ => Run.SameData) BothFail :=
    couples_levelsOrder harith hsep hwf hindep hturns (List.nil_append c.levels).symm
  have hlevels := hall (c.initialRun o s #[]) (c.initialRun { o with workers := 1 } s #[])
    ⟨⟨rfl, rfl⟩, s, hs, rfl⟩
  rcases hrun : c.processAll o (c.orderInTurns o.workers turns) _ with ⟨_, t⟩ | ⟨e, t⟩ <;>
    rcases hrun' : c.processAll o c.levels.flatten _ with ⟨_, t'⟩ | ⟨e', t'⟩ <;>
    rw [hrun, hrun'] at hlevels
  · dsimp only
    rw [conclude_eq_of_sameData hlevels]
  · cases hlevels
  · cases hlevels
  · simp

end Levels

/-- Under number 0, the function whose outputs are all the double of the sum of its inputs. -/
def doubleTable : HintTable :=
  HintTable.empty.insert 0 "double" ⟨fun _ inputs _ outputs =>
    .ok (outputs.map fun _ => 2 * inputs.sum)⟩

/-- A circuit whose first level has two hints, 1 and 2, that both need hint 0, a gate that is solved
for wire 4, and one and the same check many times over; the second level compares the outputs. -/
def fork : Circuit 17 where
  family := .gates
  publicWires := 1
  secretWires := 0
  internalWires := 4
  constraints := #[.gate ⟨0, 0, 0, 1, 3, 0, 0, 0⟩, .gate ⟨0, 0, 4, 1, 0, 3, 0, 0⟩,
    .gate ⟨2, 3, 0, 1, 3, 0, 0, 0⟩]
  hints := #[⟨0, [[⟨1, 0⟩]], ⟨1, 2⟩⟩, ⟨0, [[⟨1, 1⟩]], ⟨2, 3⟩⟩, ⟨0, [[⟨1, 1⟩]], ⟨3, 4⟩⟩]
  instructions := #[.hint 1, .hint 2, .constraint 1, .constraint 0, .constraint 2]
  levels := [0 :: List.replicate 49 3 ++ [1, 2], [4]]

theorem fork_mentions {k : Nat} {w : Wire} (h : fork.Mentions k w) (hk : k < 2) :
    w = 0 ∨ (k = 1 ∧ w = 4) := by
  obtain ⟨q, hq, hw⟩ := h
  have hk' : k = 0 ∨ k = 1 := by omega
  rcases hk' with rfl | rfl
  · obtain rfl : Constraint.gate ⟨0, 0, 0, 1, 3, 0, 0, 0⟩ = q := Option.some.inj hq
    obtain ⟨-, rfl⟩ | ⟨-, rfl⟩ | ⟨hc, -⟩ := hw
    · exact Or.inl rfl
    · exact Or.inl rfl
    · exact absurd hc (by decide)
  · obtain rfl : Constraint.gate ⟨0, 0, 4, 1, 0, 3, 0, 0⟩ = q := Option.some.inj hq
    obtain ⟨-, rfl⟩ | ⟨hb, -⟩ | ⟨-, rfl⟩ := hw
    · exact Or.inl rfl
    · exact absurd hb (by decide)
    · exact Or.inr ⟨rfl, rfl⟩

theorem fork_hints (g : Nat) : ¬ (fork.Reads g 4 ∨ fork.Produces g 4) := by
  rintro (⟨call, hcall, h⟩ | ⟨call, hcall, h⟩)
  all_goals
    obtain ⟨hg, rfl⟩ := Array.getElem?_eq_some_iff.1 hcall
    revert h
    revert g
    decide

theorem fork_independentLevels :
    fork.IndependentLevels [.ofNat 3] ⟨2, doubleTable, false⟩ := by
  rintro before level after run hsplit ⟨s, hs, hrun⟩ i hi j hj k ins hk hins hne w hw hmentions
  rcases before with - | ⟨first, before⟩
  · obtain ⟨rfl, -⟩ := List.cons.inj hsplit
    obtain rfl := (EStateM.Result.ok.inj hrun).2
    have hzero : s.isSolved 0 = true := by
      have hstart : (match fork.setup [.ofNat 3] ⟨1, doubleTable, false⟩ with
        | .ok s => s.isSolved 0
        | .error _ => true) = true := by decide +kernel
      rwa [hs] at hstart
    have hconstraint : ∀ k, ∀ i ∈ 0 :: List.replicate 49 3 ++ [1, 2],
        fork.instructions[i]? = some (.constraint k) → k < 2 := by
      intro k i hi hk
      have hkind : ∀ i ∈ 0 :: List.replicate 49 3 ++ [1, 2],
          fork.instructions[i]? ∈ [some (.hint 1), some (.hint 2), some (.constraint 0),
            some (.constraint 1)] := by decide
      have hi := hkind i hi
      rw [hk] at hi
      simp at hi
      omega
    rcases fork_mentions hmentions (hconstraint k i hi hk) with rfl | ⟨rfl, rfl⟩
    · exact absurd hzero (Bool.eq_false_iff.1 hw)
    · -- wire 4 belongs to the gate alone
      cases ins with
      | constraint k' =>
        intro hmentions'
        rcases fork_mentions hmentions' (hconstraint k' j hj hins) with heq | ⟨rfl, -⟩
        · exact absurd heq (by decide)
        · exact hne rfl
      | hint h =>
        rintro ⟨g, -, hg⟩
        exact fork_hints g hg
  · obtain ⟨-, hrest⟩ := List.cons.inj hsplit
    rcases before with - | ⟨second, before⟩
    · -- the second level has one instruction
      obtain ⟨rfl, -⟩ := List.cons.inj hrest
      obtain rfl := List.mem_singleton.1 hi
      obtain rfl := List.mem_singleton.1 hj
      exact absurd (Option.some.inj (hins.symm.trans hk)) hne
    · exact absurd (List.cons.inj hrest).2 (by simp)

/-- Hint 2 comes first and calls the function of hint 0, which hint 1 finds called. -/
theorem fork_outcomeInTurns :
    fork.Arithmetic ∧ fork.SeparateOutputs ∧
      fork.IndependentLevels [.ofNat 3] ⟨2, doubleTable, false⟩ ∧
      fork.AllTurnsTaken 2 (fun _ => backwards) ∧
      fork.outcomeInTurns [.ofNat 3] ⟨2, doubleTable, false⟩ (fun _ => backwards)
        = .ok ⟨#[.ofNat 3, .ofNat 6, .ofNat 12, .ofNat 12, .ofNat 3], none⟩ := by
  have harith : fork.Arithmetic := by decide
  have hsep : fork.SeparateOutputs := by decide
  have hturns : fork.AllTurnsTaken 2 (fun _ => backwards) := by decide +kernel
  refine ⟨harith, hsep, fork_independentLevels, hturns, ?_⟩
  exact (outcomeInTurns_eq_ok_iff harith hsep fork_independentLevels hturns).2 (by decide +kernel)

end Circuit

end WireSolve
