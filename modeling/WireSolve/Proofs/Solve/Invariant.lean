/-
WireSolve/Proofs/Solve/Invariant.lean

What every step of a solve keeps, whatever the circuit is and whether the step
goes through or fails.

A solve changes its data in two ways: a wire without a value is given one, and a
constraint without recorded sides gets them; the journal and the worker are
bookkeeping.  An invariant that is stable under these (`Run.Stable`) is kept by
hints with everything they produce on the way, by every kind of constraint, by
instructions and by sequences of them (`Circuit.keeps_processAll`).

The invariant that the other developments use is `Run.Below`: from any state on,
the wires that have a value keep it, and sides that are recorded stay.
-/
import WireSolve.Proofs.Solve.Triple
import WireSolve.Proofs.Step.Gate
import WireSolve.Proofs.Step.Rank1
import WireSolve.Solve.Solution

namespace WireSolve

variable {p : Nat} [Modulus p] {c : Circuit p} {P : Run p → Prop}

/-! ### Stable properties -/

/-- A property that none of the changes a solve of a circuit makes can break. -/
structure Run.Stable (c : Circuit p) (P : Run p → Prop) : Prop where
  /-- The journal and the worker do not matter. -/
  bookkeeping : ∀ run journal worker, P run → P { run with journal := journal, worker := worker }
  /-- A wire is given its value. -/
  write : ∀ run w x s, P run → run.wires.set w x = .ok s → P { run with wires := s }
  /-- The sides of a constraint are recorded: those that its step has returned. -/
  record : ∀ run k r s x, P run → c.constraints[k]? = some (.rank1 r) →
    r.solve c.pool s k = .ok (run.wires, x) → run.sides[k]? = some none →
    P { run with sides := run.sides.setIfInBounds k (some x) }

/-- A step that gives a value to one wire at most keeps what is stable. -/
theorem Run.Stable.grows (hP : Run.Stable c P) {run : Run p} {s : Assignment p} (h : P run)
    (hs : run.wires.Grows s) : P { run with wires := s } := by
  rcases hs with rfl | ⟨w, x, hset⟩
  · exact h
  · exact hP.write run w x s h hset

namespace Solve

theorem keeps_emit (hP : Run.Stable c P) (e : Event p) : Keeps P (emit e) :=
  fun run h => hP.bookkeeping run _ run.worker h

theorem keeps_assign (hP : Run.Stable c P) (w : Wire) (x : Fp p) : Keeps P (assign w x) := by
  intro run h
  rw [assign_apply]
  rcases hset : run.wires.set w x with f | s
  · exact h
  · exact hP.write run w x s h hset

theorem keeps_record (hP : Run.Stable c P) {k : Nat} {r : Rank1} {s t : Assignment p}
    {x : Sides p} (hk : c.constraints[k]? = some (.rank1 r))
    (hsolve : r.solve c.pool s k = .ok (t, x)) (family : Family) :
    Triple (fun run => P run ∧ run.wires = t) (record family k x) (fun _ => P) (fun _ => P) := by
  rintro run ⟨h, rfl⟩
  cases family with
  | gates => exact h
  | rank1 =>
    rw [record_apply]
    rcases hsides : run.sides[k]? with - | - | y
    · exact h
    · exact hP.record run k r s x h hk hsolve hsides
    · exact h

/-- Taking over an assignment that a step has reached. -/
theorem triple_setWires (hP : Run.Stable c P) {s t : Assignment p} (hst : s.Grows t) :
    Triple (fun run => P run ∧ run.wires = s) (setWires t) (fun _ run => P run ∧ run.wires = t)
      (fun _ => P) := by
  rintro run ⟨h, rfl⟩
  exact ⟨hP.grows h hst, rfl⟩

theorem keeps_setWires (hP : Run.Stable c P) {s t : Assignment p} (hst : s.Grows t) :
    Triple (fun run => P run ∧ run.wires = s) (setWires t) (fun _ => P) (fun _ => P) :=
  (triple_setWires hP hst).weaken fun _ _ h => h.1

end Solve

namespace Circuit

open Solve

/-! ### Hints -/

section Inputs

variable {E : Failure → Run p → Prop} {produce : Nat → Solve p Unit}

theorem triple_provide {t : Term}
    (hopen : ∀ run, P run → E (.fault (.unproducedWire t.wire)) run)
    (hproduce : ∀ g, ¬ t.isConstant → t.coeff ≠ 0 → c.producer? t.wire = some g →
      Triple P (produce g) (fun _ => P) E) :
    Triple P (c.provide produce t) (fun _ => P) E := by
  refine triple_wires fun s => ?_
  split
  · next hunsolved =>
    simp only [Bool.and_eq_true, Bool.not_eq_true', bne_iff_ne, ne_eq] at hunsolved
    split
    · exact triple_throw fun run h => hopen run h.1
    · next g hg =>
      exact fun run h => hproduce g (Bool.eq_false_iff.1 hunsolved.1.1) hunsolved.1.2 hg run h.1
  · exact triple_pure fun _ h => h.1

/-- Reading an input keeps what the hints keep that produce its wires.  By itself it fails where a
wire has no value and no producer, and where a term cannot be added. -/
theorem triple_readInput {e : LinComb}
    (hopen : ∀ t ∈ e, ∀ run, P run → E (.fault (.unproducedWire t.wire)) run)
    (hadd : ∀ t ∈ e, ∀ acc f run, P run → t.addTo c.pool run.wires acc = .error f →
      E (.fault f) run)
    (hproduce : ∀ t ∈ e, ∀ g, ¬ t.isConstant → t.coeff ≠ 0 → c.producer? t.wire = some g →
      Triple P (produce g) (fun _ => P) E) :
    Triple P (c.readInput produce e) (fun _ => P) E := by
  refine triple_foldlM (R := fun _ => P) 0 fun acc t ht => ?_
  refine triple_bind (triple_provide (hopen t ht) (hproduce t ht)) fun _ => triple_wires fun s => ?_
  refine triple_lift (fun _ _ _ h => h.1) fun f hf run h => hadd t ht acc f run h.1 ?_
  rw [h.2, hf]

end Inputs

theorem keeps_callHint (hP : Run.Stable c P) (h : Nat) (call : HintCall) (f : NamedHint)
    (inputs : List (Fp p)) : Keeps P (callHint h call f inputs) := by
  refine keeps_bind (keeps_emit hP _) fun _ => ?_
  split
  · exact keeps_throw _
  · exact keeps_forM fun wx _ => keeps_assign hP wx.1 (Fp.ofNat wx.2)

/-- A hint and the hints that it produces on the way, by the number of hints that are left. -/
theorem keeps_resolve (hP : Run.Stable c P) (table : HintTable) (pending : List Nat) (h : Nat) :
    Keeps P (c.resolve table pending h) := by
  induction hn : pending.length using Nat.strong_induction_on generalizing pending h with
  | _ n ih =>
    rw [resolve]
    split
    · exact keeps_throw _
    · next call _ =>
      split
      · next hmem =>
        refine keeps_bind keeps_wires fun s => ?_
        split
        · exact keeps_pure _
        · split
          · exact keeps_throw _
          · have hshorter : (pending.erase h).length < n := hn ▸ length_erase_lt_of_mem hmem
            refine keeps_bind (keeps_mapM fun e _ => ?_) fun inputs =>
              keeps_callHint hP h call _ inputs
            exact triple_readInput (fun _ _ _ h => h) (fun _ _ _ _ _ h _ => h)
              fun _ _ g _ _ _ => ih _ hshorter _ g rfl
      · exact keeps_throw _

/-! ### Constraints -/

theorem keeps_solveRank1 (hP : Run.Stable c P) {k : Nat} {r : Rank1}
    (hk : c.constraints[k]? = some (.rank1 r)) : Keeps P (c.solveRank1 k r) := by
  refine triple_wires fun s => ?_
  rcases hsolve : r.solve c.pool s k with e | ⟨t, x⟩
  · exact triple_throw fun _ h => h.1
  · exact triple_bind (triple_setWires hP (Rank1.grows_of_solve hsolve)) fun _ =>
      keeps_record hP hk hsolve c.family

theorem keeps_solveGate (hP : Run.Stable c P) (k : Nat) (g : Gate) : Keeps P (c.solveGate k g) := by
  refine triple_wires fun s => ?_
  rcases hsolve : g.solve c.pool s k with e | t
  · exact triple_throw fun _ h => h.1
  · exact keeps_setWires hP (Gate.grows_of_solve hsolve)

/-- An answer gives a value to one wire at most. -/
theorem grows_of_answer (s : Assignment p) (q : Query p) : s.Grows (q.answer c.pool s).2 := by
  cases q with
  | assign w x =>
    simp only [Query.answer]
    rcases hset : s.set w x with f | t
    · exact Or.inl rfl
    · exact Or.inr ⟨w, x, hset⟩
  | _ => exact Or.inl rfl

/-- A routine at work, by induction on what it asks. -/
theorem keeps_converse (hP : Run.Stable c P) (k : Nat) (routine : Routine p) :
    Keeps P (c.converse k routine) := by
  induction routine with
  | done verdict => exact keeps_pure verdict
  | ask q next ih =>
    refine triple_wires fun s => ?_
    exact triple_bind (keeps_setWires hP (grows_of_answer s q)) fun _ =>
      keeps_bind (keeps_emit hP _) fun _ => ih _

theorem keeps_solveCustom (hP : Run.Stable c P) (k : Nat) (body : Nat → Routine p) :
    Keeps P (c.solveCustom k body) := by
  refine keeps_bind (keeps_converse hP k (body k)) fun verdict => ?_
  split
  · exact keeps_pure _
  · exact keeps_throw _
  · exact keeps_throw _
  · exact keeps_bind keeps_wires fun s => keeps_throw _

/-! ### Instructions -/

/-- One instruction keeps what is stable. -/
theorem keeps_process (hP : Run.Stable c P) (o : Options) (i : Nat) : Keeps P (c.process o i) := by
  unfold process
  split
  · split
    · next constraint hk =>
      cases constraint with
      | rank1 r => exact keeps_solveRank1 hP hk
      | gate g => exact keeps_solveGate hP _ g
      | custom body => exact keeps_solveCustom hP _ body
    · exact keeps_throw _
  · exact keeps_resolve hP o.hints _ _
  · exact keeps_throw _

/-- A sequence of instructions keeps what is stable. -/
theorem keeps_processAll (hP : Run.Stable c P) (o : Options) (is : List Nat) :
    Keeps P (c.processAll o is) :=
  keeps_forM fun i _ => keeps_process hP o i

end Circuit

/-! ### What a run never takes back -/

namespace Run

/-- A state that a run can still go on to: wires keep their values, and recorded sides stay. -/
structure Below (run t : Run p) : Prop where
  /-- Wires that have a value keep it. -/
  extends_wires : run.wires.Extends t.wires
  /-- The number of constraints stays. -/
  size_sides : t.sides.size = run.sides.size
  /-- Sides that are recorded stay. -/
  keeps_sides : ∀ (k : Nat) (x : Sides p),
    run.sides[k]? = some (some x) → t.sides[k]? = some (some x)

omit [Modulus p] in
theorem Below.refl (run : Run p) : run.Below run :=
  ⟨Assignment.Extends.refl _, rfl, fun _ _ h => h⟩

omit [Modulus p] in
theorem Below.trans {run s t : Run p} (h : run.Below s) (h' : s.Below t) : run.Below t :=
  ⟨h.extends_wires.trans h'.extends_wires, h'.size_sides.trans h.size_sides,
    fun k x hk => h'.keeps_sides k x (h.keeps_sides k x hk)⟩

/-- Being above a given state is stable. -/
theorem stable_below (c : Circuit p) (run₀ : Run p) : Run.Stable c run₀.Below where
  bookkeeping _ _ _ h := ⟨h.extends_wires, h.size_sides, h.keeps_sides⟩
  write _ _ _ _ h hset :=
    ⟨h.extends_wires.trans (Assignment.extends_of_set hset), h.size_sides, h.keeps_sides⟩
  record run k r s x h _ _ hk := by
    refine ⟨h.extends_wires, Array.size_setIfInBounds.trans h.size_sides, fun j y hj => ?_⟩
    -- the place that is filled was empty, so it is another one
    have hne : k ≠ j := by
      rintro rfl
      rw [h.keeps_sides k y hj] at hk
      cases hk
    show (run.sides.setIfInBounds k (some x))[j]? = some (some y)
    rw [Array.getElem?_setIfInBounds_ne hne]
    exact h.keeps_sides j y hj

omit [Modulus p] in
/-- Sides that are found after a record are the recorded ones, or they were there before. -/
theorem eq_or_of_record {sides : Array (Option (Sides p))} {k j : Nat} {x y : Sides p}
    (h : (sides.setIfInBounds k (some x))[j]? = some (some y)) :
    (k = j ∧ x = y) ∨ sides[j]? = some (some y) := by
  by_cases hkj : k = j
  · subst hkj
    rw [Array.getElem?_setIfInBounds_self] at h
    split at h
    · exact Or.inl ⟨rfl, Option.some.inj (Option.some.inj h)⟩
    · cases h
  · rw [Array.getElem?_setIfInBounds_ne hkj] at h
    exact Or.inr h

/-- The sides that are recorded are balanced. -/
def Balanced (run : Run p) : Prop :=
  ∀ (k : Nat) (x : Sides p), run.sides[k]? = some (some x) → x.balanced = true

theorem stable_balanced [Fact p.Prime] (c : Circuit p) : Run.Stable c Balanced where
  bookkeeping _ _ _ h := h
  write _ _ _ _ h _ := h
  record run k r s x h _ hsolve _ := by
    intro j y hj
    rcases eq_or_of_record hj with ⟨-, rfl⟩ | hbefore
    · exact Rank1.balanced_of_solve hsolve
    · exact h j y hbefore

/-- What every write keeps of the wires is stable. -/
theorem stable_wires {P : Assignment p → Prop} (hP : Assignment.Persistent P) (c : Circuit p) :
    Run.Stable c fun run => P run.wires where
  bookkeeping _ _ _ h := h
  write run w x s h hset := hP run.wires w x s h hset
  record _ _ _ _ _ h _ _ _ := h

end Run

namespace Circuit

variable {o : Options} {run t : Run p}

theorem below_of_process {i : Nat} (h : c.process o i run = .ok () t) : run.Below t :=
  (keeps_process (Run.stable_below c run) o i).of_ok (Run.Below.refl run) h

theorem below_of_processAll {is : List Nat} (h : c.processAll o is run = .ok () t) :
    run.Below t :=
  (keeps_processAll (Run.stable_below c run) o is).of_ok (Run.Below.refl run) h

end Circuit

end WireSolve
