/-
WireSolve/Proofs/Blame.lean

Which failures depend on the witness.

A circuit that is solved for one witness is well formed, and one would have a
solve of it for another witness fail only because of the values.  That is so as
long as the two solves give values to the same wires.  An instruction that leaves
a wire free in one of them and not in the other parts them (`Circuit.Parts`): a
rank-1 constraint whose open term stands beside a factor that is zero for one
witness only, a gate whose scale is, or a program that goes by the values.  What
reads the wire later then takes the circuit to be at fault.

Main result: with one witness that is solved, another one leads to a failure that
is put on the circuit exactly when some instruction has parted the two solves and
what follows fails in this way, for workers that take the same turns in both
(`Circuit.solve_eq_error_iff_parts`).
-/
import WireSolve.Proofs.Shape
import WireSolve.Proofs.Soundness

namespace WireSolve

variable {p : Nat}

/-- Whether a failure is one that the witness is to blame for; the others are put on the circuit
and on the options. -/
def Failure.blamesWitness : Failure → Bool
  | .unsatisfied _ => true
  | .hintFailed _ _ => true
  | .incomplete _ _ => true
  | .custom _ => true
  | _ => false

namespace Run

/-- States with values on the same wires, and with sides recorded of the same constraints. -/
structure SameShape (run run' : Run p) : Prop where
  wires : run.wires.SameShape run'.wires
  sides : run.sides.map Option.isSome = run'.sides.map Option.isSome

/-- What a second run may make of a step that the first gets through to a state: it reaches the
same shape, or the witness is to blame. -/
def Mirrored (t : Run p) : EStateM.Result Failure (Run p) Unit → Prop
  | .ok _ t' => t.SameShape t'
  | .error e _ => e.blamesWitness

end Run

/-! ### Hints -/

/-- Failures of which the second, if there is one, is put on the witness whenever the first run
goes through. -/
def PutOnWitness (e e' : Option Failure) : Prop :=
  e = none → ∀ f, e' = some f → f.blamesWitness

namespace Circuit

open Outcome Solve

variable [Modulus p] {c : Circuit p} {o : Options} {run run' t : Run p}

/-- Hints go by which wires have values, but for the functions, which may refuse the values. -/
theorem congruence_sameShape (c : Circuit p) :
    Run.Congruence c Run.SameShape Anyhow PutOnWitness where
  endings := ⟨fun _ _ _ he => (by cases he), fun e _ h _ => h rfl⟩
  same _ he := by cases he
  zero := trivial
  bookkeeping _ _ _ _ h := ⟨h.wires, h.sides⟩
  solved w h := h.wires.isSolved_eq w
  read u acc acc' h _ := (Term.addTo_shape h.wires u acc acc').cases
  write w x y h _ := by
    rcases (h.wires.set w x y).cases with ⟨s, s', hs, hs', hshape⟩ | hboth
    · exact Or.inl ⟨s, s', hs, hs', hshape, h.sides⟩
    · exact Or.inr hboth
  call id f n xs ys _ := by
    rcases f.call p (xs.map Fp.val) (Vector.replicate n 0) with e | outputs <;>
      rcases f.call p (ys.map Fp.val) (Vector.replicate n 0) with e' | outputs'
    -- a function that refuses the inputs of the second run is a failure for the witness
    · rintro ⟨⟩
    · rintro ⟨⟩
    · rintro - f ⟨⟩
      rfl
    · exact List.forall₂_iff_get.2 ⟨by simp, fun _ _ _ => trivial⟩

/-- A hint that one run gets through leaves the same shape in the other, or a function refuses its
inputs there. -/
theorem resolve_shape (h : run.SameShape run') {table : HintTable} {pending : List Nat} {g : Nat}
    (hok : c.resolve table pending g run = .ok () t) :
    t.Mirrored (c.resolve table pending g run') := by
  have hcouples := couples_resolve (congruence_sameShape c) table pending g run run' h
  rw [hok] at hcouples
  rcases hrun' : c.resolve table pending g run' with ⟨_, t'⟩ | ⟨e, t'⟩
  · rw [hrun'] at hcouples
    exact hcouples
  · rw [hrun'] at hcouples
    exact hcouples rfl e rfl

/-! ### Constraints -/

omit [Modulus p] in
/-- The sides of a constraint are recorded in both runs or in neither. -/
theorem record_shape (h : run.SameShape run') {family : Family} {k : Nat} {x y : Sides p}
    (hok : record family k x run = .ok () t) : t.Mirrored (record family k y run') := by
  cases family with
  | gates =>
    cases hok
    exact h
  | rank1 =>
    have hslot : (run.sides[k]?).map Option.isSome = (run'.sides[k]?).map Option.isSome := by
      rw [← Array.getElem?_map, ← Array.getElem?_map, h.sides]
    rw [record_apply] at hok ⊢
    rcases hk : run.sides[k]? with - | - | x₀
    · rw [hk] at hok
      cases hok
    · rw [hk] at hok hslot
      cases hok
      -- there is a place without sides in the second run as well
      rcases hk' : run'.sides[k]? with - | - | x₀
      · rw [hk'] at hslot
        cases hslot
      · refine ⟨h.wires, ?_⟩
        show Array.map _ _ = Array.map _ _
        rw [Array.map_setIfInBounds, Array.map_setIfInBounds, h.sides]
        rfl
      · rw [hk'] at hslot
        cases hslot
    · rw [hk] at hok
      cases hok

/-- What parts two runs at an instruction, from states of the same shape: whether a term is left
out of a rank-1 constraint, whether a gate leaves its wire free, and what a program does. -/
def Parts (c : Circuit p) (i : Nat) (run run' : Run p) : Prop :=
  match c.instructions[i]? with
  | some (.constraint k) =>
    match c.constraints[k]? with
    | some (.rank1 r) =>
      (r.leftOut c.pool run.wires k).isSome ≠ (r.leftOut c.pool run'.wires k).isSome
    | some (.gate g) => ¬ (g.LeavesFree c.pool run.wires ↔ g.LeavesFree c.pool run'.wires)
    | some (.custom body) =>
      ∃ t, c.solveCustom k body run = .ok () t ∧ ¬ t.Mirrored (c.solveCustom k body run')
    | none => False
  | _ => False

theorem solveRank1_shape (h : run.SameShape run') {k : Nat} {r : Rank1}
    (hleft : (r.leftOut c.pool run.wires k).isSome = (r.leftOut c.pool run'.wires k).isSome)
    (hok : c.solveRank1 k r run = .ok () t) : t.Mirrored (c.solveRank1 k r run') := by
  rw [solveRank1_apply] at hok ⊢
  split at hok
  · cases hok
  · next s x hsolve =>
    rcases Rank1.solve_shape h.wires hleft hsolve with ⟨s', y, hsolve', hshape⟩ | ⟨m, hsolve'⟩
    · have hwires : Run.SameShape { run with wires := s } { run' with wires := s' } :=
        ⟨hshape, h.sides⟩
      rw [hsolve']
      exact record_shape hwires hok
    · rw [hsolve']
      rfl

theorem solveGate_shape (h : run.SameShape run') {k : Nat} {g : Gate}
    (hfree : g.LeavesFree c.pool run.wires ↔ g.LeavesFree c.pool run'.wires)
    (hok : c.solveGate k g run = .ok () t) : t.Mirrored (c.solveGate k g run') := by
  rw [solveGate_apply] at hok ⊢
  split at hok
  · cases hok
  · next s hsolve =>
    cases hok
    rcases Gate.solve_shape h.wires hfree hsolve with ⟨s', hsolve', hshape⟩ | ⟨m, hsolve'⟩
    · rw [hsolve']
      exact ⟨hshape, h.sides⟩
    · rw [hsolve']
      rfl

/-! ### Instructions -/

/-- An instruction that does not part two runs. -/
theorem process_shape (h : run.SameShape run') {i : Nat} (hparts : ¬ c.Parts i run run')
    (hok : c.process o i run = .ok () t) : t.Mirrored (c.process o i run') := by
  unfold Parts at hparts
  unfold process at hok ⊢
  rcases hins : c.instructions[i]? with - | k | g
  · rw [hins] at hok
    cases hok
  · rw [hins] at hparts hok
    dsimp only at hparts hok ⊢
    rcases hk : c.constraints[k]? with - | r | g | body
    · rw [hk] at hok
      cases hok
    all_goals rw [hk] at hparts hok
    · exact solveRank1_shape h (not_not.1 hparts) hok
    · exact solveGate_shape h (not_not.1 hparts) hok
    · exact not_not.1 (not_and.1 (not_exists.1 hparts t) hok)
  · rw [hins] at hok
    exact resolve_shape h hok

/-- A sequence of instructions that one run gets through: the other goes the same way, up to the
first instruction that parts them. -/
theorem processAll_shape (h : run.SameShape run') {is : List Nat}
    (hok : c.processAll o is run = .ok () t) :
    t.Mirrored (c.processAll o is run') ∨
      ∃ before j after s s', is = before ++ j :: after ∧ c.processAll o before run = .ok () s ∧
        c.processAll o before run' = .ok () s' ∧ s.SameShape s' ∧ c.Parts j s s' := by
  induction is generalizing run run' with
  | nil =>
    cases hok
    exact Or.inl h
  | cons i rest ih =>
    by_cases hparts : c.Parts i run run'
    · -- this is the instruction; what follows it is not looked at
      exact Or.inr ⟨[], i, rest, run, run', rfl, rfl, rfl, h, hparts⟩
    · obtain ⟨s, hs, hrest⟩ := processAll_cons_eq_ok_iff.1 hok
      have hmirrored := process_shape h hparts hs
      change t.Mirrored ((c.process o i >>= fun _ => c.processAll o rest) run') ∨ _
      rcases hi : c.process o i run' with ⟨_, s'⟩ | ⟨e, s'⟩
      · rw [hi] at hmirrored
        rw [bind_of_ok hi]
        rcases ih hmirrored hrest with hrest' | ⟨before, j, after, u, u', rfl, hu, hu', hpart⟩
        · exact Or.inl hrest'
        · exact Or.inr ⟨i :: before, j, after, u, u', rfl,
            processAll_cons_eq_ok_iff.2 ⟨s, hs, hu⟩, processAll_cons_eq_ok_iff.2 ⟨s', hi, hu'⟩,
            hpart⟩
      · -- the second run has ended, and the witness is to blame
        rw [hi] at hmirrored
        rw [bind_of_error hi]
        exact Or.inl hmirrored

/-! ### The start -/

variable {witness witness' : List (Fp p)}

omit [Modulus p] in
/-- Consecutive wires are given values in both assignments, or they are refused in both. -/
theorem seedFrom_shape {s s' : Assignment p} (h : s.SameShape s') {position : Nat}
    {xs ys : List (Fp p)} (hlength : xs.length = ys.length) :
    Matches Assignment.SameShape (seedFrom s position xs) (seedFrom s' position ys) := by
  induction xs generalizing s s' position ys with
  | nil =>
    obtain rfl := List.eq_nil_of_length_eq_zero hlength.symm
    exact h
  | cons x rest ih =>
    obtain ⟨y, ys, rfl⟩ := List.exists_cons_of_length_eq_add_one hlength.symm
    exact matches_bind (h.set _ x y) fun _ _ hset => ih hset (Nat.succ.inj hlength)

theorem seed_shape (c : Circuit p) (hlength : witness.length = witness'.length) :
    Matches Assignment.SameShape (c.seed witness) (c.seed witness') := by
  unfold seed
  cases c.family with
  | gates => exact seedFrom_shape rfl hlength
  | rank1 =>
    have hempty : (Assignment.empty c.wireCount : Assignment p).SameShape
      (Assignment.empty c.wireCount) := rfl
    exact matches_bind (hempty.set _ 1 1) fun _ _ hset => seedFrom_shape hset hlength

/-- The setup goes through for one witness as it does for another of the same length. -/
theorem setup_shape {s : Assignment p} (hs : c.setup witness o = .ok s)
    (hlength : witness'.length = c.witnessSize) :
    ∃ s', c.setup witness' o = .ok s' ∧ s.SameShape s' := by
  obtain ⟨hlength', hmissing, hcount, hseed, hhints⟩ := setup_eq_ok_iff.1 hs
  obtain ⟨s', hseed', hshape⟩ := (seed_shape c (hlength'.trans hlength.symm)).of_ok hseed
  exact ⟨s', setup_eq_ok_iff.2 ⟨hlength, hmissing, hcount, hseed', hhints⟩, hshape⟩

/-! ### The whole solve -/

/-- From a state on the way, a failure that the witness is not to blame for comes from the
instructions that are left. -/
theorem Reaches.outcomeAlong_eq_error_iff {before : List Nat} {e : Failure}
    (hrun : c.Reaches witness o before run) (after : List Nat) (he : e.blamesWitness = false) :
    c.outcomeAlong witness o (before ++ after) = .error e ↔
      ∃ t, c.processAll o after run = .error e t := by
  rw [hrun.outcomeAlong_eq]
  rcases hafter : c.processAll o after run with ⟨_, t⟩ | ⟨e', t⟩
  · -- all instructions go through, and only the end is left to fail
    refine iff_of_false (fun h => ?_) (by simp)
    have hend : c.Reaches witness o (before ++ after) t := by
      obtain ⟨s, hs, hbefore⟩ := hrun
      exact ⟨s, hs, processAll_append_eq_ok_iff.2 ⟨run, hbefore, hafter⟩⟩
    rw [conclude_eq_error hend.counted h] at he
    cases he
  · simp

/-- With one witness that is solved, another one, for which the workers take the same turns, leads
to a failure that is not put on it exactly when some instruction parts the two solves, up to which
both have given values to the same wires, and what follows from there on fails in this way. -/
theorem solve_eq_error_iff_parts {turns : Nat → List Nat} {solution : Solution p} {e : Failure}
    (hsolution : c.outcomeInTurns witness o turns = .ok solution)
    (hlength : witness'.length = c.witnessSize) (he : e.blamesWitness = false) :
    c.outcomeInTurns witness' o turns = .error e ↔
      ∃ before j after run run' t, c.orderInTurns o.workers turns = before ++ j :: after ∧
        c.Reaches witness o before run ∧ c.Reaches witness' o before run' ∧
        run.SameShape run' ∧ c.Parts j run run' ∧
        c.processAll o (j :: after) run' = .error e t := by
  rw [outcomeInTurns_eq]
  constructor
  · intro h
    obtain ⟨final, ⟨s, hs, hprocess⟩, -⟩ := exists_reaches_of_outcomeInTurns hsolution
    obtain ⟨s', hs', hshape⟩ := setup_shape hs hlength
    have hstart : (c.initialRun o s #[]).SameShape (c.initialRun o s' #[]) := ⟨hshape, rfl⟩
    have hnothing : c.Reaches witness' o [] (c.initialRun o s' #[]) := ⟨s', hs', rfl⟩
    rcases processAll_shape hstart hprocess with hmirrored |
      ⟨before, j, after, run, run', hsplit, hbefore, hbefore', hboth, hparts⟩
    · -- nothing has parted the two, and the failure would be put on the witness
      obtain ⟨t, ht⟩ := (hnothing.outcomeAlong_eq_error_iff (c.orderInTurns o.workers turns) he).1 h
      rw [ht] at hmirrored
      exact absurd hmirrored (by simp [Run.Mirrored, he])
    · have hrun' : c.Reaches witness' o before run' := ⟨s', hs', hbefore'⟩
      rw [hsplit] at h
      obtain ⟨t, ht⟩ := (hrun'.outcomeAlong_eq_error_iff _ he).1 h
      exact ⟨before, j, after, run, run', t, hsplit, ⟨s, hs, hbefore⟩, hrun', hboth, hparts, ht⟩
  · rintro ⟨before, j, after, run, run', t, hsplit, -, hrun', -, -, ht⟩
    rw [hsplit]
    exact (hrun'.outcomeAlong_eq_error_iff _ he).2 ⟨t, ht⟩

/-- A circuit that determines a wire by `w * x = x`, and then another one by `w * 1 = v`. -/
def determinedUnlessZero : Circuit 17 where
  family := .rank1
  publicWires := 1
  secretWires := 1
  internalWires := 2
  constraints := #[.rank1 ⟨[⟨1, 2⟩], [⟨1, 1⟩], [⟨1, 1⟩]⟩, .rank1 ⟨[⟨1, 2⟩], [⟨1, 0⟩], [⟨1, 3⟩]⟩]
  instructions := #[.constraint 0, .constraint 1]
  levels := [[0], [1]]

/-- It is solved for `x = 1`; for `x = 0` the first constraint leaves `w` free, and the second is
put down as malformed. -/
theorem determinedUnlessZero_outcomes :
    (determinedUnlessZero.solve [1] ⟨1, .empty, false⟩).outcome
        = .ok ⟨#[1, 1, 1, 1], some #[⟨1, 1, 1⟩, ⟨1, 1, 1⟩]⟩ ∧
      (determinedUnlessZero.solve [0] ⟨1, .empty, false⟩).outcome
        = .error (.fault (.manyUnknowns 1)) := by
  decide +kernel

/-- What parts the two solves. -/
theorem determinedUnlessZero_parts :
    ∃ before j after run run' t, [0, 1] = before ++ j :: after ∧
      determinedUnlessZero.Reaches [1] ⟨1, .empty, false⟩ before run ∧
      determinedUnlessZero.Reaches [0] ⟨1, .empty, false⟩ before run' ∧
      run.SameShape run' ∧ determinedUnlessZero.Parts j run run' ∧
      determinedUnlessZero.processAll ⟨1, .empty, false⟩ (j :: after) run'
        = .error (.fault (.manyUnknowns 1)) t := by
  have hsolution : (determinedUnlessZero.solve [1] ⟨1, .empty, false⟩).outcome
      = .ok ⟨#[1, 1, 1, 1], some #[⟨1, 1, 1⟩, ⟨1, 1, 1⟩]⟩ := by
    decide +kernel
  rw [← outcomeInTurns_chunkByChunk] at hsolution
  have hfails : (determinedUnlessZero.solve [0] ⟨1, .empty, false⟩).outcome
      = .error (.fault (.manyUnknowns 1)) := by
    decide +kernel
  rw [← outcomeInTurns_chunkByChunk] at hfails
  have hparts := (solve_eq_error_iff_parts hsolution rfl rfl).1 hfails
  rwa [orderInTurns_chunkByChunk] at hparts

end Circuit

end WireSolve
