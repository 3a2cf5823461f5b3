/-
WireSolve/Proofs/Solve/Sequential.lean

A solve is one pass over the instructions of all levels.

No step looks at the journal or at the worker, so two runs that agree on the
wires and on the recorded sides go on alike (`Circuit.alike_process`).  Hence it
makes no difference which chunk an instruction is in: the chunks of a level, one
after the other, are processed as the level is (`Circuit.alike_processChunks`), and
the levels as one long sequence (`Circuit.alike_processLevels`).  What is left is a
solve along a list of instructions (`Circuit.outcomeAlong`), and it has the outcome of
the solve, failures included (`Circuit.outcome_solve`).
-/
import WireSolve.Proofs.Solve.Chunks
import WireSolve.Proofs.Solve.Couples
import WireSolve.Solve.Solution

namespace WireSolve

variable {p : Nat}

/-- States with the same wires and the same recorded sides. -/
structure Run.SameData (run run' : Run p) : Prop where
  wires_eq : run.wires = run'.wires
  sides_eq : run.sides = run'.sides

theorem Run.SameData.refl (run : Run p) : run.SameData run :=
  ⟨rfl, rfl⟩

theorem Run.SameData.symm {run t : Run p} (h : run.SameData t) : t.SameData run :=
  ⟨h.wires_eq.symm, h.sides_eq.symm⟩

theorem Run.SameData.trans {run s t : Run p} (h : run.SameData s) (h' : s.SameData t) :
    run.SameData t :=
  ⟨h.wires_eq.trans h'.wires_eq, h.sides_eq.trans h'.sides_eq⟩

theorem endings_eq : Endings Eq where
  left _ _ h := by cases h
  right _ _ h := by cases h

/-! ### Steps that cannot tell such states apart -/

namespace Solve

variable {α β : Type} {m n : Solve p α}

/-- From states with the same data, two steps fail in the same way, or they return the same and
leave the same data. -/
def Alike (m n : Solve p α) : Prop :=
  Couples Run.SameData m n (fun a b run run' => a = b ∧ run.SameData run') Eq

/-- A step that goes through, in a state with the same data. -/
theorem ok_of_alike {a : α} {run run' t : Run p} (h : Alike m n) (hrun : run.SameData run')
    (hm : m run = .ok a t) : ∃ t', n run' = .ok a t' ∧ t.SameData t' := by
  have halike := h run run' hrun
  rcases hn : n run' with ⟨b, t'⟩ | ⟨e, t'⟩ <;> rw [hm, hn] at halike
  · exact ⟨t', by rw [halike.1], halike.2⟩
  · cases halike

/-- A step goes through where one does that it is alike to. -/
theorem ok_of_alike_right {a : α} {run t : Run p} (h : Alike m n) (hn : n run = .ok a t) :
    ∃ t', m run = .ok a t' ∧ t'.SameData t := by
  have halike := h run run (Run.SameData.refl run)
  rcases hm : m run with ⟨b, t'⟩ | ⟨e, t'⟩ <;> rw [hm, hn] at halike
  · exact ⟨t', by rw [halike.1], halike.2⟩
  · cases halike

theorem alike_pure (a : α) : Alike (pure a : Solve p α) (pure a) :=
  couples_pure fun _ _ h => ⟨rfl, h⟩

theorem alike_throw (e : Failure) : Alike (throw e : Solve p α) (throw e) :=
  couples_throw rfl

theorem alike_bind {f g : α → Solve p β} (hmn : Alike m n) (hfg : ∀ a, Alike (f a) (g a)) :
    Alike (m >>= f) (n >>= g) := by
  refine couples_bind endings_eq hmn fun a b => ?_
  rintro run run' ⟨rfl, hrun⟩
  exact hfg a run run' hrun

theorem alike_wires {f g : Assignment p → Solve p α} (h : ∀ s, Alike (f s) (g s)) :
    Alike (wires >>= f) (wires >>= g) := by
  refine couples_wires fun run run' hrun => ?_
  rw [hrun.wires_eq]
  exact (h _).strengthen fun _ _ ht => ht.1

theorem alike_emit (e e' : Event p) : Alike (emit e) (emit e') :=
  fun _ _ h => ⟨rfl, h.wires_eq, h.sides_eq⟩

/-- An event more or less makes no difference. -/
theorem alike_emit_bind (e : Event p) (h : Alike m n) : Alike (emit e >>= fun _ => m) n := by
  intro run run' hrun
  rw [bind_of_ok (m := emit e) rfl]
  exact h _ run' ⟨hrun.wires_eq, hrun.sides_eq⟩

theorem alike_setWires (s : Assignment p) : Alike (setWires s) (setWires s) :=
  fun _ _ h => ⟨rfl, rfl, h.sides_eq⟩

theorem alike_record (family : Family) (k : Nat) (x : Sides p) :
    Alike (record family k x) (record family k x) := by
  cases family with
  | gates => exact alike_pure ()
  | rank1 =>
    intro run run' h
    rw [record_apply, record_apply, ← h.sides_eq]
    rcases run.sides[k]? with - | - | y
    · rfl
    · exact ⟨rfl, h.wires_eq, rfl⟩
    · rfl

end Solve

namespace Circuit

open Solve

variable [Modulus p] {c : Circuit p} {o : Options}

/-! ### Steps -/

/-- Hints cannot tell states with the same data apart. -/
theorem congruence_sameData (c : Circuit p) : Run.Congruence c Run.SameData Eq Eq where
  endings := endings_eq
  same _ := rfl
  zero := rfl
  bookkeeping _ _ _ _ h := ⟨h.wires_eq, h.sides_eq⟩
  solved w h := congrArg (·.isSolved w) h.wires_eq
  read {run run'} t acc acc' h hacc := by
    rw [← h.wires_eq, ← hacc]
    rcases t.addTo c.pool run.wires acc with f | x
    · exact Or.inr ⟨f, rfl, rfl⟩
    · exact Or.inl ⟨x, x, rfl, rfl, rfl⟩
  write {run run'} w x y h hxy := by
    rw [← h.wires_eq, ← hxy]
    rcases run.wires.set w x with f | s
    · exact Or.inr ⟨f, rfl, rfl⟩
    · exact Or.inl ⟨s, s, rfl, rfl, rfl, h.sides_eq⟩
  call id f n xs ys hxys := by
    rw [List.forall₂_eq_eq_eq] at hxys
    rw [← hxys]
    rcases f.call p (xs.map Fp.val) (Vector.replicate n 0) with e | outputs
    · rfl
    · exact List.forall₂_same.2 fun _ _ => rfl

theorem alike_resolve (table : HintTable) (pending : List Nat) (h : Nat) :
    Alike (c.resolve table pending h) (c.resolve table pending h) := by
  intro run run' hrun
  have hcouples := couples_resolve (congruence_sameData c) table pending h run run' hrun
  rcases hres : c.resolve table pending h run with ⟨a, t⟩ | ⟨e, t⟩ <;>
    rcases hres' : c.resolve table pending h run' with ⟨b, t'⟩ | ⟨e', t'⟩ <;>
    rw [hres, hres'] at hcouples
  · exact ⟨rfl, hcouples⟩
  · exact hcouples
  · exact hcouples
  · exact hcouples

theorem alike_converse (k : Nat) (routine : Routine p) :
    Alike (c.converse k routine) (c.converse k routine) := by
  induction routine with
  | done verdict => exact alike_pure verdict
  | ask q next ih =>
    refine alike_wires fun s => ?_
    exact alike_bind (alike_setWires _) fun _ => alike_bind (alike_emit _ _) fun _ => ih _

theorem alike_solveConstraint (k : Nat) (constraint : Constraint p) :
    Alike (c.solveConstraint k constraint) (c.solveConstraint k constraint) := by
  cases constraint with
  | rank1 r =>
    refine alike_wires fun s => ?_
    rcases r.solve c.pool s k with e | ⟨t, x⟩
    · exact alike_throw _
    · exact alike_bind (alike_setWires t) fun _ => alike_record _ k x
  | gate g =>
    refine alike_wires fun s => ?_
    rcases g.solve c.pool s k with e | t
    · exact alike_throw _
    · exact alike_setWires t
  | custom body =>
    refine alike_bind (alike_converse k (body k)) fun verdict => ?_
    split
    · exact alike_pure _
    · exact alike_throw _
    · exact alike_throw _
    · exact alike_wires fun s => alike_throw _

/-- No instruction can tell states with the same data apart. -/
theorem alike_process (o : Options) (i : Nat) : Alike (c.process o i) (c.process o i) := by
  unfold process
  split
  · split
    · exact alike_solveConstraint _ _
    · exact alike_throw _
  · exact alike_resolve _ _ _
  · exact alike_throw _

theorem alike_processAll (o : Options) (is : List Nat) :
    Alike (c.processAll o is) (c.processAll o is) := by
  induction is with
  | nil => exact alike_pure _
  | cons i rest ih => exact alike_bind (alike_process o i) fun _ => ih

/-! ### Sequences of instructions -/

theorem processAll_append (is js : List Nat) :
    c.processAll o (is ++ js) = c.processAll o is >>= fun _ => c.processAll o js :=
  List.forM_append

theorem processAll_append_eq_ok_iff {is js : List Nat} {run t : Run p} :
    c.processAll o (is ++ js) run = .ok () t ↔
      ∃ s, c.processAll o is run = .ok () s ∧ c.processAll o js s = .ok () t := by
  rw [processAll_append, bind_eq_ok_iff]
  exact ⟨fun ⟨_, s, hs, ht⟩ => ⟨s, hs, ht⟩, fun ⟨s, hs, ht⟩ => ⟨(), s, hs, ht⟩⟩

theorem processAll_cons_eq_ok_iff {i : Nat} {is : List Nat} {run t : Run p} :
    c.processAll o (i :: is) run = .ok () t ↔
      ∃ s, c.process o i run = .ok () s ∧ c.processAll o is s = .ok () t := by
  change (c.process o i >>= fun _ => c.processAll o is) run = .ok () t ↔ _
  rw [bind_eq_ok_iff]
  exact ⟨fun ⟨_, s, hs, ht⟩ => ⟨s, hs, ht⟩, fun ⟨s, hs, ht⟩ => ⟨(), s, hs, ht⟩⟩

/-- Chunks are processed as if they were one sequence, up to the first failure. -/
theorem alike_processChunks (i : Nat) (parts : List (List Nat)) :
    Alike (c.processChunks o i parts) (c.processAll o parts.flatten) := by
  induction parts generalizing i with
  | nil => exact fun run run' h => ⟨rfl, h.wires_eq, h.sides_eq⟩
  | cons chunk rest ih =>
    intro run run' h
    have hchunk := alike_processAll (c := c) o chunk { run with worker := some i } run'
      ⟨h.wires_eq, h.sides_eq⟩
    rw [List.flatten_cons, processAll_append]
    unfold processChunks
    rcases hrun : c.processAll o chunk { run with worker := some i } with ⟨a, t⟩ | ⟨e, t⟩ <;>
      rcases hrun' : c.processAll o chunk run' with ⟨b, t'⟩ | ⟨e', t'⟩ <;>
      rw [hrun, hrun'] at hchunk
    · rw [bind_of_ok hrun']
      exact ih (i + 1) t t' hchunk.2
    · cases hchunk
    · cases hchunk
    · -- the other chunks still run, but the failure is that of this one
      rw [bind_of_error hrun']
      dsimp only
      rcases c.processChunks o (i + 1) rest t with - | - <;> exact hchunk

/-- A level is processed as if it were not split. -/
theorem alike_processLevel (depth : Nat) (level : List Nat) :
    Alike (c.processLevel o depth level) (c.processAll o level) := by
  unfold processLevel
  split
  · exact alike_emit_bind _ (alike_processAll o level)
  · next parts hparts =>
    have hchunks := alike_processChunks (c := c) (o := o) 0 parts
    rw [flatten_chunks hparts] at hchunks
    exact alike_emit_bind _ hchunks

/-- Levels are processed as one sequence. -/
theorem alike_processLevels (depth : Nat) (levels : List (List Nat)) :
    Alike (c.processLevels o depth levels) (c.processAll o levels.flatten) := by
  induction levels generalizing depth with
  | nil => exact alike_pure _
  | cons level rest ih =>
    rw [List.flatten_cons, processAll_append]
    exact alike_bind (alike_processLevel depth level) fun _ => ih (depth + 1)

/-! ### The whole solve -/

/-- The outcome of a solve that goes through given instructions, one after the other. -/
def outcomeAlong (c : Circuit p) (witness : List (Fp p)) (o : Options) (is : List Nat) :
    Except Failure (Solution p) := do
  let s ← c.setup witness o
  match c.processAll o is (c.initialRun o s #[]) with
  | .ok _ run => c.conclude run
  | .error e _ => .error e

theorem conclude_eq_of_sameData {run run' : Run p} (h : run.SameData run') :
    c.conclude run = c.conclude run' := by
  unfold conclude
  rw [h.wires_eq, h.sides_eq]

/-- Levels that are alike to a sequence of instructions have its outcome. -/
theorem outcome_eq_of_alike {m : Solve p Unit} {is : List Nat} (h : Alike m (c.processAll o is))
    (s : Assignment p) (journal : Journal p) :
    (match m (c.initialRun o s journal) with
      | .ok _ run => c.conclude run
      | .error e _ => .error e)
      = match c.processAll o is (c.initialRun o s #[]) with
        | .ok _ run => c.conclude run
        | .error e _ => .error e := by
  have halike := h (c.initialRun o s journal) (c.initialRun o s #[]) ⟨rfl, rfl⟩
  rcases hrun : m (c.initialRun o s journal) with ⟨_, t⟩ | ⟨e, t⟩ <;>
    rcases hrun' : c.processAll o is (c.initialRun o s #[]) with ⟨_, t'⟩ | ⟨e', t'⟩ <;>
    rw [hrun, hrun'] at halike
  · exact conclude_eq_of_sameData halike.2
  · cases halike
  · cases halike
  · exact congrArg Except.error (Option.some.inj halike)

/-- The outcome of a solve is that of its levels, whichever of its parts fails. -/
theorem outcome_solve_eq_bind (c : Circuit p) (witness : List (Fp p)) (o : Options) :
    (c.solve witness o).outcome = c.setup witness o >>= fun s =>
      match c.processLevels o 0 c.levels (c.initialRun o s
        #[⟨none, .started c.family c.wireCount c.levels.length⟩]) with
      | .ok _ run => c.conclude run
      | .error e _ => .error e := by
  unfold solve
  rcases c.setup witness o with e | s
  · rfl
  · rw [Outcome.ok_bind]
    dsimp only
    rcases c.processLevels o 0 c.levels _ with ⟨_, t⟩ | ⟨e, t⟩
    · dsimp only
      rcases c.conclude t with e | solution <;> rfl
    · rfl

/-- Levels and chunks make no difference to what a solve returns or why it fails. -/
theorem outcome_solve (c : Circuit p) (witness : List (Fp p)) (o : Options) :
    (c.solve witness o).outcome = c.outcomeAlong witness o c.levels.flatten := by
  rw [outcome_solve_eq_bind]
  exact bind_congr fun s => outcome_eq_of_alike (alike_processLevels 0 c.levels) s _

/-! ### Instructions on the way -/

/-- The state that a solve has reached when it has processed the instructions before some point. -/
def Reaches (c : Circuit p) (witness : List (Fp p)) (o : Options) (before : List Nat)
    (run : Run p) : Prop :=
  ∃ s, c.setup witness o = .ok s ∧ c.processAll o before (c.initialRun o s #[]) = .ok () run

variable {witness : List (Fp p)} {run : Run p}

/-- A solve along instructions succeeds exactly when it gets through all of them and every wire has
a value then. -/
theorem outcomeAlong_eq_ok_iff {is : List Nat} {solution : Solution p} :
    c.outcomeAlong witness o is = .ok solution ↔
      ∃ run, c.Reaches witness o is run ∧ c.conclude run = .ok solution := by
  rw [outcomeAlong, Outcome.bind_eq_ok_iff]
  constructor
  · rintro ⟨s, hs, h⟩
    split at h
    · next run hrun => exact ⟨run, ⟨s, hs, hrun⟩, h⟩
    · cases h
  · rintro ⟨run, ⟨s, hs, hrun⟩, h⟩
    refine ⟨s, hs, ?_⟩
    rw [hrun]
    exact h

/-- From a state on the way, a solve ends as the instructions that are left do. -/
theorem Reaches.outcomeAlong_eq {before : List Nat} (h : c.Reaches witness o before run)
    (after : List Nat) :
    c.outcomeAlong witness o (before ++ after) = match c.processAll o after run with
      | .ok _ t => c.conclude t
      | .error e _ => .error e := by
  obtain ⟨s, hs, hrun⟩ := h
  rw [outcomeAlong, hs]
  show (match c.processAll o (before ++ after) (c.initialRun o s #[]) with
    | .ok _ run => c.conclude run
    | .error e _ => .error e) = _
  rw [processAll_append, bind_of_ok hrun]

/-- There is one state that a solve has reached when it has processed given instructions. -/
theorem Reaches.unique {is : List Nat} {run' : Run p} (h : c.Reaches witness o is run)
    (h' : c.Reaches witness o is run') : run = run' := by
  obtain ⟨s, hs, hrun⟩ := h
  obtain ⟨s', hs', hrun'⟩ := h'
  obtain rfl := Except.ok.inj (hs.symm.trans hs')
  rw [hrun] at hrun'
  exact (EStateM.Result.ok.inj hrun').2

/-- A solve that has got through a sequence has got through what comes first in it. -/
theorem Reaches.of_append {is js : List Nat} (h : c.Reaches witness o (is ++ js) run) :
    ∃ s, c.Reaches witness o is s ∧ c.processAll o js s = .ok () run := by
  obtain ⟨s, hs, hrun⟩ := h
  obtain ⟨t, ht, hjs⟩ := processAll_append_eq_ok_iff.1 hrun
  exact ⟨t, ⟨s, hs, ht⟩, hjs⟩

/-- Every instruction that a solve has got through was processed in some state on the way. -/
theorem Reaches.processed {before after : List Nat} {i : Nat}
    (h : c.Reaches witness o (before ++ i :: after) run) :
    ∃ s t, c.Reaches witness o before s ∧ c.process o i s = .ok () t ∧
      c.processAll o after t = .ok () run := by
  obtain ⟨s, hs, hrest⟩ := h.of_append
  obtain ⟨t, ht, hafter⟩ := processAll_cons_eq_ok_iff.1 hrest
  exact ⟨s, t, hs, ht, hafter⟩

end Circuit

end WireSolve
