/-
WireSolve/Proofs/Solve/Nesting.lean

Hints that run other hints come to an end, and none of them is started again
while it is in progress.

`Circuit.resolve` keeps a list of the hints that are not in progress, and that is
what makes it a total function.  A plain recursion has no such list: its body is
`Circuit.attempt`, which runs the hints that it needs by whatever it is given for
that.  In a circuit that passes its check the list is superfluous:

* the plain recursion, cut off at a depth of one call for each hint, never gets
  to where it was cut off (`Circuit.iterate_attempt`);
* what a hint starts is a hint that it needs (`Circuit.Starts.needs`), so a chain
  of hints in progress goes along `Circuit.Needs`, which has no cycles.

The relation `Circuit.Starts` says exactly which calls a hint makes, and in which
states (`Circuit.attempt_apply_congr`): nothing else that it is given matters.

Main result: `Circuit.solveHint_nesting`.
-/
import WireSolve.Proofs.Solve.Producers

namespace WireSolve

/-! ### Loops that agree on the way -/

namespace Solve

variable {p : Nat} {α β : Type} {run : Run p}

/-- Two steps that do the same in a state go on in the same way. -/
theorem bind_apply_congr {m m' : Solve p α} {f : α → Solve p β} (h : m run = m' run) :
    (m >>= f) run = (m' >>= f) run := by
  rcases hm : m' run with ⟨a, s⟩ | ⟨e, s⟩
  · rw [bind_of_ok (h.trans hm), bind_of_ok hm]
  · rw [bind_of_error (h.trans hm), bind_of_error hm]

theorem foldlM_apply_congr {ι : Type} {l : List ι} {f f' : β → ι → Solve p β} {b : β}
    (h : ∀ before a after b' s, l = before ++ a :: after → before.foldlM f b run = .ok b' s →
      f b' a s = f' b' a s) :
    l.foldlM f b run = l.foldlM f' b run := by
  induction l generalizing b run with
  | nil => rfl
  | cons a rest ih =>
    rw [List.foldlM_cons, List.foldlM_cons, ← bind_apply_congr (h [] a rest b run rfl rfl)]
    rcases hstep : f b a run with ⟨b', s⟩ | ⟨e, s⟩
    · rw [bind_of_ok hstep, bind_of_ok hstep]
      refine ih fun before a' after b'' s' hl hbefore => h (a :: before) a' after b'' s' ?_ ?_
      · rw [hl, List.cons_append]
      · rw [List.foldlM_cons, bind_of_ok hstep, hbefore]
    · rw [bind_of_error hstep, bind_of_error hstep]

theorem mapM_apply_congr {ι : Type} {l : List ι} {f f' : ι → Solve p β}
    (h : ∀ before a after bs s, l = before ++ a :: after → before.mapM f run = .ok bs s →
      f a s = f' a s) :
    l.mapM f run = l.mapM f' run := by
  induction l generalizing run with
  | nil => rfl
  | cons a rest ih =>
    rw [List.mapM_cons, List.mapM_cons, ← bind_apply_congr (h [] a rest [] run rfl rfl)]
    rcases hstep : f a run with ⟨b, s⟩ | ⟨e, s⟩
    · rw [bind_of_ok hstep, bind_of_ok hstep]
      refine bind_apply_congr (ih fun before a' after bs s' hl hbefore =>
        h (a :: before) a' after (b :: bs) s' ?_ ?_)
      · rw [hl, List.cons_append]
      · rw [List.mapM_cons, bind_of_ok hstep, bind_of_ok hbefore]
        rfl
    · rw [bind_of_error hstep, bind_of_error hstep]

end Solve

namespace Circuit

open Solve

variable {p : Nat} [Modulus p] {c : Circuit p} {table : HintTable} {pending : List Nat}
  {g h : Nat} {run s t : Run p} {produce produce' : Nat → Solve p Unit}

/-! ### The plain recursion -/

/-- The body of a hint, which runs the hints that it needs by `produce`.  It does not look at what
is in progress. -/
def attempt (c : Circuit p) (table : HintTable) (produce : Nat → Solve p Unit) (h : Nat) :
    Solve p Unit :=
  match c.hints[h]? with
  | none => throw (.fault (.noInstruction h))
  | some call => do
    if 0 < call.outputs.size && (← Solve.wires).isSolved call.outputs.start then
      return
    match table.get? call.hint with
    | none => throw (.unboundHint call.hint)
    | some f =>
      let inputs ← call.inputs.mapM (c.readInput produce)
      callHint h call f inputs

/-- A hint that is not in progress runs its body. -/
theorem resolve_eq_attempt (hmem : h ∈ pending) :
    c.resolve table pending h = c.attempt table (c.resolve table (pending.erase h)) h := by
  rw [resolve, attempt]
  rcases c.hints[h]? with - | call
  · rfl
  · exact dif_pos hmem

theorem attempt_apply {call : HintCall} (hcall : c.hints[h]? = some call) (table : HintTable)
    (produce : Nat → Solve p Unit) (run : Run p) :
    c.attempt table produce h run =
      if 0 < call.outputs.size ∧ run.wires.isSolved call.outputs.start then .ok () run
      else match table.get? call.hint with
        | none => .error (.unboundHint call.hint) run
        | some f => (call.inputs.mapM (c.readInput produce) >>= callHint h call f) run := by
  rw [attempt, hcall]
  change (if (0 < call.outputs.size && run.wires.isSolved call.outputs.start) = true then pure ()
    else _ : Solve p Unit) run = _
  split
  · next hdone =>
    rw [if_pos (by simpa using hdone)]
    rfl
  · next hopen =>
    rw [if_neg (by simpa using hopen)]
    rcases table.get? call.hint with - | f <;> rfl

/-! ### What a hint starts -/

/-- Hint number `h`, run from `run`, gets to a term whose wire has no value, and starts hint number
`g` for it, in the state `s`: it is not done, its function is bound, and everything that is read
before that term has gone through. -/
inductive Starts (c : Circuit p) (table : HintTable) (produce : Nat → Solve p Unit) (h : Nat)
    (run : Run p) (g : Nat) (s : Run p) : Prop
  | intro {call : HintCall} {f : NamedHint} {inputs inputs' : List LinComb}
      {terms terms' : LinComb} {t : Term} {xs : List (Fp p)} {s₁ : Run p} {acc : Fp p}
      (hint : c.hints[h]? = some call)
      (open_outputs : ¬ (0 < call.outputs.size ∧ run.wires.isSolved call.outputs.start))
      (bound : table.get? call.hint = some f)
      (input : call.inputs = inputs ++ (terms ++ t :: terms') :: inputs')
      (inputs_read : inputs.mapM (c.readInput produce) run = .ok xs s₁)
      (terms_read : terms.foldlM (c.readTerm produce) 0 s₁ = .ok acc s)
      (read : ¬ t.isConstant ∧ t.coeff ≠ 0)
      (unsolved : s.wires.isSolved t.wire = false)
      (producer : c.producer? t.wire = some g)

/-- A hint starts hints that it needs. -/
theorem Starts.needs (hstarts : c.Starts table produce h run g s) : c.Needs h g := by
  obtain @⟨call, -, inputs, inputs', terms, terms', t, -, -, -, hcall, -, -, hinput, -, -,
    ⟨hconst, hcoeff⟩, -, hg⟩ := hstarts
  have he : terms ++ t :: terms' ∈ call.inputs := by simp [hinput]
  have ht : t ∈ terms ++ t :: terms' := by simp
  exact ⟨call, hcall, _, he, t, ht, hconst, hcoeff, hg⟩

/-- What runs a hint is used for the hints that are started, in the states in which they are
started, and for nothing else. -/
theorem attempt_apply_congr
    (hstarts : ∀ g s, c.Starts table produce h run g s → produce g s = produce' g s) :
    c.attempt table produce h run = c.attempt table produce' h run := by
  rcases hcall : c.hints[h]? with - | call
  · rw [attempt, attempt, hcall]
  rw [attempt_apply hcall, attempt_apply hcall]
  split
  · rfl
  next hopen =>
  rcases hf : table.get? call.hint with - | f
  · rfl
  -- through the inputs, and through the terms of each, to the one that is about to be read
  apply bind_apply_congr
  apply mapM_apply_congr
  intro inputs e inputs' xs s₁ hinputs hread
  apply foldlM_apply_congr
  intro terms t terms' acc s hterms hadded
  apply bind_apply_congr
  rw [provide_apply, provide_apply]
  split
  · rfl
  next hunsolved =>
  simp only [not_or, Bool.not_eq_true] at hunsolved
  rcases hg : c.producer? t.wire with - | g
  · rfl
  refine hstarts g s ⟨hcall, hopen, hf, hterms ▸ hinputs, hread, hadded, ?_, hunsolved.2.2, hg⟩
  exact ⟨by simp [hunsolved.1], hunsolved.2.1⟩

/-- So it suffices that two ways of running hints agree on the hints that are needed. -/
theorem attempt_congr (hneeds : ∀ g, c.Needs h g → produce g = produce' g) :
    c.attempt table produce h = c.attempt table produce' h := by
  funext run
  exact attempt_apply_congr fun g s hstarts => congrFun (hneeds g hstarts.needs) s

/-! ### Depth -/

section Depth

variable (hwf : WellFounded fun g h => c.Needs h g)

include hwf

/-- Which hints are listed as not being in progress does not matter, as long as all are listed that
a hint involves. -/
theorem resolve_congr {pending pending' : List Nat} (hpending : ∀ g, c.Involves h g → g ∈ pending)
    (hpending' : ∀ g, c.Involves h g → g ∈ pending') :
    c.resolve table pending h = c.resolve table pending' h := by
  induction h using hwf.induction generalizing pending pending' with
  | _ h ih =>
    rw [resolve_eq_attempt (hpending h Relation.ReflTransGen.refl),
      resolve_eq_attempt (hpending' h Relation.ReflTransGen.refl)]
    apply attempt_congr
    intro g hneeds
    exact ih g hneeds (mem_erase_of_involves hwf hpending hneeds)
      (mem_erase_of_involves hwf hpending' hneeds)

/-- A hint is its body, with the hints that it needs run in the same way. -/
theorem solveHint_eq_attempt (hh : h < c.hints.size) :
    c.solveHint table h = c.attempt table (c.solveHint table) h := by
  have hpending : ∀ g, c.Involves h g → g ∈ List.range c.hints.size :=
    fun _ => mem_range_of_involves hh
  rw [solveHint, resolve_eq_attempt (List.mem_range.2 hh)]
  apply attempt_congr
  intro g hneeds
  exact resolve_congr hwf (mem_erase_of_involves hwf hpending hneeds)
    fun _ => mem_range_of_involves (lt_of_needs hneeds)

/-- A recursion that is cut off at the number of hints that are not in progress is not cut off,
whatever stands at the place of the cut. -/
theorem iterate_attempt (cut : Nat → Solve p Unit) {n : Nat} (hn : pending.length ≤ n)
    (hpending : ∀ g, c.Involves h g → g ∈ pending) :
    (c.attempt table)^[n] cut h = c.resolve table pending h := by
  induction n generalizing pending h with
  | zero =>
    have hmem := hpending h Relation.ReflTransGen.refl
    rw [List.length_eq_zero_iff.1 (Nat.le_zero.1 hn)] at hmem
    cases hmem
  | succ n ih =>
    have hmem := hpending h Relation.ReflTransGen.refl
    rw [Function.iterate_succ_apply', resolve_eq_attempt hmem]
    apply attempt_congr
    intro g hneeds
    -- one hint less is left for the hints that are needed
    have hshorter := length_erase_lt_of_mem hmem
    exact ih (by omega) (mem_erase_of_involves hwf hpending hneeds)

end Depth

/-! ### Chains -/

/-- A chain of hints in progress, the one that was started last in front, with the state in which
that one was started. -/
inductive InProgress (c : Circuit p) (table : HintTable) : List Nat → Run p → Prop
  | start {h : Nat} (run : Run p) : h < c.hints.size → InProgress c table [h] run
  | next {g h : Nat} {chain : List Nat} {run s : Run p} : InProgress c table (h :: chain) run →
      c.Starts table (c.solveHint table) h run g s → InProgress c table (g :: h :: chain) s

/-- The hints of a chain are hints of the circuit, and all of them involve the last one. -/
theorem InProgress.involves {chain : List Nat} (hchain : c.InProgress table (g :: chain) run) :
    g < c.hints.size ∧ ∀ h ∈ chain, h < c.hints.size ∧ Relation.TransGen c.Needs h g := by
  induction chain generalizing g run with
  | nil =>
    cases hchain with
    | start _ hh => exact ⟨hh, fun _ h => absurd h List.not_mem_nil⟩
  | cons h chain ih =>
    cases hchain with
    | next hbefore hstarts =>
      obtain ⟨hh, hrest⟩ := ih hbefore
      have hneeds := hstarts.needs
      refine ⟨lt_of_needs hneeds, List.forall_mem_cons.2 ⟨⟨hh, .single hneeds⟩, fun h' hh' => ?_⟩⟩
      exact ⟨(hrest h' hh').1, (hrest h' hh').2.tail hneeds⟩

/-- No hint is twice in a chain. -/
theorem InProgress.nodup (hwf : WellFounded fun g h => c.Needs h g) {chain : List Nat}
    (hchain : c.InProgress table chain run) : chain.Nodup := by
  have hacyclic : ∀ h, ¬ Relation.TransGen c.Needs h h := by
    intro h hcycle
    have hwf' : WellFounded (Relation.TransGen fun g h => c.Needs h g) := hwf.transGen
    exact hwf'.irrefl.irrefl h (Relation.transGen_swap.1 hcycle)
  induction hchain with
  | start run hh => exact List.nodup_singleton _
  | next hbefore hstarts ih =>
    refine List.nodup_cons.2 ⟨fun hmem => ?_, ih⟩
    exact hacyclic _ (((hbefore.next hstarts).involves).2 _ hmem).2

/-- A chain is not longer than there are hints. -/
theorem InProgress.length_le (hwf : WellFounded fun g h => c.Needs h g) {chain : List Nat}
    (hchain : c.InProgress table chain run) : chain.length ≤ c.hints.size := by
  have hsub : chain ⊆ List.range c.hints.size := by
    intro h hmem
    rcases chain with - | ⟨g, chain⟩
    · cases hmem
    · obtain ⟨hg, hrest⟩ := hchain.involves
      rw [List.mem_range]
      rcases List.mem_cons.1 hmem with rfl | hmem
      · exact hg
      · exact (hrest h hmem).1
  have hsubperm := (hchain.nodup hwf).subperm hsub
  calc chain.length ≤ (List.range c.hints.size).length := hsubperm.length_le
    _ = c.hints.size := List.length_range

/-! ### Failures -/

/-- What a hint, or one that it needs, can fail with over `n` wires. -/
inductive HintFailure (c : Circuit p) (table : HintTable) (n : Nat) : Failure → Prop
  | unbound {h : Nat} {call : HintCall} : c.hints[h]? = some call →
      table.get? call.hint = none → HintFailure c table n (.unboundHint call.hint)
  | unproduced (w : Wire) : HintFailure c table n (.fault (.unproducedWire w))
  | unsolved (w : Wire) : HintFailure c table n (.fault (.unsolvedWire w))
  | coeff {h : Nat} {call : HintCall} {e : LinComb} {t : Term} : c.hints[h]? = some call →
      e ∈ call.inputs → t ∈ e → c.pool.size ≤ t.coeff →
      HintFailure c table n (.fault (.coeffOutOfRange t.coeff))
  | refused (id : HintId) (reason : String) : HintFailure c table n (.hintFailed id reason)
  | solvedTwice (w : Wire) : HintFailure c table n (.fault (.solvedTwice w))
  | outOfRange {h : Nat} {w : Wire} : c.Produces h w → n ≤ w.toNat →
      HintFailure c table n (.fault (.wireOutOfRange w))

/-- Over `n` wires, a step of a solve fails as hints do. -/
abbrev FailsAsHint (c : Circuit p) (table : HintTable) (n : Nat) (m : Solve p Unit) : Prop :=
  Triple (fun run => run.wires.size = n) m (fun _ run => run.wires.size = n)
    fun e _ => c.HintFailure table n e

theorem failsAsHint_assign {n : Nat} {w : Wire} (hw : c.Produces h w) (x : Fp p) :
    c.FailsAsHint table n (assign w x) := by
  intro run hrun
  rw [assign_apply]
  rcases hset : run.wires.set w x with e | s
  · rcases Assignment.set_eq_error hset with ⟨rfl, -⟩ | ⟨rfl, hle⟩
    · exact .solvedTwice w
    · exact .outOfRange hw (hrun ▸ hle)
  · exact (Assignment.size_of_set hset).trans hrun

theorem failsAsHint_callHint {n : Nat} {call : HintCall} {f : NamedHint} {xs : List (Fp p)}
    (hcall : c.hints[h]? = some call) : c.FailsAsHint table n (callHint h call f xs) := by
  refine triple_bind (Q := fun _ run => run.wires.size = n) (fun _ hrun => hrun) fun _ => ?_
  split
  · exact triple_throw fun _ _ => .refused _ _
  · exact triple_forM fun wx hwx =>
      failsAsHint_assign ⟨call, hcall, (List.of_mem_zip hwx).1⟩ (Fp.ofNat wx.2)

/-- What a hint fails with by itself is of these kinds. -/
theorem failsAsHint_attempt {n : Nat} (hh : h < c.hints.size)
    (hproduce : ∀ g, c.Needs h g → c.FailsAsHint table n (produce g)) :
    c.FailsAsHint table n (c.attempt table produce h) := by
  obtain ⟨call, hcall⟩ : ∃ call, c.hints[h]? = some call := ⟨_, Array.getElem?_eq_getElem hh⟩
  rw [attempt, hcall]
  refine triple_wires fun s => ?_
  split
  · exact triple_pure fun _ hrun => hrun.1
  split
  · next hf => exact triple_throw fun _ _ => .unbound hcall hf
  intro run hrun
  refine triple_bind (P := fun run => run.wires.size = n) ?_
    (fun xs => failsAsHint_callHint hcall) run hrun.1
  -- the inputs are read, and each of them keeps the number of wires
  refine (triple_mapM (V := fun _ _ => True) fun e he => ?_).weaken fun _ _ hread => hread.2
  refine (triple_readInput ?_ ?_ ?_).weaken fun _ _ hrun => ⟨trivial, hrun⟩
  · exact fun t _ _ _ => .unproduced t.wire
  · intro t ht acc f' run' _ hadd
    rcases Term.addTo_eq_error hadd with ⟨-, rfl⟩ | ⟨hcoeff, rfl⟩
    · exact .unsolved t.wire
    · exact .coeff hcall he ht hcoeff
  · exact fun t ht g hconst hcoeff hg => hproduce g ⟨call, hcall, e, he, t, ht, hconst, hcoeff, hg⟩

/-- In a circuit without cycles every hint fails in one of these ways, if it fails. -/
theorem failsAsHint_solveHint (hwf : WellFounded fun g h => c.Needs h g) (hh : h < c.hints.size)
    (n : Nat) : c.FailsAsHint table n (c.solveHint table h) := by
  induction h using hwf.induction with
  | _ h ih =>
    rw [solveHint_eq_attempt hwf hh]
    exact failsAsHint_attempt hh fun g hneeds => ih g hneeds (lt_of_needs hneeds)

/-- So does every number that a hint is looked up under, unless there is no such hint. -/
theorem solveHint_eq_error (hwf : WellFounded fun g h => c.Needs h g) {e : Failure}
    (he : c.solveHint table h run = .error e t) :
    (c.hints.size ≤ h ∧ e = .fault (.noInstruction h)) ∨
      c.HintFailure table run.wires.size e := by
  by_cases hh : h < c.hints.size
  · exact Or.inr ((failsAsHint_solveHint hwf hh run.wires.size).of_error rfl he)
  · have hle := Nat.le_of_not_lt hh
    rw [solveHint, resolve, Array.getElem?_eq_none hle] at he
    cases he
    exact Or.inl ⟨hle, rfl⟩

/-- In a circuit that passes its check, whatever the state is in which a hint is run: the plain
recursion, cut off at a depth of the number of hints, is not cut off; it runs exactly the hints that
are started on the way; no hint is twice in a chain of hints in progress, and no chain is longer
than there are hints.  So no hint is found in progress. -/
theorem solveHint_nesting (hcheck : c.checkHints = .ok ()) :
    (∀ h < c.hints.size, ∀ cut : Nat → Solve p Unit,
      (c.attempt table)^[c.hints.size] cut h = c.solveHint table h) ∧
    (∀ h < c.hints.size, ∀ (run : Run p) (produce : Nat → Solve p Unit),
      (∀ g s, c.Starts table (c.solveHint table) h run g s →
        produce g s = c.solveHint table g s) →
      c.attempt table produce h run = c.solveHint table h run) ∧
    (∀ chain run, c.InProgress table chain run →
      chain.Nodup ∧ chain.length ≤ c.hints.size) ∧
    ∀ h run g t, c.solveHint table h run ≠ .error (.fault (.hintCycle g)) t := by
  have hwf := wellFounded_needs hcheck
  refine ⟨fun h hh cut => ?_, fun h hh run produce hproduce => ?_, fun chain run hchain => ?_,
    fun h run g t hcycle => ?_⟩
  · exact iterate_attempt hwf cut (le_of_eq List.length_range) fun _ => mem_range_of_involves hh
  · rw [solveHint_eq_attempt hwf hh]
    exact (attempt_apply_congr fun g s hstarts => (hproduce g s hstarts).symm).symm
  · exact ⟨hchain.nodup hwf, hchain.length_le hwf⟩
  · rcases solveHint_eq_error hwf hcycle with ⟨-, hnone⟩ | hfailure
    · cases hnone
    · cases hfailure

/-- Under number 0, the function whose outputs are all the sum of its inputs. -/
def sumTable : HintTable :=
  HintTable.empty.insert 0 "sum" ⟨fun _ inputs _ outputs =>
    .ok (outputs.map fun _ => inputs.sum)⟩

/-- A circuit with three hints, each of which needs the one before; the outputs of the first two
overlap. -/
def overlap : Circuit 17 where
  family := .gates
  publicWires := 1
  secretWires := 0
  internalWires := 4
  hints := #[⟨0, [[⟨1, 0⟩]], ⟨1, 3⟩⟩, ⟨0, [[⟨1, 1⟩]], ⟨2, 4⟩⟩, ⟨0, [[⟨1, 0⟩, ⟨1, 3⟩]], ⟨4, 5⟩⟩]

/-- The state in which only the witness of `overlap` is there. -/
def overlapStart : Run 17 := ⟨⟨#[some (.ofNat 3), none, none, none, none], 1⟩, #[], #[], none⟩

/-- The last hint starts the second, which starts the first: a chain of all three. -/
theorem overlap_nesting :
    overlap.InProgress sumTable [0, 1, 2] overlapStart ∧
      ([0, 1, 2] : List Nat).Nodup ∧ ([0, 1, 2] : List Nat).length ≤ overlap.hints.size ∧
      ∀ cut : Nat → Solve 17 Unit,
        (overlap.attempt sumTable)^[3] cut 2 = overlap.solveHint sumTable 2 := by
  have hcheck : overlap.checkHints = .ok () := by decide +kernel
  obtain ⟨hdepth, -, hchains, -⟩ :=
    @solveHint_nesting 17 _ overlap sumTable hcheck
  -- the first term of the last hint is read, and the wire of the second has no value
  have hlast : ([[⟨1, 0⟩, ⟨1, 3⟩]] : List LinComb) = [] ++ ([⟨1, 0⟩] ++ [⟨1, 3⟩]) :: [] := rfl
  have hsecond : overlap.Starts sumTable (overlap.solveHint sumTable) 2 overlapStart 1
      overlapStart :=
    .intro (show overlap.hints[2]? = some ⟨0, [[⟨1, 0⟩, ⟨1, 3⟩]], ⟨4, 5⟩⟩ from rfl) (by decide) rfl
      hlast rfl rfl (by decide) rfl (by decide)
  have hmiddle : ([[⟨1, 1⟩]] : List LinComb) = [] ++ ([] ++ [⟨1, 1⟩]) :: [] := rfl
  have hfirst : overlap.Starts sumTable (overlap.solveHint sumTable) 1 overlapStart 0
      overlapStart :=
    .intro (show overlap.hints[1]? = some ⟨0, [[⟨1, 1⟩]], ⟨2, 4⟩⟩ from rfl) (by decide) rfl
      hmiddle rfl rfl (by decide) rfl (by decide)
  have hchain : overlap.InProgress sumTable [0, 1, 2] overlapStart :=
    ((InProgress.start overlapStart (by decide)).next hsecond).next hfirst
  exact ⟨hchain, (hchains _ _ hchain).1, (hchains _ _ hchain).2, hdepth 2 (by decide)⟩

end Circuit

end WireSolve
