/-
WireSolve/Proofs/Faithful.lean

Hints are applied faithfully, and at most once.

The journal shows every call of a hint's function, with the inputs that it got.  A
call in the journal has read its inputs and given its outputs to the wires
(`Circuit.Called`), and since wires keep their values this stays true up to the
solution.  A second call of the same hint would have to write the first output
again, which has a value, so it cannot go through.  A hint that is done without a
call has found its first output solved, and a wire has its value from the seed,
from a call or from a constraint (`Circuit.Wrote`).

All of this is carried along the run of a solve, with its levels and chunks
(`Circuit.Traced`), one instruction at a time.

Main result: `Circuit.solve_faithful`.
-/
import WireSolve.Proofs.Solve.Calls
import WireSolve.Proofs.Soundness

namespace WireSolve

variable {p : Nat}

/-! ### Calls in a journal -/

/-- The inputs of a call of hint number `h`, if the event is one. -/
def Event.callOf (h : Nat) : Event p → Option (List Nat)
  | hintCalled g _ _ inputs _ => if g = h then some inputs else none
  | _ => none

/-- The inputs of all calls of hint number `h`, in order. -/
def Journal.callsOf (j : Journal p) (h : Nat) : List (List Nat) :=
  j.events.filterMap (Event.callOf h)

theorem Journal.callsOf_push (j : Journal p) (e : Entry p) (h : Nat) :
    Journal.callsOf (j.push e) h = Journal.callsOf j h ++ (e.event.callOf h).toList := by
  simp only [callsOf, events, Array.toList_push, List.map_append, List.filterMap_append]
  rcases hcall : e.event.callOf h with - | inputs <;> simp [hcall]

/-- An event that is not a call makes no difference. -/
theorem Journal.callsOf_push_of_none {j : Journal p} {e : Entry p}
    (he : ∀ h, e.event.callOf h = none) : Journal.callsOf (j.push e) = Journal.callsOf j := by
  funext h
  rw [callsOf_push, he, Option.toList_none, List.append_nil]

variable [Modulus p]

namespace Circuit

open Solve

variable {c : Circuit p} {witness : List (Fp p)} {o : Options} {table : HintTable}
  {s s' : Assignment p} {run t : Run p} {h i k : Nat}

/-! ### Faithful journals -/

/-- The calls in the journal of a state have left behind what they should, and no hint that has
outputs is called twice. -/
structure Faithful (c : Circuit p) (table : HintTable) (run : Run p) : Prop where
  called : ∀ h, ∀ inputs ∈ run.journal.callsOf h, c.Called table run.wires h inputs
  once : ∀ h call, c.hints[h]? = some call → 0 < call.outputs.size →
    (run.journal.callsOf h).length ≤ 1

/-- What has no calls of its own and keeps the values keeps the calls faithful. -/
theorem Faithful.of_extends (hrun : c.Faithful table run)
    (hcalls : t.journal.callsOf = run.journal.callsOf) (hwires : run.wires.Extends t.wires) :
    c.Faithful table t where
  called h inputs hinputs := by
    rw [hcalls] at hinputs
    exact (hrun.called h inputs hinputs).of_extends hwires
  once h call hcall hsize := by
    rw [hcalls]
    exact hrun.once h call hcall hsize

omit [Modulus p] in
/-- The calls after a call. -/
theorem callsOf_callEntry (call : HintCall) (f : NamedHint) (xs : List (Fp p)) (g : Nat) :
    Journal.callsOf (run.journal.push (callEntry run h call f xs)) g
      = Journal.callsOf run.journal g ++ if h = g then [xs.map Fp.val] else [] := by
  rw [Journal.callsOf_push]
  show _ ++ (if h = g then some (xs.map Fp.val) else none).toList = _
  split <;> rfl

/-- One more call: its first output had no value, so there was no call of the same hint before. -/
theorem keptByCalls_faithful : c.KeptByCalls table (fun _ => True) (c.Faithful table) := by
  intro h call f xs run t _ hrun hcall hf hvalues hres
  obtain ⟨outputs, s, houtputs, hset, rfl⟩ := callHint_eq_ok_iff.1 hres
  have hextends := Assignment.extends_of_setAll hset
  constructor
  · intro g inputs hinputs
    rw [callsOf_callEntry, List.mem_append] at hinputs
    rcases hinputs with hinputs | hinputs
    · exact (hrun.called g inputs hinputs).of_extends hextends
    · split at hinputs
      · next heq =>
        subst heq
        obtain rfl := List.mem_singleton.1 hinputs
        exact called_of_callHint hcall hf hvalues hres
      · cases hinputs
  · intro g call' hcall' hsize
    rw [callsOf_callEntry, List.length_append]
    split
    · next heq =>
      subst heq
      obtain rfl := Option.some.inj (hcall.symm.trans hcall')
      have hbefore : Journal.callsOf run.journal h = [] := by
        refine List.eq_nil_iff_forall_not_mem.2 fun inputs hinputs => ?_
        have hsolved := (hrun.called h inputs hinputs).isSolved
          ⟨call, hcall, WireRange.start_mem_wires hsize⟩
        obtain ⟨wx, hwx, hstart⟩ := WireRange.exists_start_mem_zip hsize outputs
        rw [← hstart, Assignment.isSolved, (Assignment.get?_of_setAll hset wx hwx).1] at hsolved
        cases hsolved
      rw [hbefore]
      exact Nat.le_refl 1
    · exact hrun.once g call' hcall' hsize

/-! ### Where values come from -/

/-- What can give a wire its value. -/
inductive Source where
  /-- The constant one or the witness. -/
  | seed
  /-- A call of the function of hint number `h`. -/
  | hint (h : Nat)
  /-- Constraint number `k`. -/
  | constraint (k : Nat)

/-- What has given a wire its value in a solve with given calls. -/
inductive Wrote (c : Circuit p) (witness : List (Fp p)) (o : Options)
    (calls : Nat → List (List Nat)) (w : Wire) : Source → Prop
  /-- The wire is one of those that a solve starts with. -/
  | seed {s : Assignment p} : c.seed witness = .ok s → s.isSolved w = true →
      Wrote c witness o calls w .seed
  /-- The wire is an output of a hint whose function was called. -/
  | hint {h : Nat} {call : HintCall} : c.hints[h]? = some call → w ∈ call.outputs.wires →
      calls h ≠ [] → Wrote c witness o calls w (.hint h)
  /-- An instruction for the constraint was processed when the wire had no value, and then it had
  one. -/
  | constraint {before after : List Nat} {i k : Nat} {run t : Run p} :
      c.levels.flatten = before ++ i :: after → c.instructions[i]? = some (.constraint k) →
      c.Reaches witness o before run → c.process o i run = .ok () t →
      run.wires.isSolved w = false → t.wires.isSolved w = true →
      Wrote c witness o calls w (.constraint k)

theorem Wrote.of_calls {calls calls' : Nat → List (List Nat)} {w : Wire} {source : Source}
    (hcalls : ∀ h, calls h ≠ [] → calls' h ≠ []) (hw : c.Wrote witness o calls w source) :
    c.Wrote witness o calls' w source := by
  cases hw with
  | seed hs hw => exact .seed hs hw
  | hint hcall hw hne => exact .hint hcall hw (hcalls _ hne)
  | constraint hsplit hi hrun hprocess hbefore hafter =>
    exact .constraint hsplit hi hrun hprocess hbefore hafter

/-- Everything that has a value in a state has it from somewhere. -/
def Sourced (c : Circuit p) (witness : List (Fp p)) (o : Options) (run : Run p) : Prop :=
  ∀ w, run.wires.isSolved w = true → ∃ source, c.Wrote witness o run.journal.callsOf w source

/-- One more call: what has a value after it was written by it, or had a value before. -/
theorem keptByCalls_sourced : c.KeptByCalls table (fun _ => True) (c.Sourced witness o) := by
  intro h call f xs run t _ hrun hcall hf hvalues hres
  obtain ⟨outputs, s, houtputs, hset, rfl⟩ := callHint_eq_ok_iff.1 hres
  intro w hw
  by_cases hmem : w ∈ call.outputs.wires
  · refine ⟨.hint h, .hint hcall hmem ?_⟩
    rw [callsOf_callEntry, if_pos rfl]
    exact List.append_ne_nil_of_right_ne_nil _ (List.cons_ne_nil _ _)
  · have hbefore : run.wires.isSolved w = true := by
      rw [← hw, Assignment.isSolved, Assignment.isSolved,
        Assignment.get?_of_setAll_of_notMem hset (by rwa [WireRange.map_fst_zip])]
    obtain ⟨source, hsource⟩ := hrun w hbefore
    refine ⟨source, hsource.of_calls fun g hne => ?_⟩
    rw [callsOf_callEntry]
    exact List.append_ne_nil_of_left_ne_nil hne _

/-! ### Constraints make no calls -/

/-- A state with given calls. -/
def HasCalls (calls : Nat → List (List Nat)) (run : Run p) : Prop := run.journal.callsOf = calls

variable {calls : Nat → List (List Nat)}

omit [Modulus p] in
theorem keeps_emit_answered (k : Nat) (q : Query p) (reply : q.Reply) :
    Keeps (HasCalls calls) (emit (.answered k q reply)) := by
  intro run hrun
  exact (Journal.callsOf_push_of_none fun _ => rfl).trans hrun

theorem keeps_calls_converse (k : Nat) (routine : Routine p) :
    Keeps (HasCalls calls) (c.converse k routine) := by
  induction routine with
  | done verdict => exact keeps_pure verdict
  | ask q next ih =>
    refine keeps_bind keeps_wires fun s => ?_
    exact keeps_bind (fun _ h => h) fun _ =>
      keeps_bind (keeps_emit_answered k q _) fun _ => ih _

theorem calls_of_solveConstraint {constraint : Constraint p}
    (hprocess : c.solveConstraint k constraint run = .ok () t) :
    t.journal.callsOf = run.journal.callsOf := by
  have hkeeps : Keeps (HasCalls run.journal.callsOf) (c.solveConstraint k constraint) := by
    cases constraint with
    | rank1 r =>
      refine keeps_bind keeps_wires fun s => ?_
      rcases r.solve c.pool s k with e | ⟨s', x⟩
      · exact keeps_throw _
      · refine keeps_bind (fun _ h => h) fun _ => ?_
        cases hfamily : c.family with
        | gates => exact keeps_pure ()
        | rank1 =>
          intro run' hrun'
          rw [record_apply]
          rcases run'.sides[k]? with - | - | y <;> exact hrun'
    | gate g =>
      refine keeps_bind keeps_wires fun s => ?_
      rcases g.solve c.pool s k with e | s'
      · exact keeps_throw _
      · exact fun _ h => h
    | custom body =>
      refine keeps_bind (keeps_calls_converse k (body k)) fun verdict => ?_
      split
      · exact keeps_pure _
      · exact keeps_throw _
      · exact keeps_throw _
      · exact keeps_bind keeps_wires fun s => keeps_throw _
  exact Triple.of_ok hkeeps rfl hprocess

/-! ### Along a run -/

/-- A state that the run of a solve has reached when it has processed the instructions before some
point: the data are those of `Reaches`, and the journal has been kept faithfully. -/
structure Traced (c : Circuit p) (witness : List (Fp p)) (o : Options) (before : List Nat)
    (run : Run p) : Prop where
  data : ∃ run₀, c.Reaches witness o before run₀ ∧ run₀.SameData run
  faithful : c.Faithful o.hints run
  sourced : c.Sourced witness o run

/-- The worker does not matter, and of the journal only the calls do. -/
theorem Traced.of_calls {before : List Nat} (hrun : c.Traced witness o before run)
    {journal : Journal p} (worker : Option Nat)
    (hcalls : Journal.callsOf journal = run.journal.callsOf) :
    c.Traced witness o before { run with journal := journal, worker := worker } where
  data := by
    obtain ⟨run₀, hreaches, hsame⟩ := hrun.data
    exact ⟨run₀, hreaches, hsame.wires_eq, hsame.sides_eq⟩
  faithful := hrun.faithful.of_extends hcalls (Assignment.Extends.refl _)
  sourced := by
    intro w hw
    obtain ⟨source, hsource⟩ := hrun.sourced w hw
    exact ⟨source, hsource.of_calls fun h hne => by rwa [hcalls]⟩

/-- The data of a run go on as those of a solve in order do. -/
theorem Traced.exists_process {before : List Nat} (hrun : c.Traced witness o before run)
    (hprocess : c.process o i run = .ok () t) :
    ∃ run₀ t₀, c.Reaches witness o before run₀ ∧ run₀.SameData run ∧
      c.process o i run₀ = .ok () t₀ ∧ t₀.SameData t := by
  obtain ⟨run₀, hreaches, hsame⟩ := hrun.data
  have halike := alike_process (c := c) o i run₀ run hsame
  rcases hprocess₀ : c.process o i run₀ with ⟨_, t₀⟩ | ⟨e, t₀⟩
  · rw [hprocess₀, hprocess] at halike
    exact ⟨run₀, t₀, hreaches, hsame, hprocess₀, halike.2⟩
  · rw [hprocess₀, hprocess] at halike
    cases halike

/-- One instruction. -/
theorem Traced.process {before after : List Nat} (hsplit : c.levels.flatten = before ++ i :: after)
    (hrun : c.Traced witness o before run) (hprocess : c.process o i run = .ok () t) :
    c.Traced witness o (before ++ [i]) t := by
  obtain ⟨run₀, t₀, hreaches, hsame, hprocess₀, hsame'⟩ := hrun.exists_process hprocess
  have hdata : ∃ run₀, c.Reaches witness o (before ++ [i]) run₀ ∧ run₀.SameData t := by
    obtain ⟨s, hs, hbefore⟩ := hreaches
    refine ⟨t₀, ⟨s, hs, processAll_append_eq_ok_iff.2 ⟨run₀, hbefore, ?_⟩⟩, hsame'⟩
    exact processAll_cons_eq_ok_iff.2 ⟨t₀, hprocess₀, rfl⟩
  rcases process_eq_ok hprocess with ⟨k, constraint, hi, hk, hsolve⟩ | ⟨h, hi, hsolve⟩
  · -- what a constraint writes has its source in this instruction
    have hcalls := calls_of_solveConstraint hsolve
    refine ⟨hdata, hrun.faithful.of_extends hcalls (below_of_process hprocess).extends_wires,
      fun w hw => ?_⟩
    by_cases hsolved : run.wires.isSolved w = true
    · obtain ⟨source, hsource⟩ := hrun.sourced w hsolved
      exact ⟨source, hsource.of_calls fun h hne => by rwa [hcalls]⟩
    · refine ⟨.constraint k, .constraint hsplit hi hreaches hprocess₀ ?_ ?_⟩
      · rw [hsame.wires_eq]
        exact Bool.eq_false_iff.2 hsolved
      · rw [hsame'.wires_eq]
        exact hw
  · -- a hint only calls functions, its own and those of hints that it needs
    have hclosed : c.Closed fun _ => True := fun _ _ _ _ => trivial
    exact ⟨hdata, of_resolve hclosed keptByCalls_faithful trivial hrun.faithful hsolve,
      of_resolve hclosed keptByCalls_sourced trivial hrun.sourced hsolve⟩

/-- A sequence of instructions. -/
theorem Traced.processAll {before is after : List Nat}
    (hsplit : c.levels.flatten = before ++ (is ++ after)) (hrun : c.Traced witness o before run)
    (hprocess : c.processAll o is run = .ok () t) : c.Traced witness o (before ++ is) t := by
  induction is generalizing before run with
  | nil =>
    cases hprocess
    rwa [List.append_nil]
  | cons i rest ih =>
    obtain ⟨s, hs, hrest⟩ := processAll_cons_eq_ok_iff.1 hprocess
    have hstep := hrun.process hsplit hs
    rw [List.append_cons]
    refine ih ?_ hstep hrest
    rw [hsplit]
    simp

/-- The chunks of a level. -/
theorem Traced.processChunks {before after : List Nat} {n : Nat} {parts : List (List Nat)}
    (hsplit : c.levels.flatten = before ++ (parts.flatten ++ after))
    (hrun : c.Traced witness o before run) (hprocess : c.processChunks o n parts run = .ok () t) :
    c.Traced witness o (before ++ parts.flatten) t := by
  induction parts generalizing before run n with
  | nil =>
    cases hprocess
    rw [List.flatten_nil, List.append_nil]
    exact hrun.of_calls none rfl
  | cons chunk rest ih =>
    rw [Circuit.processChunks] at hprocess
    rcases hchunk : c.processAll o chunk { run with worker := some n } with ⟨_, s⟩ | ⟨e, s⟩
    · rw [hchunk] at hprocess
      have hsplit' : c.levels.flatten = before ++ (chunk ++ (rest.flatten ++ after)) := by
        rw [hsplit, List.flatten_cons, List.append_assoc]
      have hchunk' := (hrun.of_calls (some n) rfl).processAll hsplit' hchunk
      rw [List.flatten_cons, ← List.append_assoc]
      rw [← List.append_assoc] at hsplit'
      exact ih hsplit' hchunk' hprocess
    · rw [hchunk] at hprocess
      dsimp only at hprocess
      rcases hrest : c.processChunks o (n + 1) rest s with ⟨_, s'⟩ | ⟨e', s'⟩ <;>
        rw [hrest] at hprocess <;> cases hprocess

/-- All levels from some depth on. -/
theorem Traced.processLevels {before : List Nat} {depth : Nat} {levels : List (List Nat)}
    (hsplit : c.levels.flatten = before ++ levels.flatten) (hrun : c.Traced witness o before run)
    (hprocess : c.processLevels o depth levels run = .ok () t) :
    c.Traced witness o c.levels.flatten t := by
  induction levels generalizing before run depth with
  | nil =>
    cases hprocess
    rw [hsplit, List.flatten_nil, List.append_nil]
    exact hrun
  | cons level rest ih =>
    obtain ⟨_, s, hlevel, hrest⟩ := bind_eq_ok_iff.1 hprocess
    have hs : c.Traced witness o (before ++ level) s := by
      unfold processLevel at hlevel
      rcases hparts : chunks level o.workers with - | parts
      · rw [hparts] at hlevel
        obtain ⟨_, s', hemit, hlevel⟩ := bind_eq_ok_iff.1 hlevel
        cases hemit
        exact (hrun.of_calls run.worker (Journal.callsOf_push_of_none fun _ => rfl)).processAll
          hsplit hlevel
      · rw [hparts] at hlevel
        obtain ⟨_, s', hemit, hlevel⟩ := bind_eq_ok_iff.1 hlevel
        cases hemit
        have hsplit' : c.levels.flatten = before ++ (parts.flatten ++ rest.flatten) := by
          rw [flatten_chunks hparts]
          exact hsplit
        rw [← flatten_chunks hparts]
        exact (hrun.of_calls run.worker
          (Journal.callsOf_push_of_none fun _ => rfl)).processChunks hsplit' hlevel
    refine ih ?_ hs hrest
    rw [hsplit, List.flatten_cons, List.append_assoc]

/-! ### The whole solve -/

/-- Log notes are not calls. -/
theorem callsOf_emitLogs (run : Run p) :
    Journal.callsOf (c.emitLogs run) = run.journal.callsOf := by
  unfold emitLogs
  rw [← Array.foldl_toList]
  generalize run.journal = journal
  induction c.logs.toList generalizing journal with
  | nil => rfl
  | cons n rest ih =>
    rw [List.foldl_cons, ih]
    exact Journal.callsOf_push_of_none fun _ => rfl

/-- What a solve starts with has its source in the seed. -/
theorem traced_initialRun (hs : c.setup witness o = .ok s) (journal : Journal p)
    (hcalls : ∀ h, journal.callsOf h = []) :
    c.Traced witness o [] (c.initialRun o s journal) := by
  have hnone : ∀ h, Journal.callsOf (c.initialRun o s journal).journal h = [] := by
    intro h
    refine (Journal.callsOf_push _ _ _).trans ?_
    rw [hcalls h]
    rfl
  refine ⟨⟨_, ⟨s, hs, rfl⟩, rfl, rfl⟩, ⟨fun h inputs hinputs => ?_, fun h call _ _ => ?_⟩,
    fun w hw => ⟨.seed, .seed (setup_eq_ok_iff.1 hs).2.2.2.1 hw⟩⟩
  · rw [hnone] at hinputs
    cases hinputs
  · rw [hnone]
    exact Nat.zero_le 1

variable {solution : Solution p}

/-- The last state of a solve that succeeds, with the calls that its report shows. -/
theorem exists_traced (hsolve : (c.solve witness o).outcome = .ok solution) :
    ∃ run, c.Traced witness o c.levels.flatten run ∧ c.conclude run = .ok solution ∧
      (c.solve witness o).journal.callsOf = run.journal.callsOf := by
  unfold solve at hsolve ⊢
  rcases hs : c.setup witness o with e | s
  · rw [hs] at hsolve
    cases hsolve
  · rw [hs] at hsolve
    dsimp only at hsolve ⊢
    rcases hrun : c.processLevels o 0 c.levels
      (c.initialRun o s #[⟨none, .started c.family c.wireCount c.levels.length⟩]) with
      ⟨_, run⟩ | ⟨e, run⟩
    · rw [hrun] at hsolve
      dsimp only at hsolve ⊢
      have hstart := traced_initialRun hs
        #[⟨none, .started c.family c.wireCount c.levels.length⟩] fun _ => rfl
      have htraced := hstart.processLevels rfl hrun
      rcases hconclude : c.conclude run with e | solution'
      · rw [hconclude] at hsolve
        cases hsolve
      · rw [hconclude] at hsolve
        obtain rfl := Except.ok.inj hsolve
        refine ⟨run, htraced, hconclude, ?_⟩
        refine (Journal.callsOf_push_of_none fun _ => rfl).trans ?_
        split
        · exact callsOf_emitLogs run
        · rfl
    · rw [hrun] at hsolve
      cases hsolve

/-- The values that are returned extend the assignment they are read from. -/
theorem extends_ofValues_of_conclude (h : c.conclude run = .ok solution) :
    run.wires.Extends (.ofValues solution.values) := by
  obtain ⟨hvalues, -⟩ := conclude_eq_ok h
  refine ⟨(Array.size_map).trans (Assignment.size_values hvalues), fun w x hw => ?_⟩
  rw [Assignment.get?_ofValues, ← Assignment.get?_eq_getElem?_values hvalues, hw]

/-- A scheduled hint with outputs has a value on the first of them in the end. -/
theorem isSolved_of_scheduled {call : HintCall} (hscheduled : c.Scheduled (.hint h))
    (hcall : c.hints[h]? = some call) (hsize : 0 < call.outputs.size)
    (hrun : c.Reaches witness o c.levels.flatten run) :
    run.wires.isSolved call.outputs.start = true := by
  obtain ⟨i, s, t, hi, hprocess, hbelow⟩ := exists_processed (List.Perm.refl _) hscheduled hrun
  simp only [Circuit.process, hi] at hprocess
  have hsolved := isSolved_of_resolve hprocess hcall hsize
  obtain ⟨x, hx⟩ := Assignment.isSolved_eq_true_iff.1 hsolved
  exact Assignment.isSolved_eq_true_iff.2 ⟨x, hbelow.extends_wires.keeps _ x hx⟩

/-- In a solve that succeeds, whatever its levels are, the function of a hint with outputs is called
at most once.  A call gets the values that the inputs have in the solution, as canonical residues,
and the output wires have the residues of its outputs there.  A scheduled hint with outputs whose
function was not called has its first output from something else. -/
theorem solve_faithful (hsolve : (c.solve witness o).outcome = .ok solution) {call : HintCall}
    (hcall : c.hints[h]? = some call) :
    (0 < call.outputs.size → ((c.solve witness o).journal.callsOf h).length ≤ 1) ∧
      (∀ inputs ∈ (c.solve witness o).journal.callsOf h,
        c.Called o.hints (.ofValues solution.values) h inputs) ∧
      (c.Scheduled (.hint h) → 0 < call.outputs.size →
        (c.solve witness o).journal.callsOf h = [] →
        ∃ source, source ≠ .hint h ∧
          c.Wrote witness o (c.solve witness o).journal.callsOf call.outputs.start source) := by
  obtain ⟨run, htraced, hconclude, hcalls⟩ := exists_traced hsolve
  rw [hcalls]
  refine ⟨htraced.faithful.once h call hcall, fun inputs hinputs => ?_,
    fun hscheduled hsize hnone => ?_⟩
  · exact (htraced.faithful.called h inputs hinputs).of_extends
      (extends_ofValues_of_conclude hconclude)
  · obtain ⟨run₀, hreaches, hsame⟩ := htraced.data
    have hsolved := isSolved_of_scheduled hscheduled hcall hsize hreaches
    rw [hsame.wires_eq] at hsolved
    obtain ⟨source, hsource⟩ := htraced.sourced _ hsolved
    refine ⟨source, ?_, hsource⟩
    rintro rfl
    cases hsource with
    | hint _ _ hne => exact hne hnone

/-- Under number 0, the function whose outputs are all the successor of the sum of its inputs. -/
def successorTable : HintTable :=
  HintTable.empty.insert 0 "successor" ⟨fun _ inputs _ outputs =>
    .ok (outputs.map fun _ => inputs.sum + 1)⟩

/-- A circuit with two hints for wire 1, of which hint 2 is the one that is run when hint 1 needs
the wire: `v = w + 1` after `w = 2 * x + 1`. -/
def relay : Circuit 17 where
  family := .gates
  publicWires := 1
  secretWires := 0
  internalWires := 2
  hints := #[⟨0, [[⟨1, 0⟩]], ⟨1, 2⟩⟩, ⟨0, [[⟨1, 1⟩]], ⟨2, 3⟩⟩, ⟨0, [[⟨2, 0⟩]], ⟨1, 2⟩⟩]
  instructions := #[.hint 0, .hint 1, .hint 2]
  levels := [[1], [0, 1], [2]]

/-- Hint 1 is called once, although it is scheduled twice, and hint 0 not at all: its wire has its
value from something else. -/
theorem relay_faithful :
    let calls := (relay.solve [.ofNat 3] ⟨1, successorTable, false⟩).journal.callsOf
    (calls 1).length ≤ 1 ∧ relay.Called successorTable (.ofValues #[.ofNat 3, .ofNat 7, .ofNat 8])
        1 [7] ∧
      ∃ source, source ≠ .hint 0 ∧
        relay.Wrote [.ofNat 3] ⟨1, successorTable, false⟩ calls 1 source := by
  have hsolve : (relay.solve [.ofNat 3] ⟨1, successorTable, false⟩).outcome
      = .ok ⟨#[.ofNat 3, .ofNat 7, .ofNat 8], none⟩ := by
    decide +kernel
  have hone : (relay.solve [.ofNat 3] ⟨1, successorTable, false⟩).journal.callsOf 1 = [[7]] := by
    decide +kernel
  have hnone : (relay.solve [.ofNat 3] ⟨1, successorTable, false⟩).journal.callsOf 0 = [] := by
    decide +kernel
  have hlast : relay.hints[1]? = some ⟨0, [[⟨1, 1⟩]], ⟨2, 3⟩⟩ := rfl
  have hfirst : relay.hints[0]? = some ⟨0, [[⟨1, 0⟩]], ⟨1, 2⟩⟩ := rfl
  obtain ⟨honce, hcalled, -⟩ := solve_faithful hsolve hlast
  obtain ⟨-, -, hsource⟩ := solve_faithful hsolve hfirst
  refine ⟨honce (by decide), hcalled [7] ?_, hsource ?_ (by decide) hnone⟩
  · rw [hone]
    exact List.mem_singleton_self [7]
  · exact ⟨[0, 1], by decide, 0, by decide, rfl⟩

end Circuit

end WireSolve
