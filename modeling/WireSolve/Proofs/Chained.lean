/-
WireSolve/Proofs/Chained.lean

Hints that are chained resolve in any order.

In a circuit of chained hints (`Circuit.Chained`) every wire that a hint reads is
an input or the output of a hint, and no function refuses its inputs.  Then every
hint goes through from every state that hints have been run to
(`Circuit.chained_progress`): a wire that is read and has no value is produced on
the way.  The hints that are scheduled may come in any order, several times, or
before those that they need; what has a value in the end are the inputs and the
outputs of the hints that the scheduled ones involve.

The values do not depend on the schedule either.  Every call gives the wires what
they have in every valuation at which the hints hold, so two such valuations agree
on all inputs and outputs, and the run in which all hints are scheduled is where
one of them comes from (`Circuit.Chained.exists_complete`).

Main result: `Circuit.chained_schedules`.
-/
import WireSolve.Proofs.Turns
import WireSolve.Proofs.Verdict

namespace WireSolve

namespace Circuit

open Solve

variable {p : Nat} [Modulus p] {c : Circuit p} {table : HintTable} {o : Options}
  {witness : List (Fp p)} {pending : List Nat} {g h : Nat} {w : Wire} {run t : Run p}
  {s S : Assignment p} {z : Valuation p}

/-! ### Circuits of chained hints -/

/-- A wire that has its value before anything is run: the constant one, or a wire of the
witness. -/
def IsInput (c : Circuit p) (w : Wire) : Prop :=
  (c.family = .rank1 ∧ w = 0) ∨
    ∃ i < c.witnessSize, w = Wire.atPosition (c.family.reservedWires + i)

/-- A circuit whose hints can be run from its inputs, with the functions of a table. -/
structure Chained (c : Circuit p) (table : HintTable) : Prop where
  /-- The reserved wires are among the public ones. -/
  reserved_le : c.family.reservedWires ≤ c.publicWires.toNat
  /-- Every hint has outputs, and no two hints share one. -/
  separate : c.SeparateOutputs
  /-- Outputs are internal wires. -/
  internal : ∀ h w, c.Produces h w →
    (c.publicWires + c.secretWires).toNat ≤ w.toNat ∧ w.toNat < c.wireCount
  /-- A term that is not scaled by the reserved zero has a coefficient of the pool, and it is
  constant or reads an input or an output. -/
  readable : ∀ call ∈ c.hints, ∀ e ∈ call.inputs, ∀ t ∈ e, t.coeff ≠ 0 →
    t.coeff < c.pool.size ∧ (t.isConstant ∨ c.IsInput t.wire ∨ ∃ g, c.Produces g t.wire)
  /-- The functions are bound, and refuse no inputs that they can be called with. -/
  total : ∀ call ∈ c.hints, ∃ f, table.get? call.hint = some f ∧
    ∀ xs : List (Fp p), xs.length = call.inputs.length → ∃ outputs,
      f.function.call p (xs.map Fp.val) (Vector.replicate call.outputs.size 0) = .ok outputs

/-- The same circuit with other instructions, on other levels. -/
def withSchedule (c : Circuit p) (instructions : Array Instruction) (levels : List (List Nat)) :
    Circuit p :=
  { c with instructions := instructions, levels := levels }

/-- All positions in a list hold instructions to run a hint of the circuit. -/
def AreHints (c : Circuit p) (is : List Nat) : Prop :=
  ∀ i ∈ is, ∃ h < c.hints.size, c.instructions[i]? = some (.hint h)

/-- A hint that is scheduled, or that one that is scheduled needs, directly or through others. -/
def IsReached (c : Circuit p) (g : Nat) : Prop := ∃ h, c.Scheduled (.hint h) ∧ c.Involves h g

/-- The ways in which the levels can be processed: with any number of workers, one chunk after the
other or in turns. -/
def ProcessesLevels (c : Circuit p) (o : Options) (m : Solve p Unit) : Prop :=
  ∃ workers, m = c.processLevels { o with workers } 0 c.levels ∨
    ∃ turns, c.AllTurnsTaken workers turns ∧
      m = c.processLevelsInTurns { o with workers } turns 0 c.levels

/-- A circuit that differs from another one in its schedule at most, and that schedules nothing but
hints. -/
def SchedulesHints (c c' : Circuit p) : Prop :=
  ∃ instructions levels, c' = c.withSchedule instructions levels ∧ c'.AreHints levels.flatten

/-- A state that a solve can end in when it has started from an assignment. -/
def Finishes (c : Circuit p) (o : Options) (s : Assignment p) (run : Run p) : Prop :=
  ∃ m journal, c.ProcessesLevels o m ∧ m (c.initialRun o s journal) = .ok () run

/-- The search for cycles looks at what the hints need, and at nothing else. -/
theorem visit_congr {c c' : Circuit p} (hneeds : c.prerequisites = c'.prerequisites)
    (pending finished : List Nat) (h : Nat) :
    c.visit pending finished h = c'.visit pending finished h := by
  induction hn : pending.length using Nat.strong_induction_on generalizing pending finished h with
  | _ n ih =>
    unfold visit
    rw [hneeds]
    split
    · rfl
    split
    · next hmem =>
      have hshorter : (pending.erase h).length < n := hn ▸ length_erase_lt_of_mem hmem
      have hvisit : c.visit (pending.erase h) = c'.visit (pending.erase h) := by
        funext finished g
        exact ih _ hshorter _ finished g rfl
      rw [hvisit]
    · rfl

theorem checkHints_withSchedule (instructions : Array Instruction) (levels : List (List Nat)) :
    (c.withSchedule instructions levels).checkHints = c.checkHints := by
  have hneeds : (c.withSchedule instructions levels).prerequisites = c.prerequisites := rfl
  have hvisit : (c.withSchedule instructions levels).visit = c.visit := by
    funext pending finished h
    exact visit_congr hneeds pending finished h
  rw [checkHints, checkHints, hvisit]
  rfl

theorem Chained.withSchedule (hc : c.Chained table) (instructions : Array Instruction)
    (levels : List (List Nat)) : (c.withSchedule instructions levels).Chained table where
  reserved_le := hc.reserved_le
  separate := ⟨hc.separate.nonempty, hc.separate.disjoint⟩
  internal := hc.internal
  readable := hc.readable
  total := hc.total

/-! ### The start -/

/-- An assignment in which exactly the inputs have values. -/
structure AtInputs (c : Circuit p) (S : Assignment p) : Prop where
  size_eq : S.size = c.wireCount
  isSolved_iff : ∀ w, S.isSolved w = true ↔ c.IsInput w
  free : ∀ g w, c.Produces g w → S.isSolved w = false

/-- The reserved wires and the witness are the wires before the internal ones. -/
theorem Chained.reserved_add_witnessSize (hc : c.Chained table)
    (hs : c.setup witness o = .ok s) :
    c.family.reservedWires + c.witnessSize = (c.publicWires + c.secretWires).toNat := by
  obtain ⟨hlength, -, -, hseed, -⟩ := setup_eq_ok_iff.1 hs
  have hfits := length_le_of_seed hseed
  have hreserved := hc.reserved_le
  have hpublic := c.publicWires.toNat_lt
  have hsize : UInt32.size = 2 ^ 32 := rfl
  have hword : UInt64.size = 18446744073709551616 := rfl
  have hwitness := c.witnessSize_eq
  rw [hword] at hwitness
  rw [hlength] at hfits
  rw [UInt64.toNat_add]
  omega

theorem isSolved_seed_iff (hlength : witness.length = c.witnessSize)
    (hseed : c.seed witness = .ok s) : s.isSolved w = true ↔ c.IsInput w := by
  constructor
  · intro hsolved
    obtain ⟨s₀, hfrom, -, hone⟩ := seed_eq_ok hseed
    rcases isSolved_of_seedFrom hfrom hsolved with hbefore | ⟨i, hi, rfl⟩
    · obtain ⟨x, hx⟩ := Assignment.isSolved_eq_true_iff.1 hbefore
      obtain ⟨hfamily, rfl, -⟩ := (hone w x).1 hx
      exact Or.inl ⟨hfamily, rfl⟩
    · exact Or.inr ⟨i, hlength ▸ hi, rfl⟩
  · rintro (⟨hfamily, rfl⟩ | ⟨i, hi, rfl⟩)
    · exact Assignment.isSolved_eq_true_iff.2 ⟨1, get?_zero_of_seed hseed hfamily⟩
    · have hi' : i < witness.length := hlength ▸ hi
      exact Assignment.isSolved_eq_true_iff.2
        ⟨_, get?_of_seed hseed (List.getElem?_eq_getElem hi')⟩

/-- What a solve starts from has values at the inputs, and these are not outputs. -/
theorem Chained.atInputs (hc : c.Chained table) (hs : c.setup witness o = .ok s) :
    c.AtInputs s := by
  obtain ⟨hlength, -, -, hseed, -⟩ := setup_eq_ok_iff.1 hs
  refine ⟨size_of_seed hseed, fun w => isSolved_seed_iff hlength hseed, fun g w hw => ?_⟩
  refine Bool.eq_false_iff.2 fun hsolved => ?_
  have hsum := hc.reserved_add_witnessSize hs
  have hfits := length_le_of_seed hseed
  have hinternal := (hc.internal g w hw).1
  rw [hlength] at hfits
  rcases (isSolved_seed_iff hlength hseed).1 hsolved with ⟨hfamily, rfl⟩ | ⟨i, hi, rfl⟩
  · rw [hfamily] at hsum
    simp only [Family.reservedWires, UInt32.toNat_zero] at hsum hinternal
    omega
  · rw [Wire.toNat_atPosition (by omega)] at hinternal
    omega

/-! ### Progress -/

/-- A state that hints have been run to, from an assignment. -/
abbrev Grown (c : Circuit p) (table : HintTable) (S : Assignment p) (run : Run p) : Prop :=
  c.GrownBy table (fun _ => False) S run.wires

section Progress

variable (hc : c.Chained table) (hS : c.AtInputs S)

include hc hS

/-- An output has its value from a call of its hint. -/
theorem called_of_isSolved (hrun : c.Grown table S run) (hg : c.Produces g w)
    (hw : run.wires.isSolved w = true) : ∃ inputs, c.Called table run.wires g inputs := by
  obtain ⟨inputs, hcalled, -⟩ := hrun.called hc.separate hg not_false (hS.free g w hg) hw
  exact ⟨inputs, hcalled⟩

/-- Where a hint was called, all hints were that it needs. -/
theorem called_of_involves (hrun : c.Grown table S run) {inputs : List Nat}
    (hcalled : c.Called table run.wires h inputs) (hinvolves : c.Involves h g) :
    ∃ inputs, c.Called table run.wires g inputs := by
  induction hinvolves with
  | refl => exact ⟨inputs, hcalled⟩
  | tail _ hneeds ih =>
    obtain ⟨inputs', hcalled'⟩ := ih
    obtain ⟨call, hcall, e, he, v, hv, hconst, hcoeff, hg⟩ := hneeds
    have hreads : c.Reads _ v.wire := ⟨call, hcall, e, he, v, hv, hconst, hcoeff, rfl⟩
    -- what a call has read has a value, which is from a call of its producer
    exact called_of_isSolved hc hS hrun (produces_of_producer? hg)
      (hcalled'.isSolved_of_reads hreads)

/-- A hint gives values to the outputs of the hints that it involves, and to no other wires. -/
theorem isSolved_iff_of_resolve (hrun : c.Grown table S run)
    (hres : c.resolve table pending h run = .ok () t) (w : Wire) :
    t.wires.isSolved w = true ↔
      run.wires.isSolved w = true ∨ ∃ g, c.Involves h g ∧ c.Produces g w := by
  constructor
  · exact (frame_of_resolve hres).2 w
  · rintro (hbefore | ⟨g, hinvolves, hg⟩)
    · exact (grows_resolve table pending h run t hres).isSolved hbefore
    · obtain ⟨call, hcall, -⟩ := resolve_eq_ok hres
      have hsize := hc.separate.nonempty h call hcall
      have hgrown := grownBy_of_resolve hrun hres
      obtain ⟨_, hcalled⟩ := called_of_isSolved hc hS hgrown
        ⟨call, hcall, WireRange.start_mem_wires hsize⟩ (isSolved_of_resolve hres hcall hsize)
      obtain ⟨_, hcalledg⟩ := called_of_involves hc hS hgrown hcalled hinvolves
      exact hcalledg.isSolved hg

variable (hwf : WellFounded fun g h => c.Needs h g)

include hwf

/-- While a hint reads its inputs, each wire that has no value is an output of a hint, which can be
run. -/
theorem provides_of_chained {call : HintCall} (hcall : c.hints[h]? = some call)
    (hneeded : ∀ g, c.Needs h g → ∀ run, c.Grown table S run →
      ∃ t, c.resolve table pending g run = .ok () t)
    {e : LinComb} (he : e ∈ call.inputs) {v : Term} (hv : v ∈ e) :
    c.Provides (c.resolve table pending) (fun run => c.Grown table S run ∧
      ∀ w, c.Produces h w → run.wires.isSolved w = false) v := by
  intro hconst hcoeff run hrun hunsolved
  obtain ⟨-, hkind⟩ := hc.readable call (Array.mem_of_getElem? hcall) e he v hv hcoeff
  rcases hkind with hconst' | hinput | ⟨g, hg⟩
  · exact absurd hconst' hconst
  · rw [hrun.1.extends_start.isSolved ((hS.isSolved_iff _).2 hinput)] at hunsolved
    cases hunsolved
  · have hproducer := producer?_of_produces hc.separate.disjoint hg
    have hneeds : c.Needs h g := ⟨call, hcall, e, he, v, hv, hconst, hcoeff, hproducer⟩
    obtain ⟨t, hres⟩ := hneeded g hneeds run hrun.1
    have hgrown := grownBy_of_resolve hrun.1 hres
    refine ⟨g, t, hproducer, hres, ⟨hgrown, fun _ => ?_⟩, ?_⟩
    · exact free_of_resolve hc.separate hwf hneeds hres hrun.2
    · exact hgrown.isSolved_of_resolve hc.separate hres (fun _ _ => not_false) (hS.free g) hg

/-- Every hint goes through, by induction on the hints that it needs. -/
theorem chained_progress (hh : h < c.hints.size) (hpending : ∀ g, c.Involves h g → g ∈ pending)
    (hrun : c.Grown table S run) : ∃ t, c.resolve table pending h run = .ok () t := by
  induction h using hwf.induction generalizing pending run with
  | _ h ih =>
  have hcall : c.hints[h]? = some c.hints[h] := Array.getElem?_eq_getElem hh
  generalize c.hints[h] = call at hcall
  rw [resolve_apply hcall (hpending h Relation.ReflTransGen.refl)]
  split
  · exact ⟨run, rfl⟩
  next hopen =>
  have hsize := hc.separate.nonempty h call hcall
  have hstart : c.Produces h call.outputs.start :=
    ⟨call, hcall, WireRange.start_mem_wires hsize⟩
  -- the first output speaks for all of them
  have hfree : ∀ w, c.Produces h w → run.wires.isSolved w = false := by
    intro w hw
    refine Bool.eq_false_iff.2 fun hsolved => hopen ⟨hsize, ?_⟩
    obtain ⟨_, hcalled⟩ := called_of_isSolved hc hS hrun hw hsolved
    exact hcalled.isSolved hstart
  have hneeded : ∀ g, c.Needs h g → ∀ run, c.Grown table S run →
      ∃ t, c.resolve table (pending.erase h) g run = .ok () t := fun g hneeds _ hrun' =>
    ih g hneeds (lt_of_needs hneeds) (mem_erase_of_involves hwf hpending hneeds) hrun'
  have hmem := Array.mem_of_getElem? hcall
  obtain ⟨f, hf, htotal⟩ := hc.total call hmem
  have hinputs : ∀ e ∈ call.inputs, ∀ v ∈ e, v.coeff < c.pool.size ∧
      c.Provides (c.resolve table (pending.erase h)) (fun run => c.Grown table S run ∧
        ∀ w, c.Produces h w → run.wires.isSolved w = false) v := by
    intro e he v hv
    refine ⟨?_, provides_of_chained hc hS hwf hcall hneeded he hv⟩
    by_cases hcoeff : v.coeff = 0
    · rw [hcoeff]
      exact Nat.lt_of_lt_of_le (by decide) c.pool.four_le_size
    · exact (hc.readable call hmem e he v hv hcoeff).1
  rw [hf]
  obtain ⟨xs, s, hread, hgrown, hfree'⟩ := inputs_progress hinputs ⟨hrun, hfree⟩
  have hlength := (inputs_eq_ok (grows_resolve table _) hread).2.length_eq
  obtain ⟨outputs, houtputs⟩ := htotal xs hlength.symm
  obtain ⟨s', -, hres⟩ := callHint_progress hcall houtputs fun v hv =>
    ⟨hgrown.extends_start.size_eq ▸ hS.size_eq ▸ (hc.internal h v hv).2, hfree' v hv⟩
  exact ⟨_, bind_eq_ok_iff.2 ⟨xs, s, hread, hres⟩⟩

end Progress

/-- Once a hint has its outputs, running it again changes nothing. -/
theorem solveHint_again (hsep : c.SeparateOutputs) (hh : h < c.hints.size)
    (hsolved : ∀ w, c.Produces h w → run.wires.isSolved w = true) :
    c.solveHint table h run = .ok () run := by
  have hcall : c.hints[h]? = some c.hints[h] := Array.getElem?_eq_getElem hh
  have hsize := hsep.nonempty h _ hcall
  rw [solveHint, resolve_apply hcall (List.mem_range.2 hh), if_pos]
  exact ⟨hsize, hsolved _ ⟨_, hcall, WireRange.start_mem_wires hsize⟩⟩

/-- A sequence of hints goes through, by induction on the sequence. -/
theorem processAll_progress (hc : c.Chained o.hints) (hS : c.AtInputs S)
    (hwf : WellFounded fun g h => c.Needs h g) {is : List Nat} (his : c.AreHints is)
    (hrun : c.Grown o.hints S run) :
    ∃ t, c.processAll o is run = .ok () t ∧ c.Grown o.hints S t ∧
      ∀ w, t.wires.isSolved w = true ↔ run.wires.isSolved w = true ∨
        ∃ i ∈ is, ∃ h g, c.instructions[i]? = some (.hint h) ∧ c.Involves h g ∧
          c.Produces g w := by
  induction is generalizing run with
  | nil => exact ⟨run, rfl, hrun, fun w => by simp⟩
  | cons i rest ih =>
    obtain ⟨⟨h, hh, hi⟩, hrest⟩ := List.forall_mem_cons.1 his
    obtain ⟨s, hres⟩ := chained_progress hc hS hwf hh (fun _ => mem_range_of_involves hh) hrun
    obtain ⟨t, ht, hgrown, hsolved⟩ := ih hrest (grownBy_of_resolve hrun hres)
    have hprocess : c.process o i run = .ok () s := by
      rw [process, hi]
      exact hres
    refine ⟨t, processAll_cons_eq_ok_iff.2 ⟨s, hprocess, ht⟩, hgrown, fun w => ?_⟩
    rw [hsolved, isSolved_iff_of_resolve hc hS hrun hres, or_assoc]
    refine or_congr_right ?_
    constructor
    · rintro (⟨g, hg⟩ | ⟨j, hj, hinvolved⟩)
      · exact ⟨i, List.mem_cons_self, h, g, hi, hg⟩
      · exact ⟨j, List.mem_cons_of_mem i hj, hinvolved⟩
    · rintro ⟨j, hj, h', g, hj', hg⟩
      rcases List.mem_cons.1 hj with rfl | hj
      · obtain rfl := Instruction.hint.inj (Option.some.inj (hi.symm.trans hj'))
        exact Or.inl ⟨g, hg⟩
      · exact Or.inr ⟨j, hj, h', g, hj', hg⟩

/-! ### Values -/

/-- A sequence of hints stays with every valuation at which the hints hold. -/
theorem follows_hints {is : List Nat} (his : c.AreHints is)
    (hz : ∀ call ∈ c.hints, call.Holds c.pool o.hints z) : Follows z (c.processAll o is) := by
  refine triple_forM fun i hi => ?_
  obtain ⟨h, -, hins⟩ := his i hi
  unfold process
  rw [hins]
  exact follows_resolve hz _ h

/-- Where a hint was called, it holds at the values. -/
theorem Called.holds {call : HintCall} {inputs : List Nat} (hcalled : c.Called table S h inputs)
    (hcall : c.hints[h]? = some call) (hz : S.Agrees z) : call.Holds c.pool table z := by
  intro f outputs hf houtputs wx hwx
  obtain ⟨call', f', xs, outputs', hcall', hf', hvalues, rfl, houtputs', hwires⟩ := hcalled
  obtain rfl := Option.some.inj (hcall.symm.trans hcall')
  obtain rfl := Option.some.inj (hf.symm.trans hf')
  have hinputs : xs = call.inputs.map (LinComb.denote c.pool z) := by
    rw [← List.forall₂_eq_eq_eq, List.forall₂_map_right_iff]
    exact hvalues.flip.imp fun _ _ hvalue => (LinComb.denote_eq_of_value hvalue hz).symm
  rw [hinputs, List.map_map] at houtputs'
  obtain rfl : outputs = outputs' := Except.ok.inj (houtputs.symm.trans houtputs')
  exact hz _ _ (hwires wx hwx)

/-- All hints, one after the other. -/
def allHints (c : Circuit p) : Array Instruction :=
  ((List.range c.hints.size).map Instruction.hint).toArray

theorem getElem?_allHints (hh : h < c.hints.size) : c.allHints[h]? = some (.hint h) := by
  simp [allHints, hh]

/-- Some assignment has the values of all inputs and outputs, and agrees with every valuation at
which the hints hold. -/
theorem Chained.exists_complete (hc : c.Chained table) (hS : c.AtInputs S)
    (hwf : WellFounded fun g h => c.Needs h g) :
    ∃ T, S.Extends T ∧ (∀ w, c.IsInput w ∨ (∃ g, c.Produces g w) → T.isSolved w = true) ∧
      (∀ h < c.hints.size, ∃ inputs, c.Called table T h inputs) ∧
      ∀ z, S.Agrees z → (∀ call ∈ c.hints, call.Holds c.pool table z) → T.Agrees z := by
  -- what a run of all hints ends in
  have hc' := hc.withSchedule c.allHints []
  have hS' : (c.withSchedule c.allHints []).AtInputs S := ⟨hS.size_eq, hS.isSolved_iff, hS.free⟩
  have hhints : (c.withSchedule c.allHints []).AreHints (List.range c.hints.size) := by
    intro i hi
    have hlt := List.mem_range.1 hi
    exact ⟨i, hlt, getElem?_allHints hlt⟩
  have hstart : (c.withSchedule c.allHints []).Grown table S ⟨S, #[], #[], none⟩ :=
    GrownBy.refl S
  obtain ⟨t, ht, hgrown, hsolved⟩ :=
    processAll_progress (o := ⟨1, table, false⟩) hc' hS' hwf hhints hstart
  have hall : ∀ g w, c.Produces g w → t.wires.isSolved w = true := by
    intro g w hg
    have hlt := lt_of_produces hg
    exact (hsolved w).2 (Or.inr ⟨g, List.mem_range.2 hlt, g, g, getElem?_allHints hlt,
      Relation.ReflTransGen.refl, hg⟩)
  refine ⟨t.wires, hgrown.extends_start, fun w hw => ?_, fun h hh => ?_, fun z hz hholds => ?_⟩
  · rcases hw with hinput | ⟨g, hg⟩
    · exact hgrown.extends_start.isSolved ((hS.isSolved_iff w).2 hinput)
    · exact hall g w hg
  · have hcall : c.hints[h]? = some c.hints[h] := Array.getElem?_eq_getElem hh
    have hstart : c.Produces h c.hints[h].outputs.start :=
      ⟨_, hcall, WireRange.start_mem_wires (hc.separate.nonempty h _ hcall)⟩
    have hcalled := called_of_isSolved hc' hS' (g := h) hgrown hstart (hall h _ hstart)
    exact hcalled
  · exact (follows_hints (o := ⟨1, table, false⟩) hhints hholds).of_ok hz ht

/-! ### Schedules -/

/-- However the levels are processed, it is alike to their instructions in some order. -/
theorem ProcessesLevels.exists_alike {m : Solve p Unit} (hm : c.ProcessesLevels o m) :
    ∃ is, is.Perm c.levels.flatten ∧ Alike m (c.processAll o is) := by
  obtain ⟨workers, rfl | ⟨turns, hturns, rfl⟩⟩ := hm
  · have halike := alike_processLevels (c := c) (o := { o with workers }) 0 c.levels
    exact ⟨_, List.Perm.refl _, halike⟩
  · have halike := alike_processLevelsInTurns (c := c) (o := { o with workers }) turns 0 c.levels
    exact ⟨_, orderInTurns_perm hturns, halike⟩

section Schedules

variable (hc : c.Chained o.hints) (hs : c.setup witness o = .ok s)
  (hhints : c.AreHints c.levels.flatten)

include hc hs hhints

/-- A schedule of hints goes through, and its data in the end are those of its instructions in some
order. -/
theorem exists_processed_hints {m : Solve p Unit} (hm : c.ProcessesLevels o m)
    (journal : Journal p) :
    ∃ run t is, m (c.initialRun o s journal) = .ok () run ∧ run.SameData t ∧ c.AreHints is ∧
      c.processAll o is (c.initialRun o s journal) = .ok () t ∧ ∀ w, t.wires.isSolved w = true ↔
        c.IsInput w ∨ ∃ g, c.IsReached g ∧ c.Produces g w := by
  obtain ⟨is, hperm, halike⟩ := hm.exists_alike
  have hS := hc.atInputs hs
  have hwf := wellFounded_needs (setup_eq_ok_iff.1 hs).2.2.2.2
  have his : c.AreHints is := fun i hi => hhints i (hperm.subset hi)
  have hstart : c.Grown o.hints s (c.initialRun o s journal) := GrownBy.refl s
  obtain ⟨t, ht, -, hsolved⟩ := processAll_progress hc hS hwf his hstart
  obtain ⟨run, hrun, hsame⟩ := ok_of_alike_right halike ht
  refine ⟨run, t, is, hrun, hsame, his, ht, fun w => ?_⟩
  rw [hsolved]
  refine or_congr (hS.isSolved_iff w) ?_
  -- the order makes no difference to what is scheduled
  constructor
  · rintro ⟨i, hi, h, g, hins, hinvolves, hg⟩
    obtain ⟨level, hlevel, hmem⟩ := List.mem_flatten.1 (hperm.subset hi)
    exact ⟨g, ⟨h, ⟨level, hlevel, i, hmem, hins⟩, hinvolves⟩, hg⟩
  · rintro ⟨g, ⟨h, ⟨level, hlevel, i, hmem, hins⟩, hinvolves⟩, hg⟩
    exact ⟨i, hperm.symm.subset (List.mem_flatten.2 ⟨level, hlevel, hmem⟩), h, g, hins,
      hinvolves, hg⟩

/-- What has a value in the end of a schedule of hints, and which one. -/
theorem Finishes.get?_eq_some_iff (hz : c.Seeded witness z)
    (hholds : ∀ call ∈ c.hints, call.Holds c.pool o.hints z) (hrun : c.Finishes o s run)
    (w : Wire) (x : Fp p) :
    run.wires.get? w = some x ↔
      (c.IsInput w ∨ ∃ g, c.IsReached g ∧ c.Produces g w) ∧ x = z w := by
  obtain ⟨m, journal, hm, hrun⟩ := hrun
  obtain ⟨run', t, is, hrun', hsame, his, ht, hsolved⟩ :=
    exists_processed_hints hc hs hhints hm journal
  obtain rfl : run = run' := (EStateM.Result.ok.inj (hrun.symm.trans hrun')).2
  have hagrees : t.wires.Agrees z :=
    (follows_hints his hholds).of_ok ((agrees_iff_of_seed (setup_eq_ok_iff.1 hs).2.2.2.1).2 hz) ht
  rw [hsame.wires_eq, ← hsolved, Assignment.isSolved_eq_true_iff]
  constructor
  · intro hx
    exact ⟨⟨x, hx⟩, (hagrees w x hx).symm⟩
  · rintro ⟨⟨y, hy⟩, rfl⟩
    rw [hy, hagrees w y hy]

/-- The wires in the end of a schedule of hints are as writes leave them, and none is lost. -/
theorem Finishes.tidy (hrun : c.Finishes o s run) :
    run.Tidy ∧ run.wires.size = c.wireCount := by
  obtain ⟨m, journal, hm, hrun⟩ := hrun
  obtain ⟨run', t, is, hrun', hsame, -, ht, -⟩ :=
    exists_processed_hints hc hs hhints hm journal
  obtain rfl : run = run' := (EStateM.Result.ok.inj (hrun.symm.trans hrun')).2
  have hseed := (setup_eq_ok_iff.1 hs).2.2.2.1
  have hnumbered : t.wires.Numbered :=
    (keeps_processAll (Run.stable_wires Assignment.persistent_numbered c) o is).of_ok
      (of_seed Assignment.persistent_numbered (Assignment.numbered_empty _) hseed) ht
  have hcounted : t.wires.Counted :=
    (keeps_processAll (Run.stable_wires Assignment.persistent_counted c) o is).of_ok
      (of_seed Assignment.persistent_counted (Assignment.counted_empty _) hseed) ht
  refine ⟨Run.Tidy.of_sameData ⟨hnumbered, hcounted⟩ hsame.symm, ?_⟩
  rw [hsame.wires_eq, (below_of_processAll ht).extends_wires.size_eq]
  exact size_of_seed hseed

end Schedules

section Reschedule

variable {c' : Circuit p} (hc' : c.SchedulesHints c')

include hc'

theorem SchedulesHints.chained (hc : c.Chained table) : c'.Chained table := by
  obtain ⟨instructions, levels, rfl, -⟩ := hc'
  exact hc.withSchedule instructions levels

/-- The setup does not look at the schedule. -/
theorem SchedulesHints.setup_eq : c'.setup witness o = c.setup witness o := by
  obtain ⟨instructions, levels, rfl, -⟩ := hc'
  rw [setup_eq, setup_eq, checkHints_withSchedule]
  rfl

theorem SchedulesHints.areHints : c'.AreHints c'.levels.flatten := by
  obtain ⟨instructions, levels, rfl, hhints⟩ := hc'
  exact hhints

/-- A schedule of hints ends with the values of the equations, on what it reaches. -/
theorem SchedulesHints.get?_eq_some_iff (hc : c.Chained o.hints)
    (hs : c.setup witness o = .ok s) (hz : c.Seeded witness z)
    (hholds : ∀ call ∈ c.hints, call.Holds c.pool o.hints z) (hrun : c'.Finishes o s run)
    (w : Wire) (x : Fp p) :
    run.wires.get? w = some x ↔
      (c.IsInput w ∨ ∃ g, c'.IsReached g ∧ c.Produces g w) ∧ x = z w := by
  have hs' := hc'.setup_eq.trans hs
  obtain ⟨instructions, levels, rfl, hhints⟩ := hc'
  exact Finishes.get?_eq_some_iff (hc.withSchedule instructions levels) hs' hhints hz hholds hrun
    w x

/-- To run a hint again that a schedule has reached changes nothing. -/
theorem SchedulesHints.solveHint_again (hc : c.Chained o.hints)
    (hs : c.setup witness o = .ok s) (hz : c.Seeded witness z)
    (hholds : ∀ call ∈ c.hints, call.Holds c.pool o.hints z) (hrun : c'.Finishes o s run)
    (hh : c'.IsReached h) : c.solveHint o.hints h run = .ok () run := by
  have hlt : h < c.hints.size := by
    obtain ⟨instructions, levels, rfl, hhints⟩ := hc'
    obtain ⟨h₀, ⟨level, hlevel, i, hi, hins⟩, hinvolves⟩ := hh
    obtain ⟨h₁, hlt, hins'⟩ := hhints i (List.mem_flatten.2 ⟨level, hlevel, hi⟩)
    obtain rfl := Instruction.hint.inj (Option.some.inj (hins'.symm.trans hins))
    exact List.mem_range.1 (mem_range_of_involves hlt hinvolves)
  refine Circuit.solveHint_again hc.separate hlt fun w hw => ?_
  rw [Assignment.isSolved_eq_true_iff]
  exact ⟨z w, (hc'.get?_eq_some_iff hc hs hz hholds hrun w (z w)).2 ⟨Or.inr ⟨h, hh, hw⟩, rfl⟩⟩

/-- A state that reaches what another one reaches has its values. -/
theorem SchedulesHints.extends_of_isReached {c'' : Circuit p} (hc'' : c.SchedulesHints c'')
    (hc : c.Chained o.hints) (hs : c.setup witness o = .ok s) (hz : c.Seeded witness z)
    (hholds : ∀ call ∈ c.hints, call.Holds c.pool o.hints z) {run' : Run p}
    (hrun : c'.Finishes o s run) (hrun' : c''.Finishes o s run')
    (hreached : ∀ g, c'.IsReached g → c''.IsReached g) : run.wires.Extends run'.wires := by
  refine ⟨?_, fun w x hx => ?_⟩
  · have hsize := (Finishes.tidy (hc'.chained hc) (hc'.setup_eq.trans hs) hc'.areHints hrun).2
    have hsize' :=
      (Finishes.tidy (hc''.chained hc) (hc''.setup_eq.trans hs) hc''.areHints hrun').2
    obtain ⟨_, _, rfl, -⟩ := hc'
    obtain ⟨_, _, rfl, -⟩ := hc''
    exact hsize'.trans hsize.symm
  · -- both states have their values from the same valuation
    obtain ⟨hkind, rfl⟩ := (hc'.get?_eq_some_iff hc hs hz hholds hrun w x).1 hx
    refine (hc''.get?_eq_some_iff hc hs hz hholds hrun' w _).2 ⟨hkind.imp_right ?_, rfl⟩
    rintro ⟨g, hg, hw⟩
    exact ⟨g, hreached g hg, hw⟩

end Reschedule

/-- In a circuit of chained hints the equations of the hints have one solution, as far as inputs
and outputs go.  Every schedule of hints goes through, however its levels are processed; it ends
with values on the inputs and on the outputs of the hints that it reaches, and on no other wires,
and the values are those of the solution.  So schedules that reach the same hints end with the same
wires, and to run a hint again that was reached changes nothing. -/
theorem chained_schedules (hc : c.Chained o.hints) (hs : c.setup witness o = .ok s) :
    ∃ z : Valuation p, c.Seeded witness z ∧
      (∀ call ∈ c.hints, call.Holds c.pool o.hints z) ∧
      (∀ z', c.Seeded witness z' → (∀ call ∈ c.hints, call.Holds c.pool o.hints z') →
        ∀ w, c.IsInput w ∨ (∃ g, c.Produces g w) → z' w = z w) ∧
      ∀ c', c.SchedulesHints c' →
        (∀ m journal, c'.ProcessesLevels o m →
          ∃ run, m (c'.initialRun o s journal) = .ok () run) ∧
        ∀ run, c'.Finishes o s run →
          (∀ w x, run.wires.get? w = some x ↔
            (c.IsInput w ∨ ∃ g, c'.IsReached g ∧ c.Produces g w) ∧ x = z w) ∧
          (∀ h, c'.IsReached h → c.solveHint o.hints h run = .ok () run) ∧
          ∀ c'' run', c.SchedulesHints c'' → (∀ g, c'.IsReached g ↔ c''.IsReached g) →
            c''.Finishes o s run' → run.wires = run'.wires := by
  have hwf := wellFounded_needs (setup_eq_ok_iff.1 hs).2.2.2.2
  have hseed := (setup_eq_ok_iff.1 hs).2.2.2.1
  obtain ⟨T, hextends, hall, hcalled, hagrees⟩ := hc.exists_complete (hc.atInputs hs) hwf
  -- the valuation that the complete assignment agrees with
  let z : Valuation p := fun w => (T.get? w).getD 0
  have hz : T.Agrees z := by
    intro w x hx
    simp [z, hx]
  have hholds : ∀ call ∈ c.hints, call.Holds c.pool o.hints z := by
    intro call hcall
    obtain ⟨h, hh⟩ := Array.getElem?_of_mem hcall
    obtain ⟨inputs, hcalledh⟩ := hcalled h (Array.getElem?_eq_some_iff.1 hh).1
    exact hcalledh.holds hh hz
  have hseeded : c.Seeded witness z := (agrees_iff_of_seed hseed).1 (hz.anti hextends)
  refine ⟨z, hseeded, hholds, fun z' hz' hholds' w hw => ?_, fun c' hc' => ⟨?_, ?_⟩⟩
  · obtain ⟨x, hx⟩ := Assignment.isSolved_eq_true_iff.1 (hall w hw)
    rw [hz w x hx]
    exact hagrees z' ((agrees_iff_of_seed hseed).2 hz') hholds' w x hx
  · intro m journal hm
    obtain ⟨run, -, -, hrun, -⟩ := exists_processed_hints (hc'.chained hc)
      (hc'.setup_eq.trans hs) hc'.areHints hm journal
    exact ⟨run, hrun⟩
  · intro run hrun
    refine ⟨hc'.get?_eq_some_iff hc hs hseeded hholds hrun,
      fun h hh => hc'.solveHint_again hc hs hseeded hholds hrun hh, ?_⟩
    intro c'' run' hc'' hreached hrun'
    have htidy := (Finishes.tidy (hc'.chained hc) (hc'.setup_eq.trans hs) hc'.areHints hrun).1
    have htidy' :=
      (Finishes.tidy (hc''.chained hc) (hc''.setup_eq.trans hs) hc''.areHints hrun').1
    exact Assignment.Extends.antisymm htidy htidy'
      (hc'.extends_of_isReached hc'' hc hs hseeded hholds hrun hrun' fun g => (hreached g).1)
      (hc''.extends_of_isReached hc' hc hs hseeded hholds hrun' hrun fun g => (hreached g).2)

/-- Only hint 2 of `fork`, which needs hint 0. -/
def forkLate : Circuit 17 := fork.withSchedule #[.hint 2] [[0]]

/-- Hint 0 of `fork`, and then hint 2 two times. -/
def forkEarly : Circuit 17 := fork.withSchedule #[.hint 0, .hint 2] [[0], [1, 1]]

theorem fork_chained : fork.Chained doubleTable where
  reserved_le := by decide
  separate := by decide
  internal := by
    have hall : ∀ call ∈ fork.hints, (call.outputs.wires.all fun w =>
        (fork.publicWires + fork.secretWires).toNat ≤ w.toNat ∧ w.toNat < fork.wireCount) := by
      decide
    rintro h w ⟨call, hcall, hw⟩
    exact of_decide_eq_true (List.all_eq_true.1 (hall call (Array.mem_of_getElem? hcall)) w hw)
  readable := by
    have hinput : fork.IsInput 0 := Or.inr ⟨0, by decide, rfl⟩
    have houtput : fork.Produces 0 1 := ⟨_, rfl, by decide⟩
    intro call hcall e he t ht _
    have hterm : t = ⟨1, 0⟩ ∨ t = ⟨1, 1⟩ := by
      revert t e call
      decide
    rcases hterm with rfl | rfl
    · exact ⟨by decide, Or.inr (Or.inl hinput)⟩
    · exact ⟨by decide, Or.inr (Or.inr ⟨0, houtput⟩)⟩
  total := by
    intro call hcall
    have hid : call.hint = 0 := by
      revert call
      decide
    rw [hid]
    exact ⟨_, rfl, fun xs _ => ⟨_, rfl⟩⟩

theorem forkLate_isReached (g : Nat) : forkLate.IsReached g ↔ fork.Involves 2 g := by
  constructor
  · rintro ⟨h, ⟨level, hlevel, i, hi, hins⟩, hinvolves⟩
    obtain rfl := List.mem_singleton.1 hlevel
    obtain rfl := List.mem_singleton.1 hi
    obtain rfl := Instruction.hint.inj (Option.some.inj hins)
    exact hinvolves
  · exact fun hinvolves => ⟨2, ⟨[0], by decide, 0, by decide, rfl⟩, hinvolves⟩

theorem forkEarly_isReached (g : Nat) : forkEarly.IsReached g ↔ fork.Involves 2 g := by
  constructor
  · rintro ⟨h, ⟨level, hlevel, i, hi, hins⟩, hinvolves⟩
    have hcases : h = 0 ∨ h = 2 := by
      have hmem : Instruction.hint h ∈ forkEarly.instructions := Array.mem_of_getElem? hins
      simpa [forkEarly, withSchedule] using hmem
    rcases hcases with rfl | rfl
    · -- hint 2 needs hint 0
      have hneeds : fork.Needs 2 0 :=
        ⟨_, rfl, [⟨1, 1⟩], by decide, ⟨1, 1⟩, by decide, by decide, by decide, by decide⟩
      exact Relation.ReflTransGen.head hneeds hinvolves
    · exact hinvolves
  · exact fun hinvolves => ⟨2, ⟨[1, 1], by decide, 1, by decide, rfl⟩, hinvolves⟩

/-- Both schedules reach the hints 0 and 2, so they end with the same wires. -/
theorem fork_schedules :
    fork.Chained doubleTable ∧ ∃ s run run',
      fork.setup [.ofNat 3] ⟨2, doubleTable, false⟩ = .ok s ∧
      forkLate.Finishes ⟨2, doubleTable, false⟩ s run ∧
      forkEarly.Finishes ⟨2, doubleTable, false⟩ s run' ∧ run.wires = run'.wires ∧
      run.wires.isSolved 3 = true := by
  have hsetup : (fork.setup [.ofNat 3] ⟨2, doubleTable, false⟩).isOk = true := by decide +kernel
  rcases hs : fork.setup [.ofNat 3] ⟨2, doubleTable, false⟩ with e | s
  · rw [hs] at hsetup
    cases hsetup
  have hlate : fork.SchedulesHints forkLate := ⟨_, _, rfl, fun i hi => ⟨2, by decide, by
    obtain rfl := List.mem_singleton.1 hi
    rfl⟩⟩
  have hearly : fork.SchedulesHints forkEarly := by
    refine ⟨_, _, rfl, fun i hi => ?_⟩
    have hcases : i = 0 ∨ i = 1 := by simpa using hi
    rcases hcases with rfl | rfl
    · exact ⟨0, by decide, rfl⟩
    · exact ⟨2, by decide, rfl⟩
  obtain ⟨z, -, -, -, hschedules⟩ := chained_schedules fork_chained hs
  obtain ⟨hgoes, hends⟩ := hschedules forkLate hlate
  obtain ⟨hgoes', -⟩ := hschedules forkEarly hearly
  obtain ⟨run, hrun⟩ := hgoes _ #[] ⟨2, Or.inl rfl⟩
  obtain ⟨run', hrun'⟩ := hgoes' _ #[] ⟨2, Or.inl rfl⟩
  have hfinishes : forkLate.Finishes _ s run := ⟨_, _, ⟨2, Or.inl rfl⟩, hrun⟩
  have hfinishes' : forkEarly.Finishes _ s run' := ⟨_, _, ⟨2, Or.inl rfl⟩, hrun'⟩
  obtain ⟨hvalues, -, hsame⟩ := hends run hfinishes
  refine ⟨fork_chained, s, run, run', rfl, hfinishes, hfinishes', ?_, ?_⟩
  · exact hsame forkEarly run' hearly
      (fun g => (forkLate_isReached g).trans (forkEarly_isReached g).symm) hfinishes'
  · refine Assignment.isSolved_eq_true_iff.2 ⟨z 3, (hvalues 3 _).2 ⟨Or.inr ⟨2, ?_, ?_⟩, rfl⟩⟩
    · exact (forkLate_isReached 2).2 Relation.ReflTransGen.refl
    · exact ⟨_, rfl, by decide⟩

end Circuit

end WireSolve
