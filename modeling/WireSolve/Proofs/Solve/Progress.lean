/-
WireSolve/Proofs/Solve/Progress.lean

A hint goes through wherever its values are known to come out.

Fix a start, and an assignment that is grown from it: everything with a value had
one at the start, is excepted, or was given it by the call of a hint none of whose
outputs had a value at the start (`Circuit.GrownBy`).  Say that a hint has its
outputs there.  Then it goes through from every state between the two that is
grown in the same way, and it stays below: the wires that it reads have their
values in the end, so each of them is at hand or is produced by a hint of which
the same can be said (`Circuit.comesOut`).  The induction is on the hints that are
needed, which have no cycles.
-/
import WireSolve.Proofs.Solve.Producers

namespace WireSolve

namespace Circuit

open Solve

variable {p : Nat} [Modulus p] {c : Circuit p} {table : HintTable} {pending : List Nat}
  {g h : Nat} {w : Wire} {run : Run p} {s t S T : Assignment p} {W : Wire → Prop}

/-! ### Growing by calls -/

/-- An assignment that is grown from another: by wires that are excepted, and by calls of hints none
of whose outputs had a value before. -/
structure GrownBy (c : Circuit p) (table : HintTable) (W : Wire → Prop) (S s : Assignment p) :
    Prop where
  extends_start : S.Extends s
  origin : ∀ w, s.isSolved w = true → S.isSolved w = true ∨ W w ∨
    ∃ g inputs, c.Called table s g inputs ∧ c.Produces g w ∧
      ∀ v, c.Produces g v → S.isSolved v = false

theorem GrownBy.refl (S : Assignment p) : c.GrownBy table W S S :=
  ⟨Assignment.Extends.refl S, fun _ hw => Or.inl hw⟩

/-- A step that gives values to excepted wires only. -/
theorem GrownBy.of_extends (hs : c.GrownBy table W S s) (hst : s.Extends t)
    (hw : ∀ w, t.isSolved w = true → s.isSolved w = true ∨ W w) : c.GrownBy table W S t := by
  refine ⟨hs.extends_start.trans hst, fun w hsolved => ?_⟩
  rcases hw w hsolved with hbefore | hexcepted
  · refine (hs.origin w hbefore).imp_right (Or.imp_right ?_)
    rintro ⟨g, inputs, hcalled, hg, hfresh⟩
    exact ⟨g, inputs, hcalled.of_extends hst, hg, hfresh⟩
  · exact Or.inr (Or.inl hexcepted)

/-- Calls grow an assignment in this way: the outputs had no values before the call. -/
theorem keptByCalls_grownBy (H : Nat → Prop) :
    c.KeptByCalls table H fun run => c.GrownBy table W S run.wires := by
  intro h call f xs run t _ hrun hcall hf hvalues hres
  have hcalled := called_of_callHint hcall hf hvalues hres
  obtain ⟨outputs, s, -, hset, rfl⟩ := callHint_eq_ok_iff.1 hres
  have hst := Assignment.extends_of_setAll hset
  refine ⟨hrun.extends_start.trans hst, fun w hw => ?_⟩
  by_cases hmem : w ∈ call.outputs.wires
  · refine Or.inr (Or.inr ⟨h, _, hcalled, ⟨call, hcall, hmem⟩, ?_⟩)
    rintro v ⟨call', hcall', hv⟩
    obtain rfl := Option.some.inj (hcall.symm.trans hcall')
    rw [← WireRange.map_fst_zip outputs] at hv
    obtain ⟨wx, hwx, rfl⟩ := List.mem_map.1 hv
    refine hrun.extends_start.isSolved_eq_false ?_
    exact Assignment.isSolved_eq_false_iff.2 (Assignment.get?_of_setAll hset wx hwx).1
  · have hbefore : run.wires.isSolved w = true := by
      rw [← hw, Assignment.isSolved, Assignment.isSolved,
        Assignment.get?_of_setAll_of_notMem hset (by rwa [WireRange.map_fst_zip])]
    refine (hrun.origin w hbefore).imp_right (Or.imp_right ?_)
    rintro ⟨g, inputs, hcalled, hg, hfresh⟩
    exact ⟨g, inputs, hcalled.of_extends hst, hg, hfresh⟩

theorem grownBy_of_resolve {t : Run p} (hrun : c.GrownBy table W S run.wires)
    (hres : c.resolve table pending h run = .ok () t) : c.GrownBy table W S t.wires :=
  of_resolve (closed_involves c h) (keptByCalls_grownBy _) Relation.ReflTransGen.refl hrun hres

/-- A hint that has a new output, one that is not excepted, was called. -/
theorem GrownBy.called (hs : c.GrownBy table W S s) (hsep : c.SeparateOutputs)
    (hg : c.Produces g w) (hw : ¬ W w) (hstart : S.isSolved w = false)
    (hsolved : s.isSolved w = true) :
    ∃ inputs, c.Called table s g inputs ∧ ∀ v, c.Produces g v → S.isSolved v = false := by
  rcases hs.origin w hsolved with hbefore | hexcepted | ⟨g', inputs, hcalled, hg', hfresh⟩
  · rw [hstart] at hbefore
    cases hbefore
  · exact absurd hexcepted hw
  · obtain rfl := hsep.disjoint g g' w hg hg'
    exact ⟨inputs, hcalled, hfresh⟩

/-- A hint that is run when it is needed gives no values to the outputs of the one that needs it. -/
theorem free_of_resolve (hsep : c.SeparateOutputs) (hwf : WellFounded fun g h => c.Needs h g)
    (hneeds : c.Needs h g) {t : Run p} (hres : c.resolve table pending g run = .ok () t)
    (hfree : ∀ v, c.Produces h v → run.wires.isSolved v = false) {v : Wire}
    (hv : c.Produces h v) : t.wires.isSolved v = false := by
  refine Bool.eq_false_iff.2 fun hsolved => ?_
  rcases (frame_of_resolve hres).2 v hsolved with hbefore | ⟨g', hinvolves, hg'⟩
  · rw [hfree v hv] at hbefore
    cases hbefore
  · obtain rfl := hsep.disjoint h g' v hv hg'
    exact not_involves_of_needs hwf hneeds hinvolves

/-- After a hint that is run all its outputs have values, if none of them had one at the start. -/
theorem GrownBy.isSolved_of_resolve {t : Run p} (ht : c.GrownBy table W S t.wires)
    (hsep : c.SeparateOutputs) (hres : c.resolve table pending g run = .ok () t)
    (hexcepted : ∀ v, c.Produces g v → ¬ W v)
    (hfresh : ∀ v, c.Produces g v → S.isSolved v = false) (hw : c.Produces g w) :
    t.wires.isSolved w = true := by
  obtain ⟨call, hcall, -⟩ := id hw
  have hsize := hsep.nonempty g call hcall
  have hstart : c.Produces g call.outputs.start :=
    ⟨call, hcall, WireRange.start_mem_wires hsize⟩
  obtain ⟨_, hcalled, -⟩ := ht.called hsep hstart (hexcepted _ hstart) (hfresh _ hstart)
    (Circuit.isSolved_of_resolve hres hcall hsize)
  exact hcalled.isSolved hw

/-! ### Reading inputs -/

section Inputs

variable {produce : Nat → Solve p Unit} {P : Run p → Prop} {t' : Run p}

/-- Whenever a wire that is read has no value, its producer can be run and provides it. -/
def Provides (c : Circuit p) (produce : Nat → Solve p Unit) (P : Run p → Prop) (v : Term) : Prop :=
  ¬ v.isConstant → v.coeff ≠ 0 → ∀ run, P run → run.wires.isSolved v.wire = false →
    ∃ g t, c.producer? v.wire = some g ∧ produce g run = .ok () t ∧ P t ∧
      t.wires.isSolved v.wire = true

/-- A term whose wire is provided is read. -/
theorem readTerm_progress {v : Term} (hcoeff : v.coeff < c.pool.size)
    (hv : c.Provides produce P v) (acc : Fp p) (hrun : P run) :
    ∃ x t, c.readTerm produce acc v run = .ok x t ∧ P t := by
  have hprovide : ∃ t, c.provide produce v run = .ok () t ∧ P t ∧
      (v.isConstant ∨ v.coeff = 0 ∨ t.wires.isSolved v.wire) := by
    rw [provide_apply]
    split
    · next hknown => exact ⟨run, rfl, hrun, hknown⟩
    · next hopen =>
      simp only [not_or, Bool.not_eq_true] at hopen
      obtain ⟨g, t, hg, hres, ht, hsolved⟩ :=
        hv (by simp [hopen.1]) hopen.2.1 run hrun hopen.2.2
      rw [hg]
      exact ⟨t, hres, ht, Or.inr (Or.inr hsolved)⟩
  obtain ⟨t, hres, ht, hknown⟩ := hprovide
  obtain ⟨x, hx⟩ : ∃ x, v.addTo c.pool t.wires acc = .ok x := Term.addTo_isOk_iff.2 ⟨hcoeff, hknown⟩
  refine ⟨x, t, bind_eq_ok_iff.2 ⟨(), t, hres, bind_eq_ok_iff.2 ⟨t.wires, t, rfl, ?_⟩⟩, ht⟩
  rw [hx]
  rfl

theorem foldlM_readTerm_progress {e : LinComb}
    (he : ∀ v ∈ e, v.coeff < c.pool.size ∧ c.Provides produce P v) (acc : Fp p) (hrun : P run) :
    ∃ x t, e.foldlM (c.readTerm produce) acc run = .ok x t ∧ P t := by
  induction e generalizing acc run with
  | nil => exact ⟨acc, run, rfl, hrun⟩
  | cons v rest ih =>
    rw [List.foldlM_cons]
    obtain ⟨⟨hcoeff, hv⟩, hrest⟩ := List.forall_mem_cons.1 he
    obtain ⟨y, s, hs, hPs⟩ := readTerm_progress hcoeff hv acc hrun
    obtain ⟨x, t, ht, hPt⟩ := ih hrest y hPs
    exact ⟨x, t, bind_eq_ok_iff.2 ⟨y, s, hs, ht⟩, hPt⟩

/-- Inputs whose wires are provided are read. -/
theorem inputs_progress {es : List LinComb}
    (hes : ∀ e ∈ es, ∀ v ∈ e, v.coeff < c.pool.size ∧ c.Provides produce P v) (hrun : P run) :
    ∃ xs t, es.mapM (c.readInput produce) run = .ok xs t ∧ P t := by
  induction es generalizing run with
  | nil => exact ⟨[], run, rfl, hrun⟩
  | cons e rest ih =>
    obtain ⟨he, hrest⟩ := List.forall_mem_cons.1 hes
    obtain ⟨x, s, hs, hPs⟩ := foldlM_readTerm_progress he 0 hrun
    obtain ⟨xs, t, ht, hPt⟩ := ih hrest hPs
    rw [List.mapM_cons]
    exact ⟨x :: xs, t, bind_eq_ok_iff.2 ⟨x, s, hs, bind_eq_ok_iff.2 ⟨xs, t, ht, rfl⟩⟩, hPt⟩

/-- Inputs are read as they are in the end, if the state stays below it. -/
theorem inputs_eq_of_extends (hproduce : Grows produce) {es : List LinComb} {xs ys : List (Fp p)}
    (hread : es.mapM (c.readInput produce) run = .ok xs t') (hbelow : t'.wires.Extends T)
    (hvalues : List.Forall₂ (fun e x => LinComb.value c.pool T e = .ok x) es ys) : xs = ys := by
  have hxs := (inputs_eq_ok hproduce hread).2
  clear hread
  induction hxs generalizing ys with
  | nil =>
    cases hvalues
    rfl
  | cons hx _ ih =>
    cases hvalues with
    | cons hy hrest =>
      rw [LinComb.value_of_extends hbelow hx] at hy
      rw [Except.ok.inj hy, ih hrest]

end Inputs

/-- A call goes through while its outputs exist and have no values. -/
theorem callHint_progress {call : HintCall} {f : NamedHint} {xs : List (Fp p)}
    {outputs : Vector Nat call.outputs.size} (hcall : c.hints[h]? = some call)
    (houtputs : f.function.call p (xs.map Fp.val) (Vector.replicate call.outputs.size 0)
      = .ok outputs)
    (hfree : ∀ v, c.Produces h v → v.toNat < run.wires.size ∧ run.wires.isSolved v = false) :
    ∃ s, run.wires.setAll (call.outputs.wires.zip outputs.toList) = .ok s ∧
      callHint h call f xs run = .ok ()
        { run with wires := s, journal := run.journal.push (callEntry run h call f xs) } := by
  have hmap := WireRange.map_fst_zip outputs
  have hwritable : ∀ wx ∈ call.outputs.wires.zip outputs.toList,
      wx.1.toNat < run.wires.size ∧ run.wires.get? wx.1 = none := by
    intro wx hwx
    obtain ⟨hlt, hunsolved⟩ := hfree wx.1 ⟨call, hcall, (List.of_mem_zip hwx).1⟩
    exact ⟨hlt, Assignment.isSolved_eq_false_iff.1 hunsolved⟩
  obtain ⟨s, hs⟩ := Assignment.setAll_isOk (hmap.symm ▸ call.outputs.nodup_wires) hwritable
  exact ⟨s, hs, callHint_eq_ok_iff.2 ⟨outputs, s, houtputs, hs, rfl⟩⟩

/-! ### Hints -/

/-- Wires that given hints neither read nor produce. -/
def Untouched (c : Circuit p) (H : Nat → Prop) (W : Wire → Prop) : Prop :=
  ∀ g, H g → ∀ w, W w → ¬ c.Produces g w ∧ ¬ c.Reads g w

/-- A hint that has its first output in the end goes through from every state on the way that is
grown from the start, and stays on the way. -/
def ComesOut (c : Circuit p) (table : HintTable) (W : Wire → Prop) (S T : Assignment p)
    (pending : List Nat) (h : Nat) : Prop :=
  ∀ run call, c.GrownBy table W S run.wires → run.wires.Extends T → c.hints[h]? = some call →
    T.isSolved call.outputs.start = true →
    ∃ t, c.resolve table pending h run = .ok () t ∧ t.wires.Extends T

/-- A state on the way in which the outputs of a hint have no values. -/
structure Ahead (c : Circuit p) (table : HintTable) (W : Wire → Prop) (S T : Assignment p)
    (h : Nat) (run : Run p) : Prop where
  grown : c.GrownBy table W S run.wires
  below : run.wires.Extends T
  free : ∀ v, c.Produces h v → run.wires.isSolved v = false

section Hints

variable (hsep : c.SeparateOutputs) (hwf : WellFounded fun g h => c.Needs h g)
  {H : Nat → Prop} (hH : c.Closed H) (hW : c.Untouched H W) (hT : c.GrownBy table W S T)

include hsep

/-- A first output that has no value speaks for all outputs of a hint, if none of them had a value
at the start. -/
theorem GrownBy.ahead (hrun : c.GrownBy table W S run.wires) (hbelow : run.wires.Extends T)
    (hexcepted : ∀ v, c.Produces h v → ¬ W v)
    (hfresh : ∀ v, c.Produces h v → S.isSolved v = false) {call : HintCall}
    (hcall : c.hints[h]? = some call) (hfree : run.wires.isSolved call.outputs.start = false) :
    c.Ahead table W S T h run := by
  refine ⟨hrun, hbelow, fun v hv => Bool.eq_false_iff.2 fun hsolved => ?_⟩
  obtain ⟨_, hcalled, -⟩ := hrun.called hsep hv (hexcepted v hv) (hfresh v hv) hsolved
  have hstart : c.Produces h call.outputs.start :=
    ⟨call, hcall, WireRange.start_mem_wires (hsep.nonempty h call hcall)⟩
  rw [hcalled.isSolved hstart] at hfree
  cases hfree

include hwf hH hW hT

/-- While a hint reads its inputs, the hints that it needs provide them. -/
theorem provides_of_comesOut (hh : H h)
    (hneeded : ∀ g, c.Needs h g → c.ComesOut table W S T pending g) {call : HintCall}
    (hcall : c.hints[h]? = some call) {inputs : List Nat} (hcalled : c.Called table T h inputs)
    {e : LinComb} (he : e ∈ call.inputs) {v : Term} (hv : v ∈ e) :
    c.Provides (c.resolve table pending) (c.Ahead table W S T h) v := by
  intro hconst hcoeff run hrun hunsolved
  have hreads : c.Reads h v.wire := ⟨call, hcall, e, he, v, hv, hconst, hcoeff, rfl⟩
  -- the wire got its value from a call, and that hint can be run from here
  rcases hT.origin v.wire (hcalled.isSolved_of_reads hreads) with
    hbefore | hexcepted | ⟨g, inputs, hcalledg, hg, hfresh⟩
  · rw [hrun.grown.extends_start.isSolved hbefore] at hunsolved
    cases hunsolved
  · exact absurd hreads (hW h hh _ hexcepted).2
  have hproducer := producer?_of_produces hsep.disjoint hg
  have hneeds := needs_of_reads hreads hproducer
  obtain ⟨callg, hcallg, -⟩ := id hg
  have hsize := hsep.nonempty g callg hcallg
  have hstart : c.Produces g callg.outputs.start :=
    ⟨callg, hcallg, WireRange.start_mem_wires hsize⟩
  obtain ⟨t, hres, hbelow⟩ :=
    hneeded g hneeds run callg hrun.grown hrun.below hcallg (hcalledg.isSolved hstart)
  have hgrown := grownBy_of_resolve hrun.grown hres
  refine ⟨g, t, hproducer, hres, ⟨hgrown, hbelow, fun _ => ?_⟩, ?_⟩
  · exact free_of_resolve hsep hwf hneeds hres hrun.free
  · exact hgrown.isSolved_of_resolve hsep hres
      (fun v' hv' hexcepted => (hW g (hH h g hh hneeds) v' hexcepted).1 hv') hfresh hg

/-- Hints of a circuit without cycles come out, by induction on the hints that they need. -/
theorem comesOut (hh : H h) (hpending : ∀ g, c.Involves h g → g ∈ pending) :
    c.ComesOut table W S T pending h := by
  induction h using hwf.induction generalizing pending with
  | _ h ih =>
  intro run call hrun hbelow hcall hsolved
  have hsize := hsep.nonempty h call hcall
  have hstart : c.Produces h call.outputs.start :=
    ⟨call, hcall, WireRange.start_mem_wires hsize⟩
  have hexcepted : ∀ v, c.Produces h v → ¬ W v := fun v hv hw => (hW h hh v hw).1 hv
  rw [resolve_apply hcall (hpending h Relation.ReflTransGen.refl)]
  split
  · exact ⟨run, rfl, hbelow⟩
  next hopen =>
  have hfree : run.wires.isSolved call.outputs.start = false :=
    Bool.eq_false_iff.2 fun hdone => hopen ⟨hsize, hdone⟩
  -- the call that the values of the outputs come from
  obtain ⟨inputs, hcalled, hfresh⟩ := hT.called hsep hstart (hexcepted _ hstart)
    (hrun.extends_start.isSolved_eq_false hfree) hsolved
  have hneeded : ∀ g, c.Needs h g → c.ComesOut table W S T (pending.erase h) g := by
    intro g hneeds
    exact ih g hneeds (hH h g hh hneeds) (mem_erase_of_involves hwf hpending hneeds)
  have hprovides : ∀ e ∈ call.inputs, ∀ v ∈ e,
      c.Provides (c.resolve table (pending.erase h)) (c.Ahead table W S T h) v :=
    fun e he v hv => provides_of_comesOut hsep hwf hH hW hT hh hneeded hcall hcalled he hv
  have hexists : ∀ v, c.Produces h v → v.toNat < T.size :=
    fun v hv => Assignment.lt_size_of_isSolved (hcalled.isSolved hv)
  obtain ⟨call', f, ys, outputs, hcall', hf, hvalues, rfl, houtputs, hwires⟩ := hcalled
  obtain rfl := Option.some.inj (hcall.symm.trans hcall')
  rw [hf]
  have hinputs : ∀ e ∈ call.inputs, ∀ v ∈ e, v.coeff < c.pool.size ∧
      c.Provides (c.resolve table (pending.erase h)) (c.Ahead table W S T h) v :=
    fun e he v hv => ⟨(Term.value_isOk_iff.1 (value_isOk_of_forall₂ hvalues he hv)).1,
      hprovides e he v hv⟩
  obtain ⟨xs, s, hread, hs⟩ := inputs_progress hinputs
    (hrun.ahead hsep hbelow hexcepted hfresh hcall hfree)
  obtain rfl := inputs_eq_of_extends (grows_resolve table _) hread hs.below hvalues
  -- the call is the one that the values of the outputs come from
  obtain ⟨s', hset, hres⟩ := callHint_progress hcall houtputs fun v hv =>
    ⟨hs.below.size_eq ▸ hexists v hv, hs.free v hv⟩
  refine ⟨_, bind_eq_ok_iff.2 ⟨xs, s, hread, hres⟩, ?_⟩
  exact Assignment.extends_of_setAll_of_get? hs.below hwires hset

end Hints

end Circuit

end WireSolve
