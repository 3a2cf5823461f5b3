/-
WireSolve/Proofs/Circuit/Layout.lean

What a draft makes of its calls, whatever they say.

A draft keeps several lists and numbers at once, and this is how they stay in step:
the wires come in the order of their positions, inputs first (`Draft.HandsOut`);
the levels cut the numbers of instructions into pieces, none of them empty
(`Draft.Levelled`); each constraint and each scheduled hint has one instruction, and a
detached hint has none (`Circuit.Enumerates`); and each use of a hint keeps the wires
that came back from it (`Circuit.Fills`).  Calls may name wires and coefficients that do
not exist; nothing here depends on what they name.

All of it is said of the transcript, that is, of the calls and of what came back from
them.

Main result: `Session.circuit_builtBy`.
-/
import Mathlib.Data.List.Nodup
import WireSolve.Circuit.Transcript
import WireSolve.Proofs.Circuit.Described
import WireSolve.Proofs.Solve.Producers

namespace WireSolve

namespace Transcript

variable {p : Nat} {ts : Transcript p} {g h : Nat} {u v : HintUse} {w : Wire}

/-- Uses of hints share no wires, if what is appended is appended once. -/
theorem eq_of_mem_outputs (hnodup : ts.fresh.Nodup) (hg : ts.hints[g]? = some u)
    (hh : ts.hints[h]? = some v) (hu : w ∈ u.outputs) (hv : w ∈ v.outputs) : g = h := by
  have hpairwise := (List.nodup_flatMap.1 (hnodup.sublist ts.flatMap_outputs_sublist)).2
  obtain ⟨hglt, rfl⟩ := List.getElem?_eq_some_iff.1 hg
  obtain ⟨hhlt, rfl⟩ := List.getElem?_eq_some_iff.1 hh
  rcases Nat.lt_trichotomy g h with hlt | heq | hlt
  · exact absurd hv (List.pairwise_iff_getElem.1 hpairwise g h hglt hhlt hlt hu)
  · exact heq
  · exact absurd hu (List.pairwise_iff_getElem.1 hpairwise h g hhlt hglt hlt hv)

end Transcript

variable {p : Nat} [Modulus p]

/-! ### What is in step -/

/-- Inputs have the first positions, and what is appended has the others, in order. -/
structure Draft.HandsOut (d : Draft p) (ts : Transcript p) : Prop where
  laidOut : d.circuit.LaidOut
  inputs_lt : ∀ w ∈ ts.inputs, w.toNat < d.circuit.inputCount
  fresh_eq : ts.fresh.map UInt32.toNat
    = List.range' d.circuit.inputCount d.circuit.internalWires.toNat

/-- The levels, the open one last, go through the instructions once and in order, and no level that
is closed is empty. -/
structure Draft.Levelled (d : Draft p) : Prop where
  ne_nil : ∀ level ∈ d.circuit.levels, level ≠ []
  flatten_eq : d.circuit.levels.flatten ++ d.level = List.range d.circuit.instructions.size

namespace Circuit

/-- Each constraint and each scheduled hint has one instruction, and nothing else has any. -/
structure Enumerates (c : Circuit p) (ts : Transcript p) : Prop where
  constraints_eq : ts.constraints = List.range c.constraints.size
  count_constraint : ∀ k, c.instructions.count (.constraint k)
    = if k < c.constraints.size then 1 else 0
  count_hint : ∀ h, c.instructions.count (.hint h)
    = if ts.hints[h]?.any HintUse.scheduled then 1 else 0

/-- Each use of a hint fills the wires that came back from it, and its function is named. -/
structure Fills (c : Circuit p) (ts : Transcript p) : Prop where
  outputs_eq : c.hints.toList.map (fun call => call.outputs.wires) = ts.hints.map HintUse.outputs
  named : ∀ call ∈ c.hints, call.hint ∈ c.hintNames

end Circuit

/-- A draft that is in step with the calls that were made. -/
structure Draft.Records (d : Draft p) (ts : Transcript p) : Prop where
  handsOut : d.HandsOut ts
  levelled : d.Levelled
  enumerates : d.circuit.Enumerates ts
  fills : d.circuit.Fills ts

/-! ### One call -/

namespace Circuit

variable {c c' : Circuit p} {ts : Transcript p} {a : Draft.Call p} {r : Reply} {u : HintUse}

theorem Fills.size_eq (hc : c.Fills ts) : c.hints.size = ts.hints.length := by
  have hlength := congrArg List.length hc.outputs_eq
  rwa [List.length_map, List.length_map, Array.length_toList] at hlength

/-- Instructions do not depend on the rest of the circuit. -/
theorem Enumerates.of_eq (hc : c.Enumerates ts) (hconstraints : c'.constraints = c.constraints)
    (hinstructions : c'.instructions = c.instructions) : c'.Enumerates ts where
  constraints_eq := by rw [hconstraints, hc.constraints_eq]
  count_constraint k := by rw [hinstructions, hconstraints, hc.count_constraint]
  count_hint h := by rw [hinstructions, hc.count_hint]

theorem Fills.of_eq (hc : c.Fills ts) (hhints : c'.hints = c.hints)
    (hnames : c'.hintNames = c.hintNames) : c'.Fills ts where
  outputs_eq := by rw [hhints, hc.outputs_eq]
  named := by
    rw [hhints, hnames]
    exact hc.named

/-- A call that adds neither a constraint nor a hint. -/
theorem Enumerates.same (hc : c.Enumerates ts) (hr : r.constraints = [])
    (ha : HintUse.ofCall? r a = none) : c.Enumerates (ts ++ [(a, r)]) where
  constraints_eq := by rw [Transcript.constraints_concat, hr, List.append_nil, hc.constraints_eq]
  count_constraint := hc.count_constraint
  count_hint h := by
    rw [Transcript.hints_concat, ha, Option.toList_none, List.append_nil, hc.count_hint]

theorem Fills.same (hc : c.Fills ts) (ha : HintUse.ofCall? r a = none) :
    c.Fills (ts ++ [(a, r)]) where
  outputs_eq := by
    rw [Transcript.hints_concat, ha, Option.toList_none, List.append_nil, hc.outputs_eq]
  named := hc.named

/-- A constraint gets the next number, and an instruction of its own. -/
theorem Enumerates.constrain {q : Constraint p} (hc : c.Enumerates ts)
    (hconstraints : c'.constraints = c.constraints.push q)
    (hinstructions : c'.instructions
      = c.instructions.push (.constraint c.constraints.size))
    (hr : r.constraints = [c.constraints.size]) (ha : HintUse.ofCall? r a = none) :
    c'.Enumerates (ts ++ [(a, r)]) where
  constraints_eq := by
    rw [Transcript.constraints_concat, hr, hconstraints, Array.size_push, List.range_succ,
      hc.constraints_eq]
  count_constraint k := by
    rw [hinstructions, hconstraints, Array.count_push, hc.count_constraint, Array.size_push]
    by_cases hk : c.constraints.size = k
    · simp [hk]
    · have hlt : k < c.constraints.size + 1 ↔ k < c.constraints.size := by omega
      simp [hk, hlt]
  count_hint h := by
    rw [hinstructions, Array.count_push_of_ne (by simp), hc.count_hint, Transcript.hints_concat,
      ha, Option.toList_none, List.append_nil]

/-- A use of a hint gets the next number, and an instruction if it is scheduled. -/
theorem Enumerates.hint (hc : c.Enumerates ts)
    (hsize : c.hints.size = ts.hints.length) (ha : HintUse.ofCall? r a = some u)
    (hr : r.constraints = []) (hconstraints : c'.constraints = c.constraints)
    (hinstructions : c'.instructions = if u.scheduled then
      c.instructions.push (.hint c.hints.size) else c.instructions) :
    c'.Enumerates (ts ++ [(a, r)]) where
  constraints_eq := by
    rw [Transcript.constraints_concat, hr, List.append_nil, hconstraints, hc.constraints_eq]
  count_constraint k := by
    rw [hinstructions, hconstraints, ← hc.count_constraint]
    split
    · exact Array.count_push_of_ne (by simp)
    · rfl
  count_hint h := by
    rw [hinstructions, Transcript.hints_concat, ha, Option.toList_some, hsize]
    have hold := hc.count_hint h
    by_cases hh : h = ts.hints.length
    · -- the number is new
      subst hh
      rw [List.getElem?_eq_none (Nat.le_refl _)] at hold
      rw [List.getElem?_concat_length]
      by_cases hscheduled : u.scheduled <;> simp [hscheduled, hold]
    · have hother : (ts.hints ++ [u])[h]? = ts.hints[h]? := by
        rw [List.getElem?_append]
        split
        · rfl
        · rw [List.getElem?_eq_none (by simp; omega), List.getElem?_eq_none (by omega)]
      rw [hother, ← hold]
      split
      · exact Array.count_push_of_ne (by simpa using Ne.symm hh)
      · rfl

/-- A use of a hint keeps the wires that come back from it. -/
theorem Fills.hint {call : HintCall} (hc : c.Fills ts)
    (ha : HintUse.ofCall? r a = some u) (hhints : c'.hints = c.hints.push call)
    (houtputs : call.outputs.wires = u.outputs)
    (hnames : ∀ id, id = call.hint ∨ id ∈ c.hintNames → id ∈ c'.hintNames) :
    c'.Fills (ts ++ [(a, r)]) where
  outputs_eq := by
    rw [hhints, Transcript.hints_concat, ha, Array.toList_push, List.map_append, hc.outputs_eq,
      Option.toList_some, List.map_append]
    simp [houtputs]
  named call' hcall' := by
    rw [hhints] at hcall'
    rcases Array.mem_push.1 hcall' with hcall' | rfl
    · exact hnames _ (Or.inr (hc.named call' hcall'))
    · exact hnames _ (Or.inl rfl)

end Circuit

namespace Draft

variable {d d' : Draft p} {ts : Transcript p} {a : Call p} {r : Reply} {n : Nat}

/-- A call that hands out no wires. -/
theorem HandsOut.same (hd : d.HandsOut ts) (hr : r.handedOut = []) :
    d.HandsOut (ts ++ [(a, r)]) where
  laidOut := hd.laidOut
  inputs_lt w hw := by
    rw [Transcript.inputs_concat, hr, ite_self, List.append_nil] at hw
    exact hd.inputs_lt w hw
  fresh_eq := by rw [Transcript.fresh_concat, hr, ite_self, List.append_nil, hd.fresh_eq]

/-- A call that hands out an input, or refuses to. -/
theorem HandsOut.input (hd : d.HandsOut ts) {x : Except DraftError Wire}
    (hx : ∀ w, x = .ok w → w.toNat < d.circuit.inputCount) (ha : a.asksFresh = false) :
    d.HandsOut (ts ++ [(a, .ofWire x)]) where
  laidOut := hd.laidOut
  inputs_lt w hw := by
    rw [Transcript.inputs_concat, List.mem_append] at hw
    rcases hw with hw | hw
    · exact hd.inputs_lt w hw
    · split at hw
      · rcases x with e | v
        · cases hw
        · obtain rfl := List.mem_singleton.1 hw
          exact hx w rfl
      · cases hw
  fresh_eq := by
    rw [Transcript.fresh_concat, ha, if_neg Bool.false_ne_true, List.append_nil, hd.fresh_eq]

/-- A call that appends wires. -/
theorem HandsOut.internals (hd : d.HandsOut ts)
    (hfits : d.circuit.wireCount + n ≤ Wire.constantTag.toNat) (hfresh : a.asksFresh = true)
    (hinput : a.asksInput = false) :
    (d.internals n).1.HandsOut (ts ++ [(a, .wires (d.internals n).2)]) where
  laidOut := (laidOut_internals hd.laidOut hfits).1
  inputs_lt w hw := by
    rw [Transcript.inputs_concat, hinput, if_neg Bool.false_ne_true, List.append_nil] at hw
    exact hd.inputs_lt w hw
  fresh_eq := by
    rw [Transcript.fresh_concat, hfresh, if_pos rfl, List.map_append, hd.fresh_eq,
      toNat_internalWires_internals hd.laidOut hfits]
    show _ ++ (d.internals n).2.map UInt32.toNat = List.range' d.circuit.inputCount _
    rw [map_toNat_internals hd.laidOut hfits, hd.laidOut.wireCount_eq]
    -- the new wires start where the others end
    exact List.range'_append_1

/-- Where wires are does not depend on the rest of the circuit. -/
theorem HandsOut.of_counts (hd : d.HandsOut ts) (hfamily : d'.circuit.family = d.circuit.family)
    (hpublic : d'.circuit.publicWires = d.circuit.publicWires)
    (hsecret : d'.circuit.secretWires = d.circuit.secretWires)
    (hinternal : d'.circuit.internalWires = d.circuit.internalWires) : d'.HandsOut ts where
  laidOut := hd.laidOut.of_counts hfamily hpublic hsecret hinternal
  inputs_lt := by
    rw [Circuit.inputCount, hpublic, hsecret]
    exact hd.inputs_lt
  fresh_eq := by
    rw [Circuit.inputCount, hpublic, hsecret, hinternal]
    exact hd.fresh_eq

/-- The levels do not depend on what the instructions are. -/
theorem Levelled.of_eq (hd : d.Levelled) (hlevels : d'.circuit.levels = d.circuit.levels)
    (hlevel : d'.level = d.level)
    (hsize : d'.circuit.instructions.size = d.circuit.instructions.size) : d'.Levelled where
  ne_nil := by
    rw [hlevels]
    exact hd.ne_nil
  flatten_eq := by rw [hlevels, hlevel, hsize, hd.flatten_eq]

theorem Levelled.schedule (hd : d.Levelled) (ins : Instruction) : (d.schedule ins).Levelled where
  ne_nil := hd.ne_nil
  flatten_eq := by
    show d.circuit.levels.flatten ++ (d.level ++ [d.circuit.instructions.size])
      = List.range (d.circuit.instructions.push ins).size
    rw [← List.append_assoc, hd.flatten_eq, Array.size_push, List.range_succ]

/-- The open level is closed if there is something in it. -/
theorem Levelled.nextLevel (hd : d.Levelled) : d.nextLevel.Levelled ∧ d.nextLevel.level = [] := by
  unfold Draft.nextLevel
  split
  · next hempty => exact ⟨hd, List.isEmpty_iff.1 hempty⟩
  · next hsome =>
    refine ⟨⟨fun level hlevel => ?_, ?_⟩, rfl⟩
    · rcases List.mem_append.1 hlevel with hclosed | hlast
      · exact hd.ne_nil level hclosed
      · obtain rfl := List.mem_singleton.1 hlast
        exact fun hnil => hsome (List.isEmpty_iff.2 hnil)
    · rw [← hd.flatten_eq]
      simp

/-! #### Every call -/

/-- A call that neither hands out anything nor adds to what there is to do. -/
theorem Records.same (hd : d.Records ts) (pool : CoeffPool p) (notes : Array Note)
    (noteOf : Std.TreeMap Nat Nat) (logs : Array Note) (source : SourceMap)
    (hr : r.handedOut = []) (hconstraints : r.constraints = [])
    (ha : HintUse.ofCall? r a = none) :
    { d with
      circuit :=
        { d.circuit with
          pool := pool, notes := notes, noteOf := noteOf, logs := logs,
          source := source } }.Records (ts ++ [(a, r)]) where
  handsOut := (hd.handsOut.same hr).of_counts rfl rfl rfl rfl
  levelled := hd.levelled.of_eq rfl rfl rfl
  enumerates := (hd.enumerates.same hconstraints ha).of_eq rfl rfl
  fills := (hd.fills.same ha).of_eq rfl rfl

/-- A call that hands out an input, or refuses to. -/
theorem Records.input (hd : d.Records ts) {x : Except DraftError Wire}
    (hx : ∀ w, x = .ok w → w.toNat < d.circuit.inputCount) (hfresh : a.asksFresh = false)
    (ha : HintUse.ofCall? (.ofWire x) a = none) : d.Records (ts ++ [(a, .ofWire x)]) where
  handsOut := hd.handsOut.input hx hfresh
  levelled := hd.levelled
  enumerates := hd.enumerates.same (by rcases x with e | w <;> rfl) ha
  fills := hd.fills.same ha

theorem Records.internal (hd : d.Records ts)
    (hfits : d.circuit.wireCount + 1 ≤ Wire.constantTag.toNat) :
    (d.internals 1).1.Records (ts ++ [(.internal, .wires (d.internals 1).2)]) where
  handsOut := hd.handsOut.internals hfits rfl rfl
  levelled := hd.levelled.of_eq rfl rfl rfl
  enumerates := (hd.enumerates.same rfl rfl).of_eq rfl rfl
  fills := (hd.fills.same rfl).of_eq rfl rfl

theorem Records.constrain (hd : d.Records ts) (q : Constraint p) :
    (d.constrain q).1.Records (ts ++ [(.constrain q, .constraint (d.constrain q).2)]) where
  handsOut := (hd.handsOut.same rfl).of_counts rfl rfl rfl rfl
  levelled := (hd.levelled.schedule (.constraint d.circuit.constraints.size)).of_eq rfl rfl rfl
  enumerates := hd.enumerates.constrain rfl rfl rfl rfl
  fills := (hd.fills.same rfl).of_eq rfl rfl

section Hint

variable (hd : d.Records ts) (hfits : d.circuit.wireCount + n ≤ Wire.constantTag.toNat)
  (name : String) (inputs : List LinComb)

include hd hfits

/-- The hint of a call is named, and the wires that came back are its outputs. -/
theorem Records.fills_hint {c' : Circuit p} {u : HintUse}
    (ha : HintUse.ofCall? (.wires (d.internals n).2) a = some u)
    (hu : u.outputs = (d.internals n).2)
    (hhints : c'.hints = d.circuit.hints.push ⟨HintId.ofName name, inputs,
      Wire.atPosition d.circuit.wireCount, Wire.atPosition d.circuit.wireCount + Wire.atPosition n⟩)
    (hnames : c'.hintNames = d.circuit.hintNames.insertIfNew (HintId.ofName name) name) :
    c'.Fills (ts ++ [(a, .wires (d.internals n).2)]) := by
  refine hd.fills.hint ha hhints ?_ fun id hid => ?_
  · rw [hu]
    exact wires_outputs hd.handsOut.laidOut hfits
  · -- a number that has a name keeps it, so no name is lost
    rw [hnames, Std.TreeMap.mem_insertIfNew, Std.LawfulEqCmp.compare_eq_iff_eq]
    exact hid.imp_left Eq.symm

theorem Records.detachedHint : (d.detachedHint name inputs n).1.Records
    (ts ++ [(.detachedHint name inputs n, .wires (d.detachedHint name inputs n).2)]) where
  handsOut := (hd.handsOut.internals hfits rfl rfl).of_counts rfl rfl rfl rfl
  levelled := hd.levelled.of_eq rfl rfl rfl
  enumerates := hd.enumerates.hint hd.fills.size_eq rfl rfl rfl rfl
  fills := hd.fills_hint hfits name inputs rfl rfl rfl rfl

theorem Records.hint : (d.hint name inputs n).1.Records
    (ts ++ [(.hint name inputs n, .wires (d.hint name inputs n).2)]) where
  handsOut := (hd.handsOut.internals hfits rfl rfl).of_counts rfl rfl rfl rfl
  levelled := (hd.levelled.schedule (.hint d.circuit.hints.size)).of_eq rfl rfl rfl
  enumerates := hd.enumerates.hint hd.fills.size_eq rfl rfl rfl rfl
  fills := hd.fills_hint hfits name inputs rfl rfl rfl rfl

end Hint

/-- Closing a level keeps a draft in step. -/
theorem Records.nextLevel (hd : d.Records ts) : d.nextLevel.Records ts := by
  have hlevelled := hd.levelled.nextLevel.1
  unfold Draft.nextLevel at hlevelled ⊢
  split at hlevelled <;> rename_i hlevel
  · rw [if_pos hlevel]
    exact hd
  · rw [if_neg hlevel]
    exact ⟨hd.handsOut.of_counts rfl rfl rfl rfl, hlevelled, hd.enumerates.of_eq rfl rfl,
      hd.fills.of_eq rfl rfl⟩

/-- Every call keeps a draft in step, one case for each kind. -/
theorem Records.perform (hd : d.Records ts)
    (hfits : d.circuit.wireCount + a.appends ≤ Wire.constantTag.toNat) :
    (d.perform a).1.Records (ts ++ [(a, (d.perform a).2)]) := by
  have hlaidOut := hd.handsOut.laidOut
  cases a with
  | one => exact hd.input (fun _ hw => lt_of_one hlaidOut hw) rfl rfl
  | publicInput i => exact hd.input (fun _ hw => lt_of_publicInput hlaidOut hw) rfl rfl
  | secretInput i => exact hd.input (fun _ hw => lt_of_secretInput hlaidOut hw) rfl rfl
  | internal => exact hd.internal hfits
  | coeff x => exact hd.same _ _ _ _ _ rfl rfl rfl
  | term x w => exact hd.same _ _ _ _ _ rfl rfl rfl
  | constant x => exact hd.same _ _ _ _ _ rfl rfl rfl
  | constrain q => exact hd.constrain q
  | hint name inputs n => exact hd.hint hfits name inputs
  | detachedHint name inputs n => exact hd.detachedHint hfits name inputs
  | nextLevel => exact hd.nextLevel.same _ _ _ _ _ rfl rfl rfl
  | location function file line => exact hd.same _ _ _ _ _ rfl rfl rfl
  | annotate k n => exact hd.same _ _ _ _ _ rfl rfl rfl
  | log n => exact hd.same _ _ _ _ _ rfl rfl rfl

end Draft

/-! ### Sequences of calls -/

namespace Session

variable {s : Session p} {before calls : List (Draft.Call p)}

/-- A session has a reply to every call. -/
structure Records (s : Session p) (calls : List (Draft.Call p)) : Prop where
  length_eq : calls.length = s.replies.length
  draft : s.draft.Records (s.transcript calls)

theorem Records.call (hs : s.Records before) {a : Draft.Call p}
    (hfits : s.draft.circuit.wireCount + a.appends ≤ Wire.constantTag.toNat) :
    (s.call a).Records (before ++ [a]) where
  length_eq := by
    show _ = (s.replies ++ [(s.draft.perform a).2]).length
    rw [List.length_append, List.length_append, hs.length_eq]
    rfl
  draft := by
    have hstep := hs.draft.perform hfits
    rw [transcript] at hstep ⊢
    show (s.draft.perform a).1.Records
      ((before ++ [a]).zip (s.replies ++ [(s.draft.perform a).2]))
    rwa [List.zip_append hs.length_eq]

/-- Calls keep a session in step as long as there are positions left for the wires. -/
theorem Records.run (hs : s.Records before)
    (hfits : s.draft.circuit.wireCount + Draft.Call.appendsAll calls ≤ Wire.constantTag.toNat) :
    (s.run calls).Records (before ++ calls) := by
  induction calls generalizing s before with
  | nil =>
    rw [List.append_nil]
    exact hs
  | cons a rest ih =>
    rw [Draft.Call.appendsAll] at hfits
    -- the call takes its wires out of those that all calls together may append
    have hcount := Draft.wireCount_perform hs.draft.handsOut.laidOut (a := a) (by omega)
    have hrest := ih (hs.call (a := a) (by omega)) (by
      show (s.draft.perform a).1.circuit.wireCount + _ ≤ _
      omega)
    rwa [List.append_assoc, List.singleton_append] at hrest

/-- A session before the first call. -/
theorem records_start {family : Family} {publicInputs secretInputs : Count}
    (hfits : family.reservedWires + publicInputs.toNat + secretInputs.toNat
      ≤ Wire.constantTag.toNat) :
    (start family publicInputs secretInputs : Session p).Records [] where
  length_eq := rfl
  draft :=
    { handsOut := ⟨(sound_start hfits).1.tidy.laidOut, nofun, rfl⟩
      levelled := ⟨nofun, rfl⟩
      enumerates := ⟨rfl, fun _ => rfl, fun _ => rfl⟩
      fills := ⟨rfl, nofun⟩ }

end Session

/-! ### The finished circuit -/

namespace Circuit

variable {c : Circuit p} {ts : Transcript p} {g : Nat} {w : Wire}

theorem Fills.produces_iff (hc : c.Fills ts) :
    c.Produces g w ↔ ∃ u, ts.hints[g]? = some u ∧ w ∈ u.outputs := by
  have houtputs := congrArg (·[g]?) hc.outputs_eq
  simp only [List.getElem?_map, Array.getElem?_toList] at houtputs
  constructor
  · rintro ⟨call, hcall, hw⟩
    rw [hcall, Option.map_some, eq_comm, Option.map_eq_some_iff] at houtputs
    obtain ⟨u, hu, heq⟩ := houtputs
    exact ⟨u, hu, heq ▸ hw⟩
  · rintro ⟨u, hu, hw⟩
    rw [hu, Option.map_some, Option.map_eq_some_iff] at houtputs
    obtain ⟨call, hcall, heq⟩ := houtputs
    exact ⟨call, hcall, heq ▸ hw⟩

/-- What a circuit has to do with the calls that described it. -/
structure BuiltBy (c : Circuit p) (ts : Transcript p) : Prop where
  /-- No level is empty. -/
  level_ne_nil : ∀ level ∈ c.levels, level ≠ []
  /-- The levels go through the instructions once and in order. -/
  levels_eq : c.levels.flatten = List.range c.instructions.size
  /-- The numbers that came back for constraints are those of the constraints. -/
  constraints_eq : ts.constraints = List.range c.constraints.size
  /-- Each constraint has one instruction. -/
  count_constraint : ∀ k, c.instructions.count (.constraint k)
    = if k < c.constraints.size then 1 else 0
  /-- There is a hint for each use of one. -/
  hints_size : c.hints.size = ts.hints.length
  /-- A hint has one instruction if its use is scheduled, and none if it is detached. -/
  count_hint : ∀ h, c.instructions.count (.hint h)
    = if ts.hints[h]?.any HintUse.scheduled then 1 else 0
  /-- Wires are appended one after the other, and none twice. -/
  fresh_sorted : ts.fresh.Pairwise (· < ·)
  /-- What is appended are the wires after the inputs, all of them. -/
  mem_fresh : ∀ w, w ∈ ts.fresh ↔
    c.publicWires.toNat + c.secretWires.toNat ≤ w.toNat ∧ w.toNat < c.wireCount
  /-- No input is appended. -/
  inputs_disjoint : ∀ w ∈ ts.inputs, w ∉ ts.fresh
  /-- No two hints share an output. -/
  outputs_disjoint : ∀ g h w, c.Produces g w → c.Produces h w → g = h
  /-- A wire is entered with the hint whose use it came back from. -/
  hintOutputs_iff : ∀ w h, c.hintOutputs[w]? = some h ↔
    ∃ u : HintUse, ts.hints[h]? = some u ∧ w ∈ u.outputs
  /-- The function of every hint is named. -/
  named : ∀ call ∈ c.hints, call.hint ∈ c.hintNames

end Circuit

namespace Draft

variable {d : Draft p} {ts : Transcript p}

theorem HandsOut.sorted (hd : d.HandsOut ts) : ts.fresh.Pairwise (· < ·) := by
  have hsorted : (ts.fresh.map UInt32.toNat).Pairwise (· < ·) :=
    hd.fresh_eq ▸ List.pairwise_lt_range'
  exact (List.pairwise_map.1 hsorted).imp UInt32.lt_iff_toNat_lt.2

theorem HandsOut.mem_fresh_iff (hd : d.HandsOut ts) (w : Wire) :
    w ∈ ts.fresh ↔ d.circuit.inputCount ≤ w.toNat ∧ w.toNat < d.circuit.wireCount := by
  have hmem : w.toNat ∈ ts.fresh.map UInt32.toNat ↔ w ∈ ts.fresh :=
    List.mem_map_of_injective fun _ _ => UInt32.toNat_inj.1
  rw [← hmem, hd.fresh_eq, List.mem_range'_1, hd.laidOut.wireCount_eq]
  rfl

/-- Outputs of different hints are different, since they came back from different calls. -/
theorem Records.outputs_disjoint (hd : d.Records ts) {g h : Nat} {w : Wire}
    (hg : d.circuit.Produces g w) (hh : d.circuit.Produces h w) : g = h := by
  obtain ⟨u, hu, hw⟩ := hd.fills.produces_iff.1 hg
  obtain ⟨v, hv, hw'⟩ := hd.fills.produces_iff.1 hh
  have hnodup : ts.fresh.Nodup := hd.handsOut.sorted.imp UInt32.ne_of_lt
  exact Transcript.eq_of_mem_outputs hnodup hu hv hw hw'

/-- A draft that is in step is finished as a circuit that is. -/
theorem Records.finish (hd : d.Records ts) : d.finish.BuiltBy ts := by
  have hnext := hd.nextLevel
  have hlevel := hd.levelled.nextLevel.2
  have hflatten := hnext.levelled.flatten_eq
  rw [hlevel, List.append_nil] at hflatten
  refine
    { level_ne_nil := hnext.levelled.ne_nil
      levels_eq := hflatten
      constraints_eq := hnext.enumerates.constraints_eq
      count_constraint := hnext.enumerates.count_constraint
      hints_size := hnext.fills.size_eq
      count_hint := hnext.enumerates.count_hint
      fresh_sorted := hnext.handsOut.sorted
      mem_fresh := hnext.handsOut.mem_fresh_iff
      inputs_disjoint := fun w hinput hfresh => ?_
      outputs_disjoint := fun _ _ _ => hnext.outputs_disjoint
      hintOutputs_iff := fun w h => ?_
      named := hnext.fills.named }
  · have hlt := hnext.handsOut.inputs_lt w hinput
    have hle := ((hnext.handsOut.mem_fresh_iff w).1 hfresh).1
    omega
  · rw [Circuit.getElem?_hintOutputs, ← hnext.fills.produces_iff]
    constructor
    · exact Circuit.produces_of_producer?
    · exact Circuit.producer?_of_produces fun _ _ _ => hnext.outputs_disjoint

end Draft

namespace Session

/-- Whatever is asked of a draft, the parts of the circuit are in step with the calls, as long as
there is a number for every wire. -/
theorem circuit_builtBy {family : Family} {publicInputs secretInputs : Count}
    (calls : List (Draft.Call p))
    (hfits : wireDemand family publicInputs secretInputs calls ≤ Wire.constantTag.toNat) :
    let s := (start family publicInputs secretInputs).run calls
    s.circuit.BuiltBy (s.transcript calls) := by
  intro s
  unfold wireDemand at hfits
  have hstart : family.reservedWires + publicInputs.toNat + secretInputs.toNat
      ≤ Wire.constantTag.toNat := by omega
  have hcount := (sound_start (p := p) hstart).2
  have hcalls : (start family publicInputs secretInputs : Session p).draft.circuit.wireCount
      + Draft.Call.appendsAll calls ≤ Wire.constantTag.toNat := by omega
  exact ((records_start hstart).run hcalls).draft.finish

/-- Calls with levels that are closed before there is anything in them, a hint without outputs, a
detached hint, and names of wires and coefficients that do not exist. -/
def unruly : List (Draft.Call 17) :=
  [.nextLevel, .one, .secretInput 0, .secretInput 1, .hint "none" [[⟨9, 40⟩]] 0, .internal,
    .detachedHint "pair" [] 2, .nextLevel, .nextLevel, .constrain (.rank1 ⟨[⟨7, 30⟩], [], []⟩),
    .hint "next" [[⟨1, 4⟩]] 1, .nextLevel]

/-- The theorem at work: the second hint is detached, so it has outputs but no instruction. -/
theorem unruly_builtBy :
    wireDemand .rank1 0 1 unruly ≤ Wire.constantTag.toNat ∧
      ((start .rank1 0 1).run unruly).circuit.BuiltBy
        (((start .rank1 0 1).run unruly).transcript unruly) ∧
      ((start .rank1 0 1).run unruly).circuit.levels = [[0], [1, 2]] ∧
      (((start .rank1 0 1).run unruly).transcript unruly).fresh = [2, 3, 4, 5] ∧
      (((start .rank1 0 1).run unruly).transcript unruly).hints
        = [⟨true, []⟩, ⟨false, [3, 4]⟩, ⟨true, [5]⟩] :=
  have hfits : wireDemand .rank1 0 1 unruly ≤ Wire.constantTag.toNat := by decide
  ⟨hfits, circuit_builtBy unruly hfits, by decide +kernel, by decide +kernel, by decide +kernel⟩

end Session

end WireSolve
