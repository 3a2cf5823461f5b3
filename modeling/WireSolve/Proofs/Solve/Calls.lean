/-
WireSolve/Proofs/Solve/Calls.lean

What a hint does when it goes through.

Its inputs are read one after the other, and meanwhile other hints may run; but the
assignment only grows, so when all inputs are there, each is the value of its
combination (`Circuit.inputs_eq_ok`).  The call itself is one event and one write
for every output (`Circuit.callHint_eq_ok_iff`).  So a hint that goes through was
done before, or it ends with a call on the values of its inputs
(`Circuit.resolve_eq_ok`), and what such calls keep is kept by a hint with all
those that it needs (`Circuit.of_resolve`).
-/
import WireSolve.Proofs.Solve.Invariant

namespace WireSolve

variable {p : Nat} [Modulus p]

/-! ### Several writes -/

namespace Assignment

/-- Gives wires the residues of numbers, one after the other. -/
def setAll (s : Assignment p) (ws : List (Wire × Nat)) : Except Fault (Assignment p) :=
  ws.foldlM (fun s wx => s.set wx.1 (Fp.ofNat wx.2)) s

variable {s t : Assignment p} {w : Wire} {wx : Wire × Nat} {ws : List (Wire × Nat)}

theorem setAll_cons_eq_ok_iff :
    s.setAll (wx :: ws) = .ok t ↔
      ∃ u, s.set wx.1 (Fp.ofNat wx.2) = .ok u ∧ u.setAll ws = .ok t := by
  rw [setAll, List.foldlM_cons, Outcome.bind_eq_ok_iff]
  rfl

/-- What every write keeps is kept. -/
theorem of_setAll {P : Assignment p → Prop} (hP : Persistent P) (hs : P s)
    (h : s.setAll ws = .ok t) : P t := by
  induction ws generalizing s with
  | nil =>
    obtain rfl := Except.ok.inj h
    exact hs
  | cons wx rest ih =>
    obtain ⟨u, hset, h⟩ := setAll_cons_eq_ok_iff.1 h
    exact ih (hP s _ _ u hs hset) h

theorem extends_of_setAll (h : s.setAll ws = .ok t) : s.Extends t :=
  of_setAll (persistent_extends s) (Extends.refl s) h

/-- The wires that are written had no value, and have theirs afterwards. -/
theorem get?_of_setAll (h : s.setAll ws = .ok t) :
    ∀ wx ∈ ws, s.get? wx.1 = none ∧ t.get? wx.1 = some (Fp.ofNat wx.2) := by
  induction ws generalizing s with
  | nil => exact fun wx hwx => absurd hwx List.not_mem_nil
  | cons wx rest ih =>
    obtain ⟨u, hset, h⟩ := setAll_cons_eq_ok_iff.1 h
    obtain ⟨-, hnone, -⟩ := set_eq_ok_iff.1 hset
    refine List.forall_mem_cons.2
      ⟨⟨hnone, (extends_of_setAll h).keeps _ _ (get?_set_self hset)⟩, fun wy hwy => ?_⟩
    obtain ⟨hnone', hsome⟩ := ih h wy hwy
    refine ⟨?_, hsome⟩
    -- a wire that has no value after the first write had none before it
    rcases hbefore : s.get? wy.1 with - | y
    · rfl
    · rw [(extends_of_set hset).keeps _ _ hbefore] at hnone'
      cases hnone'

/-- All other wires stay as they are. -/
theorem get?_of_setAll_of_notMem (h : s.setAll ws = .ok t) (hw : w ∉ ws.map Prod.fst) :
    t.get? w = s.get? w := by
  induction ws generalizing s with
  | nil =>
    obtain rfl := Except.ok.inj h
    rfl
  | cons wx rest ih =>
    obtain ⟨u, hset, h⟩ := setAll_cons_eq_ok_iff.1 h
    rw [List.map_cons, List.mem_cons, not_or] at hw
    rw [ih h hw.2, get?_of_set hset, if_neg hw.1]

/-- Different wires that exist and have no values can all be written. -/
theorem setAll_isOk (hnodup : (ws.map Prod.fst).Nodup)
    (hfree : ∀ wx ∈ ws, wx.1.toNat < s.size ∧ s.get? wx.1 = none) :
    ∃ t, s.setAll ws = .ok t := by
  induction ws generalizing s with
  | nil => exact ⟨s, rfl⟩
  | cons wx rest ih =>
    rw [List.map_cons, List.nodup_cons] at hnodup
    obtain ⟨⟨hlt, hnone⟩, hrest⟩ := List.forall_mem_cons.1 hfree
    have hset : s.set wx.1 (Fp.ofNat wx.2)
        = .ok ⟨s.slots.setIfInBounds wx.1.toNat (some (Fp.ofNat wx.2)), s.solved + 1⟩ :=
      set_eq_ok_iff.2 ⟨hlt, hnone, rfl⟩
    obtain ⟨t, ht⟩ := ih hnodup.2 fun wy hwy => by
      have hne : wy.1 ≠ wx.1 := fun heq => hnodup.1 (heq ▸ List.mem_map_of_mem hwy)
      rw [size_of_set hset, get?_of_set hset, if_neg hne]
      exact hrest wy hwy
    exact ⟨t, setAll_cons_eq_ok_iff.2 ⟨_, hset, ht⟩⟩

/-- Writes stay below an assignment that has all the values that are written. -/
theorem extends_of_setAll_of_get? {u : Assignment p} (hs : s.Extends u)
    (hu : ∀ wx ∈ ws, u.get? wx.1 = some (Fp.ofNat wx.2)) (h : s.setAll ws = .ok t) :
    t.Extends u := by
  refine ⟨hs.size_eq.trans (extends_of_setAll h).size_eq.symm, fun w x hw => ?_⟩
  by_cases hmem : w ∈ ws.map Prod.fst
  · obtain ⟨wx, hwx, rfl⟩ := List.mem_map.1 hmem
    rw [(get?_of_setAll h wx hwx).2] at hw
    rw [hu wx hwx, hw]
  · rw [get?_of_setAll_of_notMem h hmem] at hw
    exact hs.keeps w x hw

end Assignment

/-- The wires of a range are different. -/
theorem WireRange.nodup_wires (r : WireRange) : r.wires.Nodup := by
  have hsize : UInt32.size = 2 ^ 32 := rfl
  have hstop := r.stop.toNat_lt
  refine List.Nodup.map_on (fun i hi j hj heq => ?_) List.nodup_range
  simp only [size, List.mem_range] at hi hj
  have hnat := congrArg UInt32.toNat heq
  rw [Wire.atPosition, Wire.atPosition, UInt32.toNat_ofNat_of_lt' (by omega),
    UInt32.toNat_ofNat_of_lt' (by omega)] at hnat
  omega

/-- The wires of a range, with the outputs that go to them. -/
theorem WireRange.map_fst_zip {r : WireRange} (outputs : Vector Nat r.size) :
    (r.wires.zip outputs.toList).map Prod.fst = r.wires := by
  refine List.map_fst_zip ?_
  rw [wires, List.length_map, List.length_range, Vector.length_toList]

/-- A range that is not empty starts with its first wire. -/
theorem WireRange.start_mem_wires {r : WireRange} (h : 0 < r.size) : r.start ∈ r.wires := by
  rw [mem_wires]
  simp only [size, contains, Bool.and_eq_true, decide_eq_true_eq] at h ⊢
  omega

theorem WireRange.exists_start_mem_zip {r : WireRange} (h : 0 < r.size)
    (outputs : Vector Nat r.size) : ∃ wx ∈ r.wires.zip outputs.toList, wx.1 = r.start := by
  rw [← List.mem_map, map_fst_zip]
  exact start_mem_wires h

namespace Solve

/-- A sequence of writes, as what it makes of the wires. -/
theorem forM_assign_eq_ok_iff {ws : List (Wire × Nat)} {run t : Run p} :
    ws.forM (fun wx => assign (p := p) wx.1 (Fp.ofNat wx.2)) run = .ok () t ↔
      ∃ s, run.wires.setAll ws = .ok s ∧ t = { run with wires := s } := by
  induction ws generalizing run with
  | nil =>
    constructor
    · intro h
      cases h
      exact ⟨t.wires, rfl, rfl⟩
    · rintro ⟨s, hs, rfl⟩
      cases hs
      rfl
  | cons wx rest ih =>
    change (assign wx.1 (Fp.ofNat wx.2) >>= fun _ => rest.forM _) run = _ ↔ _
    rw [bind_eq_ok_iff]
    simp only [ih, Assignment.setAll_cons_eq_ok_iff, assign_apply]
    rcases run.wires.set wx.1 (Fp.ofNat wx.2) with f | u <;> simp

end Solve

namespace Circuit

open Solve

variable {c : Circuit p} {table : HintTable} {pending : List Nat} {h : Nat} {run t : Run p}
  {produce : Nat → Solve p Unit}

/-! ### Inputs -/

/-- The hints that produce wires only add values. -/
def Grows (produce : Nat → Solve p Unit) : Prop :=
  ∀ g run t, produce g run = .ok () t → run.wires.Extends t.wires

theorem provide_apply (c : Circuit p) (produce : Nat → Solve p Unit) (v : Term) (run : Run p) :
    c.provide produce v run =
      if v.isConstant ∨ v.coeff = 0 ∨ run.wires.isSolved v.wire then .ok () run
      else match c.producer? v.wire with
        | none => .error (.fault (.unproducedWire v.wire)) run
        | some g => produce g run := by
  change (if !v.isConstant && v.coeff != 0 && !run.wires.isSolved v.wire then
      match c.producer? v.wire with
      | none => throw (.fault (.unproducedWire v.wire))
      | some g => produce g
    else pure () : Solve p Unit) run = _
  split
  · next hopen =>
    rw [if_neg (by simpa [and_assoc] using hopen)]
    rcases c.producer? v.wire with - | g <;> rfl
  · next hknown =>
    rw [if_pos (by simpa [or_iff_not_imp_left] using hknown)]
    rfl

theorem provide_eq_ok {v : Term} (hv : c.provide produce v run = .ok () t) :
    t = run ∨ ∃ g, c.producer? v.wire = some g ∧ produce g run = .ok () t := by
  rw [provide_apply] at hv
  split at hv
  · cases hv
    exact Or.inl rfl
  · rcases hproducer : c.producer? v.wire with - | g
    · rw [hproducer] at hv
      cases hv
    · rw [hproducer] at hv
      exact Or.inr ⟨g, rfl, hv⟩

theorem readTerm_eq_ok (hproduce : Grows produce) {v : Term} {acc x : Fp p}
    (hv : c.readTerm produce acc v run = .ok x t) :
    run.wires.Extends t.wires ∧ v.addTo c.pool t.wires acc = .ok x := by
  obtain ⟨_, s, hprovide, hv⟩ := bind_eq_ok_iff.1 hv
  have hgrows : run.wires.Extends s.wires := by
    rcases provide_eq_ok hprovide with rfl | ⟨g, -, hg⟩
    · exact Assignment.Extends.refl _
    · exact hproduce g run s hg
  obtain ⟨u, s', hwires, hv⟩ := bind_eq_ok_iff.1 hv
  cases hwires
  rcases hadd : v.addTo c.pool s.wires acc with f | y
  · rw [hadd] at hv
    cases hv
  · rw [hadd] at hv
    cases hv
    exact ⟨hgrows, hadd⟩

/-- An input that is read has its value when all of it has been read. -/
theorem foldlM_readTerm_eq_ok (hproduce : Grows produce) {e : LinComb} {acc x : Fp p}
    (he : e.foldlM (c.readTerm produce) acc run = .ok x t) :
    run.wires.Extends t.wires ∧
      e.foldlM (fun acc v => v.addTo c.pool t.wires acc) acc = .ok x := by
  induction e generalizing acc run with
  | nil =>
    cases he
    exact ⟨Assignment.Extends.refl _, rfl⟩
  | cons v rest ih =>
    rw [List.foldlM_cons] at he
    obtain ⟨y, s, hv, he⟩ := bind_eq_ok_iff.1 he
    obtain ⟨hgrows, hadd⟩ := readTerm_eq_ok hproduce hv
    obtain ⟨hgrows', hrest⟩ := ih he
    refine ⟨hgrows.trans hgrows', ?_⟩
    rw [List.foldlM_cons]
    exact Outcome.bind_eq_ok_iff.2 ⟨y, Term.addTo_of_extends hgrows' hadd, hrest⟩

/-- Inputs that are read one after the other all have their values in the end. -/
theorem inputs_eq_ok (hproduce : Grows produce) {es : List LinComb} {xs : List (Fp p)}
    (hes : es.mapM (c.readInput produce) run = .ok xs t) :
    run.wires.Extends t.wires ∧
      List.Forall₂ (fun e x => LinComb.value c.pool t.wires e = .ok x) es xs := by
  induction es generalizing run xs with
  | nil =>
    cases hes
    exact ⟨Assignment.Extends.refl _, List.Forall₂.nil⟩
  | cons e rest ih =>
    rw [List.mapM_cons] at hes
    obtain ⟨x, s, hx, hes⟩ := bind_eq_ok_iff.1 hes
    obtain ⟨xs', s', hxs, hes⟩ := bind_eq_ok_iff.1 hes
    cases hes
    obtain ⟨hgrows, hvalue⟩ := foldlM_readTerm_eq_ok hproduce hx
    obtain ⟨hgrows', hvalues⟩ := ih hxs
    exact ⟨hgrows.trans hgrows',
      List.Forall₂.cons (LinComb.value_of_extends hgrows' hvalue) hvalues⟩

/-! ### Calls -/

/-- The entry that a call leaves in the journal. -/
def callEntry (run : Run p) (h : Nat) (call : HintCall) (f : NamedHint) (xs : List (Fp p)) :
    Entry p :=
  ⟨run.worker, .hintCalled h call.hint f.name (xs.map Fp.val) call.outputs.size⟩

/-- A call that goes through: the function has outputs, and they can be written. -/
theorem callHint_eq_ok_iff {call : HintCall} {f : NamedHint} {xs : List (Fp p)} :
    callHint h call f xs run = .ok () t ↔
      ∃ outputs s, f.function.call p (xs.map Fp.val) (Vector.replicate call.outputs.size 0)
          = .ok outputs ∧
        run.wires.setAll (call.outputs.wires.zip outputs.toList) = .ok s ∧
        t = { run with
          wires := s
          journal := run.journal.push (callEntry run h call f xs) } := by
  unfold callHint
  rw [bind_eq_ok_iff]
  constructor
  · rintro ⟨_, s, hemit, hcall⟩
    cases hemit
    rcases hf : f.function.call p (xs.map Fp.val) (Vector.replicate call.outputs.size 0) with
      e | outputs
    · rw [hf] at hcall
      cases hcall
    · rw [hf] at hcall
      obtain ⟨s, hs, rfl⟩ := forM_assign_eq_ok_iff.1 hcall
      exact ⟨outputs, s, rfl, hs, rfl⟩
  · rintro ⟨outputs, s, houtputs, hs, rfl⟩
    refine ⟨(), _, rfl, ?_⟩
    rw [houtputs]
    exact forM_assign_eq_ok_iff.2 ⟨s, hs, rfl⟩

theorem grows_resolve (table : HintTable) (pending : List Nat) :
    Grows (c.resolve table pending) := by
  intro g run t hg
  exact ((keeps_resolve (Run.stable_below c run) table pending g).of_ok (Run.Below.refl run)
    hg).extends_wires

/-- A hint that is not in progress is done, or it reads its inputs and makes its call. -/
theorem resolve_apply {call : HintCall} (hcall : c.hints[h]? = some call) (hmem : h ∈ pending)
    (table : HintTable) (run : Run p) :
    c.resolve table pending h run =
      if 0 < call.outputs.size ∧ run.wires.isSolved call.outputs.start then .ok () run
      else match table.get? call.hint with
        | none => .error (.unboundHint call.hint) run
        | some f => (call.inputs.mapM (c.readInput (c.resolve table (pending.erase h))) >>=
            callHint h call f) run := by
  rw [resolve, hcall]
  dsimp only
  rw [dif_pos hmem]
  change (if (0 < call.outputs.size && run.wires.isSolved call.outputs.start) = true then pure ()
    else _ : Solve p Unit) run = _
  split
  · next hdone =>
    rw [if_pos (by simpa using hdone)]
    rfl
  · next hopen =>
    rw [if_neg (by simpa using hopen)]
    rcases table.get? call.hint with - | f <;> rfl

/-- A hint that goes through was done before, or it is called on the values of its inputs. -/
theorem resolve_eq_ok (hres : c.resolve table pending h run = .ok () t) :
    ∃ call, c.hints[h]? = some call ∧ h ∈ pending ∧
      ((0 < call.outputs.size ∧ run.wires.isSolved call.outputs.start = true ∧ t = run) ∨
        ∃ f xs s, table.get? call.hint = some f ∧
          call.inputs.mapM (c.readInput (c.resolve table (pending.erase h))) run = .ok xs s ∧
          List.Forall₂ (fun e x => LinComb.value c.pool s.wires e = .ok x) call.inputs xs ∧
          callHint h call f xs s = .ok () t) := by
  rcases hcall : c.hints[h]? with - | call
  · rw [resolve, hcall] at hres
    cases hres
  by_cases hmem : h ∈ pending
  · refine ⟨call, rfl, hmem, ?_⟩
    rw [resolve_apply hcall hmem] at hres
    split at hres
    · next hdone =>
      cases hres
      exact Or.inl ⟨hdone.1, hdone.2, rfl⟩
    · rcases hf : table.get? call.hint with - | f
      · rw [hf] at hres
        cases hres
      · rw [hf] at hres
        obtain ⟨xs, s, hinputs, hres⟩ := bind_eq_ok_iff.1 hres
        exact Or.inr ⟨f, xs, s, rfl, hinputs,
          (inputs_eq_ok (grows_resolve table _) hinputs).2, hres⟩
  · rw [resolve, hcall] at hres
    dsimp only at hres
    rw [dif_neg hmem] at hres
    cases hres

/-- After a hint its first output has a value. -/
theorem isSolved_of_resolve (hres : c.resolve table pending h run = .ok () t) {call : HintCall}
    (hcall : c.hints[h]? = some call) (hsize : 0 < call.outputs.size) :
    t.wires.isSolved call.outputs.start = true := by
  obtain ⟨call', hcall', -, hdone | ⟨f, xs, s, -, -, -, hres⟩⟩ := resolve_eq_ok hres
  · obtain rfl := Option.some.inj (hcall.symm.trans hcall')
    obtain ⟨-, hsolved, rfl⟩ := hdone
    exact hsolved
  · obtain rfl := Option.some.inj (hcall.symm.trans hcall')
    obtain ⟨outputs, u, -, hset, rfl⟩ := callHint_eq_ok_iff.1 hres
    obtain ⟨wx, hwx, hstart⟩ := WireRange.exists_start_mem_zip hsize outputs
    rw [← hstart, Assignment.isSolved_eq_true_iff]
    exact ⟨_, (Assignment.get?_of_setAll hset wx hwx).2⟩

/-! ### What a call leaves behind -/

/-- A call of hint number `h` on given inputs, as an assignment shows it: the inputs are the values
of their combinations, and the output wires have what the function makes of them. -/
def Called (c : Circuit p) (table : HintTable) (s : Assignment p) (h : Nat)
    (inputs : List Nat) : Prop :=
  ∃ call f xs outputs, c.hints[h]? = some call ∧ table.get? call.hint = some f ∧
    List.Forall₂ (fun e x => LinComb.value c.pool s e = .ok x) call.inputs xs ∧
    inputs = xs.map Fp.val ∧
    f.function.call p inputs (Vector.replicate call.outputs.size 0) = .ok outputs ∧
    ∀ wx ∈ call.outputs.wires.zip outputs.toList, s.get? wx.1 = some (Fp.ofNat wx.2)

theorem Called.of_extends {s s' : Assignment p} {inputs : List Nat} (hs : s.Extends s')
    (hcalled : c.Called table s h inputs) : c.Called table s' h inputs := by
  obtain ⟨call, f, xs, outputs, hcall, hf, hvalues, hinputs, houtputs, hwires⟩ := hcalled
  exact ⟨call, f, xs, outputs, hcall, hf,
    hvalues.imp fun _ _ hvalue => LinComb.value_of_extends hs hvalue, hinputs, houtputs,
    fun wx hwx => hs.keeps _ _ (hwires wx hwx)⟩

/-- A call that goes through leaves this behind. -/
theorem called_of_callHint {call : HintCall} {f : NamedHint} {xs : List (Fp p)}
    (hcall : c.hints[h]? = some call) (hf : table.get? call.hint = some f)
    (hvalues : List.Forall₂ (fun e x => LinComb.value c.pool run.wires e = .ok x) call.inputs xs)
    (hres : callHint h call f xs run = .ok () t) :
    c.Called table t.wires h (xs.map Fp.val) := by
  obtain ⟨outputs, s, houtputs, hset, rfl⟩ := callHint_eq_ok_iff.1 hres
  have hextends := Assignment.extends_of_setAll hset
  exact ⟨call, f, xs, outputs, hcall, hf,
    hvalues.imp fun _ _ hvalue => LinComb.value_of_extends hextends hvalue, rfl, houtputs,
    fun wx hwx => (Assignment.get?_of_setAll hset wx hwx).2⟩

/-- After a call of a hint all its outputs have values. -/
theorem Called.isSolved {s : Assignment p} {inputs : List Nat} {w : Wire}
    (hcalled : c.Called table s h inputs) (hw : c.Produces h w) : s.isSolved w = true := by
  obtain ⟨call, f, xs, outputs, hcall, -, -, -, -, hwires⟩ := hcalled
  obtain ⟨call', hcall', hw⟩ := hw
  obtain rfl := Option.some.inj (hcall.symm.trans hcall')
  rw [← WireRange.map_fst_zip outputs] at hw
  obtain ⟨wx, hwx, rfl⟩ := List.mem_map.1 hw
  exact Assignment.isSolved_eq_true_iff.2 ⟨_, hwires wx hwx⟩

/-- Where combinations have values, all their terms have. -/
theorem value_isOk_of_forall₂ {s : Assignment p} {es : List LinComb} {xs : List (Fp p)}
    (hvalues : List.Forall₂ (fun e x => LinComb.value c.pool s e = .ok x) es xs)
    {e : LinComb} (he : e ∈ es) {t : Term} (ht : t ∈ e) : ∃ x, t.value c.pool s = .ok x := by
  obtain ⟨hlength, hget⟩ := List.forall₂_iff_get.1 hvalues
  obtain ⟨i, hi, rfl⟩ := List.getElem_of_mem he
  exact LinComb.value_isOk_iff.1 ⟨_, hget i hi (hlength ▸ hi)⟩ t ht

/-- After a call of a hint all wires that it reads have values. -/
theorem Called.isSolved_of_reads {s : Assignment p} {inputs : List Nat} {w : Wire}
    (hcalled : c.Called table s h inputs) (hw : c.Reads h w) : s.isSolved w = true := by
  obtain ⟨call, f, xs, outputs, hcall, -, hvalues, -, -, -⟩ := hcalled
  obtain ⟨call', hcall', e, he, t, ht, hconst, hcoeff, rfl⟩ := hw
  obtain rfl := Option.some.inj (hcall.symm.trans hcall')
  have hterm := Term.value_isOk_iff.1 (value_isOk_of_forall₂ hvalues he ht)
  exact (hterm.2.resolve_left hconst).resolve_left hcoeff

/-! ### What calls keep -/

/-- Hints that are closed under what they need. -/
def Closed (c : Circuit p) (H : Nat → Prop) : Prop := ∀ h g, H h → c.Needs h g → H g

/-- A property that calls of given hints on the values of their inputs keep, when they go
through. -/
def KeptByCalls (c : Circuit p) (table : HintTable) (H : Nat → Prop) (P : Run p → Prop) : Prop :=
  ∀ h call f xs run t, H h → P run → c.hints[h]? = some call → table.get? call.hint = some f →
    List.Forall₂ (fun e x => LinComb.value c.pool run.wires e = .ok x) call.inputs xs →
    callHint h call f xs run = .ok () t → P t

/-- What calls keep is kept by a hint with all those it needs, by the number of hints that are
left. -/
theorem of_resolve {H : Nat → Prop} {P : Run p → Prop} (hH : c.Closed H)
    (hP : c.KeptByCalls table H P) (hh : H h) (hrun : P run)
    (hres : c.resolve table pending h run = .ok () t) : P t := by
  induction hn : pending.length using Nat.strong_induction_on generalizing pending h run t with
  | _ n ih =>
    obtain ⟨call, hcall, hmem, ⟨-, -, rfl⟩ | ⟨f, xs, s, hf, hinputs, hvalues, hres⟩⟩ :=
      resolve_eq_ok hres
    · exact hrun
    · have hshorter : (pending.erase h).length < n := hn ▸ length_erase_lt_of_mem hmem
      have hproduce : ∀ g, H g → Triple P (c.resolve table (pending.erase h) g) (fun _ => P)
          fun _ _ => True := by
        intro g hg run' hrun'
        rcases hgres : c.resolve table (pending.erase h) g run' with ⟨_, t'⟩ | -
        · exact ih _ hshorter hg hrun' hgres rfl
        · trivial
      have hread := triple_mapM (V := fun _ _ => True) (l := call.inputs) fun e he =>
        (triple_readInput (c := c) (e := e) (fun _ _ _ _ => trivial)
          (fun _ _ _ _ _ _ _ => trivial)
          fun v hv g hconst hcoeff hg => hproduce g
            (hH h g hh ⟨call, hcall, e, he, v, hv, hconst, hcoeff, hg⟩)).weaken
          fun _ _ h => ⟨trivial, h⟩
      exact hP h call f xs s t hh (hread.of_ok hrun hinputs).2 hcall hf hvalues hres

end Circuit

end WireSolve
