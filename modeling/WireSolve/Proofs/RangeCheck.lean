/-
WireSolve/Proofs/RangeCheck.lean

The bits of an input check its range.

With the hints that every solve knows nothing is missing, so the setup goes through
(`RangeCheck.setup_isOk`), and the hint of the first level gives every bit its value
(`RangeCheck.AtStart.solveHint`).  Then all wires are solved, and the constraint of the
second level is only checked (`RangeCheck.outcome_eq`).

Main result: `RangeCheck.solve_decides`.
-/
import WireSolve.Proofs.Chained
import WireSolve.Proofs.Circuit.Check
import WireSolve.Proofs.Circuit.RangeCheck
import WireSolve.Proofs.Structural

namespace WireSolve

variable {p : Nat} [Modulus p]

namespace RangeCheck

variable {n : Nat}

/-! ### The setup -/

/-- The hint function under its name. -/
def nBits : NamedHint := ⟨"witness_solver::hint::n_bits", HintFunction.nBits⟩

/-- The hint is one of those that every solve knows. -/
theorem get?_builtins (n : Nat) : HintTable.builtins.get? (call n).hint = some nBits := by
  have hdiv : (call n).hint ≠ HintId.ofName "witness_solver::hint::div" := by
    show HintId.ofName "witness_solver::hint::n_bits" ≠ _
    decide +kernel
  -- the name that is registered last is another one, and the one before is the name
  show ((HintTable.register _ _ _).register _ _).get? _ = _
  rw [HintTable.get?_register, if_neg hdiv, HintTable.get?_register]
  exact if_pos rfl

/-- Nothing is missing. -/
theorem missingHints_eq (p n : Nat) [Modulus p] :
    (rangeCheck p n).missingHints HintTable.builtins = [] := by
  rw [circuit_eq, Circuit.missingHints, List.map_eq_nil_iff, List.filter_eq_nil_iff]
  rintro ⟨id, name⟩ hlisted
  rw [Std.TreeMap.mem_toList_iff_getElem?_eq_some, Std.TreeMap.getElem?_insertIfNew] at hlisted
  split at hlisted
  · next hid =>
    -- the hint is the only one that is listed
    obtain rfl := Std.LawfulEqCmp.compare_eq_iff_eq.1 hid.1
    have hfound : HintTable.builtins.entries[(call n).hint]? = some _ := get?_builtins n
    show ¬(!HintTable.builtins.entries.contains (call n).hint) = true
    rw [Std.TreeMap.contains_eq_isSome_getElem?, hfound]
    exact Bool.false_ne_true
  · simp at hlisted

variable {x : Fp p} {o : Options} {s : Assignment p} {run t : Run p}

theorem setup_isOk (hn : n + 2 ≤ Wire.constantTag.toNat) (ho : o.hints = HintTable.builtins)
    (x : Fp p) : ∃ s, (rangeCheck p n).setup [x] o = .ok s := by
  have hlength : [x].length = (rangeCheck p n).witnessSize := (witnessSize_eq p n).symm
  have hmissing : (rangeCheck p n).missingHints o.hints = [] := ho ▸ missingHints_eq p n
  exact (wellFormed hn).setup_isOk hlength hmissing

/-! ### The hint -/

/-- The hint is the only one. -/
theorem getElem?_hints (p n : Nat) [Modulus p] : (rangeCheck p n).hints[0]? = some (call n) := by
  rw [circuit_eq]
  rfl

/-- An assignment that has the constant one and the input, and no other values. -/
structure AtStart (n : Nat) (x : Fp p) (s : Assignment p) : Prop where
  size_eq : s.size = n + 2
  one : s.get? 0 = some 1
  input : s.get? (Wire.atPosition 1) = some x
  cases : ∀ w, s.isSolved w = true → w = 0 ∨ w = Wire.atPosition 1
  numbered : s.Numbered
  counted : s.Counted

theorem atStart_of_setup (hn : n + 2 ≤ Wire.constantTag.toNat)
    (hs : (rangeCheck p n).setup [x] o = .ok s) : AtStart n x s := by
  obtain ⟨hlength, -, -, hseed, -⟩ := Circuit.setup_eq_ok_iff.1 hs
  have hfamily : (rangeCheck p n).family = .rank1 := by rw [circuit_eq]
  have hinput := Circuit.get?_of_seed hseed (i := 0) rfl
  rw [hfamily] at hinput
  refine ⟨(Circuit.size_of_seed hseed).trans (wireCount_eq hn),
    Circuit.get?_zero_of_seed hseed hfamily, hinput, fun w hw => ?_,
    Circuit.of_seed Assignment.persistent_numbered (Assignment.numbered_empty _) hseed,
    Circuit.of_seed Assignment.persistent_counted (Assignment.counted_empty _) hseed⟩
  rcases (Circuit.isSolved_seed_iff hlength hseed).1 hw with ⟨-, rfl⟩ | ⟨i, hi, rfl⟩
  · exact Or.inl rfl
  · rw [witnessSize_eq, Nat.lt_one_iff] at hi
    rw [hi, hfamily]
    exact Or.inr rfl

/-- The hint reads the input, which is at hand. -/
theorem AtStart.inputs_eq (hs : AtStart n x run.wires) {produce : Nat → Solve p Unit}
    (hproduce : Circuit.Grows produce) :
    (call n).inputs.mapM ((rangeCheck p n).readInput produce) run = .ok [x] run := by
  have hsolved : run.wires.isSolved (Wire.atPosition 1) = true :=
    Assignment.isSolved_eq_true_iff.2 ⟨x, hs.input⟩
  have hterms : ∀ e ∈ (call n).inputs, ∀ v ∈ e,
      v.coeff < (rangeCheck p n).pool.size ∧ (rangeCheck p n).Provides produce (· = run) v := by
    intro e he v hv
    obtain rfl := List.mem_singleton.1 he
    obtain rfl := List.mem_singleton.1 hv
    -- the input has its value, so no other hint is started for it
    refine ⟨CoeffPool.one_lt_size _, fun _ _ run' hrun' hunsolved => ?_⟩
    rw [hrun', hsolved] at hunsolved
    cases hunsolved
  obtain ⟨xs, t, hread, rfl⟩ := Circuit.inputs_progress hterms rfl
  rw [hread]
  cases (Circuit.inputs_eq_ok hproduce hread).2 with
  | cons hy hrest =>
    cases hrest
    have hdenote := LinComb.denote_eq_of_value hy (t.wires.agrees_fill 0)
    rw [denote_input, Assignment.fill, hs.input] at hdenote
    rw [← hdenote]
    rfl

section Hint

variable (hn : n + 2 ≤ Wire.constantTag.toNat)

include hn

/-- A wire is that of the constant one, of the input or of a bit. -/
theorem wire_cases {w : Wire} (hw : w.toNat < n + 2) :
    w = 0 ∨ w = Wire.atPosition 1 ∨ ∃ i < n, w = Wire.atPosition (2 + i) := by
  rcases hposition : w.toNat with - | - | i
  · exact Or.inl (UInt32.toNat_inj.1 hposition)
  · exact Or.inr (Or.inl (UInt32.toNat_inj.1 hposition))
  · have hi : i < n := by omega
    refine Or.inr (Or.inr ⟨i, hi, UInt32.toNat_inj.1 ?_⟩)
    rw [hposition, toNat_bit hn hi]
    omega

theorem size_call : (call n).outputs.size = n := by
  have hsize := lt_size hn
  have hword : n + 2 < 2 ^ 32 := hsize
  show (Wire.atPosition 2 + Wire.atPosition n).toNat - (Wire.atPosition 2).toNat = n
  rw [UInt32.toNat_add, Wire.toNat_atPosition (by omega), Wire.toNat_atPosition (by omega),
    Nat.mod_eq_of_lt (by omega), Nat.add_sub_cancel_left]

/-- The outputs of the hint are the wires of the bits. -/
theorem wires_call : (call n).outputs.wires
    = (List.range n).map fun i => Wire.atPosition (2 + i) := by
  rw [WireRange.wires, size_call hn]
  rfl

/-- The hint writes the bits to their wires. -/
theorem mem_zip_outputs (y : Nat) {i : Nat} (hi : i < n) :
    (Wire.atPosition (2 + i), (y.testBit i).toNat) ∈ (call n).outputs.wires.zip
      (Vector.ofFn fun i : Fin (call n).outputs.size => (y.testBit i).toNat).toList := by
  have hi' : i < (call n).outputs.size := (size_call hn).symm ▸ hi
  refine List.mem_iff_getElem?.2 ⟨i, List.getElem?_zip_eq_some.2 ⟨?_, ?_⟩⟩
  · rw [wires_call hn, List.getElem?_map, List.getElem?_range hi]
    rfl
  · rw [Vector.toList_ofFn, List.getElem?_ofFn, dif_pos hi']

theorem AtStart.isSolved_bit (hs : AtStart n x s) {i : Nat} (hi : i < n) :
    s.isSolved (Wire.atPosition (2 + i)) = false := by
  refine Bool.eq_false_iff.2 fun hsolved => ?_
  have hposition := toNat_bit hn hi
  rcases hs.cases _ hsolved with heq | heq
  · rw [heq] at hposition
    change 0 = 2 + i at hposition
    omega
  · rw [heq] at hposition
    change 1 = 2 + i at hposition
    omega

/-- The outputs of the hint are there to be filled. -/
theorem AtStart.free (hs : AtStart n x s) (w : Wire) (hw : (rangeCheck p n).Produces 0 w) :
    w.toNat < s.size ∧ s.isSolved w = false := by
  obtain ⟨call', hcall', hw⟩ := hw
  obtain rfl := Option.some.inj ((getElem?_hints p n).symm.trans hcall')
  rw [wires_call hn] at hw
  obtain ⟨i, hi, rfl⟩ := List.mem_map.1 hw
  rw [List.mem_range] at hi
  rw [hs.size_eq, toNat_bit hn hi]
  exact ⟨by omega, hs.isSolved_bit hn hi⟩

/-- With the bits, every wire has its value. -/
theorem AtStart.eq_of_setAll (hs : AtStart n x s) {u : Assignment p}
    (hset : s.setAll ((call n).outputs.wires.zip
      (Vector.ofFn fun i : Fin (call n).outputs.size => (x.val.testBit i).toNat).toList)
        = .ok u) : u = .ofValues (values n x) := by
  have hsize := size_values n x
  have hfits := lt_size hn
  have hextends := Assignment.extends_of_setAll hset
  refine Assignment.eq_ofValues
    ⟨Assignment.of_setAll Assignment.persistent_numbered hs.numbered hset,
      Assignment.of_setAll Assignment.persistent_counted hs.counted hset⟩
    (by rw [hextends.size_eq, hs.size_eq, hsize]) (by omega) fun w hw => ?_
  rw [hsize] at hw
  rcases wire_cases hn hw with rfl | rfl | ⟨i, hi, rfl⟩
  · exact hextends.keeps 0 1 hs.one
  · exact hextends.keeps _ x hs.input
  · rw [toNat_bit hn hi, getElem?_bit n x hi]
    exact (Assignment.get?_of_setAll hset _ (mem_zip_outputs hn x.val hi)).2

/-- The hint gives the bits their values. -/
theorem AtStart.solveHint (hs : AtStart n x run.wires) (ho : o.hints = HintTable.builtins) :
    ∃ t, (rangeCheck p n).solveHint o.hints 0 run = .ok () t ∧
      t.wires = .ofValues (values n x) ∧ t.sides = run.sides := by
  have hcall := getElem?_hints p n
  have hmem : 0 ∈ List.range (rangeCheck p n).hints.size := by
    rw [circuit_eq]
    exact List.mem_range.2 Nat.zero_lt_one
  have hopen : ¬(0 < (call n).outputs.size ∧ run.wires.isSolved (call n).outputs.start) := by
    rintro ⟨hsize, hsolved⟩
    rw [size_call hn] at hsize
    exact Bool.false_ne_true ((hs.isSolved_bit hn hsize).symm.trans hsolved)
  have houtputs : nBits.function.call p ([x].map Fp.val) (Vector.replicate (call n).outputs.size 0)
      = .ok (Vector.ofFn fun i => (x.val.testBit i).toNat) := rfl
  obtain ⟨u, hset, hwrite⟩ := Circuit.callHint_progress hcall houtputs (hs.free hn)
  refine ⟨{ run with
    wires := u
    journal := run.journal.push (Circuit.callEntry run 0 (call n) nBits [x]) }, ?_,
    hs.eq_of_setAll hn hset, rfl⟩
  rw [Circuit.solveHint, Circuit.resolve_apply hcall hmem, if_neg hopen, ho, get?_builtins]
  exact (Solve.bind_of_ok (hs.inputs_eq (Circuit.grows_resolve _ _))).trans hwrite

end Hint

/-! ### The outcome -/

/-- The first level gives the bits their values, and leaves the constraint to be checked. -/
theorem exists_reaches (hn : n + 2 ≤ Wire.constantTag.toNat) (ho : o.hints = HintTable.builtins)
    (x : Fp p) : ∃ run, (rangeCheck p n).Reaches [x] o [0] run ∧
      run.wires = .ofValues (values n x) ∧ run.sides[0]? = some none := by
  obtain ⟨s, hs⟩ := setup_isOk hn ho x
  have hstart : AtStart n x ((rangeCheck p n).initialRun o s #[]).wires := atStart_of_setup hn hs
  obtain ⟨t, hhint, hwires, hsides⟩ := hstart.solveHint hn ho
  have hprocess : (rangeCheck p n).process o 0 = (rangeCheck p n).solveHint o.hints 0 := by
    rw [circuit_eq]
    rfl
  refine ⟨t, ⟨s, hs, Circuit.processAll_cons_eq_ok_iff.2 ⟨t, ?_, rfl⟩⟩, hwires, ?_⟩
  · rw [hprocess]
    exact hhint
  · rw [hsides, circuit_eq]
    rfl

/-- What is left after the first level is the constraint. -/
theorem outcome_eq (hrun : (rangeCheck p n).Reaches [x] o [0] run) :
    ((rangeCheck p n).solve [x] o).outcome
      = match (rangeCheck p n).solveRank1 0 (sum p n) run with
        | .ok _ t => (rangeCheck p n).conclude t
        | .error e _ => .error e := by
  have hlevels : (rangeCheck p n).levels.flatten = [0] ++ [1] := by
    rw [circuit_eq]
    rfl
  have hprocess : (rangeCheck p n).process o 1 = (rangeCheck p n).solveRank1 0 (sum p n) := by
    rw [circuit_eq]
    rfl
  rw [Circuit.outcome_solve, hlevels, hrun.outcomeAlong_eq, ← hprocess]
  show (match ((rangeCheck p n).process o 1 >>= fun _ => pure ()) run with
    | .ok _ t => (rangeCheck p n).conclude t
    | .error e _ => .error e) = _
  rcases hcheck : (rangeCheck p n).process o 1 run with ⟨_, t⟩ | ⟨e, t⟩
  · rw [Solve.bind_of_ok hcheck]
    rfl
  · rw [Solve.bind_of_error hcheck]

/-- An input in the range is accepted, and the solution is the one with its bits. -/
theorem outcome_of_lt (hn : n + 2 ≤ Wire.constantTag.toNat) (ho : o.hints = HintTable.builtins)
    (hx : x.val < 2 ^ n) : ∃ solution,
      ((rangeCheck p n).solve [x] o).outcome = .ok solution ∧ solution.values = values n x := by
  obtain ⟨run, hrun, hwires, hside⟩ := exists_reaches hn ho x
  have hsum := inRange_sum (p := p) hn
  rw [← size_values n x] at hsum
  obtain ⟨t, ht⟩ := Circuit.solveRank1_of_holds hsum hwires hside ((holds_iff hn x).2 hx)
  -- the constraint is only checked, and so the values are those of the bits still
  have hwires' : t.wires = .ofValues (values n x) := by
    obtain ⟨y, hsolve, -⟩ := Circuit.solveRank1_eq_ok ht
    rw [hwires, Rank1.solve_ofValues hsum] at hsolve
    obtain ⟨-, -, hpure⟩ := Outcome.bind_eq_ok_iff.1 hsolve
    exact (Prod.mk.inj (Outcome.pure_eq_ok_iff.1 hpure)).1.symm
  have hcomplete : (Assignment.ofValues (values n x)).isComplete = true := by
    simp [Assignment.isComplete, Assignment.ofValues, Assignment.size]
  rw [outcome_eq hrun, ht]
  show ∃ solution, (rangeCheck p n).conclude t = _ ∧ _
  rw [Circuit.conclude_eq, hwires', if_pos hcomplete, Assignment.values_ofValues]
  exact ⟨_, rfl, rfl⟩

/-- An input that is not in the range is rejected by the constraint. -/
theorem outcome_of_not_lt (hn : n + 2 ≤ Wire.constantTag.toNat)
    (ho : o.hints = HintTable.builtins) (hx : ¬ x.val < 2 ^ n) : ∃ v,
      ((rangeCheck p n).solve [x] o).outcome = .error (.unsatisfied v) ∧ v.constraint = 0 := by
  obtain ⟨run, hrun, hwires, -⟩ := exists_reaches hn ho x
  have hsum := inRange_sum (p := p) hn
  rw [← size_values n x] at hsum
  obtain ⟨m, hm⟩ := Circuit.solveRank1_of_not_holds hsum hwires (mt (holds_iff hn x).1 hx)
  rw [outcome_eq hrun, hm]
  exact ⟨_, rfl, rfl⟩

/-- So whatever is accepted is in the range. -/
theorem lt_of_outcome_eq_ok (hn : n + 2 ≤ Wire.constantTag.toNat)
    (ho : o.hints = HintTable.builtins) {solution : Solution p}
    (hsolution : ((rangeCheck p n).solve [x] o).outcome = .ok solution) : x.val < 2 ^ n := by
  by_contra hx
  obtain ⟨v, hv, -⟩ := outcome_of_not_lt hn ho hx
  rw [hv] at hsolution
  cases hsolution

/-- What the outcome says of an input. -/
structure Decides (n : Nat) (x : Fp p) (outcome : Except Failure (Solution p)) : Prop where
  /-- The input is accepted exactly when it is in the range. -/
  isOk_iff : (∃ solution, outcome = .ok solution) ↔ x.val < 2 ^ n
  /-- The values are the constant one, the input and `n` bits, which make the input. -/
  values_eq : ∀ solution, outcome = .ok solution → ∃ bits : List (Fp p),
    solution.values = (1 :: x :: bits).toArray ∧ bits.length = n ∧ (∀ b ∈ bits, b = 0 ∨ b = 1) ∧
      (bits.zipIdx.map fun b => b.1.val * 2 ^ b.2).sum = x.val
  /-- An input that is not in the range is rejected by the only constraint. -/
  unsatisfied : ¬ x.val < 2 ^ n → ∃ v, outcome = .error (.unsatisfied v) ∧ v.constraint = 0

/-- With the hints that every solve knows, the circuit checks the range of its input, whatever the
modulus is: the powers of two may wrap around, but the bits that are weighed make no more than the
input. -/
theorem solve_decides (hn : n + 2 ≤ Wire.constantTag.toNat) (ho : o.hints = HintTable.builtins)
    (x : Fp p) : Decides n x ((rangeCheck p n).solve [x] o).outcome where
  isOk_iff := by
    constructor
    · rintro ⟨solution, hsolution⟩
      exact lt_of_outcome_eq_ok hn ho hsolution
    · intro hx
      obtain ⟨solution, hsolution, -⟩ := outcome_of_lt hn ho hx
      exact ⟨solution, hsolution⟩
  values_eq := by
    intro solution hsolution
    have hx := lt_of_outcome_eq_ok hn ho hsolution
    obtain ⟨solution', hsolution', hvalues⟩ := outcome_of_lt hn ho hx
    obtain rfl := Except.ok.inj (hsolution.symm.trans hsolution')
    refine ⟨bits n x, hvalues, by simp [bits], fun b => eq_zero_or_one_of_mem_bits, ?_⟩
    rw [sum_bits, Nat.mod_eq_of_lt hx]
  unsatisfied := outcome_of_not_lt hn ho

/-- Four bits are enough for 11, but not for 16; six are, although the last power wraps around. -/
theorem nibble_decides :
    4 + 2 ≤ Wire.constantTag.toNat ∧ 6 + 2 ≤ Wire.constantTag.toNat ∧
      Options.initial.hints = HintTable.builtins ∧
      (∃ solution, ((rangeCheck 17 4).solve [.ofNat 11] .initial).outcome = .ok solution) ∧
      (∃ v, ((rangeCheck 17 4).solve [.ofNat 16] .initial).outcome = .error (.unsatisfied v) ∧
        v.constraint = 0) ∧
      ∃ solution, ((rangeCheck 17 6).solve [.ofNat 16] .initial).outcome = .ok solution := by
  have hfour : 4 + 2 ≤ Wire.constantTag.toNat := by decide
  have hsix : 6 + 2 ≤ Wire.constantTag.toNat := by decide
  refine ⟨hfour, hsix, rfl, ?_, ?_, ?_⟩
  · exact (solve_decides hfour rfl _).isOk_iff.2 (by decide)
  · exact (solve_decides hfour rfl _).unsatisfied (by decide)
  · exact (solve_decides hsix rfl _).isOk_iff.2 (by decide)

end RangeCheck

end WireSolve
