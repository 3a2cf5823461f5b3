/-
WireSolve/Proofs/Circuit/Described.lean

Circuits that are described call by call are well-formed.

A call appends as many wires as it says (`Draft.wireCount_perform`), and one that is
allowed keeps the draft in order (`Session.Sound.proceeds`).  What it hands out exists
from then on, since neither wires nor coefficients are taken back: the session never
knows more than there is (`Session.Sound`), and so what it allows next is in range.

Main result: `Session.wellFormed`.
-/
import WireSolve.Proofs.Circuit.WellFormed

namespace WireSolve

variable {p : Nat} [Modulus p]

/-! ### One call -/

/-- What has become of a draft by a call. -/
structure Draft.Proceeds (d : Draft p) (r : Draft p × Reply) : Prop where
  tidy : r.1.Tidy
  size_pool_le : d.circuit.pool.size ≤ r.1.circuit.pool.size
  handedOut_lt : ∀ w ∈ r.2.handedOut, w.toNat < r.1.circuit.wireCount
  positions_lt : ∀ i ∈ r.2.positions, i < r.1.circuit.pool.size

namespace Draft

variable {d : Draft p} {a : Call p} {n : Nat}

/-- A call appends as many wires as it says. -/
theorem wireCount_perform (hc : d.circuit.LaidOut)
    (hfits : d.circuit.wireCount + a.appends ≤ Wire.constantTag.toNat) :
    (d.perform a).1.circuit.wireCount = d.circuit.wireCount + a.appends := by
  cases a with
  | internal | hint | detachedHint => exact (laidOut_internals hc hfits).2
  | nextLevel =>
    show d.nextLevel.circuit.wireCount = d.circuit.wireCount
    unfold Draft.nextLevel
    split <;> rfl
  | _ => rfl

/-- A call that is only told about inputs. -/
theorem Tidy.proceeds_ofWire (hd : d.Tidy) {r : Except DraftError Wire}
    (hr : ∀ w, r = .ok w → w.toNat < d.circuit.inputCount) : d.Proceeds (d, .ofWire r) := by
  rcases r with e | w
  · exact ⟨hd, Nat.le_refl _, nofun, nofun⟩
  · refine ⟨hd, Nat.le_refl _, fun v hv => ?_, nofun⟩
    obtain rfl := List.mem_singleton.1 hv
    exact Nat.lt_of_lt_of_le (hr v rfl) hd.laidOut.inputCount_le

/-- A call that gives a coefficient a position. -/
theorem Tidy.proceeds_coeff (hd : d.Tidy) (x : Fp p) {r : Reply}
    (hhandedOut : r.handedOut = []) (hpositions : r.positions = [(d.coeff x).2]) :
    d.Proceeds ((d.coeff x).1, r) := by
  refine ⟨hd.coeff x, d.circuit.pool.size_le_insert x, fun w hw => ?_, fun i hi => ?_⟩
  · rw [hhandedOut] at hw
    cases hw
  · rw [hpositions] at hi
    obtain rfl := List.mem_singleton.1 hi
    exact d.circuit.pool.insert_lt_size x

/-- A call that hands out nothing. -/
theorem proceeds_of_same {r : Draft p × Reply} (hr : r.1.Tidy)
    (hpool : r.1.circuit.pool = d.circuit.pool) (hhandedOut : r.2.handedOut = [])
    (hpositions : r.2.positions = []) : d.Proceeds r := by
  refine ⟨hr, Nat.le_of_eq (congrArg CoeffPool.size hpool.symm), fun w hw => ?_, fun i hi => ?_⟩
  · rw [hhandedOut] at hw
    cases hw
  · rw [hpositions] at hi
    cases hi

/-- A call that appends wires and hands them out. -/
theorem Tidy.proceeds_internals (hd : d.Tidy)
    (hfits : d.circuit.wireCount + n ≤ Wire.constantTag.toNat) {d' : Draft p} (hd' : d'.Tidy)
    (hwires : d'.circuit.wireCount = (d.internals n).1.circuit.wireCount)
    (hpool : d'.circuit.pool = d.circuit.pool) :
    d.Proceeds (d', .wires (d.internals n).2) := by
  refine ⟨hd', Nat.le_of_eq (congrArg CoeffPool.size hpool.symm), fun w hw => ?_, nofun⟩
  show w.toNat < d'.circuit.wireCount
  rw [hwires, (laidOut_internals hd.laidOut hfits).2]
  exact (mem_internals hd.laidOut hfits hw).2

end Draft

namespace Session

variable {s : Session p} {a : Draft.Call p} {calls : List (Draft.Call p)}

/-- The draft is in order, and what the session knows exists. -/
structure Sound (s : Session p) : Prop where
  tidy : s.draft.Tidy
  handedOut_lt : ∀ w ∈ s.handedOut, w.toNat < s.draft.circuit.wireCount
  positions_lt : ∀ i ∈ s.positions, i < s.draft.circuit.pool.size

/-! What is known is in range. -/

theorem Sound.lt_of_knowsCoeff (hs : s.Sound) {i : Nat} (hi : s.KnowsCoeff i) :
    i < s.draft.circuit.pool.size := by
  rcases hi with hreserved | hgiven
  · exact Nat.lt_of_lt_of_le hreserved s.draft.circuit.pool.four_le_size
  · exact hs.positions_lt i hgiven

theorem Sound.inRange_of_knowsTerm (hs : s.Sound) {t : Term} (ht : s.KnowsTerm t) :
    t.InRange s.draft.circuit.pool s.draft.circuit.wireCount :=
  ⟨hs.lt_of_knowsCoeff ht.1, ht.2.imp_right fun hw => hs.handedOut_lt _ hw⟩

theorem Sound.inRange_of_inputs (hs : s.Sound) {inputs : List LinComb}
    (hinputs : ∀ e ∈ inputs, ∀ t ∈ e, s.KnowsTerm t) :
    ∀ e ∈ inputs, ∀ t ∈ e, t.InRange s.draft.circuit.pool s.draft.circuit.wireCount :=
  fun e he t ht => hs.inRange_of_knowsTerm (hinputs e he t ht)

theorem Sound.inRange_of_knowsGate (hs : s.Sound) {g : Gate} (hg : s.KnowsGate g) :
    g.InRange s.draft.circuit.pool s.draft.circuit.wireCount := by
  have hwire : ∀ w ∈ s.handedOut,
      w.toNat < s.draft.circuit.wireCount ∧ w ≠ Wire.constantTag := fun w hw =>
    ⟨hs.handedOut_lt w hw, hs.tidy.laidOut.ne_tag (hs.handedOut_lt w hw)⟩
  obtain ⟨hselectors, ha, hb, hc⟩ := hg
  exact ⟨fun q hq => hs.lt_of_knowsCoeff (hselectors q hq), fun huses => hwire _ (ha huses),
    fun huses => hwire _ (hb huses), fun huses => hwire _ (hc huses)⟩

/-- A constraint that is allowed is in range, and not a program. -/
theorem Sound.inRange_of_knowsConstraint (hs : s.Sound) {q : Constraint p}
    (hq : s.KnowsConstraint q) :
    q.InRange s.draft.circuit.pool s.draft.circuit.wireCount ∧ q.isArithmetic = true := by
  cases q with
  | rank1 r => exact ⟨Rank1.inRange_iff.2 fun t ht => hs.inRange_of_knowsTerm (hq t ht), rfl⟩
  | gate g => exact ⟨hs.inRange_of_knowsGate hq, rfl⟩
  | custom body => exact hq.elim

/-- A call that is allowed, one case for each kind. -/
theorem Sound.proceeds (hs : s.Sound) (ha : s.Allows a)
    (hfits : s.draft.circuit.wireCount + a.appends ≤ Wire.constantTag.toNat) :
    s.draft.Proceeds (s.draft.perform a) := by
  have hd := hs.tidy
  cases a with
  | one => exact hd.proceeds_ofWire fun w hw => Draft.lt_of_one hd.laidOut hw
  | publicInput i => exact hd.proceeds_ofWire fun w hw => Draft.lt_of_publicInput hd.laidOut hw
  | secretInput i => exact hd.proceeds_ofWire fun w hw => Draft.lt_of_secretInput hd.laidOut hw
  | internal => exact hd.proceeds_internals hfits (hd.internals hfits) rfl rfl
  | coeff x => exact hd.proceeds_coeff x rfl rfl
  | term x w => exact hd.proceeds_coeff x rfl rfl
  | constant x => exact hd.proceeds_coeff x rfl rfl
  | constrain q =>
    obtain ⟨hrange, harith⟩ := hs.inRange_of_knowsConstraint ha
    exact Draft.proceeds_of_same (hd.constrain hrange harith) rfl rfl rfl
  | hint name inputs n =>
    have hinputs := hs.inRange_of_inputs ha
    exact hd.proceeds_internals hfits (hd.hint hfits hinputs) rfl rfl
  | detachedHint name inputs n =>
    have hinputs := hs.inRange_of_inputs ha
    exact hd.proceeds_internals hfits (hd.detachedHint hfits hinputs) rfl rfl
  | nextLevel =>
    -- a level is closed, or nothing happens
    have hpool : s.draft.nextLevel.circuit.pool = s.draft.circuit.pool := by
      unfold Draft.nextLevel
      split <;> rfl
    exact Draft.proceeds_of_same hd.nextLevel hpool rfl rfl
  | location function file line =>
    exact Draft.proceeds_of_same (hd.withNotes _ _ _ _) rfl rfl rfl
  | annotate k n => exact Draft.proceeds_of_same (hd.withNotes _ _ _ _) rfl rfl rfl
  | log n => exact Draft.proceeds_of_same (hd.withNotes _ _ _ _) rfl rfl rfl

/-! ### Sequences of calls -/

theorem handedOut_call (s : Session p) (a : Draft.Call p) :
    (s.call a).handedOut = s.handedOut ++ (s.draft.perform a).2.handedOut := by
  simp [handedOut, call]

theorem positions_call (s : Session p) (a : Draft.Call p) :
    (s.call a).positions = s.positions ++ (s.draft.perform a).2.positions := by
  simp [positions, call]

/-- A call that is allowed keeps the session sound. -/
theorem Sound.call (hs : s.Sound) (ha : s.Allows a)
    (hfits : s.draft.circuit.wireCount + a.appends ≤ Wire.constantTag.toNat) :
    (s.call a).Sound ∧
      (s.call a).draft.circuit.wireCount = s.draft.circuit.wireCount + a.appends := by
  obtain ⟨htidy, hpool, hhandedOut, hpositions⟩ := hs.proceeds ha hfits
  have hcount := Draft.wireCount_perform hs.tidy.laidOut hfits
  refine ⟨⟨htidy, fun w hw => ?_, fun i hi => ?_⟩, hcount⟩
  · rw [handedOut_call] at hw
    rcases List.mem_append.1 hw with hw | hw
    · -- a wire that was there before still is
      show w.toNat < (s.draft.perform a).1.circuit.wireCount
      rw [hcount]
      exact Nat.lt_of_lt_of_le (hs.handedOut_lt w hw) (Nat.le_add_right _ _)
    · exact hhandedOut w hw
  · rw [positions_call] at hi
    rcases List.mem_append.1 hi with hi | hi
    · exact Nat.lt_of_lt_of_le (hs.positions_lt i hi) hpool
    · exact hpositions i hi

/-- Calls keep the session sound as long as there are positions left for the wires. -/
theorem Sound.run (hs : s.Sound) (hall : s.AllowsAll calls)
    (hfits : s.draft.circuit.wireCount + Draft.Call.appendsAll calls
      ≤ Wire.constantTag.toNat) : (s.run calls).Sound := by
  induction calls generalizing s with
  | nil => exact hs
  | cons a rest ih =>
    obtain ⟨ha, hrest⟩ := hall
    rw [Draft.Call.appendsAll] at hfits
    obtain ⟨hcall, hcount⟩ := hs.call ha (by omega)
    exact ih hcall hrest (by omega)

/-- Nothing is named at the start. -/
theorem sound_start {family : Family} {publicInputs secretInputs : Count}
    (hfits : family.reservedWires + publicInputs.toNat + secretInputs.toNat
      ≤ Wire.constantTag.toNat) :
    (start family publicInputs secretInputs : Session p).Sound ∧
      (start family publicInputs secretInputs : Session p).draft.circuit.wireCount
        = family.reservedWires + publicInputs.toNat + secretInputs.toNat := by
  have htag : Wire.constantTag.toNat = 4294967295 := rfl
  have hreserved : family.reservedWires ≤ 1 := by cases family <;> decide
  have hpublic : (publicInputs + UInt64.ofNat family.reservedWires).toNat
      = family.reservedWires + publicInputs.toNat := by
    rw [UInt64.toNat_add, UInt64.toNat_ofNat']
    omega
  have hcount : (Draft.start family publicInputs secretInputs : Draft p).circuit.wireCount
      = (publicInputs + UInt64.ofNat family.reservedWires).toNat + secretInputs.toNat + 0 :=
    Circuit.wireCount_of_le (by
      show (publicInputs + UInt64.ofNat family.reservedWires).toNat + secretInputs.toNat + 0 ≤ _
      omega)
  refine ⟨⟨⟨⟨?_, hcount, ?_⟩, ?_, ?_, rfl⟩, nofun, nofun⟩, ?_⟩
  · show family.reservedWires ≤ (publicInputs + UInt64.ofNat family.reservedWires).toNat
    omega
  · show (Draft.start family publicInputs secretInputs : Draft p).circuit.wireCount ≤ _
    omega
  · have hnone : ∀ (g : Nat) (w : Wire),
        ¬ (Draft.start family publicInputs secretInputs : Draft p).circuit.Produces g w := by
      rintro g w ⟨call, hcall, -⟩
      cases hcall
    exact ⟨nofun, nofun, nofun, fun g w hg => absurd hg (hnone g w),
      fun h g w _ hg => absurd hg (hnone g w), nofun⟩
  · exact ⟨nofun, nofun, nofun⟩
  · show (Draft.start family publicInputs secretInputs : Draft p).circuit.wireCount = _
    omega

/-- What is described by calls that are allowed, with no more wires than there are numbers for, is
well-formed. -/
theorem wellFormed {family : Family} {publicInputs secretInputs : Count}
    (hall : (start family publicInputs secretInputs).AllowsAll calls)
    (hfits : wireDemand family publicInputs secretInputs calls ≤ Wire.constantTag.toNat) :
    ((start family publicInputs secretInputs).run calls).circuit.WellFormed := by
  unfold wireDemand at hfits
  obtain ⟨hstart, hcount⟩ := @sound_start p _ family publicInputs secretInputs (by omega)
  exact (hstart.run hall (by omega)).tidy.finish

end Session

end WireSolve
