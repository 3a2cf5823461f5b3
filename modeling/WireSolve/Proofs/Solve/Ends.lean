/-
WireSolve/Proofs/Solve/Ends.lean

What a solve starts from, and what it returns.

The setup gives the constant one and the witness to consecutive wires.  A wire is
given a value once, so the positions cannot wrap around into one another
(`Circuit.length_le_of_seedFrom`), and each value is found at its own position in
whatever is read out in the end.  To a valuation the seed says neither more nor
less than that it has the constant one and the witness
(`Circuit.agrees_iff_of_seed`).

What is returned is read out of the last state and nothing else
(`Circuit.conclude_eq_ok`).
-/
import WireSolve.Proofs.Assignment
import WireSolve.Proofs.Outcome
import WireSolve.Solve.Solution

namespace WireSolve

variable {p : Nat} {s t : Assignment p} {z : Valuation p}

/-! ### Positions -/

/-- Positions that do not wrap around are those of their wires. -/
theorem Wire.toNat_atPosition {n : Nat} (h : n < UInt32.size) : (Wire.atPosition n).toNat = n := by
  rw [Wire.atPosition, UInt32.toNat_ofNat_of_lt' h]

/-- Different positions that do not wrap around have different wires. -/
theorem Wire.atPosition_ne {m n : Nat} (hm : m < UInt32.size) (hn : n < UInt32.size)
    (hne : m ≠ n) : Wire.atPosition m ≠ Wire.atPosition n := by
  intro heq
  apply hne
  rw [← Wire.toNat_atPosition hm, ← Wire.toNat_atPosition hn, heq]

/-- The position after the last is the first again. -/
theorem Wire.atPosition_wrap : Wire.atPosition UInt32.size = Wire.atPosition 0 := by
  decide

theorem Assignment.get?_empty (n : Nat) (w : Wire) :
    (Assignment.empty n : Assignment p).get? w = none := by
  rw [Assignment.get?, Assignment.empty, Array.getElem?_replicate]
  split <;> rfl

namespace Circuit

/-! ### Consecutive values -/

variable {position : Nat} {xs : List (Fp p)}

theorem seedFrom_cons_eq_ok {x : Fp p} (h : seedFrom s position (x :: xs) = .ok t) :
    ∃ s', s.set (Wire.atPosition position) x = .ok s' ∧ seedFrom s' (position + 1) xs = .ok t :=
  Outcome.bind_eq_ok_iff.1 h

/-- What every write keeps is kept. -/
theorem of_seedFrom {P : Assignment p → Prop} (hP : Assignment.Persistent P) (hs : P s)
    (h : seedFrom s position xs = .ok t) : P t := by
  induction xs generalizing s position with
  | nil =>
    obtain rfl := Except.ok.inj h
    exact hs
  | cons x rest ih =>
    obtain ⟨s', hset, h⟩ := seedFrom_cons_eq_ok h
    exact ih (hP s _ x s' hs hset) h

theorem extends_of_seedFrom (h : seedFrom s position xs = .ok t) : s.Extends t :=
  of_seedFrom (Assignment.persistent_extends s) (Assignment.Extends.refl s) h

/-- Every value is found at its position. -/
theorem get?_of_seedFrom (h : seedFrom s position xs = .ok t) {i : Nat} {x : Fp p}
    (hi : xs[i]? = some x) : t.get? (Wire.atPosition (position + i)) = some x := by
  induction xs generalizing s position i with
  | nil => cases hi
  | cons y rest ih =>
    obtain ⟨s', hset, h⟩ := seedFrom_cons_eq_ok h
    cases i with
    | zero =>
      obtain rfl : y = x := by simpa using hi
      exact (extends_of_seedFrom h).keeps _ y (Assignment.get?_set_self hset)
    | succ i =>
      rw [Nat.add_comm i, ← Nat.add_assoc]
      exact ih h (by simpa using hi)

/-- No other wires are given values. -/
theorem isSolved_of_seedFrom (h : seedFrom s position xs = .ok t) {w : Wire}
    (hw : t.isSolved w = true) :
    s.isSolved w = true ∨ ∃ i < xs.length, w = Wire.atPosition (position + i) := by
  induction xs generalizing s position with
  | nil =>
    obtain rfl := Except.ok.inj h
    exact Or.inl hw
  | cons x rest ih =>
    obtain ⟨s', hset, h⟩ := seedFrom_cons_eq_ok h
    rcases ih h with hbefore | ⟨i, hi, rfl⟩
    · rw [Assignment.isSolved, Assignment.get?_of_set hset] at hbefore
      split at hbefore
      · next heq => exact Or.inr ⟨0, Nat.zero_lt_succ _, heq⟩
      · exact Or.inl hbefore
    · refine Or.inr ⟨i + 1, Nat.succ_lt_succ hi, congrArg Wire.atPosition ?_⟩
      omega

/-- A valuation that agrees in the end agreed before and has the values. -/
theorem agrees_iff_of_seedFrom (h : seedFrom s position xs = .ok t) :
    t.Agrees z ↔ s.Agrees z ∧ ∀ i x, xs[i]? = some x → z (Wire.atPosition (position + i)) = x := by
  induction xs generalizing s position with
  | nil =>
    obtain rfl := Except.ok.inj h
    simp
  | cons x rest ih =>
    obtain ⟨s', hset, h⟩ := seedFrom_cons_eq_ok h
    rw [ih h, Assignment.agrees_of_set hset, and_assoc]
    refine and_congr_right fun _ => ?_
    constructor
    · rintro ⟨hx, hrest⟩ i y hi
      cases i with
      | zero =>
        obtain rfl : x = y := by simpa using hi
        exact hx
      | succ i =>
        rw [← hrest i y (by simpa using hi)]
        congr 2
        omega
    · intro hall
      refine ⟨hall 0 x rfl, fun i y hi => ?_⟩
      rw [← hall (i + 1) y (by simpa using hi)]
      congr 2
      omega

/-- Consecutive positions that are given values do not reach the position after the last: its
wire is the first one, which has a value. -/
theorem length_le_of_seedFrom (h : seedFrom s position xs = .ok t)
    (hposition : position ≤ UInt32.size)
    (hbefore : ∀ i < position, s.isSolved (Wire.atPosition i) = true) :
    position + xs.length ≤ UInt32.size := by
  induction xs generalizing s position with
  | nil => exact hposition
  | cons x rest ih =>
    obtain ⟨s', hset, h⟩ := seedFrom_cons_eq_ok h
    obtain ⟨-, hnone, -⟩ := Assignment.set_eq_ok_iff.1 hset
    have hlast : position ≠ UInt32.size := by
      -- the wire of that position is the first one, which has a value already
      rintro rfl
      have hzero := hbefore 0 (by decide)
      rw [Assignment.isSolved, ← Wire.atPosition_wrap, hnone] at hzero
      cases hzero
    have hlength := ih h (by omega) fun i hi => by
      rw [Assignment.isSolved_eq_true_iff]
      rcases Nat.lt_succ_iff_lt_or_eq.1 hi with hlt | rfl
      · obtain ⟨y, hy⟩ := Assignment.isSolved_eq_true_iff.1 (hbefore i hlt)
        exact ⟨y, (Assignment.extends_of_set hset).keeps _ y hy⟩
      · exact ⟨x, Assignment.get?_set_self hset⟩
    rw [List.length_cons]
    omega

/-! ### The seed -/

variable [Modulus p] {c : Circuit p} {witness : List (Fp p)}

/-- The number of wires that the witness gives is counted in words. -/
theorem witnessSize_eq (c : Circuit p) : c.witnessSize =
    (c.publicWires.toNat - c.family.reservedWires + c.secretWires.toNat) % UInt64.size := by
  have hpublic := c.publicWires.toNat_lt_size
  rw [witnessSize, UInt64.toNat_add, UInt64.toNat_ofNat_of_lt' (by omega)]

/-- The witness starts after the constant one, the only value that is there before. -/
theorem seed_eq_ok (h : c.seed witness = .ok s) :
    ∃ s₀, seedFrom s₀ c.family.reservedWires witness = .ok s ∧ s₀.size = c.wireCount ∧
      ∀ w x, s₀.get? w = some x ↔ c.family = .rank1 ∧ w = 0 ∧ x = 1 := by
  unfold seed at h
  cases hfamily : c.family with
  | rank1 =>
    rw [hfamily] at h
    obtain ⟨s₀, hset, h⟩ := Outcome.bind_eq_ok_iff.1 h
    refine ⟨s₀, h, (Assignment.size_of_set hset).trans Array.size_replicate, fun w x => ?_⟩
    rw [Assignment.get?_of_set hset, Assignment.get?_empty]
    show (if w = 0 then some 1 else none) = some x ↔ _
    split
    · next hw => simp [hw, eq_comm]
    · next hw => simp [hw]
  | gates =>
    rw [hfamily] at h
    refine ⟨Assignment.empty c.wireCount, h, Array.size_replicate, fun w x => ?_⟩
    simp [Assignment.get?_empty]

theorem of_seed {P : Assignment p → Prop} (hP : Assignment.Persistent P)
    (hempty : P (Assignment.empty c.wireCount)) (h : c.seed witness = .ok s) : P s := by
  unfold seed at h
  cases hfamily : c.family with
  | rank1 =>
    rw [hfamily] at h
    obtain ⟨s₀, hset, h⟩ := Outcome.bind_eq_ok_iff.1 h
    exact of_seedFrom hP (hP _ _ _ s₀ hempty hset) h
  | gates =>
    rw [hfamily] at h
    exact of_seedFrom hP hempty h

theorem size_of_seed (h : c.seed witness = .ok s) : s.size = c.wireCount := by
  obtain ⟨s₀, hfrom, hsize, -⟩ := seed_eq_ok h
  rw [(extends_of_seedFrom hfrom).size_eq, hsize]

/-- The constant one is on its wire. -/
theorem get?_zero_of_seed (h : c.seed witness = .ok s) (hfamily : c.family = .rank1) :
    s.get? 0 = some 1 := by
  obtain ⟨s₀, hfrom, -, hone⟩ := seed_eq_ok h
  exact (extends_of_seedFrom hfrom).keeps 0 1 ((hone 0 1).2 ⟨hfamily, rfl, rfl⟩)

/-- The witness is on its wires. -/
theorem get?_of_seed (h : c.seed witness = .ok s) {i : Nat} {x : Fp p}
    (hi : witness[i]? = some x) :
    s.get? (Wire.atPosition (c.family.reservedWires + i)) = some x := by
  obtain ⟨s₀, hfrom, -, -⟩ := seed_eq_ok h
  exact get?_of_seedFrom hfrom hi

/-- The seed stands for the valuations that have the constant one and the witness. -/
theorem agrees_iff_of_seed (h : c.seed witness = .ok s) : s.Agrees z ↔ c.Seeded witness z := by
  obtain ⟨s₀, hfrom, -, hone⟩ := seed_eq_ok h
  rw [agrees_iff_of_seedFrom hfrom, Seeded]
  refine and_congr_left fun _ => ?_
  constructor
  · intro hz hfamily
    exact hz 0 1 ((hone 0 1).2 ⟨hfamily, rfl, rfl⟩)
  · intro hz w x hw
    obtain ⟨hfamily, rfl, rfl⟩ := (hone w x).1 hw
    exact hz hfamily

/-- The positions of the witness do not wrap around. -/
theorem length_le_of_seed (h : c.seed witness = .ok s) :
    c.family.reservedWires + witness.length ≤ UInt32.size := by
  obtain ⟨s₀, hfrom, -, hone⟩ := seed_eq_ok h
  refine length_le_of_seedFrom hfrom ?_ fun i hi => ?_
  · cases c.family <;> decide
  · cases hfamily : c.family with
    | rank1 =>
      rw [hfamily] at hi
      obtain rfl : i = 0 := Nat.lt_one_iff.1 hi
      exact Assignment.isSolved_eq_true_iff.2 ⟨1, (hone _ 1).2 ⟨hfamily, rfl, rfl⟩⟩
    | gates =>
      rw [hfamily] at hi
      exact absurd hi (Nat.not_lt_zero i)

/-! ### The setup -/

/-- The checks of the setup, in order. -/
theorem setup_eq (c : Circuit p) (witness : List (Fp p)) (o : Options) :
    c.setup witness o =
      if witness.length ≠ c.witnessSize then
        .error (.witnessSize witness.length c.witnessSize)
      else if c.missingHints o.hints ≠ [] then
        .error (.missingHints (c.missingHints o.hints))
      else if maxLength < c.wireCount then
        .error (.tooManyWires c.wireCount)
      else
        match c.seed witness, c.checkHints with
        | .error f, _ => .error (.fault f)
        | .ok _, .error f => .error (.fault f)
        | .ok s, .ok _ => .ok s := by
  unfold setup
  dsimp only
  by_cases hlength : witness.length = c.witnessSize
  · rw [if_neg (not_not_intro hlength), if_neg (not_not_intro hlength)]
    rcases hmissing : c.missingHints o.hints with - | ⟨name, names⟩
    · by_cases hcount : maxLength < c.wireCount
      · rw [if_neg (by decide), if_pos hcount, if_neg (not_not_intro rfl), if_pos hcount]
        rfl
      · rw [if_neg (by decide), if_neg hcount, if_neg (not_not_intro rfl), if_neg hcount]
        rcases c.seed witness with f | s
        · rfl
        · rcases c.checkHints with f | - <;> rfl
    · rfl
  · rw [if_pos hlength, if_pos hlength]
    rfl

/-- A setup that goes through has seeded the witness; everything else that it looks at is the same
for all witnesses. -/
theorem setup_eq_ok_iff {o : Options} :
    c.setup witness o = .ok s ↔
      witness.length = c.witnessSize ∧ c.missingHints o.hints = [] ∧ c.wireCount ≤ maxLength ∧
        c.seed witness = .ok s ∧ c.checkHints = .ok () := by
  rw [setup_eq]
  split
  · next hlength => exact iff_of_false (by simp) fun h => hlength h.1
  · next hlength =>
    split
    · next hmissing => exact iff_of_false (by simp) fun h => hmissing h.2.1
    · next hmissing =>
      split
      · next hcount => exact iff_of_false (by simp) fun h => absurd h.2.2.1 (Nat.not_le.2 hcount)
      · next hcount =>
        simp only [Decidable.not_not.1 hlength, Decidable.not_not.1 hmissing, Nat.not_lt.1 hcount,
          true_and]
        rcases c.seed witness with f | t
        · simp
        · rcases c.checkHints with f | u <;> simp

/-- The check and the reading of the end, in order. -/
theorem conclude_eq (c : Circuit p) (run : Run p) :
    c.conclude run =
      if run.wires.isComplete then
        match run.wires.values with
        | .error f => .error (.fault f)
        | .ok values => .ok ⟨values, match c.family with
          | .rank1 => some (run.sides.map fun x => x.getD Sides.zero)
          | .gates => none⟩
      else
        .error (.incomplete run.wires.solved run.wires.size) := by
  unfold conclude
  cases c.family <;> cases run.wires.isComplete <;> try rfl
  all_goals rcases run.wires.values with f | values <;> rfl

/-- What is returned is read out of the state: the value of every wire, and the recorded sides of
rank-1 constraints, with zeros where none are recorded. -/
theorem conclude_eq_ok {run : Run p} {solution : Solution p} (h : c.conclude run = .ok solution) :
    run.wires.values = .ok solution.values ∧
      solution.sides = match c.family with
        | .rank1 => some (run.sides.map fun x => x.getD Sides.zero)
        | .gates => none := by
  rw [conclude_eq] at h
  split at h
  · split at h
    · cases h
    · next values hvalues =>
      obtain rfl := Except.ok.inj h
      exact ⟨hvalues, rfl⟩
  · cases h

/-- Nothing can go wrong in the end but that some wire has no value. -/
theorem conclude_eq_error {run : Run p} {e : Failure} (hcounted : run.wires.Counted)
    (h : c.conclude run = .error e) : e = .incomplete run.wires.solved run.wires.size := by
  rw [conclude_eq] at h
  split at h
  · next hcomplete =>
    obtain ⟨values, hvalues⟩ := Assignment.values_of_isComplete hcounted hcomplete
    rw [hvalues] at h
    cases h
  · exact (Except.error.inj h).symm

end Circuit

end WireSolve
