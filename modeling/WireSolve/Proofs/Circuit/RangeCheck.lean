/-
WireSolve/Proofs/Circuit/RangeCheck.lean

What the circuit of a range check says about the bits of its input.

The circuit is well-formed (`RangeCheck.wellFormed`).  Where the powers of two stand
in the pool does not matter to its constraint, and neither does what is left of them
modulo the order of the field: at the values that have the bits, the weighed bits
denote the remainder of the input modulo `2 ^ n` (`RangeCheck.denote_weighed`), which is
no more than the input.  So the constraint compares two canonical residues.

Main result: `RangeCheck.holds_iff` (the constraint holds exactly for the inputs in the
range).
-/
import Mathlib.Data.List.Forall2
import WireSolve.Circuit.RangeCheck
import WireSolve.Proofs.Circuit.Described
import WireSolve.Proofs.Evaluation

namespace WireSolve

variable {p : Nat} [Modulus p]

/-! ### Terms that are weighed -/

/-- The terms of wires, each with a power of two, in a pool of coefficients. -/
def LinComb.Weighs (c : CoeffPool p) : LinComb → List (Wire × Nat) → Prop :=
  List.Forall₂ fun t x => t.wire = x.1 ∧ c.get? t.coeff = some (Fp.ofNat (2 ^ x.2))

/-- A combination of weighed wires denotes the sum of their weighed values. -/
theorem LinComb.Weighs.denote_eq {c : CoeffPool p} {e : LinComb} {ws : List (Wire × Nat)}
    (h : LinComb.Weighs c e ws) (hws : ∀ x ∈ ws, x.1 ≠ Wire.constantTag) (z : Valuation p) :
    LinComb.denote c z e = (ws.map fun x => Fp.ofNat (2 ^ x.2) * z x.1).sum := by
  induction h with
  | nil => rfl
  | @cons t x e ws ht _ ih =>
    obtain ⟨hx, hrest⟩ := List.forall_mem_cons.1 hws
    have hterm : t.denote c z = Fp.ofNat (2 ^ x.2) * z x.1 := by
      have hconst : ¬t.isConstant := by
        rw [Term.isConstant, ht.1]
        simpa using hx
      rw [Term.denote, if_neg hconst, CoeffPool.denote, ht.2, ht.1, Option.getD_some]
    rw [LinComb.denote_cons, hterm, ih hrest, List.map_cons, List.sum_cons]

theorem LinComb.Weighs.inRange {c : CoeffPool p} {e : LinComb} {ws : List (Wire × Nat)}
    (h : LinComb.Weighs c e ws) {n : Nat} (hws : ∀ x ∈ ws, x.1.toNat < n) :
    ∀ t ∈ e, t.InRange c n := by
  induction h with
  | nil => exact nofun
  | cons ht _ ih =>
    obtain ⟨hx, hrest⟩ := List.forall_mem_cons.1 hws
    refine List.forall_mem_cons.2 ⟨⟨?_, Or.inr (ht.1 ▸ hx)⟩, ih hrest⟩
    exact (Array.getElem?_eq_some_iff.1 ht.2).1

namespace Draft

variable {d : Draft p} {i : Nat}

/-- Weighing wires changes nothing but the pool. -/
theorem weigh_fst (d : Draft p) (i : Nat) (ws : List Wire) :
    (d.weigh i ws).1 = { d with
      circuit := { d.circuit with pool := (d.weigh i ws).1.circuit.pool } } := by
  induction ws generalizing d i with
  | nil => rfl
  | cons w rest ih =>
    show ((d.coeff _).1.weigh (i + 1) rest).1 = _
    rw [ih]
    rfl

/-- A position that is taken keeps its coefficient. -/
theorem get?_weigh {j : Nat} {y : Fp p} (h : d.circuit.pool.get? j = some y) (i : Nat)
    (ws : List Wire) : (d.weigh i ws).1.circuit.pool.get? j = some y := by
  induction ws generalizing d i with
  | nil => exact h
  | cons w rest ih => exact ih (CoeffPool.get?_insert_of_some h _) (i + 1)

theorem size_le_weigh (d : Draft p) (i : Nat) (ws : List Wire) :
    d.circuit.pool.size ≤ (d.weigh i ws).1.circuit.pool.size := by
  induction ws generalizing d i with
  | nil => exact Nat.le_refl _
  | cons w rest ih =>
    exact (d.circuit.pool.size_le_insert (Fp.ofNat (2 ^ i))).trans
      (ih (d.coeff (Fp.ofNat (2 ^ i))).1 (i + 1))

/-- No more coefficients are appended than there are wires. -/
theorem size_weigh_le (d : Draft p) (i : Nat) (ws : List Wire) :
    (d.weigh i ws).1.circuit.pool.size ≤ d.circuit.pool.size + ws.length := by
  induction ws generalizing d i with
  | nil => exact Nat.le_refl _
  | cons w rest ih =>
    have hfirst := d.circuit.pool.size_insert_le (Fp.ofNat (2 ^ i))
    have hrest := ih (d.coeff (Fp.ofNat (2 ^ i))).1 (i + 1)
    change _ ≤ (d.circuit.pool.insert (Fp.ofNat (2 ^ i))).1.size + rest.length at hrest
    rw [List.length_cons]
    exact hrest.trans (by omega)

/-- The first power of two is one, which is reserved, so there is one coefficient less. -/
theorem size_weigh_zero_le (d : Draft p) {ws : List Wire} (hws : ws ≠ []) :
    (d.weigh 0 ws).1.circuit.pool.size + 1 ≤ d.circuit.pool.size + ws.length := by
  obtain ⟨w, rest, rfl⟩ := List.exists_cons_of_ne_nil hws
  have hone : Fp.ofNat (2 ^ 0) ∈ d.circuit.pool.entries :=
    Array.mem_of_getElem? (CoeffPool.get?_reserved (c := d.circuit.pool) (i := 1) (by decide))
  have hsame : (d.circuit.pool.insert (Fp.ofNat (2 ^ 0))).1.size = d.circuit.pool.size := by
    rw [CoeffPool.size, CoeffPool.entries_insert, if_pos hone]
    rfl
  have hrest := (d.coeff (Fp.ofNat (2 ^ 0))).1.size_weigh_le 1 rest
  change _ ≤ (d.circuit.pool.insert (Fp.ofNat (2 ^ 0))).1.size + rest.length at hrest
  rw [hsame] at hrest
  rw [List.length_cons]
  exact Nat.succ_le_succ hrest

theorem weighs_weigh {d : Draft p} {i : Nat} {ws : List Wire}
    (hsize : (d.weigh i ws).1.circuit.pool.size ≤ UInt32.size) :
    LinComb.Weighs (d.weigh i ws).1.circuit.pool (d.weigh i ws).2 (ws.zipIdx i) := by
  induction ws generalizing d i with
  | nil => exact List.Forall₂.nil
  | cons w rest ih =>
    have hfirst : (d.coeff (Fp.ofNat (2 ^ i))).1.circuit.pool.size ≤ UInt32.size :=
      ((d.coeff (Fp.ofNat (2 ^ i))).1.size_le_weigh (i + 1) rest).trans hsize
    refine List.Forall₂.cons ⟨rfl, ?_⟩ (ih (d := (d.coeff (Fp.ofNat (2 ^ i))).1) hsize)
    exact get?_weigh (CoeffPool.get?_insert_self hfirst) (i + 1) rest

theorem Tidy.weigh (hd : d.Tidy) (i : Nat) (ws : List Wire) : (d.weigh i ws).1.Tidy := by
  induction ws generalizing d i with
  | nil => exact hd
  | cons w rest ih => exact ih (hd.coeff _) (i + 1)

end Draft

/-! ### The circuit -/

namespace RangeCheck

variable {n : Nat}

/-- The draft in which the wires are weighed, and the wires of the bits. -/
def split (p n : Nat) [Modulus p] : Draft p × List Wire :=
  (Draft.start .rank1 0 1).splitBits (Wire.atPosition 1) n

/-- The weighed bits. -/
def weighed (p n : Nat) [Modulus p] : LinComb := ((split p n).1.weigh 0 (split p n).2).2

/-- The use of the hint that splits the input. -/
def call (n : Nat) : HintCall where
  hint := HintId.ofName "witness_solver::hint::n_bits"
  inputs := [[⟨1, Wire.atPosition 1⟩]]
  outputs := ⟨Wire.atPosition 2, Wire.atPosition 2 + Wire.atPosition n⟩

/-- The constraint on the weighed bits. -/
def sum (p n : Nat) [Modulus p] : Rank1 :=
  ⟨weighed p n, [Term.constant 1], [⟨1, Wire.atPosition 1⟩]⟩

/-- The circuit, part by part. -/
theorem circuit_eq (p n : Nat) [Modulus p] : rangeCheck p n =
    { family := .rank1
      publicWires := 1
      secretWires := 1
      internalWires := 0 + UInt64.ofNat n
      pool := ((split p n).1.weigh 0 (split p n).2).1.circuit.pool
      constraints := #[.rank1 (sum p n)]
      hints := #[call n]
      instructions := #[.hint 0, .constraint 0]
      levels := [[0], [1]]
      hintNames := (∅ : Std.TreeMap HintId String).insertIfNew (call n).hint
        "witness_solver::hint::n_bits" } := by
  show ((((split p n).1.weigh 0 (split p n).2).1.constrain (.rank1 (sum p n))).1).finish = _
  rw [Draft.weigh_fst]
  rfl

/-- The wires of the bits come after the constant one and the input. -/
theorem split_snd (p n : Nat) [Modulus p] :
    (split p n).2 = (List.range n).map fun i => Wire.atPosition (2 + i) :=
  rfl

theorem witnessSize_eq (p n : Nat) [Modulus p] : (rangeCheck p n).witnessSize = 1 := by
  rw [circuit_eq]
  rfl

section Fits

variable (hn : n + 2 ≤ Wire.constantTag.toNat)

include hn

/-- The positions of the wires do not wrap around. -/
theorem lt_size : n + 2 < UInt32.size := hn.trans_lt (by decide)

theorem toNat_bit {i : Nat} (hi : i < n) : (Wire.atPosition (2 + i)).toNat = 2 + i := by
  have hsize := lt_size hn
  exact Wire.toNat_atPosition (by omega)

/-- The wires that are weighed are wires of the circuit. -/
theorem lt_of_mem_zipIdx {x : Wire × Nat} (hx : x ∈ (split p n).2.zipIdx) :
    x.1.toNat < n + 2 := by
  have hwire := List.fst_mem_of_mem_zipIdx hx
  rw [split_snd] at hwire
  obtain ⟨i, hi, heq⟩ := List.mem_map.1 hwire
  rw [List.mem_range] at hi
  rw [← heq, toNat_bit hn hi]
  omega

theorem tidy_split : (split p n).1.Tidy ∧ (split p n).1.circuit.wireCount = n + 2 := by
  have hinputs : Family.rank1.reservedWires + (0 : Count).toNat + (1 : Count).toNat
      ≤ Wire.constantTag.toNat := by decide
  obtain ⟨hstart, hcount⟩ := Session.sound_start (p := p) hinputs
  have hd : (Draft.start .rank1 0 1 : Draft p).Tidy := hstart.tidy
  change (Draft.start .rank1 0 1 : Draft p).circuit.wireCount = 2 at hcount
  have hfits : (Draft.start .rank1 0 1 : Draft p).circuit.wireCount + n
      ≤ Wire.constantTag.toNat := by omega
  constructor
  · refine (hd.hint hfits fun e he t ht => ?_).nextLevel
    obtain rfl := List.mem_singleton.1 he
    obtain rfl := List.mem_singleton.1 ht
    refine ⟨CoeffPool.one_lt_size _, Or.inr ?_⟩
    rw [hcount]
    decide
  · have hinternals := (Draft.laidOut_internals hd.laidOut hfits).2
    rw [hcount, Nat.add_comm] at hinternals
    exact hinternals

/-- There are words for the positions of all powers. -/
theorem weighs_weighed : LinComb.Weighs ((split p n).1.weigh 0 (split p n).2).1.circuit.pool
    (weighed p n) ((split p n).2.zipIdx) := by
  refine Draft.weighs_weigh ?_
  have hstart : (split p n).1.circuit.pool.size = 4 := rfl
  have hlength : (split p n).2.length = n := by simp [split_snd]
  by_cases hempty : (split p n).2 = []
  · have hsize := (split p n).1.size_weigh_le 0 (split p n).2
    rw [hempty, hstart] at hsize
    rw [hempty]
    exact hsize.trans (by decide)
  · have hsize := (split p n).1.size_weigh_zero_le hempty
    have hbound := lt_size hn
    rw [hstart, hlength] at hsize
    omega

theorem inRange_sum : (sum p n).InRange (rangeCheck p n).pool (n + 2) := by
  have hone := (rangeCheck p n).pool.one_lt_size
  have hweighs := weighs_weighed (p := p) hn
  rw [circuit_eq] at hone ⊢
  refine ⟨hweighs.inRange fun x hx => lt_of_mem_zipIdx hn hx, fun t ht => ?_, fun t ht => ?_⟩
  · obtain rfl := List.mem_singleton.1 ht
    exact ⟨hone, Or.inl rfl⟩
  · obtain rfl := List.mem_singleton.1 ht
    refine ⟨hone, Or.inr ?_⟩
    show 1 < n + 2
    omega

theorem wireCount_eq : (rangeCheck p n).wireCount = n + 2 := by
  rw [← (tidy_split (p := p) hn).2, circuit_eq]
  rfl

theorem wellFormed : (rangeCheck p n).WellFormed := by
  have hweigh := (tidy_split (p := p) hn).1.weigh 0 (split p n).2
  have hsum := inRange_sum (p := p) hn
  rw [← wireCount_eq (p := p) hn] at hsum
  rw [circuit_eq] at hsum
  refine (hweigh.constrain (q := .rank1 (sum p n)) ?_ rfl).finish
  rw [Draft.weigh_fst]
  exact hsum

end Fits

/-! ### The values -/

/-- The bits of the input. -/
def bits (n : Nat) (x : Fp p) : List (Fp p) :=
  (List.range n).map fun i => Fp.ofNat (x.val.testBit i).toNat

/-- The constant one, the input and its bits. -/
def values (n : Nat) (x : Fp p) : Array (Fp p) := (1 :: x :: bits n x).toArray

theorem size_values (n : Nat) (x : Fp p) : (values n x).size = n + 2 := by
  simp [values, bits]

theorem getElem?_bit (n : Nat) (x : Fp p) {i : Nat} (hi : i < n) :
    (values n x)[2 + i]? = some (Fp.ofNat (x.val.testBit i).toNat) := by
  rw [Nat.add_comm]
  simp [values, bits, hi]

/-! ### The sum of the bits -/

/-- The bits below `n`, weighed by the powers of two, make the remainder modulo `2 ^ n`. -/
theorem sum_testBit (n y : Nat) :
    ((List.range n).map fun i => 2 ^ i * (y.testBit i).toNat).sum = y % 2 ^ n := by
  induction n with
  | zero => simp [Nat.mod_one]
  | succ n ih =>
    rw [List.range_succ, List.map_append, List.sum_append, ih, Nat.mod_pow_succ,
      ← Nat.toNat_testBit]
    simp

/-- The residue of a bit of the input is the bit: it is no more than the input. -/
theorem val_bit (x : Fp p) (i : Nat) :
    (Fp.ofNat (x.val.testBit i).toNat : Fp p).val = (x.val.testBit i).toNat := by
  refine Nat.mod_eq_of_lt (lt_of_le_of_lt ?_ x.isLt)
  rw [Nat.toNat_testBit]
  exact (Nat.mod_le _ _).trans (Nat.div_le_self _ _)

/-- Weighed as integers, the bits make the remainder too. -/
theorem sum_bits (n : Nat) (x : Fp p) :
    ((bits n x).zipIdx.map fun b => b.1.val * 2 ^ b.2).sum = x.val % 2 ^ n := by
  rw [← sum_testBit]
  refine congrArg List.sum (List.ext_getElem (by simp [bits]) fun i _ _ => ?_)
  simp only [bits, List.getElem_map, List.getElem_zipIdx, List.getElem_range, Nat.zero_add,
    val_bit]
  exact Nat.mul_comm _ _

theorem eq_zero_or_one_of_mem_bits {b : Fp p} (hb : b ∈ bits n x) : b = 0 ∨ b = 1 := by
  obtain ⟨i, -, rfl⟩ := List.mem_map.1 hb
  cases x.val.testBit i
  · exact Or.inl rfl
  · exact Or.inr rfl

/-! ### The constraint -/

/-- The weighed bits denote the remainder of the input modulo `2 ^ n`. -/
theorem denote_weighed (hn : n + 2 ≤ Wire.constantTag.toNat) (x : Fp p) :
    LinComb.denote (rangeCheck p n).pool (.ofValues (values n x)) (weighed p n)
      = Fp.ofNat (x.val % 2 ^ n) := by
  have hweighs := weighs_weighed (p := p) hn
  have hpool : (rangeCheck p n).pool = ((split p n).1.weigh 0 (split p n).2).1.circuit.pool := by
    rw [circuit_eq]
  have htag : ∀ y ∈ (split p n).2.zipIdx, y.1 ≠ Wire.constantTag := by
    intro y hy heq
    have hlt := lt_of_mem_zipIdx hn hy
    rw [heq] at hlt
    omega
  have hterms : ((split p n).2.zipIdx.map fun y =>
      Fp.ofNat (2 ^ y.2) * Valuation.ofValues (values n x) y.1)
        = ((List.range n).map fun i => 2 ^ i * (x.val.testBit i).toNat).map
            (Nat.cast : Nat → Fp p) := by
    rw [split_snd]
    refine List.ext_getElem (by simp) fun i hi _ => ?_
    have hi' : i < n := by simpa using hi
    have hbit := getElem?_bit n x hi'
    simp only [List.getElem_map, List.getElem_zipIdx, List.getElem_range, Nat.zero_add,
      Valuation.ofValues, toNat_bit hn hi', Array.getD_eq_getD_getElem?, hbit, Option.getD_some,
      Nat.cast_mul]
    rfl
  -- the sum in the field is the residue of the sum of integers
  rw [hpool, hweighs.denote_eq htag, hterms, ← Nat.cast_list_sum, sum_testBit]
  rfl

theorem denote_input (c : CoeffPool p) (z : Valuation p) :
    LinComb.denote c z [⟨1, Wire.atPosition 1⟩] = z (Wire.atPosition 1) := by
  rw [LinComb.denote_cons, LinComb.denote_nil, add_zero, Term.denote, if_neg (by decide),
    CoeffPool.denote_one, one_mul]

/-- The constraint holds for the inputs that have no more than `n` bits. -/
theorem holds_iff (hn : n + 2 ≤ Wire.constantTag.toNat) (x : Fp p) :
    (sum p n).Holds (rangeCheck p n).pool (.ofValues (values n x)) ↔ x.val < 2 ^ n := by
  have hone : LinComb.denote (rangeCheck p n).pool (.ofValues (values n x)) [Term.constant 1]
      = 1 := by
    rw [LinComb.denote_cons, LinComb.denote_nil, add_zero, Term.denote, if_pos (by decide)]
    exact CoeffPool.denote_one
  have hinput : LinComb.denote (rangeCheck p n).pool (.ofValues (values n x))
      [⟨1, Wire.atPosition 1⟩] = x := denote_input _ _
  -- the remainder is no more than the input, so the field does not reduce it
  have hmod : x.val % 2 ^ n % p = x.val % 2 ^ n :=
    Nat.mod_eq_of_lt ((Nat.mod_le _ _).trans_lt x.isLt)
  show LinComb.denote _ _ (weighed p n) * LinComb.denote _ _ [Term.constant 1]
    = LinComb.denote _ _ [⟨1, Wire.atPosition 1⟩] ↔ _
  rw [denote_weighed hn, hone, hinput, mul_one, Fp.ext_iff, Fp.val_ofNat, hmod,
    Nat.mod_eq_iff_lt (Nat.two_pow_pos n).ne']

end RangeCheck

end WireSolve
