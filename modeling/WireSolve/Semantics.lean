/-
WireSolve/Semantics.lean

What the parts of a circuit mean, apart from any order of solving.

A valuation gives every wire a value.  A term, a combination and a constraint are
read at a valuation with the plain arithmetic of the field: every coefficient is
looked up, and nothing is skipped.  A partial assignment stands for the
valuations it agrees with, and it grows by giving more wires a value.  A
valuation is consistent with a circuit and a witness when everything that the
circuit schedules holds there.
-/
import WireSolve.Circuit.Basic
import WireSolve.Hint.Table

namespace WireSolve

variable {p : Nat} [Modulus p]

/-! ### Valuations -/

/-- A value for every wire. -/
abbrev Valuation (p : Nat) := Wire → Fp p

/-- The valuation that reads a sequence of values; wires past its end are zero. -/
def Valuation.ofValues (values : Array (Fp p)) : Valuation p := fun w => values.getD w.toNat 0

/-- The coefficient at a position, and zero past the end of the pool. -/
def CoeffPool.denote (c : CoeffPool p) (i : Nat) : Fp p := (c.get? i).getD 0

/-- The value of a term at a valuation. -/
def Term.denote (c : CoeffPool p) (z : Valuation p) (t : Term) : Fp p :=
  if t.isConstant then c.denote t.coeff else c.denote t.coeff * z t.wire

/-- The value of a combination at a valuation. -/
def LinComb.denote (c : CoeffPool p) (z : Valuation p) (e : LinComb) : Fp p :=
  (e.map (Term.denote c z)).sum

/-! ### Constraints -/

/-- A rank-1 constraint holds where the product of its factors is its output. -/
def Rank1.Holds (c : CoeffPool p) (z : Valuation p) (r : Rank1) : Prop :=
  LinComb.denote c z r.left * LinComb.denote c z r.right = LinComb.denote c z r.out

instance (c : CoeffPool p) (z : Valuation p) (r : Rank1) : Decidable (r.Holds c z) :=
  inferInstanceAs (Decidable (_ = _))

/-- The polynomial of a gate at a valuation. -/
def Gate.denote (c : CoeffPool p) (z : Valuation p) (g : Gate) : Fp p :=
  c.denote g.qL * z g.xa + c.denote g.qR * z g.xb + c.denote g.qO * z g.xc
    + c.denote g.qM * (z g.xa * z g.xb) + c.denote g.qC

/-- A gate holds where its polynomial is zero. -/
def Gate.Holds (c : CoeffPool p) (z : Valuation p) (g : Gate) : Prop := g.denote c z = 0

instance (c : CoeffPool p) (z : Valuation p) (g : Gate) : Decidable (g.Holds c z) :=
  inferInstanceAs (Decidable (_ = _))

/-- A hint holds where its output wires have the residues of what its function makes of its
inputs.  A function that is not at hand, or that refuses the inputs, asks nothing. -/
def HintCall.Holds (c : CoeffPool p) (table : HintTable) (z : Valuation p) (call : HintCall) :
    Prop :=
  ∀ f outputs, table.get? call.hint = some f →
    f.function.call p (call.inputs.map fun e => (LinComb.denote c z e).val)
      (Vector.replicate call.outputs.size 0) = .ok outputs →
    ∀ wx ∈ call.outputs.wires.zip outputs.toList, z wx.1 = Fp.ofNat wx.2

/-! ### Partial assignments -/

/-- A partial assignment agrees with a valuation on every wire it gives a value. -/
def Assignment.Agrees (s : Assignment p) (z : Valuation p) : Prop :=
  ∀ w x, s.get? w = some x → z w = x

/-- The assignment that gives every wire its value from a sequence. -/
def Assignment.ofValues (values : Array (Fp p)) : Assignment p := ⟨values.map some, values.size⟩

/-- An assignment that has at least the values of another, over the same wires. -/
structure Assignment.Extends (s t : Assignment p) : Prop where
  /-- Both have the same wires. -/
  size_eq : t.size = s.size
  /-- A wire that has a value keeps it. -/
  keeps : ∀ w x, s.get? w = some x → t.get? w = some x

/-! ### Circuits -/

/-- A term whose coefficient is in the pool and whose wire is one of `n`. -/
def Term.InRange (c : CoeffPool p) (n : Nat) (t : Term) : Prop :=
  t.coeff < c.size ∧ (t.isConstant ∨ t.wire.toNat < n)

instance (c : CoeffPool p) (n : Nat) (t : Term) : Decidable (t.InRange c n) :=
  inferInstanceAs (Decidable (_ ∧ _))

/-- All terms of a constraint, side by side. -/
def Rank1.terms (r : Rank1) : LinComb := r.left ++ r.right ++ r.out

/-- A rank-1 constraint whose terms are in range. -/
def Rank1.InRange (c : CoeffPool p) (n : Nat) (r : Rank1) : Prop :=
  (∀ t ∈ r.left, t.InRange c n) ∧ (∀ t ∈ r.right, t.InRange c n) ∧ ∀ t ∈ r.out, t.InRange c n

instance (c : CoeffPool p) (n : Nat) (r : Rank1) : Decidable (r.InRange c n) :=
  inferInstanceAs (Decidable (_ ∧ _))

theorem Rank1.inRange_iff {c : CoeffPool p} {n : Nat} {r : Rank1} :
    r.InRange c n ↔ ∀ t ∈ r.terms, t.InRange c n := by
  simp only [InRange, terms, List.forall_mem_append, and_assoc]

/-- A gate whose selectors are in the pool, and whose wires are wires of the circuit as far as they
take part; the tag of constants is not a wire. -/
structure Gate.InRange (c : CoeffPool p) (n : Nat) (g : Gate) : Prop where
  selectors : ∀ q ∈ [g.qL, g.qR, g.qO, g.qM, g.qC], q < c.size
  left : g.usesA → g.xa.toNat < n ∧ g.xa ≠ Wire.constantTag
  right : g.usesB → g.xb.toNat < n ∧ g.xb ≠ Wire.constantTag
  out : g.usesC → g.xc.toNat < n ∧ g.xc ≠ Wire.constantTag

instance (c : CoeffPool p) (n : Nat) (g : Gate) : Decidable (g.InRange c n) :=
  decidable_of_iff (_ ∧ _ ∧ _ ∧ _)
    ⟨fun h => ⟨h.1, h.2.1, h.2.2.1, h.2.2.2⟩, fun h => ⟨h.1, h.2, h.3, h.4⟩⟩

/-- A constraint that is in range; programs are not looked into. -/
def Constraint.InRange (c : CoeffPool p) (n : Nat) : Constraint p → Prop
  | rank1 r => r.InRange c n
  | gate g => g.InRange c n
  | custom _ => True

instance (c : CoeffPool p) (n : Nat) : DecidablePred (Constraint.InRange c n)
  | .rank1 r => inferInstanceAs (Decidable (r.InRange c n))
  | .gate g => inferInstanceAs (Decidable (g.InRange c n))
  | .custom _ => .isTrue trivial

/-- A constraint whose terms are in range; only a rank-1 constraint has terms. -/
def Constraint.TermsInRange (c : CoeffPool p) (n : Nat) : Constraint p → Prop
  | rank1 r => r.InRange c n
  | gate _ => True
  | custom _ => True

instance (c : CoeffPool p) (n : Nat) : DecidablePred (Constraint.TermsInRange c n)
  | .rank1 r => inferInstanceAs (Decidable (r.InRange c n))
  | .gate _ => .isTrue trivial
  | .custom _ => .isTrue trivial

/-- A wire that stands in some term of a rank-1 constraint, whatever its coefficient is. -/
def Rank1.Mentions (r : Rank1) (w : Wire) : Prop := ∃ t ∈ r.terms, ¬ t.isConstant ∧ t.wire = w

/-- A wire that takes part in a gate. -/
def Gate.Mentions (g : Gate) (w : Wire) : Prop :=
  (g.usesA ∧ g.xa = w) ∨ (g.usesB ∧ g.xb = w) ∨ (g.usesC ∧ g.xc = w)

/-- A wire that a constraint may look at or give a value to; a program may do so with all. -/
def Constraint.Mentions : Constraint p → Wire → Prop
  | rank1 r => r.Mentions
  | gate g => g.Mentions
  | custom _ => fun _ => True

/-- Whether a constraint is an equation, and not a program. -/
def Constraint.isArithmetic : Constraint p → Bool
  | rank1 _ => true
  | gate _ => true
  | custom _ => false

namespace Circuit

/-- A circuit whose rank-1 constraints and gates are in range. -/
def InRange (c : Circuit p) : Prop := ∀ k ∈ c.constraints, k.InRange c.pool c.wireCount

instance (c : Circuit p) : Decidable c.InRange := inferInstanceAs (Decidable (∀ _ ∈ _, _))

/-- A circuit whose rank-1 constraints are in range; nothing is asked of its gates. -/
def TermsInRange (c : Circuit p) : Prop :=
  ∀ k ∈ c.constraints, k.TermsInRange c.pool c.wireCount

instance (c : Circuit p) : Decidable c.TermsInRange := inferInstanceAs (Decidable (∀ _ ∈ _, _))

/-- A circuit without programs: all constraints are rank-1 constraints or gates. -/
def Arithmetic (c : Circuit p) : Prop := ∀ k ∈ c.constraints, k.isArithmetic

instance (c : Circuit p) : Decidable c.Arithmetic := inferInstanceAs (Decidable (∀ _ ∈ _, _))

/-- An instruction that some level holds. -/
def Scheduled (c : Circuit p) (i : Instruction) : Prop :=
  ∃ level ∈ c.levels, ∃ n ∈ level, c.instructions[n]? = some i

/-- The constraint numbers and constraints that some level holds. -/
def Schedules (c : Circuit p) (k : Nat) (constraint : Constraint p) : Prop :=
  c.Scheduled (.constraint k) ∧ c.constraints[k]? = some constraint

/-- A valuation that has the constant one and the witness on the wires they belong to. -/
def Seeded (c : Circuit p) (witness : List (Fp p)) (z : Valuation p) : Prop :=
  (c.family = .rank1 → z 0 = 1) ∧
    ∀ i x, witness[i]? = some x → z (Wire.atPosition (c.family.reservedWires + i)) = x

/-- A wire that a constraint of the circuit mentions. -/
def Mentions (c : Circuit p) (k : Nat) (w : Wire) : Prop :=
  ∃ constraint, c.constraints[k]? = some constraint ∧ constraint.Mentions w

/-- A wire that a hint reads: it stands in a term of an input, and the term is not skipped. -/
def Reads (c : Circuit p) (h : Nat) (w : Wire) : Prop :=
  ∃ call, c.hints[h]? = some call ∧
    ∃ e ∈ call.inputs, ∃ t ∈ e, ¬ t.isConstant ∧ t.coeff ≠ 0 ∧ t.wire = w

/-- A wire among the outputs of a hint. -/
def Produces (c : Circuit p) (h : Nat) (w : Wire) : Prop :=
  ∃ call, c.hints[h]? = some call ∧ w ∈ call.outputs.wires

/-- Every hint has outputs, and no two hints have one in common. -/
structure SeparateOutputs (c : Circuit p) : Prop where
  nonempty : ∀ (h : Nat) (call : HintCall), c.hints[h]? = some call → 0 < call.outputs.size
  disjoint : ∀ g h w, c.Produces g w → c.Produces h w → g = h

/-- Outputs are separate when each two ranges of them are found to be. -/
theorem separateOutputs_iff {c : Circuit p} : c.SeparateOutputs ↔
    ∀ x ∈ c.hints.toList.zipIdx, 0 < x.1.outputs.size ∧ ∀ y ∈ c.hints.toList.zipIdx,
      x.2 = y.2 ∨ x.1.outputs.wires.all fun w => !y.1.outputs.wires.contains w := by
  have hmem : ∀ call h, (call, h) ∈ c.hints.toList.zipIdx ↔ c.hints[h]? = some call :=
    fun call h => by rw [List.mem_zipIdx_iff_getElem?, Array.getElem?_toList]
  simp only [Prod.forall, hmem, List.all_eq_true, Bool.not_eq_true', List.contains_eq_mem,
    decide_eq_false_iff_not]
  constructor
  · intro h call i hi
    refine ⟨h.nonempty i call hi, fun call' j hj => Decidable.or_iff_not_imp_left.2 ?_⟩
    intro hij w hw hw'
    exact hij (h.disjoint i j w ⟨call, hi, hw⟩ ⟨call', hj, hw'⟩)
  · intro h
    refine ⟨fun i call hi => (h call i hi).1, ?_⟩
    rintro i j w ⟨call, hi, hw⟩ ⟨call', hj, hw'⟩
    exact ((h call i hi).2 call' j hj).resolve_right fun hall => hall w hw hw'

instance (c : Circuit p) : Decidable c.SeparateOutputs :=
  decidable_of_iff _ separateOutputs_iff.symm

/-- One hint needs another: a term of its input that is read has a wire that the other
produces. -/
def Needs (c : Circuit p) (h g : Nat) : Prop :=
  ∃ call, c.hints[h]? = some call ∧
    ∃ e ∈ call.inputs, ∃ t ∈ e, ¬ t.isConstant ∧ t.coeff ≠ 0 ∧ c.producer? t.wire = some g

/-- The prerequisites of a hint are the hints it needs. -/
theorem mem_prerequisites {c : Circuit p} {h g : Nat} :
    g ∈ c.prerequisites h ↔ c.Needs h g := by
  unfold prerequisites Needs
  rcases c.hints[h]? with - | call
  · simp
  · simp only [List.mem_filterMap, List.mem_flatten, Option.some.injEq, exists_eq_left']
    constructor
    · rintro ⟨t, ⟨e, he, ht⟩, hg⟩
      split at hg
      · cases hg
      · rename_i hread
        simp only [Bool.or_eq_true, beq_iff_eq, not_or] at hread
        exact ⟨e, he, t, ht, hread.1, hread.2, hg⟩
    · rintro ⟨e, he, t, ht, hconst, hcoeff, hg⟩
      exact ⟨t, ⟨e, he, ht⟩, by simp [hconst, hcoeff, hg]⟩

end Circuit

end WireSolve
