/-
WireSolve/Proofs/Circuit/WellFormed.lean

Circuits whose parts fit together, and the operations that keep them so.

Four things, each about a part of the circuit that few operations change: the numbers
of wires add up (`Circuit.LaidOut`); everything that is named exists, and a hint reads
no output of its own or of a later one (`Circuit.Scoped`); every instruction exists,
and no constraint has two (`Circuit.Enlisted`); and the levels, the open one last, go
through all instructions once and in order.

Every operation of a draft keeps them together (`Draft.Tidy`), if it is told about
wires and coefficients that exist, and if there are positions left for the wires that
it appends.  What is finished then is `Circuit.WellFormed`.
-/
import Std.Data.TreeMap.Lemmas
import WireSolve.Circuit.Session
import WireSolve.Proofs.CoeffPool
import WireSolve.Proofs.Solve.Ends

namespace WireSolve

variable {p : Nat} [Modulus p]

/-! ### More of what is named -/

section Mono

variable {c c' : CoeffPool p} {m n : Nat} (hpool : c.size ≤ c'.size) (hwires : m ≤ n)

include hpool hwires

theorem Term.InRange.mono {t : Term} (h : t.InRange c m) : t.InRange c' n :=
  ⟨Nat.lt_of_lt_of_le h.1 hpool, h.2.imp_right fun hw => Nat.lt_of_lt_of_le hw hwires⟩

theorem Rank1.InRange.mono {r : Rank1} (h : r.InRange c m) : r.InRange c' n := by
  rw [inRange_iff] at h ⊢
  exact fun t ht => (h t ht).mono hpool hwires

theorem Gate.InRange.mono {g : Gate} (h : g.InRange c m) : g.InRange c' n where
  selectors q hq := Nat.lt_of_lt_of_le (h.selectors q hq) hpool
  left ha := (h.left ha).imp_left fun hw => Nat.lt_of_lt_of_le hw hwires
  right hb := (h.right hb).imp_left fun hw => Nat.lt_of_lt_of_le hw hwires
  out hc := (h.out hc).imp_left fun hw => Nat.lt_of_lt_of_le hw hwires

theorem Constraint.InRange.mono {q : Constraint p} (h : q.InRange c m) : q.InRange c' n := by
  cases q with
  | rank1 r => exact Rank1.InRange.mono hpool hwires h
  | gate g => exact Gate.InRange.mono hpool hwires h
  | custom body => trivial

end Mono

namespace Circuit

variable {c c' : Circuit p} {g h i j k : Nat} {w : Wire}

/-! ### The layout -/

/-- The number of wires that are inputs: the first internal wire has this position. -/
def inputCount (c : Circuit p) : Nat := c.publicWires.toNat + c.secretWires.toNat

/-- The numbers of wires add up, and no position is as large as the tag of constants. -/
structure LaidOut (c : Circuit p) : Prop where
  reserved_le : c.family.reservedWires ≤ c.publicWires.toNat
  wireCount_eq : c.wireCount = c.publicWires.toNat + c.secretWires.toNat + c.internalWires.toNat
  wireCount_le : c.wireCount ≤ Wire.constantTag.toNat

/-- Numbers that do not wrap around add up. -/
theorem wireCount_of_le
    (hle : c.publicWires.toNat + c.secretWires.toNat + c.internalWires.toNat
      ≤ Wire.constantTag.toNat) :
    c.wireCount = c.publicWires.toNat + c.secretWires.toNat + c.internalWires.toNat := by
  have htag : Wire.constantTag.toNat = 4294967295 := rfl
  rw [wireCount, UInt64.toNat_add, UInt64.toNat_add]
  omega

/-- The layout is a matter of the family and the numbers of wires. -/
theorem LaidOut.of_counts (hc : c.LaidOut) (hfamily : c'.family = c.family)
    (hpublic : c'.publicWires = c.publicWires) (hsecret : c'.secretWires = c.secretWires)
    (hinternal : c'.internalWires = c.internalWires) : c'.LaidOut := by
  have hcount : c'.wireCount = c.wireCount := by
    rw [wireCount, wireCount, hpublic, hsecret, hinternal]
  refine ⟨?_, ?_, ?_⟩
  · rw [hfamily, hpublic]
    exact hc.reserved_le
  · rw [hcount, hpublic, hsecret, hinternal]
    exact hc.wireCount_eq
  · rw [hcount]
    exact hc.wireCount_le

/-- A position of the layout is that of its wire, and the wire is not the tag of constants. -/
theorem LaidOut.toNat_atPosition (hc : c.LaidOut) {n : Nat} (hn : n ≤ c.wireCount) :
    (Wire.atPosition n).toNat = n := by
  have hle := hc.wireCount_le
  have htag : Wire.constantTag.toNat = 4294967295 := rfl
  have hsize : UInt32.size = 4294967296 := rfl
  exact Wire.toNat_atPosition (by omega)

theorem LaidOut.inputCount_le (hc : c.LaidOut) : c.inputCount ≤ c.wireCount := by
  rw [hc.wireCount_eq]
  exact Nat.le_add_right _ _

theorem LaidOut.ne_tag (hc : c.LaidOut) (hw : w.toNat < c.wireCount) : w ≠ Wire.constantTag := by
  rintro rfl
  exact Nat.not_le.2 hw hc.wireCount_le

/-! ### What is named -/

/-- Constraints are in range and none is a program; hints are bound by name, read what is in range
and earlier than they are, and fill wires of the circuit. -/
structure Scoped (c : Circuit p) : Prop where
  constraints : c.InRange
  arithmetic : c.Arithmetic
  inputs : ∀ call ∈ c.hints, ∀ e ∈ call.inputs, ∀ t ∈ e, t.InRange c.pool c.wireCount
  outputs : ∀ g w, c.Produces g w → w.toNat < c.wireCount
  earlier : ∀ h g w, c.Reads h w → c.Produces g w → g < h
  named : ∀ call ∈ c.hints, call.hint ∈ c.hintNames

/-- What a hint reads is a wire of the circuit. -/
theorem Scoped.lt_of_reads (hc : c.Scoped) (hreads : c.Reads h w) : w.toNat < c.wireCount := by
  obtain ⟨call, hcall, e, he, t, ht, hconst, -, rfl⟩ := hreads
  exact (hc.inputs call (Array.mem_of_getElem? hcall) e he t ht).2.resolve_left hconst

/-- More wires and more coefficients put nothing out of range. -/
theorem Scoped.grow (hc : c.Scoped) (hpool : c.pool.size ≤ c'.pool.size)
    (hwires : c.wireCount ≤ c'.wireCount) (hconstraints : c'.constraints = c.constraints)
    (hhints : c'.hints = c.hints) (hnames : c'.hintNames = c.hintNames) : c'.Scoped := by
  have hproduces : ∀ g w, c'.Produces g w → c.Produces g w := by
    intro g w hg
    rwa [Produces, hhints] at hg
  refine ⟨fun q hq => ?_, fun q hq => ?_, fun call hcall e he t ht => ?_, fun g w hg => ?_,
    fun h g w hreads hg => ?_, fun call hcall => ?_⟩
  · rw [hconstraints] at hq
    exact (hc.constraints q hq).mono hpool hwires
  · rw [hconstraints] at hq
    exact hc.arithmetic q hq
  · rw [hhints] at hcall
    exact (hc.inputs call hcall e he t ht).mono hpool hwires
  · exact Nat.lt_of_lt_of_le (hc.outputs g w (hproduces g w hg)) hwires
  · rw [Reads, hhints] at hreads
    exact hc.earlier h g w hreads (hproduces g w hg)
  · rw [hhints] at hcall
    rw [hnames]
    exact hc.named call hcall

/-- A constraint is appended that names what there is. -/
theorem Scoped.addConstraint {q : Constraint p} (hc : c.Scoped)
    (hq : q.InRange c.pool c.wireCount) (harith : q.isArithmetic = true) :
    { c with constraints := c.constraints.push q }.Scoped := by
  refine ⟨fun q' hq' => ?_, fun q' hq' => ?_, hc.inputs, hc.outputs, hc.earlier, hc.named⟩
  · rcases Array.mem_push.1 hq' with hq' | rfl
    · exact hc.constraints q' hq'
    · exact hq
  · rcases Array.mem_push.1 hq' with hq' | rfl
    · exact hc.arithmetic q' hq'
    · exact harith

section AddHint

variable {call : HintCall} (hhints : c'.hints = c.hints.push call)

include hhints

theorem produces_of_push (hg : c'.Produces g w) :
    c.Produces g w ∨ g = c.hints.size ∧ w ∈ call.outputs.wires := by
  obtain ⟨call', hcall, hw⟩ := hg
  rw [hhints, Array.getElem?_push] at hcall
  split at hcall
  · next heq =>
    obtain rfl := Option.some.inj hcall
    exact Or.inr ⟨heq, hw⟩
  · exact Or.inl ⟨call', hcall, hw⟩

theorem reads_of_push (hreads : c'.Reads h w) :
    c.Reads h w ∨ h = c.hints.size ∧ ∃ e ∈ call.inputs, ∃ t ∈ e, ¬ t.isConstant ∧ t.wire = w := by
  obtain ⟨call', hcall, e, he, t, ht, hconst, hcoeff, hw⟩ := hreads
  rw [hhints, Array.getElem?_push] at hcall
  split at hcall
  · next heq =>
    obtain rfl := Option.some.inj hcall
    exact Or.inr ⟨heq, e, he, t, ht, hconst, hw⟩
  · exact Or.inl ⟨call', hcall, e, he, t, ht, hconst, hcoeff, hw⟩

/-- A hint is appended with the wires that it fills: it reads what was there before. -/
theorem Scoped.addHint (hc : c.Scoped) (hpool : c'.pool = c.pool)
    (hwires : c.wireCount ≤ c'.wireCount) (hconstraints : c'.constraints = c.constraints)
    (hinputs : ∀ e ∈ call.inputs, ∀ t ∈ e, t.InRange c.pool c.wireCount)
    (houtputs : ∀ w ∈ call.outputs.wires, c.wireCount ≤ w.toNat ∧ w.toNat < c'.wireCount)
    (hnames : ∀ id, id = call.hint ∨ id ∈ c.hintNames → id ∈ c'.hintNames) : c'.Scoped := by
  have hpool' : c.pool.size ≤ c'.pool.size := Nat.le_of_eq (congrArg CoeffPool.size hpool).symm
  refine ⟨fun q hq => ?_, fun q hq => ?_, fun call' hcall' e he t ht => ?_, fun g w hg => ?_,
    fun h g w hreads hg => ?_, fun call' hcall' => ?_⟩
  · rw [hconstraints] at hq
    exact (hc.constraints q hq).mono hpool' hwires
  · rw [hconstraints] at hq
    exact hc.arithmetic q hq
  · rw [hhints] at hcall'
    rcases Array.mem_push.1 hcall' with hcall' | rfl
    · exact (hc.inputs call' hcall' e he t ht).mono hpool' hwires
    · exact (hinputs e he t ht).mono hpool' hwires
  · rcases produces_of_push hhints hg with hg | ⟨-, hw⟩
    · exact Nat.lt_of_lt_of_le (hc.outputs g w hg) hwires
    · exact (houtputs w hw).2
  · -- what is read was there before, and what the new hint produces was not
    have hlt : w.toNat < c.wireCount ∧ (c.Reads h w ∨ h = c.hints.size) := by
      rcases reads_of_push hhints hreads with hreads | ⟨rfl, e, he, t, ht, hconst, rfl⟩
      · exact ⟨hc.lt_of_reads hreads, Or.inl hreads⟩
      · exact ⟨(hinputs e he t ht).2.resolve_left hconst, Or.inr rfl⟩
    rcases produces_of_push hhints hg with hg | ⟨-, hw⟩
    · rcases hlt.2 with hreads | rfl
      · exact hc.earlier h g w hreads hg
      · obtain ⟨_, hg, -⟩ := hg
        exact (Array.getElem?_eq_some_iff.1 hg).1
    · exact absurd hlt.1 (Nat.not_lt.2 (houtputs w hw).1)
  · rw [hhints] at hcall'
    rcases Array.mem_push.1 hcall' with hcall' | rfl
    · exact hnames _ (Or.inr (hc.named call' hcall'))
    · exact hnames _ (Or.inl rfl)

end AddHint

/-! ### What is scheduled -/

/-- Instructions are constraints and hints of the circuit, and no constraint has two. -/
structure Enlisted (c : Circuit p) : Prop where
  constraint_lt : ∀ (i k : Nat), c.instructions[i]? = some (.constraint k) → k < c.constraints.size
  hint_lt : ∀ (i h : Nat), c.instructions[i]? = some (.hint h) → h < c.hints.size
  once : ∀ (i j k : Nat), c.instructions[i]? = some (.constraint k) →
    c.instructions[j]? = some (.constraint k) → i = j

/-- More constraints and hints change nothing about the instructions. -/
theorem Enlisted.grow (hc : c.Enlisted) (hinstructions : c'.instructions = c.instructions)
    (hconstraints : c.constraints.size ≤ c'.constraints.size)
    (hhints : c.hints.size ≤ c'.hints.size) : c'.Enlisted := by
  refine ⟨fun i k hi => ?_, fun i h hi => ?_, fun i j k hi hj => ?_⟩
  · rw [hinstructions] at hi
    exact Nat.lt_of_lt_of_le (hc.constraint_lt i k hi) hconstraints
  · rw [hinstructions] at hi
    exact Nat.lt_of_lt_of_le (hc.hint_lt i h hi) hhints
  · rw [hinstructions] at hi hj
    exact hc.once i j k hi hj

/-- An instruction is appended for a constraint that has none yet, or for a hint. -/
theorem Enlisted.schedule {ins : Instruction} (hc : c.Enlisted)
    (hconstraint : ∀ k, ins = .constraint k → k < c.constraints.size ∧
      ∀ i : Nat, c.instructions[i]? ≠ some (.constraint k))
    (hhint : ∀ h, ins = .hint h → h < c.hints.size) :
    { c with instructions := c.instructions.push ins }.Enlisted := by
  have hcases : ∀ (i : Nat) ins', (c.instructions.push ins)[i]? = some ins' →
      i = c.instructions.size ∧ ins = ins' ∨ c.instructions[i]? = some ins' := by
    intro i ins' hi
    rw [Array.getElem?_push] at hi
    split at hi
    · next heq => exact Or.inl ⟨heq, Option.some.inj hi⟩
    · exact Or.inr hi
  refine ⟨fun i k hi => ?_, fun i h hi => ?_, fun i j k hi hj => ?_⟩
  · rcases hcases i _ hi with ⟨-, hins⟩ | hi
    · exact (hconstraint k hins).1
    · exact hc.constraint_lt i k hi
  · rcases hcases i _ hi with ⟨-, hins⟩ | hi
    · exact hhint h hins
    · exact hc.hint_lt i h hi
  · rcases hcases i _ hi with ⟨rfl, hins⟩ | hi <;> rcases hcases j _ hj with ⟨rfl, hins'⟩ | hj
    · rfl
    · exact absurd hj ((hconstraint k hins).2 j)
    · exact absurd hi ((hconstraint k hins').2 i)
    · exact hc.once i j k hi hj

end Circuit

/-! ### Drafts -/

namespace Draft

variable {d : Draft p} {n : Nat}

/-- A draft whose parts fit together. -/
structure Tidy (d : Draft p) : Prop where
  laidOut : d.circuit.LaidOut
  scope : d.circuit.Scoped
  enlisted : d.circuit.Enlisted
  levels_eq : d.circuit.levels.flatten ++ d.level = List.range d.circuit.instructions.size

/-- Notes and locations do not matter. -/
theorem Tidy.withNotes (hd : d.Tidy) (notes : Array Note) (noteOf : Std.TreeMap Nat Nat)
    (logs : Array Note) (source : SourceMap) :
    { d with
      circuit :=
        { d.circuit with
          notes := notes, noteOf := noteOf, logs := logs, source := source } }.Tidy where
  laidOut := hd.laidOut.of_counts rfl rfl rfl rfl
  scope := hd.scope.grow (Nat.le_refl _) (Nat.le_refl _) rfl rfl rfl
  enlisted := hd.enlisted.grow rfl (Nat.le_refl _) (Nat.le_refl _)
  levels_eq := hd.levels_eq

theorem Tidy.coeff (hd : d.Tidy) (x : Fp p) : (d.coeff x).1.Tidy where
  laidOut := hd.laidOut.of_counts rfl rfl rfl rfl
  scope := hd.scope.grow (d.circuit.pool.size_le_insert x) (Nat.le_refl _) rfl rfl rfl
  enlisted := hd.enlisted.grow rfl (Nat.le_refl _) (Nat.le_refl _)
  levels_eq := hd.levels_eq

theorem Tidy.nextLevel (hd : d.Tidy) : d.nextLevel.Tidy := by
  unfold Draft.nextLevel
  split
  · exact hd
  · -- the levels are the same list, put together otherwise
    refine ⟨hd.laidOut.of_counts rfl rfl rfl rfl,
      hd.scope.grow (Nat.le_refl _) (Nat.le_refl _) rfl rfl rfl,
      hd.enlisted.grow rfl (Nat.le_refl _) (Nat.le_refl _), ?_⟩
    rw [← hd.levels_eq]
    simp

/-! #### Wires -/

section Wires

variable (hc : d.circuit.LaidOut)

include hc

theorem lt_of_one {w : Wire} (hw : d.one = .ok w) : w.toNat < d.circuit.inputCount := by
  have hle := hc.reserved_le
  unfold one at hw
  split at hw
  · next hfamily =>
    obtain rfl := Except.ok.inj hw
    rw [hc.toNat_atPosition (Nat.zero_le _), Circuit.inputCount]
    rw [hfamily] at hle
    change 1 ≤ _ at hle
    omega
  · cases hw

theorem lt_of_publicInput {i : Count} {w : Wire} (hw : d.publicInput i = .ok w) :
    w.toNat < d.circuit.inputCount := by
  have hcount := hc.wireCount_eq
  unfold publicInput at hw
  dsimp only at hw
  split at hw
  · next hlt =>
    obtain rfl := Except.ok.inj hw
    rw [UInt64.lt_iff_toNat_lt] at hlt
    rw [hc.toNat_atPosition (by omega), Circuit.inputCount]
    omega
  · cases hw

theorem lt_of_secretInput {i : Count} {w : Wire} (hw : d.secretInput i = .ok w) :
    w.toNat < d.circuit.inputCount := by
  have hcount := hc.wireCount_eq
  have hle := hc.wireCount_le
  have htag : Wire.constantTag.toNat = 4294967295 := rfl
  unfold secretInput at hw
  split at hw
  · next hlt =>
    obtain rfl := Except.ok.inj hw
    rw [UInt64.lt_iff_toNat_lt] at hlt
    have hposition : (d.circuit.publicWires + i).toNat = d.circuit.publicWires.toNat + i.toNat := by
      rw [UInt64.toNat_add]
      omega
    rw [hposition, hc.toNat_atPosition (by omega), Circuit.inputCount]
    omega
  · cases hw

variable (hfits : d.circuit.wireCount + n ≤ Wire.constantTag.toNat)

include hfits

/-- Wires are appended as long as there are positions left. -/
theorem toNat_internalWires_internals :
    (d.internals n).1.circuit.internalWires.toNat = d.circuit.internalWires.toNat + n := by
  have hcount := hc.wireCount_eq
  have htag : Wire.constantTag.toNat = 4294967295 := rfl
  show (d.circuit.internalWires + UInt64.ofNat n).toNat = _
  rw [UInt64.toNat_add, UInt64.toNat_ofNat']
  omega

theorem laidOut_internals :
    (d.internals n).1.circuit.LaidOut ∧
      (d.internals n).1.circuit.wireCount = d.circuit.wireCount + n := by
  have hcount := hc.wireCount_eq
  have hinternal := toNat_internalWires_internals hc hfits
  have hsum : (d.internals n).1.circuit.wireCount
      = d.circuit.publicWires.toNat + d.circuit.secretWires.toNat
        + (d.internals n).1.circuit.internalWires.toNat := by
    refine Circuit.wireCount_of_le ?_
    show d.circuit.publicWires.toNat + d.circuit.secretWires.toNat + _ ≤ _
    omega
  exact ⟨⟨hc.reserved_le, hsum, by omega⟩, by omega⟩

/-- The wires that are handed out are those of the positions that are appended, in order. -/
theorem map_toNat_internals :
    (d.internals n).2.map UInt32.toNat = List.range' d.circuit.wireCount n := by
  obtain ⟨hlaidOut, hcount⟩ := laidOut_internals hc hfits
  show ((List.range n).map fun i => Wire.atPosition (d.circuit.wireCount + i)).map _ = _
  rw [List.map_map, List.range'_eq_map_range]
  apply List.map_congr_left
  intro i hi
  rw [List.mem_range] at hi
  exact hlaidOut.toNat_atPosition (by omega)

theorem mem_internals {w : Wire} (hw : w ∈ (d.internals n).2) :
    d.circuit.wireCount ≤ w.toNat ∧ w.toNat < d.circuit.wireCount + n := by
  have hposition := List.mem_map_of_mem (f := UInt32.toNat) hw
  rw [map_toNat_internals hc hfits] at hposition
  exact List.mem_range'_1.1 hposition

/-- The range of a hint's outputs are the wires that are handed out for it. -/
theorem wires_outputs :
    (WireRange.mk (Wire.atPosition d.circuit.wireCount)
      (Wire.atPosition d.circuit.wireCount + Wire.atPosition n)).wires = (d.internals n).2 := by
  obtain ⟨hlaidOut, hcount⟩ := laidOut_internals hc hfits
  have htag : Wire.constantTag.toNat = 4294967295 := rfl
  have hstart := hc.toNat_atPosition (Nat.le_refl _)
  have hsize : (WireRange.mk (Wire.atPosition d.circuit.wireCount)
      (Wire.atPosition d.circuit.wireCount + Wire.atPosition n)).size = n := by
    rw [WireRange.size, UInt32.toNat_add, hstart, hlaidOut.toNat_atPosition (n := n) (by omega)]
    omega
  rw [WireRange.wires, hsize, hstart]
  rfl

end Wires

section Internals

variable (hd : d.Tidy) (hfits : d.circuit.wireCount + n ≤ Wire.constantTag.toNat)

include hd hfits

theorem Tidy.internals : (d.internals n).1.Tidy where
  laidOut := (laidOut_internals hd.laidOut hfits).1
  scope := hd.scope.grow (Nat.le_refl _)
    ((laidOut_internals hd.laidOut hfits).2 ▸ Nat.le_add_right _ n) rfl rfl rfl
  enlisted := hd.enlisted.grow rfl (Nat.le_refl _) (Nat.le_refl _)
  levels_eq := hd.levels_eq

/-! #### Instructions -/

theorem Tidy.detachedHint {name : String} {inputs : List LinComb}
    (hinputs : ∀ e ∈ inputs, ∀ t ∈ e, t.InRange d.circuit.pool d.circuit.wireCount) :
    (d.detachedHint name inputs n).1.Tidy where
  laidOut := (laidOut_internals hd.laidOut hfits).1.of_counts rfl rfl rfl rfl
  scope := by
    have hcount := (laidOut_internals hd.laidOut hfits).2
    have hhints : (d.detachedHint name inputs n).1.circuit.hints
        = d.circuit.hints.push ⟨HintId.ofName name, inputs, Wire.atPosition d.circuit.wireCount,
          Wire.atPosition d.circuit.wireCount + Wire.atPosition n⟩ := rfl
    refine Circuit.Scoped.addHint hhints hd.scope rfl ?_ rfl hinputs (fun w hw => ?_)
      fun id hid => ?_
    · show d.circuit.wireCount ≤ (d.internals n).1.circuit.wireCount
      omega
    · rw [wires_outputs hd.laidOut hfits] at hw
      obtain ⟨hle, hlt⟩ := mem_internals hd.laidOut hfits hw
      refine ⟨hle, ?_⟩
      show w.toNat < (d.internals n).1.circuit.wireCount
      omega
    · show id ∈ d.circuit.hintNames.insertIfNew (HintId.ofName name) name
      rw [Std.TreeMap.mem_insertIfNew, Std.LawfulEqCmp.compare_eq_iff_eq]
      exact hid.imp_left Eq.symm
  enlisted := by
    refine hd.enlisted.grow rfl (Nat.le_refl _) ?_
    show d.circuit.hints.size ≤ (d.circuit.hints.push _).size
    rw [Array.size_push]
    exact Nat.le_succ _
  levels_eq := hd.levels_eq

end Internals

/-- An instruction goes to the end of the open level. -/
theorem Tidy.schedule {ins : Instruction} (hd : d.Tidy)
    (hconstraint : ∀ k, ins = .constraint k → k < d.circuit.constraints.size ∧
      ∀ i : Nat, d.circuit.instructions[i]? ≠ some (.constraint k))
    (hhint : ∀ h, ins = .hint h → h < d.circuit.hints.size) : (d.schedule ins).Tidy where
  laidOut := hd.laidOut.of_counts rfl rfl rfl rfl
  scope := hd.scope.grow (Nat.le_refl _) (Nat.le_refl _) rfl rfl rfl
  enlisted := hd.enlisted.schedule hconstraint hhint
  levels_eq := by
    show d.circuit.levels.flatten ++ (d.level ++ [d.circuit.instructions.size])
      = List.range (d.circuit.instructions.push ins).size
    rw [← List.append_assoc, hd.levels_eq, Array.size_push, List.range_succ]

theorem Tidy.constrain {q : Constraint p} (hd : d.Tidy)
    (hq : q.InRange d.circuit.pool d.circuit.wireCount) (harith : q.isArithmetic = true) :
    (d.constrain q).1.Tidy := by
  have hsize : (d.circuit.constraints.push q).size = d.circuit.constraints.size + 1 :=
    Array.size_push q
  have happended : Tidy
      { d with circuit := { d.circuit with constraints := d.circuit.constraints.push q } } :=
    { laidOut := hd.laidOut.of_counts rfl rfl rfl rfl
      scope := hd.scope.addConstraint hq harith
      enlisted := hd.enlisted.grow rfl (hsize ▸ Nat.le_succ _) (Nat.le_refl _)
      levels_eq := hd.levels_eq }
  refine happended.schedule (fun k hk => ?_) fun h hh => by cases hh
  obtain rfl := Instruction.constraint.inj hk
  refine ⟨hsize ▸ Nat.lt_succ_self _, fun i hi => ?_⟩
  exact Nat.lt_irrefl _ (hd.enlisted.constraint_lt i _ hi)

theorem Tidy.hint {name : String} {inputs : List LinComb} (hd : d.Tidy)
    (hfits : d.circuit.wireCount + n ≤ Wire.constantTag.toNat)
    (hinputs : ∀ e ∈ inputs, ∀ t ∈ e, t.InRange d.circuit.pool d.circuit.wireCount) :
    (d.hint name inputs n).1.Tidy := by
  refine (hd.detachedHint hfits hinputs).schedule (fun k hk => by cases hk) fun h hh => ?_
  obtain rfl := Instruction.hint.inj hh
  show d.circuit.hints.size < (d.circuit.hints.push _).size
  rw [Array.size_push]
  exact Nat.lt_succ_self _

end Draft

/-! ### Finished circuits -/

/-- A circuit whose parts fit together, and whose levels go through its instructions once and in
order. -/
structure Circuit.WellFormed (c : Circuit p) : Prop
    extends c.LaidOut, c.Scoped, c.Enlisted where
  levels_eq : c.levels.flatten = List.range c.instructions.size

/-- A draft that is in order is finished as a well-formed circuit. -/
theorem Draft.Tidy.finish {d : Draft p} (hd : d.Tidy) : d.finish.WellFormed := by
  have hnext := hd.nextLevel
  refine ⟨hnext.laidOut, hnext.scope, hnext.enlisted, ?_⟩
  -- no level is left open
  have hlevel : d.nextLevel.level = [] := by
    unfold Draft.nextLevel
    split
    · next hempty => exact List.isEmpty_iff.1 hempty
    · rfl
  rw [Draft.finish, ← hnext.levels_eq, hlevel, List.append_nil]

end WireSolve
