/-
WireSolve/Proofs/Assignment.lean

Partial assignments in the extension order, and the valuations they agree with.

`Assignment.set` is the only write: it extends the assignment
(`Assignment.extends_of_set`) and cuts the valuations it stands for down to those
that have the new value (`Assignment.agrees_of_set`).  What holds at every
valuation that an assignment agrees with still holds after any extension, so a
constraint that is settled once stays settled.

An assignment that is read out has a value in every slot, and then it agrees with
one valuation on all its wires (`Assignment.agrees_ofValues`,
`Assignment.get?_eq_getElem?_values`).
-/
import WireSolve.Semantics

namespace WireSolve

variable {p : Nat} {s t u : Assignment p} {w : Wire} {x : Fp p} {z : Valuation p}

/-- Two arrays of the same length with the same things in the same places are the same. -/
theorem eq_of_filled {α : Type} {a b : Array (Option α)} (hsize : a.size = b.size)
    (h : ∀ (n : Nat) (x : α), a[n]? = some (some x) ↔ b[n]? = some (some x)) : a = b := by
  refine Array.ext hsize fun n ha hb => Option.ext fun x => ?_
  have hn := h n x
  rwa [Array.getElem?_eq_getElem ha, Array.getElem?_eq_getElem hb, Option.some_inj,
    Option.some_inj] at hn

namespace Assignment

/-! ### The extension order -/

theorem Extends.refl (s : Assignment p) : s.Extends s :=
  ⟨rfl, fun _ _ h => h⟩

theorem Extends.trans (hst : s.Extends t) (htu : t.Extends u) : s.Extends u :=
  ⟨htu.size_eq.trans hst.size_eq, fun w x h => htu.keeps w x (hst.keeps w x h)⟩

theorem size_of_set (h : s.set w x = .ok t) : t.size = s.size := by
  obtain ⟨-, -, rfl⟩ := set_eq_ok_iff.1 h
  exact Array.size_setIfInBounds

/-- A write is refused where the wire has a value, and where there is no such wire. -/
theorem set_eq_error {f : Fault} (h : s.set w x = .error f) :
    (f = .solvedTwice w ∧ s.isSolved w = true) ∨ (f = .wireOutOfRange w ∧ s.size ≤ w.toNat) := by
  unfold set at h
  split at h
  · next hlt =>
    rcases hslot : s.slots[w.toNat] with - | y
    · rw [hslot] at h
      cases h
    · rw [hslot] at h
      refine Or.inl ⟨(Except.error.inj h).symm, ?_⟩
      rw [isSolved, get?, Array.getElem?_eq_getElem hlt, hslot]
      rfl
  · next hlt => exact Or.inr ⟨(Except.error.inj h).symm, Nat.le_of_not_lt hlt⟩

/-- A write extends the assignment: the slot that it fills was empty. -/
theorem extends_of_set (h : s.set w x = .ok t) : s.Extends t := by
  refine ⟨size_of_set h, fun v y hv => ?_⟩
  obtain ⟨-, hnone, -⟩ := set_eq_ok_iff.1 h
  have hne : v ≠ w := by
    rintro rfl
    rw [hnone] at hv
    cases hv
  rw [get?_of_set h, if_neg hne, hv]

/-- The wire that was written has its value. -/
theorem get?_set_self (h : s.set w x = .ok t) : t.get? w = some x := by
  rw [get?_of_set h, if_pos rfl]

/-- A step that gives a value to one wire at most. -/
def Grows (s t : Assignment p) : Prop :=
  t = s ∨ ∃ w x, s.set w x = .ok t

/-- A property that every write keeps. -/
def Persistent (P : Assignment p → Prop) : Prop :=
  ∀ s w x t, P s → s.set w x = .ok t → P t

theorem persistent_extends (s : Assignment p) : Persistent s.Extends :=
  fun _ _ _ _ h hset => h.trans (extends_of_set hset)

/-- Only wires that have a number have a value; the layout may have more positions than that. -/
def Numbered (s : Assignment p) : Prop :=
  ∀ (n : Nat) (x : Fp p), s.slots[n]? = some (some x) → n < UInt32.size

theorem numbered_empty (n : Nat) : (empty n : Assignment p).Numbered := by
  intro i x h
  rw [empty, Array.getElem?_replicate] at h
  split at h <;> cases h

theorem persistent_numbered : Persistent (Numbered (p := p)) := by
  intro s w x t hs h
  obtain ⟨-, -, rfl⟩ := set_eq_ok_iff.1 h
  intro n y hn
  by_cases hw : w.toNat = n
  · -- the slot that was filled belongs to a wire, which is a word
    rw [← hw]
    exact w.toNat_lt
  · rw [Array.getElem?_setIfInBounds_ne hw] at hn
    exact hs n y hn

/-- The count is the number of slots that are filled. -/
def Counted (s : Assignment p) : Prop := s.solved = s.slots.countP Option.isSome

theorem counted_empty (n : Nat) : (empty n : Assignment p).Counted := by
  rw [Counted, empty, Array.countP_replicate]
  rfl

theorem persistent_counted : Persistent (Counted (p := p)) := by
  intro s w x t hs h
  obtain ⟨hw, hnone, rfl⟩ := set_eq_ok_iff.1 h
  have hsize : w.toNat < s.slots.size := hw
  have hslot : s.slots[w.toNat].isSome = false := by
    rw [get?, Array.getElem?_eq_getElem hsize, Option.join_some] at hnone
    rw [hnone]
    rfl
  show s.solved + 1 = (s.slots.setIfInBounds w.toNat (some x)).countP Option.isSome
  rw [Array.setIfInBounds, dif_pos hsize, Array.countP_set, hslot, hs]
  rfl

theorem Numbered.getElem?_of_extends (hs : s.Numbered) (hst : s.Extends t) {n : Nat}
    (h : s.slots[n]? = some (some x)) : t.slots[n]? = some (some x) := by
  have hn := UInt32.toNat_ofNat_of_lt' (hs n x h)
  have hkeeps := hst.keeps (UInt32.ofNat n) x
  rw [get?, get?, hn, h] at hkeeps
  exact Option.join_eq_some_iff.1 (hkeeps rfl)

/-- Assignments that extend each other are the same. -/
theorem Extends.antisymm (hs : s.Numbered ∧ s.Counted) (ht : t.Numbered ∧ t.Counted)
    (hst : s.Extends t) (hts : t.Extends s) : s = t := by
  have hslots : s.slots = t.slots := eq_of_filled hts.size_eq fun n x =>
    ⟨hs.1.getElem?_of_extends hst, ht.1.getElem?_of_extends hts⟩
  have hsolved : s.solved = t.solved := by
    rw [hs.2, ht.2, hslots]
  obtain ⟨slots, solved⟩ := s
  obtain ⟨slots', solved'⟩ := t
  rw [mk.injEq]
  exact ⟨hslots, hsolved⟩

/-! ### Valuations -/

/-- An assignment with fewer values agrees with more valuations. -/
theorem Agrees.anti (hst : s.Extends t) (hz : t.Agrees z) : s.Agrees z :=
  fun w x h => hz w x (hst.keeps w x h)

/-- After a write the assignment stands for the valuations that have the new value. -/
theorem agrees_of_set (h : s.set w x = .ok t) : t.Agrees z ↔ s.Agrees z ∧ z w = x := by
  constructor
  · intro hz
    exact ⟨hz.anti (extends_of_set h), hz w x (get?_set_self h)⟩
  · rintro ⟨hz, hw⟩ v y hv
    rw [get?_of_set h] at hv
    split at hv
    · next hvw =>
      rw [hvw, hw]
      exact Option.some.inj hv
    · exact hz v y hv

/-- The valuation that has the values of an assignment, and the same value where it has none. -/
def fill (s : Assignment p) (x : Fp p) : Valuation p := fun w => (s.get? w).getD x

theorem agrees_fill (s : Assignment p) (x : Fp p) : s.Agrees (s.fill x) := by
  intro w y h
  rw [fill, h, Option.getD_some]

theorem isSolved_eq_true_iff : s.isSolved w = true ↔ ∃ x, s.get? w = some x := by
  rw [isSolved, Option.isSome_iff_exists]

theorem isSolved_eq_false_iff : s.isSolved w = false ↔ s.get? w = none := by
  rw [isSolved, Option.isSome_eq_false_iff, Option.isNone_iff_eq_none]

theorem Extends.isSolved (hst : s.Extends t) (hw : s.isSolved w = true) : t.isSolved w = true := by
  obtain ⟨x, hx⟩ := isSolved_eq_true_iff.1 hw
  exact isSolved_eq_true_iff.2 ⟨x, hst.keeps w x hx⟩

/-- A wire that has no value later had none before. -/
theorem Extends.isSolved_eq_false (hst : s.Extends t) (hw : t.isSolved w = false) :
    s.isSolved w = false := by
  rw [← Bool.not_eq_true] at hw ⊢
  exact mt hst.isSolved hw

/-- Only wires that exist have values. -/
theorem lt_size_of_isSolved (h : s.isSolved w = true) : w.toNat < s.size := by
  obtain ⟨x, hx⟩ := isSolved_eq_true_iff.1 h
  exact (Array.getElem?_eq_some_iff.1 (Option.join_eq_some_iff.1 hx)).1

/-! ### Reading all values -/

/-- The values are read out exactly when every slot has one. -/
theorem valuesFrom_eq_ok_iff {i : Nat} {slots : List (Option (Fp p))} {values : List (Fp p)} :
    valuesFrom i slots = .ok values ↔ slots = values.map some := by
  induction slots generalizing i values with
  | nil => cases values <;> simp [valuesFrom]
  | cons slot rest ih =>
    rcases slot with - | x
    · cases values <;> simp [valuesFrom]
    · have hstep : valuesFrom i (some x :: rest)
          = (valuesFrom (i + 1) rest).map (x :: ·) := by
        rw [valuesFrom]
        rcases valuesFrom (i + 1) rest with e | l <;> rfl
      rw [hstep]
      cases values with
      | nil =>
        rcases valuesFrom (i + 1) rest with e | l <;> simp [Except.map]
      | cons y values =>
        rw [List.map_cons, List.cons.injEq, ← ih (i := i + 1)]
        rcases valuesFrom (i + 1) rest with e | l <;> simp [Except.map]

theorem values_eq_ok_iff {values : Array (Fp p)} :
    s.values = .ok values ↔ s.slots = values.map some := by
  rw [Assignment.values]
  rcases hslots : valuesFrom 0 s.slots.toList with e | l
  · constructor
    · intro h
      cases h
    · intro h
      rw [h, Array.toList_map, valuesFrom_eq_ok_iff.2 rfl] at hslots
      cases hslots
  · have hl := valuesFrom_eq_ok_iff.1 hslots
    constructor
    · intro h
      obtain rfl : l.toArray = values := Except.ok.inj h
      rw [← Array.toList_inj, hl, Array.toList_map]
    · intro h
      rw [h, Array.toList_map, List.map_inj_right (fun _ _ => Option.some.inj)] at hl
      rw [← hl]
      rfl

/-- Slots that are all filled can be read out. -/
theorem valuesFrom_of_isSome {slots : List (Option (Fp p))} (h : ∀ slot ∈ slots, slot.isSome)
    (i : Nat) : ∃ values, valuesFrom i slots = .ok values := by
  induction slots generalizing i with
  | nil => exact ⟨[], rfl⟩
  | cons slot rest ih =>
    obtain ⟨x, rfl⟩ := Option.isSome_iff_exists.1 (h slot List.mem_cons_self)
    obtain ⟨values, hvalues⟩ := ih (fun u hu => h u (List.mem_cons_of_mem _ hu)) (i + 1)
    refine ⟨x :: values, ?_⟩
    rw [valuesFrom, hvalues]
    rfl

/-- Where the count says that every slot is filled, the values can be read out. -/
theorem values_of_isComplete (hs : s.Counted) (h : s.isComplete = true) :
    ∃ values, s.values = .ok values := by
  have hcount : s.slots.countP Option.isSome = s.slots.size := by
    rw [← hs]
    exact beq_iff_eq.1 h
  rw [Array.countP_eq_size] at hcount
  have hall : ∀ slot ∈ s.slots.toList, slot.isSome :=
    fun slot hslot => hcount slot (Array.mem_toList_iff.1 hslot)
  obtain ⟨l, hl⟩ := valuesFrom_of_isSome hall 0
  exact ⟨l.toArray, by rw [Assignment.values, hl, Except.map]⟩

variable {values : Array (Fp p)}

/-- Values that are read out have the length of the layout. -/
theorem size_values (h : s.values = .ok values) : values.size = s.size := by
  rw [Assignment.size, values_eq_ok_iff.1 h, Array.size_map]

/-- The value that is read out for a wire is the value of that wire. -/
theorem get?_eq_getElem?_values (h : s.values = .ok values) (w : Wire) :
    s.get? w = values[w.toNat]? := by
  rw [get?, values_eq_ok_iff.1 h, Array.getElem?_map]
  rcases values[w.toNat]? with - | x <;> rfl

/-- The assignment agrees with the valuation that its own values make. -/
theorem agrees_ofValues [Modulus p] (h : s.values = .ok values) :
    s.Agrees (Valuation.ofValues values) := by
  intro w x hw
  rw [get?_eq_getElem?_values h] at hw
  rw [Valuation.ofValues, Array.getD_eq_getD_getElem?, hw, Option.getD_some]

/-- An assignment with all wires solved reads out as the values it was made of. -/
theorem values_ofValues (values : Array (Fp p)) : (ofValues values).values = .ok values :=
  values_eq_ok_iff.2 rfl

theorem get?_ofValues (values : Array (Fp p)) (w : Wire) :
    (ofValues values).get? w = values[w.toNat]? :=
  get?_eq_getElem?_values (values_ofValues values) w

/-- An assignment that has given values on all wires is the one that is made of them. -/
theorem eq_ofValues (hs : s.Numbered ∧ s.Counted) (hsize : s.size = values.size)
    (hfits : values.size ≤ UInt32.size)
    (hget : ∀ w : Wire, w.toNat < values.size → s.get? w = values[w.toNat]?) :
    s = ofValues values := by
  have hsame : ∀ w, s.get? w = (ofValues values).get? w := by
    intro w
    rw [get?_ofValues]
    by_cases hw : w.toNat < values.size
    · exact hget w hw
    · have hunsolved : s.isSolved w = false :=
        Bool.eq_false_iff.2 fun hsolved => hw (hsize ▸ lt_size_of_isSolved hsolved)
      rw [isSolved_eq_false_iff.1 hunsolved, Array.getElem?_eq_none (Nat.le_of_not_lt hw)]
  have hnumbered : (ofValues values).Numbered := by
    intro n x hn
    obtain ⟨hlt, -⟩ := Array.getElem?_eq_some_iff.1 hn
    rw [ofValues, Array.size_map] at hlt
    exact Nat.lt_of_lt_of_le hlt hfits
  have hcounted : (ofValues values).Counted := by
    have hall : (values.map some).countP Option.isSome = (values.map some).size :=
      Array.countP_eq_size.2 (by simp)
    exact (hall.trans Array.size_map).symm
  have hsize' : (ofValues values).size = s.size := by rw [hsize, size, ofValues, Array.size_map]
  exact Extends.antisymm hs ⟨hnumbered, hcounted⟩ ⟨hsize', fun w x hw => hsame w ▸ hw⟩
    ⟨hsize'.symm, fun w x hw => (hsame w).symm ▸ hw⟩

end Assignment

end WireSolve
