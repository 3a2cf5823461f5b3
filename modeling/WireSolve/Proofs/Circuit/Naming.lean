/-
WireSolve/Proofs/Circuit/Naming.lean

How far words tell wires apart.

A draft counts its wires in numbers that wrap around at `2 ^ 64`, and hands out words, which wrap
around at `2 ^ 32`.  The second divides the first, so a word is the position of its wire modulo
the number of words, however far the numbers have gone (`Draft.Counts.words`), after every call
(`Inputs.Counted.perform`).

The wires that there are have different positions (`Inputs.Has.eq_of_position_eq`), and no
position is left out (`Inputs.has_nameAt`).  So words tell the wires apart as long as the positions
stay below the tag of constants, and no longer: a wire at that position can be asked for like any
other (`Inputs.exists_mem_handouts`).

Main result: `Inputs.words_wrap`.
-/
import WireSolve.Circuit.Naming
import WireSolve.Proofs.Field

namespace WireSolve

variable {p : Nat} [Modulus p]

/-! ### Positions -/

/-- Only one wire is ever reserved. -/
theorem Family.eq_of_lt_reservedWires {family : Family} {n : Nat} (h : n < family.reservedWires) :
    family = .rank1 ∧ n = 0 := by
  cases family with
  | rank1 => exact ⟨rfl, Nat.lt_one_iff.1 h⟩
  | gates => cases h

namespace Inputs

variable {s : Inputs} {appended n : Nat} {x y : WireName}

theorem Has.mono {m n : Nat} (hx : s.Has m x) (h : m ≤ n) : s.Has n x := by
  cases x with
  | internal k => exact Nat.lt_of_lt_of_le hx h
  | _ => exact hx

/-- The wires that there are have the positions of the layout. -/
theorem Has.position_lt (hx : s.Has appended x) : s.position x < s.size + appended := by
  cases x with
  | one =>
    have hfamily : s.family = .rank1 := hx
    rw [position, size, hfamily, Family.reservedWires]
    omega
  | publicInput i =>
    have hi : i.toNat < s.publicInputs.toNat := UInt64.lt_iff_toNat_lt.1 hx
    rw [position, size]
    omega
  | secretInput i =>
    have hi : i.toNat < s.secretInputs.toNat := UInt64.lt_iff_toNat_lt.1 hx
    rw [position, size]
    omega
  | internal k => exact Nat.add_lt_add_left hx s.size

/-- A wire that there is stands at its position. -/
theorem Has.nameAt_position (hx : s.Has appended x) : s.nameAt (s.position x) = x := by
  cases x with
  | one =>
    have hfamily : s.family = .rank1 := hx
    rw [position, nameAt, hfamily, if_pos (by decide)]
  | publicInput i =>
    have hi : i.toNat < s.publicInputs.toNat := UInt64.lt_iff_toNat_lt.1 hx
    rw [position, nameAt, if_neg (by omega), if_pos (by omega), Nat.add_sub_cancel_left,
      UInt64.ofNat_toNat]
  | secretInput i =>
    have hi : i.toNat < s.secretInputs.toNat := UInt64.lt_iff_toNat_lt.1 hx
    rw [position, nameAt, if_neg (by omega), if_neg (by omega), if_pos (by rw [size]; omega),
      Nat.add_sub_cancel_left, UInt64.ofNat_toNat]
  | internal k =>
    rw [position, nameAt, if_neg (by rw [size]; omega), if_neg (by rw [size]; omega),
      if_neg (by omega), Nat.add_sub_cancel_left]

/-- So no two of them share a position. -/
theorem Has.eq_of_position_eq (hx : s.Has appended x) (hy : s.Has appended y)
    (h : s.position x = s.position y) : x = y := by
  rw [← hx.nameAt_position, ← hy.nameAt_position, h]

/-- At every position of the layout there is a wire. -/
theorem has_nameAt (h : n < s.size + appended) :
    s.Has appended (s.nameAt n) ∧ s.position (s.nameAt n) = n := by
  have hpublic := s.publicInputs.toNat_lt
  have hsecret := s.secretInputs.toNat_lt
  unfold nameAt
  split
  · next hone =>
    obtain ⟨hfamily, rfl⟩ := Family.eq_of_lt_reservedWires hone
    exact ⟨hfamily, rfl⟩
  split
  · have hi : (UInt64.ofNat (n - s.family.reservedWires)).toNat = n - s.family.reservedWires :=
      UInt64.toNat_ofNat_of_lt' (by rw [UInt64.size]; omega)
    exact ⟨UInt64.lt_iff_toNat_lt.2 (by omega), by rw [position, hi]; omega⟩
  split
  · next hlt =>
    rw [size] at hlt
    have hi : (UInt64.ofNat (n - (s.family.reservedWires + s.publicInputs.toNat))).toNat
        = n - (s.family.reservedWires + s.publicInputs.toNat) :=
      UInt64.toNat_ofNat_of_lt' (by rw [UInt64.size]; omega)
    exact ⟨UInt64.lt_iff_toNat_lt.2 (by omega), by rw [position, hi]; omega⟩
  · exact ⟨Nat.sub_lt_left_of_lt_add (by omega) h, Nat.add_sub_cancel' (by omega)⟩

end Inputs

/-! ### One call -/

/-- The numbers that a draft keeps of its wires, which wrap around. -/
structure Draft.Counts (d : Draft p) (s : Inputs) (appended : Nat) : Prop where
  family_eq : d.circuit.family = s.family
  publicWires_eq : d.circuit.publicWires = s.publicInputs + UInt64.ofNat s.family.reservedWires
  secretWires_eq : d.circuit.secretWires = s.secretInputs
  internalWires_eq : d.circuit.internalWires = UInt64.ofNat appended

theorem Wire.toNat_atPosition_mod (n : Nat) : (Wire.atPosition n).toNat = n % UInt32.size :=
  UInt32.toNat_ofNat'

namespace Draft

variable {d : Draft p} {s : Inputs} {appended : Nat} {a : Call p} {w : Wire} {i : Count}

theorem counts_start (s : Inputs) :
    (start s.family s.publicInputs s.secretInputs : Draft p).Counts s 0 :=
  ⟨rfl, rfl, rfl, rfl⟩

theorem Counts.perform (hd : d.Counts s appended) (a : Call p) :
    (d.perform a).1.Counts s (appended + a.appends) := by
  obtain ⟨hfamily, hpublic, hsecret, hinternal⟩ := hd
  have hinternals (n : Nat) : d.circuit.internalWires + UInt64.ofNat n
      = UInt64.ofNat (appended + n) := by
    rw [hinternal, UInt64.ofNat_add]
  cases a with
  | internal => exact ⟨hfamily, hpublic, hsecret, hinternals 1⟩
  | hint name inputs n => exact ⟨hfamily, hpublic, hsecret, hinternals n⟩
  | detachedHint name inputs n => exact ⟨hfamily, hpublic, hsecret, hinternals n⟩
  | nextLevel =>
    show d.nextLevel.Counts s appended
    unfold nextLevel
    split <;> exact ⟨hfamily, hpublic, hsecret, hinternal⟩
  | _ => exact ⟨hfamily, hpublic, hsecret, hinternal⟩

theorem Counts.toNat_one (hd : d.Counts s appended) (hw : d.one = .ok w) :
    s.family = .rank1 ∧ w.toNat = s.position .one % UInt32.size := by
  unfold one at hw
  split at hw
  · next hfamily =>
    obtain rfl := Except.ok.inj hw
    exact ⟨hd.family_eq ▸ hfamily, rfl⟩
  · cases hw

/-- Both kinds of words wrap around, and the smaller one at a part of the larger. -/
theorem Counts.toNat_publicInput (hd : d.Counts s appended) (hw : d.publicInput i = .ok w) :
    w.toNat = s.position (.publicInput i) % UInt32.size := by
  unfold publicInput at hw
  dsimp only at hw
  split at hw
  · obtain rfl := Except.ok.inj hw
    rw [Wire.toNat_atPosition_mod, hd.family_eq, UInt64.toNat_add, UInt64.toNat_ofNat',
      Inputs.position, UInt32.size]
    omega
  · cases hw

theorem Counts.toNat_secretInput (hd : d.Counts s appended) (hw : d.secretInput i = .ok w) :
    i < s.secretInputs ∧ w.toNat = s.position (.secretInput i) % UInt32.size := by
  unfold secretInput at hw
  split at hw
  · next hlt =>
    obtain rfl := Except.ok.inj hw
    refine ⟨hd.secretWires_eq ▸ hlt, ?_⟩
    rw [Wire.toNat_atPosition_mod, UInt64.toNat_add, hd.publicWires_eq, UInt64.toNat_add,
      UInt64.toNat_ofNat', Inputs.position, UInt32.size]
    omega
  · cases hw

theorem Counts.toNat_internals (hd : d.Counts s appended) (j : Nat) :
    (Wire.atPosition (d.circuit.wireCount + j)).toNat
      = s.position (.internal (appended + j)) % UInt32.size := by
  rw [Wire.toNat_atPosition_mod, Circuit.wireCount, UInt64.toNat_add, UInt64.toNat_add,
    hd.publicWires_eq, hd.secretWires_eq, hd.internalWires_eq, UInt64.toNat_add,
    UInt64.toNat_ofNat', UInt64.toNat_ofNat', Inputs.position, Inputs.size, UInt32.size]
  omega

/-- A word that is handed out is the position of the wire, as far as it goes; and the wire is there,
unless it is a public input that is not. -/
def Words (s : Inputs) (appended : Nat) (x : WireName × Wire) : Prop :=
  x.2.toNat = s.position x.1 % UInt32.size ∧
    ((∀ i, x.1 = .publicInput i → i < s.publicInputs) → s.Has appended x.1)

/-- An input is handed out with its word, or not at all. -/
theorem mem_zip_ofWire_iff {r : Except DraftError Wire} {name : WireName} {x : WireName × Wire} :
    x ∈ [name].zip (Reply.ofWire r).handedOut ↔ ∃ w, r = .ok w ∧ x = (name, w) := by
  rcases r with e | w
  · exact iff_of_false nofun nofun
  · exact ⟨fun hx => ⟨w, rfl, List.mem_singleton.1 hx⟩,
      fun ⟨_, hw, hx⟩ => List.mem_singleton.2 (Except.ok.inj hw ▸ hx)⟩

theorem Counts.words_internals (hd : d.Counts s appended) (n : Nat) {x : WireName × Wire}
    (hx : x ∈ ((List.range n).map fun j => WireName.internal (appended + j)).zip
      (d.internals n).2) : Words s (appended + n) x := by
  rw [internals, List.zip_map', List.mem_map] at hx
  obtain ⟨j, hj, rfl⟩ := hx
  exact ⟨hd.toNat_internals j, fun _ => Nat.add_lt_add_left (List.mem_range.1 hj) appended⟩

/-- Every call hands out words of this kind. -/
theorem Counts.words (hd : d.Counts s appended) (a : Call p) :
    ∀ x ∈ (a.names appended).zip (d.perform a).2.handedOut, Words s (appended + a.appends) x := by
  intro x hx
  cases a with
  | one =>
    obtain ⟨w, hw, rfl⟩ := mem_zip_ofWire_iff.1 hx
    obtain ⟨hfamily, hword⟩ := hd.toNat_one hw
    exact ⟨hword, fun _ => hfamily⟩
  | publicInput i =>
    obtain ⟨w, hw, rfl⟩ := mem_zip_ofWire_iff.1 hx
    exact ⟨hd.toNat_publicInput hw, fun hpublic => hpublic i rfl⟩
  | secretInput i =>
    obtain ⟨w, hw, rfl⟩ := mem_zip_ofWire_iff.1 hx
    obtain ⟨hlt, hword⟩ := hd.toNat_secretInput hw
    exact ⟨hword, fun _ => hlt⟩
  | internal => exact hd.words_internals 1 hx
  | hint name inputs n => exact hd.words_internals n hx
  | detachedHint name inputs n => exact hd.words_internals n hx
  | _ => cases hx

end Draft

/-! ### Sequences of calls -/

section

omit [Modulus p]

theorem Draft.Call.eq_of_mem_names {a : Draft.Call p} {appended : Nat} {i : Count}
    (h : .publicInput i ∈ a.names appended) : a = .publicInput i := by
  cases a with
  | one | secretInput => exact absurd (List.mem_singleton.1 h) nofun
  | publicInput j => rw [WireName.publicInput.inj (List.mem_singleton.1 h)]
  | _ =>
    obtain ⟨j, -, hj⟩ := List.mem_map.1 h
    cases hj

theorem Transcript.mem_of_mem_handoutsFrom {ts : Transcript p} {appended : Nat} {i : Count}
    {w : Wire} (h : (.publicInput i, w) ∈ ts.handoutsFrom appended) :
    .publicInput i ∈ ts.map Prod.fst := by
  induction ts generalizing appended with
  | nil => cases h
  | cons x rest ih =>
    obtain ⟨a, r⟩ := x
    rw [List.map_cons, List.mem_cons]
    rcases List.mem_append.1 h with h | h
    · exact Or.inl (Draft.Call.eq_of_mem_names (List.of_mem_zip h).1).symm
    · exact Or.inr (ih h)

/-- The calls that ask for an input. -/
def WireName.asks : WireName → List (Draft.Call p)
  | one => [.one]
  | publicInput i => [.publicInput i]
  | secretInput i => [.secretInput i]
  | internal _ => []

/-- They append nothing. -/
theorem WireName.appendsAll_asks (x : WireName) (n : Nat) :
    Draft.Call.appendsAll (x.asks ++ [.detachedHint "" [] n] : List (Draft.Call p)) = n := by
  cases x <;> simp [asks, Draft.Call.appendsAll, Draft.Call.appends]

theorem WireName.eq_of_mem_asks {x : WireName} {i : Count}
    (h : .publicInput i ∈ (x.asks : List (Draft.Call p))) : x = .publicInput i := by
  cases x with
  | one | secretInput => exact absurd (List.mem_singleton.1 h) nofun
  | publicInput j => rw [Draft.Call.publicInput.inj (List.mem_singleton.1 h)]
  | internal => cases h

end

namespace Inputs

variable {s : Inputs}

/-- A draft that keeps count of the wires that a session has appended, and has handed out words. -/
structure Counted (s : Inputs) (d : Draft p) (ts : Transcript p) : Prop where
  counts : d.Counts s (Draft.Call.appendsAll (ts.map Prod.fst))
  words : ∀ x ∈ ts.handouts, Draft.Words s (Draft.Call.appendsAll (ts.map Prod.fst)) x

theorem Counted.perform {d : Draft p} {ts : Transcript p} (hd : s.Counted d ts)
    (a : Draft.Call p) : s.Counted (d.perform a).1 (ts ++ [(a, (d.perform a).2)]) := by
  have happended : Draft.Call.appendsAll ((ts ++ [(a, (d.perform a).2)]).map Prod.fst)
      = Draft.Call.appendsAll (ts.map Prod.fst) + a.appends := by
    rw [List.map_append, List.map_singleton, Draft.Call.appendsAll_concat]
  refine ⟨happended ▸ hd.counts.perform a, fun x hx => ?_⟩
  rw [Transcript.handouts, Transcript.handoutsFrom_concat, Nat.zero_add, List.mem_append] at hx
  rw [happended]
  rcases hx with hx | hx
  · obtain ⟨hword, hhas⟩ := hd.words x hx
    exact ⟨hword, fun hpublic => (hhas hpublic).mono (Nat.le_add_right _ _)⟩
  · exact hd.counts.words a x hx

theorem words_handouts (s : Inputs) (calls : List (Draft.Call p)) :
    ∀ x ∈ s.handouts calls, Draft.Words s (Draft.Call.appendsAll calls) x := by
  have hcounted := Session.start_induction (motive := s.Counted) (fun _ _ a hd => hd.perform a)
    ⟨Draft.counts_start s, nofun⟩ calls
  have hcalls := (Session.unzip_transcript_run (p := p) s.family s.publicInputs s.secretInputs
    calls).1
  intro x hx
  have hwords := hcounted.words x hx
  rwa [hcalls] at hwords

/-! ### Words that differ -/

section

variable {calls : List (Draft.Call p)}

theorem toNat_handout {x : WireName × Wire} (hx : x ∈ s.handouts calls) :
    x.2.toNat = s.position x.1 % UInt32.size :=
  (s.words_handouts calls x hx).1

/-- A public input that is handed out was asked for. -/
theorem mem_of_mem_handouts {i : Count} {w : Wire} (h : (.publicInput i, w) ∈ s.handouts calls) :
    .publicInput i ∈ calls := by
  rw [← (Session.unzip_transcript_run s.family s.publicInputs s.secretInputs calls).1]
  exact Transcript.mem_of_mem_handoutsFrom h

/-- Words differ exactly where positions do, as far as words go. -/
theorem tellsApart_iff :
    TellsApart (s.handouts calls) ↔
      (∀ x ∈ s.handouts calls, ∀ y ∈ s.handouts calls,
        s.position x.1 % UInt32.size = s.position y.1 % UInt32.size → x.1 = y.1) ∧
      ∀ x ∈ s.handouts calls, s.position x.1 % UInt32.size ≠ Wire.constantTag.toNat := by
  constructor
  · intro h
    refine ⟨fun x hx y hy hposition => ?_, fun x hx hposition => ?_⟩
    · rw [← toNat_handout hx, ← toNat_handout hy] at hposition
      exact h.eq_of_word_eq x hx y hy (UInt32.toNat_inj.1 hposition)
    · rw [← toNat_handout hx] at hposition
      exact h.ne_tag x hx (UInt32.toNat_inj.1 hposition)
  · rintro ⟨heq, htag⟩
    have hne : ∀ x ∈ s.handouts calls, x.2 ≠ Wire.constantTag := by
      intro x hx hword
      apply htag x hx
      rw [← toNat_handout hx, hword]
    refine ⟨fun x hx y hy hword => ?_, hne, fun x hx _ => beq_eq_false_iff_ne.2 (hne x hx)⟩
    apply heq x hx y hy
    rw [← toNat_handout hx, ← toNat_handout hy, hword]

/-- As long as the layout is no longer than there are words, each wire has a word. -/
theorem tellsApart_of_le (hfits : s.size + Draft.Call.appendsAll calls ≤ Wire.constantTag.toNat)
    (hasked : ∀ i, .publicInput i ∈ calls → i < s.publicInputs) :
    TellsApart (s.handouts calls) := by
  have htag : Wire.constantTag.toNat = 4294967295 := rfl
  have hhas : ∀ x ∈ s.handouts calls, s.Has (Draft.Call.appendsAll calls) x.1 := by
    rintro ⟨name, w⟩ hx
    refine (s.words_handouts calls _ hx).2 fun i hi => hasked i ?_
    obtain rfl : name = .publicInput i := hi
    exact mem_of_mem_handouts hx
  -- none of the positions wraps around
  have hmod : ∀ x ∈ s.handouts calls,
      s.position x.1 % UInt32.size = s.position x.1 ∧ s.position x.1 < Wire.constantTag.toNat := by
    intro x hx
    have hlt := (hhas x hx).position_lt
    exact ⟨Nat.mod_eq_of_lt (by rw [UInt32.size]; omega), by omega⟩
  refine tellsApart_iff.2 ⟨fun x hx y hy hposition => ?_, fun x hx hposition => ?_⟩
  · rw [(hmod x hx).1, (hmod y hy).1] at hposition
    exact (hhas x hx).eq_of_position_eq (hhas y hy) hposition
  · rw [(hmod x hx).1] at hposition
    exact Nat.ne_of_lt (hmod x hx).2 hposition

end

/-! ### Every wire can be had -/

/-- Every wire of a layout is handed out to those who ask for it. -/
theorem exists_mem_handouts (hword : s.family.reservedWires + s.publicInputs.toNat < UInt64.size)
    {n : Nat} {x : WireName} (hx : s.Has n x) :
    ∃ w, (x, w) ∈ s.handouts (x.asks ++ [.detachedHint "" [] n] : List (Draft.Call p)) := by
  cases x with
  | one =>
    have hone : (Draft.start s.family s.publicInputs s.secretInputs : Draft p).one
        = .ok (Wire.atPosition 0) := by
      rw [Draft.one, show (Draft.start _ _ _ : Draft p).circuit.family = .rank1 from hx]
    exact ⟨_, List.mem_append_left _ (Draft.mem_zip_ofWire_iff.2 ⟨_, hone, rfl⟩)⟩
  | publicInput i =>
    have hi : i.toNat < s.publicInputs.toNat := UInt64.lt_iff_toNat_lt.1 hx
    have hlt : i + UInt64.ofNat s.family.reservedWires
        < s.publicInputs + UInt64.ofNat s.family.reservedWires := by
      rw [UInt64.lt_iff_toNat_lt, UInt64.toNat_add, UInt64.toNat_add, UInt64.toNat_ofNat']
      rw [UInt64.size] at hword
      omega
    exact ⟨_, List.mem_append_left _ (Draft.mem_zip_ofWire_iff.2 ⟨_, if_pos hlt, rfl⟩)⟩
  | secretInput i =>
    exact ⟨_, List.mem_append_left _ (Draft.mem_zip_ofWire_iff.2 ⟨_, if_pos hx, rfl⟩)⟩
  | internal k =>
    have hmem : ∃ w, (WireName.internal k, w) ∈
        ((List.range n).map fun j => WireName.internal (0 + j)).zip
          ((Draft.start s.family s.publicInputs s.secretInputs : Draft p).internals n).2 := by
      rw [Draft.internals, List.zip_map']
      exact ⟨_, List.mem_map.2 ⟨k, List.mem_range.2 hx, by rw [Nat.zero_add]⟩⟩
    obtain ⟨w, hw⟩ := hmem
    exact ⟨w, List.mem_append_left _ hw⟩

/-- Once the layout is longer, there is a wire whose word is the tag of constants. -/
theorem not_tellsApart_of_lt {n : Nat} (h : Wire.constantTag.toNat < s.size + n)
    (hword : s.family.reservedWires + s.publicInputs.toNat < UInt64.size) :
    ∃ calls : List (Draft.Call p), Draft.Call.appendsAll calls = n ∧
      (∀ i, .publicInput i ∈ calls → i < s.publicInputs) ∧ ¬ TellsApart (s.handouts calls) := by
  obtain ⟨x, hx, hposition⟩ : ∃ x, s.Has n x ∧ s.position x = Wire.constantTag.toNat :=
    ⟨_, has_nameAt h⟩
  obtain ⟨w, hw⟩ := exists_mem_handouts (p := p) hword hx
  refine ⟨x.asks ++ [.detachedHint "" [] n], x.appendsAll_asks n, fun i hi => ?_,
    fun happart => ?_⟩
  · rcases List.mem_append.1 hi with hi | hi
    · rw [WireName.eq_of_mem_asks hi] at hx
      exact hx
    · exact absurd (List.mem_singleton.1 hi) nofun
  · apply happart.ne_tag _ hw
    rw [← UInt32.toNat_inj, toNat_handout hw, hposition]
    rfl

/-! ### How far words go -/

/-- How the words of a layout tell its wires apart. -/
structure WordsWrap (p : Nat) [Modulus p] (s : Inputs) : Prop where
  /-- A word is the position of its wire, modulo the number of words. -/
  toNat_eq : ∀ calls : List (Draft.Call p), ∀ x ∈ s.handouts calls,
    x.2.toNat = s.position x.1 % UInt32.size
  /-- So the words that are handed out tell the wires apart exactly if the positions differ in
  this sense, from each other and from the last word. -/
  tellsApart_iff : ∀ calls : List (Draft.Call p), TellsApart (s.handouts calls) ↔
    (∀ x ∈ s.handouts calls, ∀ y ∈ s.handouts calls,
      s.position x.1 % UInt32.size = s.position y.1 % UInt32.size → x.1 = y.1) ∧
    ∀ x ∈ s.handouts calls, s.position x.1 % UInt32.size ≠ Wire.constantTag.toNat
  /-- They do so for every sequence of calls that asks for public inputs that there are, exactly if
  the layout has no more wires than there are words besides the tag of constants. -/
  fits_iff : s.family.reservedWires + s.publicInputs.toNat < UInt64.size → ∀ n,
    (∀ calls : List (Draft.Call p), Draft.Call.appendsAll calls = n →
      (∀ i, .publicInput i ∈ calls → i < s.publicInputs) → TellsApart (s.handouts calls)) ↔
    s.size + n ≤ Wire.constantTag.toNat

theorem words_wrap (p : Nat) [Modulus p] (s : Inputs) : s.WordsWrap p where
  toNat_eq _ _ := toNat_handout
  tellsApart_iff _ := tellsApart_iff
  fits_iff hword n := by
    constructor
    · intro happart
      refine Nat.le_of_not_lt fun hlt => ?_
      obtain ⟨calls, happended, hasked, hnot⟩ := not_tellsApart_of_lt (p := p) hlt hword
      exact hnot (happart calls happended hasked)
    · rintro hfits calls rfl hasked
      exact tellsApart_of_le hfits hasked

/-- As many wires as there are words besides the tag of constants. -/
def longest : Inputs := ⟨.rank1, 4294967292, 1⟩

/-- The last of them has the last word but the tag. -/
theorem longest_tellsApart :
    longest.family.reservedWires + longest.publicInputs.toNat < UInt64.size ∧
      longest.size + 1 ≤ Wire.constantTag.toNat ∧
      longest.handouts ([.one, .publicInput 4294967291, .secretInput 0, .internal] :
          List (Draft.Call 17))
        = [(.one, 0), (.publicInput 4294967291, 4294967292), (.secretInput 0, 4294967293),
          (.internal 0, 4294967294)] ∧
      TellsApart (longest.handouts ([.one, .publicInput 4294967291, .secretInput 0, .internal] :
          List (Draft.Call 17))) := by
  have hword : longest.family.reservedWires + longest.publicInputs.toNat < UInt64.size := by
    decide
  have hfits : longest.size + 1 ≤ Wire.constantTag.toNat := by decide
  refine ⟨hword, hfits, by decide +kernel,
    ((words_wrap 17 longest).fits_iff hword 1).2 hfits _ rfl fun i hi => ?_⟩
  obtain rfl : i = 4294967291 := by simpa using hi
  decide

/-- With three public inputs more, the last of them has the tag of constants for its word, and the
secret input the word of the constant one.  And in a layout of any length the word of the constant
one is handed out again for a public input so far out that its position wraps around. -/
theorem overlong_words :
    Inputs.handouts ⟨.rank1, 4294967295, 1⟩
        ([.one, .secretInput 0, .publicInput 4294967294] : List (Draft.Call 17))
      = [(.one, 0), (.secretInput 0, 0), (.publicInput 4294967294, Wire.constantTag)] ∧
    ¬ TellsApart (Inputs.handouts ⟨.rank1, 4294967295, 1⟩
        ([.one, .secretInput 0, .publicInput 4294967294] : List (Draft.Call 17))) ∧
    Inputs.handouts ⟨.rank1, 1, 0⟩
        ([.one, .publicInput 18446744073709551615] : List (Draft.Call 17))
      = [(.one, 0), (.publicInput 18446744073709551615, 0)] := by
  have hhandouts : Inputs.handouts ⟨.rank1, 4294967295, 1⟩
        ([.one, .secretInput 0, .publicInput 4294967294] : List (Draft.Call 17))
      = [(.one, 0), (.secretInput 0, 0), (.publicInput 4294967294, Wire.constantTag)] := by
    decide +kernel
  refine ⟨hhandouts, fun happart => ?_, by decide +kernel⟩
  rw [hhandouts] at happart
  have hsame := happart.eq_of_word_eq (.one, 0) (by decide) (.secretInput 0, 0) (by decide) rfl
  cases hsame

end Inputs

end WireSolve
