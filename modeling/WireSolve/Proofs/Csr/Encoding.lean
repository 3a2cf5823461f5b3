/-
WireSolve/Proofs/Csr/Encoding.lean

Rows and arrays are two forms of the same matrices.

A matrix holds given rows exactly if it is the matrix that is made from them
(`CsrMatrix.ofRows_eq_ok_iff`), and it cannot hold others: the offsets say where each
row is, also among empty ones (`CsrMatrix.Represents.unique`).  Conversely the arrays of
a matrix whose offsets start at zero and are in order hold the rows that the offsets cut
out: what lies before an offset is what the rows before it hold
(`CsrMatrix.flatten_take_cutRows`), so the lengths of these rows add up to the offsets.

Main result: `CsrMatrix.rows_encoded`.
-/
import WireSolve.Proofs.Csr.Usable

namespace WireSolve

namespace CsrMatrix

variable {p : Nat} {m : CsrMatrix p} {rows rows' : List (List (Nat × Fp p))} {width i : Nat}

/-! ### From rows to arrays -/

theorem map_fst_entries (m : CsrMatrix p) : m.entries.map Prod.fst = m.columns.toList :=
  List.map_fst_zip (Nat.le_of_eq m.paired)

theorem map_snd_entries (m : CsrMatrix p) : m.entries.map Prod.snd = m.values.toList :=
  List.map_snd_zip (Nat.le_of_eq m.paired.symm)

/-- The matrix that is made from rows is the one of its width that holds them. -/
theorem ofRows_eq_ok_iff : ofRows rows width = .ok m ↔ m.Represents rows ∧ m.width = width := by
  rw [ofRows, ofArrays_eq_ok_iff]
  constructor
  · rintro ⟨hoffsets, hcolumns, hvalues, hwidth⟩
    refine ⟨⟨hoffsets, ?_⟩, hwidth⟩
    rw [entries, hcolumns, hvalues, List.zip_map', List.map_id']
  · rintro ⟨h, hwidth⟩
    refine ⟨h.offsets_eq, ?_, ?_, hwidth⟩
    · rw [← h.entries_eq, map_fst_entries]
    · rw [← h.entries_eq, map_snd_entries]

namespace Represents

/-- A matrix holds one list of rows. -/
theorem unique (h : m.Represents rows) (h' : m.Represents rows') : rows = rows' := by
  have hlength : rows.length = rows'.length := h.height_eq.symm.trans h'.height_eq
  refine List.ext_getElem hlength fun i hi hi' => ?_
  exact Option.some.inj ((h.row?_eq hi).symm.trans (h'.row?_eq hi'))

/-- The first row starts at zero. -/
theorem start_eq (h : m.Represents rows) : m.offsets[0]? = some 0 := by
  rw [h.offsets_eq, List.getElem?_toArray, getElem?_offsetsFrom 0 (Nat.zero_le _)]
  rfl

/-- No row ends before it starts. -/
theorem ordered (h : m.Represents rows) : Ordered m.offsets := by
  refine ordered_iff_bounds.2 fun i hi => ?_
  rw [h.height_eq] at hi
  rw [h.bounds_eq hi]
  exact Nat.le_add_right _ _

end Represents

/-! ### From arrays to rows -/

/-- The rows that the offsets cut out of the entries. -/
def cutRows (m : CsrMatrix p) : List (List (Nat × Fp p)) :=
  (List.range m.height).map fun i => m.slice (m.bounds i).1 (m.bounds i).2

/-- A row ends at each offset but the first. -/
theorem height_succ (m : CsrMatrix p) : m.height + 1 = m.offsets.size := by
  obtain ⟨before, hoffsets⟩ := Array.back?_eq_some_iff.1 m.ends
  rw [height, hoffsets, Array.size_push, Nat.add_sub_cancel]

/-- The last row ends where the values do. -/
theorem getD_height (m : CsrMatrix p) : m.offsets.getD m.height 0 = m.nnz := by
  have hends := m.ends
  rw [Array.back?_eq_getElem?] at hends
  rw [Array.getD_eq_getD_getElem?, height, hends, Option.getD_some, nnz]

section

variable (hstart : m.offsets[0]? = some 0) (hordered : Ordered m.offsets)

include hstart hordered

/-- Before an offset lie the entries of the rows before it. -/
theorem flatten_take_cutRows (hi : i ≤ m.height) :
    (m.cutRows.take i).flatten = m.entries.take (m.offsets.getD i 0) := by
  have hzero : m.offsets.getD 0 0 = 0 := by
    rw [Array.getD_eq_getD_getElem?, hstart, Option.getD_some]
  have hcut : ∀ j < i, m.offsets.getD j 0 ≤ m.offsets.getD (j + 1) 0 := fun j hj =>
    ordered_iff_bounds.1 hordered j (Nat.lt_of_lt_of_le hj hi)
  have hslices := @flatten_slices _ (fun j => m.offsets.getD j 0) m.entries i hzero hcut
  rwa [cutRows, ← List.map_take, List.take_range, Nat.min_eq_left hi]

/-- So the rows that are cut out are the rows of the matrix. -/
theorem represents_cutRows : m.Represents m.cutRows := by
  have hlength : m.cutRows.length = m.height := by
    rw [cutRows, List.length_map, List.length_range]
  constructor
  · have hsize : (offsetsFrom 0 m.cutRows).toArray.size = m.offsets.size := by
      rw [List.size_toArray, length_offsetsFrom, hlength, height_succ]
    refine Array.ext hsize.symm fun i hi _ => ?_
    have hle : i ≤ m.height := Nat.le_of_lt_succ (hi.trans_eq m.height_succ.symm)
    -- a row starts after the entries of the rows before it, and an offset says how many these are
    have hoffset := getElem?_offsetsFrom 0 (hle.trans_eq hlength.symm)
    rw [flatten_take_cutRows hstart hordered hle, List.length_take, length_entries,
      Array.getD_eq_getD_getElem?, Array.getElem?_eq_getElem hi, Option.getD_some,
      Nat.min_eq_left (offset_le_nnz hordered (Array.getElem_mem hi)), Nat.zero_add] at hoffset
    rw [List.getElem_toArray]
    exact (List.getElem_of_getElem? hoffset).2.symm
  · have hall := flatten_take_cutRows hstart hordered (Nat.le_refl m.height)
    rw [getD_height, ← length_entries, List.take_length, ← hlength, List.take_length] at hall
    exact hall.symm

end

/-! ### Both ways -/

/-- A matrix is made from rows exactly if its offsets start at zero and are in order, and it is
made from the rows that they cut out. -/
theorem ofRows_eq_ok_iff_cutRows : ofRows rows width = .ok m ↔
    (m.offsets[0]? = some 0 ∧ Ordered m.offsets) ∧ m.cutRows = rows ∧ m.width = width := by
  rw [ofRows_eq_ok_iff]
  constructor
  · rintro ⟨h, hwidth⟩
    refine ⟨⟨h.start_eq, h.ordered⟩, ?_, hwidth⟩
    exact (represents_cutRows h.start_eq h.ordered).unique h
  · rintro ⟨⟨hstart, hordered⟩, rfl, hwidth⟩
    exact ⟨represents_cutRows hstart hordered, hwidth⟩

/-- Rows are encoded one to one, and every matrix whose offsets start at zero and never decrease
is the encoding of the rows that its offsets cut out. -/
theorem rows_encoded :
    (∀ (rows rows' : List (List (Nat × Fp p))) (width width' : Nat) (m m' : CsrMatrix p),
      ofRows rows width = .ok m → ofRows rows' width' = .ok m' →
        (m = m' ↔ rows = rows' ∧ width = width')) ∧
      ∀ (offsets columns : Array Nat) (values : Array (Fp p)) (width : Nat) (m : CsrMatrix p),
        ofArrays offsets columns values width = .ok m → offsets[0]? = some 0 → Ordered offsets →
          ofRows m.cutRows width = .ok m := by
  constructor
  · intro rows rows' width width' m m' h h'
    constructor
    · rintro rfl
      obtain ⟨hrows, hwidth⟩ := ofRows_eq_ok_iff.1 h
      obtain ⟨hrows', hwidth'⟩ := ofRows_eq_ok_iff.1 h'
      exact ⟨hrows.unique hrows', hwidth.symm.trans hwidth'⟩
    · rintro ⟨rfl, rfl⟩
      exact Except.ok.inj (h.symm.trans h')
  · intro offsets columns values width m h hstart hordered
    obtain ⟨rfl, -, -, rfl⟩ := ofArrays_eq_ok_iff.1 h
    exact ofRows_eq_ok_iff_cutRows.2 ⟨⟨hstart, hordered⟩, rfl, rfl⟩

/-- The empty row in the middle is found again, and it matters in which place it is. -/
theorem threeRows_encoded : ofRows threeRows.cutRows 3 = .ok threeRows ∧
    threeRows.cutRows = [[(0, 2), (2, 1)], [], [(1, 3)]] ∧
    ∃ m, ofRows [[], [(0, 2), (2, 1)], [(1, 3)]] 3 = .ok m ∧ m ≠ threeRows := by
  have hrows : threeRows.cutRows = [[(0, 2), (2, 1)], [], [(1, 3)]] := by decide
  have hmade : ofRows threeRows.cutRows 3 = .ok threeRows :=
    rows_encoded.2 #[0, 2, 2, 3] #[0, 2, 1] #[2, 1, 3] 3 threeRows rfl rfl (by decide)
  refine ⟨hmade, hrows, ?_⟩
  have hmoved : ofRows [[], [(0, 2), (2, 1)], [(1, 3)]] 3
      = .ok ⟨#[0, 0, 2, 3], #[0, 2, 1], #[(2 : Fp 17), 1, 3], 3, rfl, rfl, by decide⟩ := rfl
  refine ⟨_, hmoved, fun heq => ?_⟩
  have hsame := ((rows_encoded.1 _ _ 3 3 _ _ hmoved hmade).1 heq).1
  rw [hrows] at hsame
  exact absurd hsame (by decide)

end CsrMatrix

end WireSolve
