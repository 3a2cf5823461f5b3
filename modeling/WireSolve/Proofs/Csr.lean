/-
WireSolve/Proofs/Csr.lean

A matrix that is made from rows has these rows.

The offsets are the lengths of what comes before (`CsrMatrix.getElem?_offsetsFrom`),
so a slice from one offset to the next cuts one row out of the entries
(`CsrMatrix.Represents.row?_eq`), and the product with a vector goes through the rows
one by one (`CsrMatrix.Represents.mulVector_eq`).
-/
import Mathlib.Algebra.BigOperators.Group.List.Basic
import WireSolve.Csr
import WireSolve.Proofs.Field
import WireSolve.Proofs.Outcome
import WireSolve.Proofs.Slices

namespace WireSolve

namespace CsrMatrix

variable {p : Nat} {m : CsrMatrix p} {rows : List (List (Nat × Fp p))} {width i : Nat}

/-! ### Offsets -/

theorem length_offsetsFrom {α : Type} (n : Nat) (rows : List (List α)) :
    (offsetsFrom n rows).length = rows.length + 1 := by
  induction rows generalizing n with
  | nil => rfl
  | cons row rest ih => rw [offsetsFrom, List.length_cons, ih, List.length_cons]

/-- A row starts after all entries of the rows before it. -/
theorem getElem?_offsetsFrom {α : Type} (n : Nat) {rows : List (List α)} {i : Nat}
    (hi : i ≤ rows.length) :
    (offsetsFrom n rows)[i]? = some (n + (rows.take i).flatten.length) := by
  induction rows generalizing n i with
  | nil =>
    obtain rfl := Nat.le_zero.1 hi
    rfl
  | cons row rest ih =>
    cases i with
    | zero => rfl
    | succ i =>
      rw [offsetsFrom, List.getElem?_cons_succ, ih (n + row.length) (Nat.le_of_succ_le_succ hi),
        List.take_succ_cons, List.flatten_cons, List.length_append, Nat.add_assoc]

/-! ### The matrix of given arrays -/

/-- A matrix of given arrays holds these arrays; what is checked of them, every matrix has. -/
theorem ofArrays_eq_ok_iff {offsets columns : Array Nat} {values : Array (Fp p)} :
    ofArrays offsets columns values width = .ok m ↔
      m.offsets = offsets ∧ m.columns = columns ∧ m.values = values ∧ m.width = width := by
  constructor
  · intro h
    unfold ofArrays at h
    split at h
    · split at h
      · split at h
        · obtain rfl := Except.ok.inj h
          exact ⟨rfl, rfl, rfl, rfl⟩
        · cases h
      · cases h
    · cases h
  · rintro ⟨rfl, rfl, rfl, rfl⟩
    rw [ofArrays, dif_pos m.paired, dif_pos m.ends, dif_pos m.inside]

/-- Every value has a column, so there are as many entries as values. -/
theorem length_entries (m : CsrMatrix p) : m.entries.length = m.nnz := by
  rw [entries, List.length_zip, Array.length_toList, Array.length_toList, m.paired, Nat.min_self,
    nnz]

/-! ### The matrix of given rows -/

/-- A matrix that holds the given rows, one after the other. -/
structure Represents (m : CsrMatrix p) (rows : List (List (Nat × Fp p))) : Prop where
  offsets_eq : m.offsets = (offsetsFrom 0 rows).toArray
  entries_eq : m.entries = rows.flatten

/-- Rows whose columns are all inside make a matrix. -/
theorem ofRows_eq_ok (h : ∀ row ∈ rows, ∀ e ∈ row, e.1 < width) :
    ∃ m, ofRows rows width = .ok m ∧ m.width = width ∧ m.Represents rows := by
  have hpaired : (rows.flatten.map Prod.fst).toArray.size
      = (rows.flatten.map Prod.snd).toArray.size := by
    simp only [List.size_toArray, List.length_map]
  have hends : (offsetsFrom 0 rows).toArray.back?
      = some (rows.flatten.map Prod.snd).toArray.size := by
    rw [List.back?_toArray, List.getLast?_eq_getElem?, length_offsetsFrom, Nat.add_sub_cancel,
      getElem?_offsetsFrom 0 (Nat.le_refl _), List.take_length, Nat.zero_add, List.size_toArray,
      List.length_map]
  have hinside : ∀ j ∈ (rows.flatten.map Prod.fst).toArray, j < width := by
    intro j hj
    obtain ⟨e, he, rfl⟩ := List.mem_map.1 (List.mem_toArray.1 hj)
    obtain ⟨row, hrow, he⟩ := List.mem_flatten.1 he
    exact h row hrow e he
  refine ⟨⟨_, _, _, width, hpaired, hends, hinside⟩, ?_, rfl, rfl, ?_⟩
  · exact ofArrays_eq_ok_iff.2 ⟨rfl, rfl, rfl, rfl⟩
  · show (rows.flatten.map Prod.fst).zip (rows.flatten.map Prod.snd) = rows.flatten
    rw [List.zip_map', List.map_id']

/-- The rows of a matrix have all their columns inside. -/
theorem lt_of_ofRows (h : ofRows rows width = .ok m) {row : List (Nat × Fp p)} (hrow : row ∈ rows)
    {e : Nat × Fp p} (he : e ∈ row) : e.1 < width := by
  obtain ⟨-, hcolumns, -, rfl⟩ := ofArrays_eq_ok_iff.1 h
  refine m.inside e.1 ?_
  rw [hcolumns, List.mem_toArray]
  exact List.mem_map_of_mem (List.mem_flatten_of_mem hrow he)

namespace Represents

theorem height_eq (h : m.Represents rows) : m.height = rows.length := by
  rw [height, h.offsets_eq, List.size_toArray, length_offsetsFrom, Nat.add_sub_cancel]

theorem nnz_eq (h : m.Represents rows) : m.nnz = rows.flatten.length := by
  rw [← length_entries, h.entries_eq]

theorem bounds_eq (h : m.Represents rows) (hi : i < rows.length) :
    m.bounds i = ((rows.take i).flatten.length,
      (rows.take i).flatten.length + rows[i].length) := by
  rw [bounds, h.offsets_eq, Array.getD_eq_getD_getElem?, Array.getD_eq_getD_getElem?,
    List.getElem?_toArray, List.getElem?_toArray, getElem?_offsetsFrom 0 (Nat.le_of_lt hi),
    getElem?_offsetsFrom 0 hi, length_flatten_take_succ hi, Nat.zero_add, Nat.zero_add]
  rfl

/-- Every row is found in its place. -/
theorem row?_eq (h : m.Represents rows) (hi : i < rows.length) : m.row? i = some rows[i] := by
  have hend : (rows.take i).flatten.length + rows[i].length ≤ m.nnz := by
    rw [h.nnz_eq, ← length_flatten_take_succ hi]
    exact ((List.take_sublist (i + 1) rows).flatten).length_le
  rw [row?, h.bounds_eq hi]
  show (if _ ∧ _ then some (m.slice _ _) else none) = _
  rw [if_pos ⟨Nat.le_add_right _ _, hend⟩, slice, h.entries_eq, Nat.add_sub_cancel_left,
    take_drop_flatten hi]

/-- A loop over the places of the rows goes through the rows. -/
theorem mapM_rows {α : Type} (h : m.Represents rows) {f : Nat → Except MatrixError α}
    {g : List (Nat × Fp p) → α} (hf : ∀ i (hi : i < rows.length), f i = .ok (g rows[i])) :
    (List.range m.height).mapM f = .ok (rows.map g) := by
  have hrows : rows.map g = (List.range m.height).map fun i => g (rows[i]?.getD []) := by
    rw [h.height_eq]
    refine List.ext_getElem (by simp) fun i hi _ => ?_
    rw [List.length_map] at hi
    rw [List.getElem_map, List.getElem_map, List.getElem_range,
      List.getElem?_eq_getElem hi, Option.getD_some]
  rw [hrows]
  refine Outcome.mapM_eq_ok fun i hi => ?_
  rw [List.mem_range, h.height_eq] at hi
  rw [hf i hi, List.getElem?_eq_getElem hi, Option.getD_some]

variable [Modulus p] {z : Array (Fp p)}

/-- The product with a vector goes through the rows. -/
theorem mulVector_eq (h : m.Represents rows) (hz : z.size = m.width) :
    m.mulVector z = .ok (rows.map fun row => dot row z) := by
  rw [mulVector, if_pos hz]
  refine h.mapM_rows fun i hi => ?_
  rw [h.row?_eq hi]

end Represents

variable [Modulus p]

/-- A running product grows by the products of the entries. -/
theorem foldl_dot (row : List (Nat × Fp p)) (z : Array (Fp p)) (acc : Fp p) :
    row.foldl (fun sum (j, x) => sum + x * z.getD j 0) acc
      = acc + (row.map fun e => e.2 * z.getD e.1 0).sum := by
  induction row generalizing acc with
  | nil => exact (add_zero acc).symm
  | cons e rest ih =>
    rw [List.foldl_cons, ih, List.map_cons, List.sum_cons, add_assoc]

/-- The product of a row with a vector is a sum over its entries. -/
theorem dot_eq_sum (row : List (Nat × Fp p)) (z : Array (Fp p)) :
    dot row z = (row.map fun e => e.2 * z.getD e.1 0).sum := by
  rw [dot, foldl_dot, zero_add]

end CsrMatrix

end WireSolve
