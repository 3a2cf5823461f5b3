/-
WireSolve/Proofs/Csr/Usable.lean

When a matrix can be used.

Of the offsets that a matrix is made from, only the last one is checked.  A product cuts
out every row, and refuses a row that ends before it starts or past the last value.  If
the offsets never decrease, no row does either of the two, because the last offset is
where the values end (`CsrMatrix.offset_le_nnz`); so the product goes through for every
vector of the right length, and otherwise for none.

The printed form takes a row that ends before it starts for an empty one.  It therefore
refuses less: only a row with entries that ends past the last value, and rows that are
too long to be laid out.

Main result: `CsrMatrix.usable_iff`.
-/
import Mathlib.Data.List.Chain
import WireSolve.Proofs.Csr

namespace WireSolve

namespace CsrMatrix

variable {p : Nat} {m : CsrMatrix p} {i : Nat}

/-! ### Offsets that are in order -/

/-- Offsets that never decrease. -/
def Ordered (offsets : Array Nat) : Prop := offsets.toList.Pairwise (· ≤ ·)

instance : DecidablePred Ordered := fun offsets =>
  inferInstanceAs (Decidable (offsets.toList.Pairwise (· ≤ ·)))

/-- It is enough that no offset is less than the one before it. -/
theorem ordered_iff {offsets : Array Nat} : Ordered offsets ↔
    ∀ i, i + 1 < offsets.size → offsets.getD i 0 ≤ offsets.getD (i + 1) 0 := by
  rw [Ordered, ← List.isChain_iff_pairwise, List.isChain_iff_getElem]
  refine forall_congr' fun i => forall_congr' fun hi => ?_
  rw [Array.length_toList] at hi
  rw [Array.getElem_toList, Array.getElem_toList, Array.getD_eq_getD_getElem?,
    Array.getD_eq_getD_getElem?, Array.getElem?_eq_getElem hi,
    Array.getElem?_eq_getElem (Nat.lt_of_succ_lt hi), Option.getD_some, Option.getD_some]

/-- Offsets are in order exactly if no row ends before it starts. -/
theorem ordered_iff_bounds :
    Ordered m.offsets ↔ ∀ i < m.height, (m.bounds i).1 ≤ (m.bounds i).2 := by
  rw [ordered_iff]
  exact forall_congr' fun i => imp_congr_left Nat.lt_sub_iff_add_lt.symm

/-- Offsets that are in order do not go past the last value, where the last of them is. -/
theorem offset_le_nnz (h : Ordered m.offsets) {o : Nat} (ho : o ∈ m.offsets) : o ≤ m.nnz := by
  obtain ⟨before, hoffsets⟩ := Array.back?_eq_some_iff.1 m.ends
  rw [Ordered, hoffsets, Array.toList_push, List.pairwise_append] at h
  rw [hoffsets, Array.mem_push] at ho
  rcases ho with ho | rfl
  · exact h.2.2 o (Array.mem_toList_iff.2 ho) _ (List.mem_singleton_self _)
  · exact Nat.le_refl _

/-- Neither does the end of a row. -/
theorem stop_le_nnz (h : Ordered m.offsets) (hi : i < m.height) : (m.bounds i).2 ≤ m.nnz := by
  have hlt : i + 1 < m.offsets.size := Nat.lt_sub_iff_add_lt.1 hi
  refine offset_le_nnz h ?_
  show m.offsets.getD (i + 1) 0 ∈ m.offsets
  rw [Array.getD_eq_getD_getElem?, Array.getElem?_eq_getElem hlt, Option.getD_some]
  exact Array.getElem_mem hlt

/-! ### Rows -/

theorem row?_isSome_iff :
    (∃ row, m.row? i = some row) ↔ (m.bounds i).1 ≤ (m.bounds i).2 ∧ (m.bounds i).2 ≤ m.nnz := by
  simp [row?]

/-- All rows can be cut out exactly if the offsets are in order. -/
theorem rows_iff_ordered : (∀ i < m.height, ∃ row, m.row? i = some row) ↔ Ordered m.offsets := by
  constructor
  · intro h
    exact ordered_iff_bounds.2 fun i hi => (row?_isSome_iff.1 (h i hi)).1
  · intro h i hi
    exact row?_isSome_iff.2 ⟨ordered_iff_bounds.1 h i hi, stop_le_nnz h hi⟩

/-- A row can be printed unless it has entries past the last value. -/
theorem printedRow?_isSome_iff :
    (∃ row, m.printedRow? i = some row) ↔ (m.bounds i).2 ≤ max (m.bounds i).1 m.nnz := by
  rw [le_max_iff]
  unfold printedRow?
  by_cases hempty : (m.bounds i).2 ≤ (m.bounds i).1
  · simp [hempty]
  · simp [hempty]

/-- A row that can be cut out is printed as it is. -/
theorem printedRow?_of_row? {i : Nat} {row : List (Nat × Fp p)} (h : m.row? i = some row) :
    m.printedRow? i = some row := by
  obtain ⟨hle, hend⟩ := row?_isSome_iff.1 ⟨row, h⟩
  have hrow : m.slice (m.bounds i).1 (m.bounds i).2 = row :=
    Option.some.inj ((if_pos ⟨hle, hend⟩).symm.trans h)
  rw [← hrow]
  unfold printedRow?
  by_cases hempty : (m.bounds i).2 ≤ (m.bounds i).1
  · rw [slice, Nat.sub_eq_zero_of_le hempty, List.take_zero]
    exact if_pos hempty
  · exact (if_neg hempty).trans (if_pos hend)

/-- No row is too long to be laid out, and none with entries ends past the last value. -/
def Printable (m : CsrMatrix p) : Prop :=
  ∀ i < m.height, m.width ≤ maxLength ∧ (m.bounds i).2 ≤ max (m.bounds i).1 m.nnz

/-- Where the offsets are in order, only the length of the rows can be in the way. -/
theorem printable_iff (h : Ordered m.offsets) :
    m.Printable ↔ m.height = 0 ∨ m.width ≤ maxLength := by
  constructor
  · intro hrows
    rcases Nat.eq_zero_or_pos m.height with hzero | hpos
    · exact Or.inl hzero
    · exact Or.inr (hrows 0 hpos).1
  · rintro (hzero | hwidth) i hi
    · omega
    · exact ⟨hwidth, le_max_of_le_right (stop_le_nnz h hi)⟩

variable [Modulus p] {z : Array (Fp p)}

/-! ### Products and text -/

/-- A product goes through exactly if the offsets are in order, whatever the vector holds. -/
theorem mulVector_isOk_iff (hz : z.size = m.width) :
    (∃ ys, m.mulVector z = .ok ys) ↔ Ordered m.offsets := by
  rw [mulVector, if_pos hz, Outcome.mapM_isOk_iff, ← rows_iff_ordered]
  refine forall_congr' fun i => ?_
  rw [List.mem_range]
  refine imp_congr_right fun _ => ?_
  rcases m.row? i with - | row <;> simp

theorem rowText_isOk_iff : (∃ s, m.rowText i = .ok s) ↔
    m.width ≤ maxLength ∧ (m.bounds i).2 ≤ max (m.bounds i).1 m.nnz := by
  rw [rowText, ← printedRow?_isSome_iff]
  split
  · next hwide => simp [Nat.not_le.2 hwide]
  · next hwide => rcases m.printedRow? i with - | row <;> simp [Nat.not_lt.1 hwide]

theorem text_isOk_iff : (∃ s, m.text = .ok s) ↔ m.Printable := by
  have hlines : (∃ s, m.text = .ok s) ↔
      ∃ lines, (List.range m.height).mapM m.rowText = .ok lines := by
    rw [text]
    simp only [Outcome.bind_eq_ok_iff, Outcome.pure_eq_ok_iff]
    exact ⟨fun ⟨_, lines, h, _⟩ => ⟨lines, h⟩, fun ⟨lines, h⟩ => ⟨_, lines, h, rfl⟩⟩
  rw [hlines, Outcome.mapM_isOk_iff]
  refine forall_congr' fun i => ?_
  rw [List.mem_range, rowText_isOk_iff]

/-! ### Use -/

/-- A matrix that can be used for what it is made for. -/
structure Usable (m : CsrMatrix p) : Prop where
  /-- Its product with every vector of the right length goes through. -/
  product : ∀ z, z.size = m.width → ∃ ys, m.mulVector z = .ok ys
  /-- It can be printed. -/
  printed : ∃ s, m.text = .ok s

/-- A matrix that is made from its arrays can be used exactly if the offsets never decrease, and
its rows can be laid out.  No product goes through otherwise; the printed form may. -/
theorem usable_iff {offsets columns : Array Nat} {values : Array (Fp p)} {width : Nat}
    (h : ofArrays offsets columns values width = .ok m) :
    (m.Usable ↔ Ordered offsets ∧ (m.height = 0 ∨ width ≤ maxLength)) ∧
      (∀ z, z.size = width → ((∃ ys, m.mulVector z = .ok ys) ↔ Ordered offsets)) ∧
      ((∃ s, m.text = .ok s) ↔ m.Printable) := by
  obtain ⟨rfl, -, -, rfl⟩ := ofArrays_eq_ok_iff.1 h
  refine ⟨?_, fun z hz => mulVector_isOk_iff hz, text_isOk_iff⟩
  constructor
  · intro huse
    have hsize : (Array.replicate m.width (0 : Fp p)).size = m.width := Array.size_replicate
    have hordered : Ordered m.offsets := (mulVector_isOk_iff hsize).1 (huse.product _ hsize)
    exact ⟨hordered, (printable_iff hordered).1 (text_isOk_iff.1 huse.printed)⟩
  · rintro ⟨hordered, hwidth⟩
    exact ⟨fun z hz => (mulVector_isOk_iff hz).2 hordered,
      text_isOk_iff.2 ((printable_iff hordered).2 hwidth)⟩

/-- Three rows, the second of them empty. -/
def threeRows : CsrMatrix 17 :=
  ⟨#[0, 2, 2, 3], #[0, 2, 1], #[2, 1, 3], 3, by decide, by decide, by decide⟩

/-- They can be used. -/
theorem threeRows_usable :
    ofArrays #[0, 2, 2, 3] #[0, 2, 1] #[2, 1, 3] 3 = .ok threeRows ∧ threeRows.Usable := by
  have hmade : ofArrays #[0, 2, 2, 3] #[0, 2, 1] #[2, 1, 3] 3 = .ok threeRows := rfl
  exact ⟨hmade, (usable_iff hmade).1.2 (by decide)⟩

/-- A matrix is made of offsets that run past the two values and come back, but neither can it be
multiplied nor printed. -/
theorem overrun_unusable : ∃ m : CsrMatrix 17, ofArrays #[0, 3, 2] #[0, 1] #[5, 6] 2 = .ok m ∧
    m.mulVector #[1, 2] = .error .rowBounds ∧ m.text = .error .rowBounds :=
  ⟨⟨#[0, 3, 2], #[0, 1], #[5, 6], 2, by decide, by decide, by decide⟩, rfl, rfl, rfl⟩

end CsrMatrix

end WireSolve
