/-
WireSolve/Proofs/Csr/Dense.lean

The rows, the product and the printed form are one linear map.

A printed row lays out all columns, and what it shows at a column is the sum of what is
stored there (`CsrMatrix.denseEntry_eq_sum`).  So to go through the columns of a printed
row is to go through the entries of the row it shows: every entry is met at its own column
and nowhere else (`CsrMatrix.sum_denseEntry`).

The printed form is text, and the numbers are read off it.  They can be read in one way
only (`CsrMatrix.tableText_injective`): a number is made of digits, so it ends at the first
space or bracket.

Main result: `CsrMatrix.ofRows_linear`.
-/
import Mathlib.Algebra.BigOperators.Ring.Finset
import WireSolve.Proofs.Csr.Encoding

namespace WireSolve

variable {p : Nat}

/-! ### Reading numbers off the printed form -/

namespace Fp

/-- The digits of a number. -/
def digits (x : Fp p) : List Char := Nat.toDigits 10 x.val

theorem toList_text (x : Fp p) : x.text.toList = x.digits := Nat.toList_repr

theorem digits_injective : Function.Injective (digits : Fp p → List Char) :=
  fun _ _ h => Fp.ext (toDigits_injective h)

/-- What is not a digit is not in a number. -/
theorem not_mem_digits {c : Char} (hc : c.isDigit = false) (x : Fp p) : c ∉ x.digits :=
  not_mem_toDigits hc x.val

end Fp

namespace CsrMatrix

/-- A printed form that shows the given rows of numbers. -/
def tableText (table : List (List (Fp p))) : String := String.join (table.map lineText)

/-- The numbers of a line, between its brackets. -/
def lineBody (xs : List (Fp p)) : List Char := [' '].intercalate (xs.map Fp.digits)

theorem toList_lineText (xs : List (Fp p)) :
    (lineText xs).toList = '[' :: (lineBody xs ++ ']' :: ['\n']) := by
  have hdigits : (xs.map Fp.text).map String.toList = xs.map Fp.digits := by
    rw [List.map_map]
    exact List.map_congr_left fun x _ => x.toList_text
  rw [lineText, String.toList_append, String.toList_append, String.toList_intercalate, hdigits]
  rfl

/-- The first closing bracket is the end of the line. -/
theorem not_mem_lineBody (xs : List (Fp p)) : ']' ∉ lineBody xs := by
  refine not_mem_intercalate (by decide) fun l hl => ?_
  obtain ⟨x, -, rfl⟩ := List.mem_map.1 hl
  exact Fp.not_mem_digits (by decide) x

/-- The spaces are the ends of the numbers; only a line without numbers has no digits. -/
theorem map_digits_eq (xs : List (Fp p)) :
    xs.map Fp.digits = if lineBody xs = [] then [] else (lineBody xs).splitOn ' ' := by
  rcases xs with - | ⟨x, rest⟩
  · rfl
  · have hsplit : (lineBody (x :: rest)).splitOn ' ' = (x :: rest).map Fp.digits := by
      refine List.splitOn_intercalate ' ' (fun l hl => ?_) (List.cons_ne_nil _ _)
      obtain ⟨y, -, rfl⟩ := List.mem_map.1 hl
      exact Fp.not_mem_digits (by decide) y
    have hne : lineBody (x :: rest) ≠ [] := by
      intro hnil
      rw [hnil, List.map_cons] at hsplit
      exact Nat.toDigits_ne_nil (List.cons.inj hsplit).1.symm
    rw [if_neg hne, hsplit]

theorem lineBody_injective : Function.Injective (lineBody : List (Fp p) → List Char) := by
  intro xs ys h
  refine List.map_injective_iff.2 Fp.digits_injective ?_
  rw [map_digits_eq, map_digits_eq, h]

/-- No two tables are printed alike. -/
theorem tableText_injective :
    Function.Injective (tableText : List (List (Fp p)) → String) := by
  intro table table' h
  have hchars := congrArg String.toList h
  rw [tableText, tableText, String.toList_join, String.toList_join] at hchars
  clear h
  induction table generalizing table' with
  | nil =>
    cases table' with
    | nil => rfl
    | cons row' rest' => simp [toList_lineText] at hchars
  | cons row rest ih =>
    cases table' with
    | nil => simp [toList_lineText] at hchars
    | cons row' rest' =>
      -- both texts are a bracket, the numbers, a bracket and a line break, and then the other lines
      simp only [List.map_cons, List.flatMap_cons, toList_lineText, List.cons_append,
        List.append_assoc, List.nil_append, List.cons.injEq, true_and] at hchars
      obtain ⟨hrow, hrest⟩ := append_cons_inj (not_mem_lineBody row) (not_mem_lineBody row') hchars
      rw [lineBody_injective hrow, ih (List.cons.inj hrest).2]

/-! ### Laying out a row -/

variable [Modulus p] {m : CsrMatrix p} {rows : List (List (Nat × Fp p))} {width j : Nat}

/-- A running entry grows by what is stored at its column. -/
theorem foldl_denseEntry (row : List (Nat × Fp p)) (acc : Fp p) :
    row.foldl (fun sum (i, x) => if i = j then sum + x else sum) acc
      = acc + (row.map fun e => if e.1 = j then e.2 else 0).sum := by
  induction row generalizing acc with
  | nil => exact (add_zero acc).symm
  | cons e rest ih =>
    obtain ⟨i, x⟩ := e
    rw [List.foldl_cons, ih, List.map_cons, List.sum_cons, ← add_assoc]
    by_cases hi : i = j
    · simp only [hi, if_true]
    · simp only [hi, if_false, add_zero]

/-- What is printed at a column is the sum of what is stored there. -/
theorem denseEntry_eq_sum (row : List (Nat × Fp p)) (j : Nat) :
    denseEntry row j = (row.map fun e => if e.1 = j then e.2 else 0).sum := by
  rw [denseEntry, foldl_denseEntry, zero_add]

/-- Column by column is entry by entry. -/
theorem sum_denseEntry {row : List (Nat × Fp p)} (hinside : ∀ e ∈ row, e.1 < width)
    (f : Nat → Fp p) :
    ∑ j ∈ Finset.range width, denseEntry row j * f j = (row.map fun e => e.2 * f e.1).sum := by
  simp only [denseEntry_eq_sum]
  induction row with
  | nil => simp only [List.map_nil, List.sum_nil, zero_mul, Finset.sum_const_zero]
  | cons e rest ih =>
    -- the first entry is met at its own column, which is one of those that are gone through
    have hcolumn : ∑ j ∈ Finset.range width, (if e.1 = j then e.2 else 0) * f j
        = e.2 * f e.1 := by
      rw [Finset.sum_eq_single_of_mem e.1
        (Finset.mem_range.2 (hinside e List.mem_cons_self)), if_pos rfl]
      intro j _ hj
      rw [if_neg hj.symm, zero_mul]
    simp only [List.map_cons, List.sum_cons, add_mul, Finset.sum_add_distrib]
    rw [hcolumn, ih fun e' he' => hinside e' (List.mem_cons_of_mem e he')]

/-- A row in its dense form has the product of the row. -/
theorem sum_denseRow {row : List (Nat × Fp p)} (hinside : ∀ e ∈ row, e.1 < width)
    (z : Array (Fp p)) :
    ∑ j ∈ Finset.range width, (denseRow width row).getD j 0 * z.getD j 0 = dot row z := by
  rw [dot_eq_sum, ← sum_denseEntry hinside fun j => z.getD j 0]
  refine Finset.sum_congr rfl fun j hj => ?_
  rw [denseRow, List.getD_eq_getElem?_getD, List.getElem?_map,
    List.getElem?_range (Finset.mem_range.1 hj), Option.map_some, Option.getD_some]

/-! ### The printed matrix -/

namespace Represents

/-- The printed form shows the rows, all columns laid out. -/
theorem text_eq (h : m.Represents rows) (hwidth : rows = [] ∨ m.width ≤ maxLength) :
    m.text = .ok (tableText (rows.map (denseRow m.width))) := by
  have hlines : (List.range m.height).mapM m.rowText
      = .ok (rows.map fun row => lineText (denseRow m.width row)) := by
    refine h.mapM_rows fun i hi => ?_
    have hle : m.width ≤ maxLength := hwidth.resolve_left fun hnil => by simp [hnil] at hi
    rw [rowText, if_neg (Nat.not_lt.2 hle), printedRow?_of_row? (h.row?_eq hi)]
  rw [text, hlines, tableText, List.map_map]
  rfl

/-- It does so whenever there is one. -/
theorem width_le (h : m.Represents rows) {s : String} (hs : m.text = .ok s) :
    rows = [] ∨ m.width ≤ maxLength := by
  rw [← List.length_eq_zero_iff, ← h.height_eq]
  exact (printable_iff h.ordered).1 (text_isOk_iff.1 ⟨s, hs⟩)

/-- The numbers that are read off the printed form are those of the rows, laid out. -/
theorem eq_of_text (h : m.Represents rows) {table : List (List (Fp p))}
    (htable : m.text = .ok (tableText table)) : table = rows.map (denseRow m.width) :=
  tableText_injective (Except.ok.inj (htable.symm.trans (h.text_eq (h.width_le htable))))

end Represents

/-- A matrix that is the linear map of given rows, in its products as in its printed form. -/
structure ActsAs (m : CsrMatrix p) (rows : List (List (Nat × Fp p))) (width : Nat) : Prop where
  /-- It has as many rows. -/
  height_eq : m.height = rows.length
  /-- A product has, for every row, the sum over the entries of the row. -/
  product : ∀ z, z.size = width →
    m.mulVector z = .ok (rows.map fun row => (row.map fun e => e.2 * z.getD e.1 0).sum)
  /-- It is printed as a table of numbers, unless there are rows that are too long for it. -/
  printed : (∃ table : List (List (Fp p)), m.text = .ok (tableText table)) ↔
    rows = [] ∨ width ≤ maxLength
  /-- The table has all columns of all rows, and a product has, for every row of the table, the
  sum over its columns. -/
  dense : ∀ table : List (List (Fp p)), m.text = .ok (tableText table) →
    table.length = rows.length ∧ (∀ d ∈ table, d.length = width) ∧
      ∀ z, z.size = width → m.mulVector z
        = .ok (table.map fun d => ∑ j ∈ Finset.range width, d.getD j 0 * z.getD j 0)

/-- Rows whose columns are all inside make a matrix, whose products and whose printed form both
say what the rows say. -/
theorem ofRows_linear (hinside : ∀ row ∈ rows, ∀ e ∈ row, e.1 < width) :
    ∃ m, ofRows rows width = .ok m ∧ m.ActsAs rows width := by
  obtain ⟨m, hmade, rfl, h⟩ := ofRows_eq_ok hinside
  refine ⟨m, hmade, h.height_eq, fun z hz => ?_, ?_, fun table htable => ?_⟩
  · simp only [h.mulVector_eq hz, dot_eq_sum]
  · constructor
    · rintro ⟨table, htable⟩
      exact h.width_le htable
    · intro hwidth
      exact ⟨_, h.text_eq hwidth⟩
  · obtain rfl := h.eq_of_text htable
    refine ⟨List.length_map _, fun d hd => ?_, fun z hz => ?_⟩
    · obtain ⟨row, -, rfl⟩ := List.mem_map.1 hd
      rw [denseRow, List.length_map, List.length_range]
    · rw [h.mulVector_eq hz, List.map_map]
      refine congrArg Except.ok (List.map_congr_left fun row hrow => ?_)
      exact (sum_denseRow (hinside row hrow) z).symm

/-- A column that stands twice in a row, out of order, and a row without entries. -/
theorem repeated_linear : ∃ m : CsrMatrix 17,
    ofRows [[(2, 1), (0, 3), (2, 5)], [], [(1, 4)]] 3 = .ok m ∧
      m.ActsAs [[(2, 1), (0, 3), (2, 5)], [], [(1, 4)]] 3 ∧
      m.mulVector #[2, 3, 4] = .ok [13, 0, 12] ∧
      m.text = .ok "[3 0 6]\n[0 0 0]\n[0 4 0]\n" := by
  obtain ⟨m, hmade, hacts⟩ := @ofRows_linear 17 _ [[(2, 1), (0, 3), (2, 5)], [], [(1, 4)]] 3
    (by decide)
  refine ⟨m, hmade, hacts, ?_, ?_⟩
  · exact (hacts.product _ rfl).trans (by decide)
  · obtain rfl := Except.ok.inj hmade
    rfl

end CsrMatrix

end WireSolve
