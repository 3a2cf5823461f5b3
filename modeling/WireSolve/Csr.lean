/-
WireSolve/Csr.lean

Matrices in compressed sparse row form: the entries of all rows in one sequence,
with the place where each row starts and the place where the last one ends.

Three things are checked of the arrays a matrix is made from: every value has a
column, the last offset is the number of values, and every column is inside the
matrix.  The offsets in between are not checked, so a row is cut out of the
sequence only where its bounds allow it: the product refuses bounds that are out
of order or past the end, and the printed form reads bounds that are out of order
as an empty row.  The printed form lays out every column of a row, and so also
refuses a row that is too long for that.
-/
import WireSolve.Capacity
import WireSolve.Field

namespace WireSolve

/-- Why a matrix, or a product with one, is refused. -/
inductive MatrixError where
  /-- The columns and the values differ in number. -/
  | unpaired
  /-- The last offset is not the number of values. -/
  | wrongEnd
  /-- A column is outside the matrix. -/
  | columnOutOfRange
  /-- The vector's length is not the number of columns. -/
  | vectorLength
  /-- The bounds of a row are out of order, or past the end. -/
  | rowBounds
  /-- A row has too many columns to be laid out. -/
  | tooWide
  /-- A coefficient of a circuit that is exported is not in its pool. -/
  | coeffOutOfRange
  deriving DecidableEq, Repr

/-- The wording of a matrix error. -/
def MatrixError.message : MatrixError → String
  | .unpaired => "one column index per value"
  | .wrongEnd => "row offsets must end at nnz"
  | .columnOutOfRange => "column index out of range"
  | .vectorLength => "Invalid vector length"
  | .rowBounds => "row bounds out of order or past the last value"
  | .tooWide => "row too long to lay out"
  | .coeffOutOfRange => "coefficient out of range"

/-- A matrix in compressed sparse row form. -/
structure CsrMatrix (p : Nat) where
  /-- Where each row starts, and where the last one ends. -/
  offsets : Array Nat
  /-- The column of each entry. -/
  columns : Array Nat
  /-- The value of each entry. -/
  values : Array (Fp p)
  /-- The number of columns. -/
  width : Nat
  /-- Every value has a column. -/
  paired : columns.size = values.size
  /-- The last offset is the number of values. -/
  ends : offsets.back? = some values.size
  /-- Every column is inside the matrix. -/
  inside : ∀ j ∈ columns, j < width
  deriving DecidableEq

namespace CsrMatrix

variable {p : Nat}

/-! ### Making a matrix -/

/-- The matrix of given arrays.  The columns are counted first, then the last offset is looked
at, then the columns themselves. -/
def ofArrays (offsets columns : Array Nat) (values : Array (Fp p)) (width : Nat) :
    Except MatrixError (CsrMatrix p) :=
  if paired : columns.size = values.size then
    if ends : offsets.back? = some values.size then
      if inside : ∀ j ∈ columns, j < width then
        .ok { offsets, columns, values, width, paired, ends, inside }
      else
        .error .columnOutOfRange
    else
      .error .wrongEnd
  else
    .error .unpaired

/-- Where rows start when the first starts at `n`, and where the last one ends. -/
def offsetsFrom {α : Type} (n : Nat) : List (List α) → List Nat
  | [] => [n]
  | row :: rest => n :: offsetsFrom (n + row.length) rest

/-- The matrix whose rows hold the given columns and values. -/
def ofRows (rows : List (List (Nat × Fp p))) (width : Nat) : Except MatrixError (CsrMatrix p) :=
  ofArrays (offsetsFrom 0 rows).toArray (rows.flatten.map Prod.fst).toArray
    (rows.flatten.map Prod.snd).toArray width

/-! ### Rows -/

/-- The number of rows. -/
def height (m : CsrMatrix p) : Nat := m.offsets.size - 1

/-- The number of stored entries. -/
def nnz (m : CsrMatrix p) : Nat := m.values.size

/-- All entries, as columns and values. -/
def entries (m : CsrMatrix p) : List (Nat × Fp p) := m.columns.toList.zip m.values.toList

/-- The entries from one place up to another. -/
def slice (m : CsrMatrix p) (start stop : Nat) : List (Nat × Fp p) :=
  (m.entries.drop start).take (stop - start)

/-- The bounds of a row. -/
def bounds (m : CsrMatrix p) (i : Nat) : Nat × Nat := (m.offsets.getD i 0, m.offsets.getD (i + 1) 0)

/-- The entries of a row whose bounds are in order and not past the end. -/
def row? (m : CsrMatrix p) (i : Nat) : Option (List (Nat × Fp p)) :=
  let (start, stop) := m.bounds i
  if start ≤ stop ∧ stop ≤ m.nnz then some (m.slice start stop) else none

/-- The entries that the printed form of a row shows. -/
def printedRow? (m : CsrMatrix p) (i : Nat) : Option (List (Nat × Fp p)) :=
  let (start, stop) := m.bounds i
  if stop ≤ start then some [] else if stop ≤ m.nnz then some (m.slice start stop) else none

/-! ### Products and text -/

variable [Modulus p]

/-- The product of the entries of a row with a vector. -/
def dot (row : List (Nat × Fp p)) (z : Array (Fp p)) : Fp p :=
  row.foldl (fun sum (j, x) => sum + x * z.getD j 0) 0

/-- The product of a matrix and a vector. -/
def mulVector (m : CsrMatrix p) (z : Array (Fp p)) : Except MatrixError (List (Fp p)) :=
  if z.size = m.width then
    (List.range m.height).mapM fun i =>
      match m.row? i with
      | some row => .ok (dot row z)
      | none => .error .rowBounds
  else
    .error .vectorLength

/-- The entry of a row at column `j`: the sum of the entries stored there. -/
def denseEntry (row : List (Nat × Fp p)) (j : Nat) : Fp p :=
  row.foldl (fun sum (i, x) => if i = j then sum + x else sum) 0

/-- All columns of a row. -/
def denseRow (width : Nat) (row : List (Nat × Fp p)) : List (Fp p) :=
  (List.range width).map (denseEntry row)

/-- A line that shows field elements: their decimal texts, with spaces between them, in brackets. -/
def lineText (xs : List (Fp p)) : String := "[" ++ " ".intercalate (xs.map Fp.text) ++ "]\n"

/-- The printed form of a row: one line, with every column in it. -/
def rowText (m : CsrMatrix p) (i : Nat) : Except MatrixError String :=
  if maxLength < m.width then
    .error .tooWide
  else
    match m.printedRow? i with
    | some row => .ok (lineText (denseRow m.width row))
    | none => .error .rowBounds

/-- The printed form: the lines of all rows. -/
def text (m : CsrMatrix p) : Except MatrixError String := do
  return String.join (← (List.range m.height).mapM m.rowText)

end CsrMatrix

/-! ### The matrices of rank-1 constraints -/

/-- The matrices of a list of rank-1 constraints: row `i` of each holds one side of
constraint `i`. -/
structure Rank1Matrices (p : Nat) where
  /-- The left factors. -/
  a : CsrMatrix p
  /-- The right factors. -/
  b : CsrMatrix p
  /-- The outputs. -/
  c : CsrMatrix p

/-- The first row in which the product of the factors is not the output. -/
def Rank1Matrices.violated? {p : Nat} [Modulus p] (m : Rank1Matrices p) (z : Array (Fp p)) :
    Except MatrixError (Option Nat) := do
  let az ← m.a.mulVector z
  let bz ← m.b.mulVector z
  let cz ← m.c.mulVector z
  return ((az.zip bz).zip cz).findIdx? fun ((x, y), out) => x * y != out

end WireSolve
