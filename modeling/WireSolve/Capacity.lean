/-
WireSolve/Capacity.lean

How long a sequence can be.

A matrix and a circuit only name their sizes, and a size can be far more than
what memory holds.  Wherever a sequence of such a size would have to be laid
out, the size is compared with this bound first.
-/
namespace WireSolve

/-- The largest number of elements that a sequence can have, `2 ^ 57`: at up to 64 bytes an
element, they fill an address space of `2 ^ 63` bytes. -/
def maxLength : Nat := 144115188075855872

end WireSolve
