/-
WireSolve/Hint/Id.lean

Hint functions are named by text and bound by number: the number is the 32-bit
FNV-1a hash of the name's UTF-8 bytes.  Each byte is added to the state by
exclusive or, and the state is then multiplied by an odd constant modulo
`2 ^ 32`, so a step loses nothing of the state.
-/
namespace WireSolve

/-- The number a hint function is bound to. -/
abbrev HintId := UInt32

namespace HintId

/-- The hash of the empty name. -/
def seed : HintId := 0x811c9dc5

/-- Takes one more byte of the name into the hash. -/
def absorb (hash : HintId) (byte : UInt8) : HintId := (hash ^^^ byte.toUInt32) * 0x01000193

/-- The hash of a sequence of bytes. -/
def ofBytes (bytes : List UInt8) : HintId := bytes.foldl absorb seed

/-- The number of the hint function with a given name. -/
def ofName (name : String) : HintId := ofBytes name.toUTF8.data.toList

/-- The eight hexadecimal digits of a number, after `0x`. -/
def text (id : HintId) : String :=
  let digits := Nat.toDigits 16 id.toNat
  "0x" ++ String.ofList (List.replicate (8 - digits.length) '0' ++ digits)

end HintId

end WireSolve
