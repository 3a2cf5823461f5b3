/-
WireSolve/Text/Quoted.lean

Text in double quotes.  A quote and a backslash are written with a backslash in
front, three control characters by a letter and one by a zero, and every other
character without a shape of its own by its code point in hexadecimal; all other
characters stand for themselves.
-/
import WireSolve.Text.Unprintable

namespace WireSolve

namespace Quoted

/-- The written form of one character. -/
def encodeChar (c : Char) : List Char :=
  if c = '"' then ['\\', '"']
  else if c = '\\' then ['\\', '\\']
  else if c = '\n' then ['\\', 'n']
  else if c = '\r' then ['\\', 'r']
  else if c = '\t' then ['\\', 't']
  else if c.toNat = 0 then ['\\', '0']
  else if isUnprintable c then '\\' :: 'u' :: '\x7b' :: Nat.toDigits 16 c.toNat ++ ['\x7d']
  else [c]

/-- The written form of a text, with its quotes. -/
def encode (s : String) : String :=
  String.ofList ('"' :: s.toList.flatMap encodeChar ++ ['"'])

end Quoted

end WireSolve
