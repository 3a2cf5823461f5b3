/-
WireSolve/Text/Template.lean

Templates with `{}` placeholders.

The text is read from left to right and each placeholder takes the next value,
word for word: what a value contains is not read again.  A placeholder for which
no value is left stands as it is, and values that no placeholder takes are
dropped.  Placeholder by placeholder it is the same (`fillLoop`): the text before
the first one is handed on, then its value, and what is left is the text after it.
-/
namespace WireSolve

namespace Template

/-- Puts values in the places of the placeholders. -/
def fillChars : List Char → List String → List Char
  | '\x7b' :: '\x7d' :: rest, [] => '\x7b' :: '\x7d' :: fillChars rest []
  | '\x7b' :: '\x7d' :: rest, v :: vs => v.toList ++ fillChars rest vs
  | c :: rest, vs => c :: fillChars rest vs
  | [], _ => []

/-- Puts values in the places of the placeholders of a text. -/
def fill (format : String) (values : List String) : String :=
  String.ofList (fillChars format.toList values)

/-- What a value is put in the place of. -/
def placeholder : String := "\x7b\x7d"

/-- The text before the first placeholder, and the text after it. -/
def cut? : List Char → Option (List Char × List Char)
  | '\x7b' :: '\x7d' :: rest => some ([], rest)
  | c :: rest => (cut? rest).map fun (before, after) => (c :: before, after)
  | [] => none

/-- A text is cut to a shorter one. -/
theorem length_lt_of_cut? {cs before after : List Char} (h : cut? cs = some (before, after)) :
    after.length < cs.length := by
  induction cs using cut?.induct generalizing before with
  | case1 rest =>
    cases h
    exact Nat.lt_add_of_pos_right Nat.two_pos
  | case2 c rest hc ih =>
    rw [cut?, Option.map_eq_some_iff] at h
    · obtain ⟨⟨_, _⟩, hrest, heq⟩ := h
      cases heq
      exact Nat.lt_succ_of_lt (ih hrest)
    · exact hc
  | case3 => cases h

/-- Puts values in the places of the placeholders, one after the other, behind what has been
rendered of a text. -/
def fillLoop (rendered : String) (rest : List Char) (values : List String) : String :=
  match h : cut? rest with
  | none => rendered ++ String.ofList rest
  | some (before, after) =>
    have := length_lt_of_cut? h
    fillLoop (rendered ++ String.ofList before ++ values.headD placeholder) after values.tail
termination_by rest.length

end Template

end WireSolve
