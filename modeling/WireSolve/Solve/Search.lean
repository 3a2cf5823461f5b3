/-
WireSolve/Solve/Search.lean

The check of `WireSolve.Solve.Cycle` as a loop.

The loop keeps the path by itself: a stack of hints, each with the prerequisites
that are still to be looked at.  A mark says for every hint whether the search has
come to it, and whether it has left it again.  Each round looks at the hint on top:
it takes the last prerequisite that is left, or gives the hint up as done.

A round either starts a new hint, and there are fewer new ones afterwards, or it
shortens what is left on the path.  So the loop ends, from any marks and any path.
-/
import WireSolve.Circuit.Basic

namespace WireSolve

/-- How far the search has come with a hint. -/
inductive Mark where
  /-- The search has not come to it. -/
  | new
  /-- It is on the path. -/
  | active
  /-- All that it needs has been looked at. -/
  | done
  deriving DecidableEq, Repr

/-- The marks of all hints, by number. -/
abbrev Marks := Array Mark

namespace Marks

/-- Marks a hint; there is nothing to mark for a number that is no hint. -/
def mark (marks : Marks) (h : Nat) (m : Mark) : Marks := marks.setIfInBounds h m

/-- The number of new hints. -/
def news (marks : Marks) : Nat := marks.count .new

/-- A mark other than new does not make a new hint. -/
theorem news_mark_le (marks : Marks) (h : Nat) {m : Mark} (hm : m ≠ .new) :
    (marks.mark h m).news ≤ marks.news := by
  rw [mark, Array.setIfInBounds]
  split
  · next hlt =>
    rw [news, Array.count_set hlt, beq_false_of_ne hm]
    exact Nat.sub_le _ _
  · exact Nat.le_refl _

/-- A hint that is started is not new any more. -/
theorem news_mark_lt {marks : Marks} {h : Nat} (hnew : marks[h]? = some .new) :
    (marks.mark h .active).news < marks.news := by
  obtain ⟨hlt, hget⟩ := Array.getElem?_eq_some_iff.1 hnew
  have hpos : 0 < marks.news := Array.count_pos_iff.2 (hget ▸ Array.getElem_mem hlt)
  rw [mark, Array.setIfInBounds, dif_pos hlt, news, Array.count_set hlt, hget]
  exact Nat.sub_one_lt_of_lt hpos

end Marks

/-- The hints on the path, the last one first, with their prerequisites that are left, in the order
in which they are taken. -/
abbrev SearchPath := List (Nat × List Nat)

/-- The number of prerequisites and of hints that are left on a path. -/
def SearchPath.left : SearchPath → Nat
  | [] => 0
  | (_, rest) :: path => rest.length + 1 + SearchPath.left path

namespace Circuit

variable {p : Nat} [Modulus p]

/-- The search goes on until the path is used up.  Returns the marks, or a hint that was reached
while it was on the path. -/
def followPath (c : Circuit p) (marks : Marks) : SearchPath → Except Nat Marks
  | [] => .ok marks
  | (h, []) :: path => c.followPath (marks.mark h .done) path
  | (h, g :: rest) :: path =>
    match _hmark : marks[g]? with
    | some .active => .error g
    | some .new =>
      c.followPath (marks.mark g .active) ((g, (c.prerequisites g).reverse) :: (h, rest) :: path)
    -- what produces a wire is a hint of the circuit, so it has a mark
    | some .done | none => c.followPath marks ((h, rest) :: path)
termination_by path => (marks.news, SearchPath.left path)
decreasing_by
  · apply Prod.Lex.right' _ (Marks.news_mark_le marks h (by decide))
    simp [SearchPath.left]
  · exact Prod.Lex.left _ _ (Marks.news_mark_lt _hmark)
  all_goals
    apply Prod.Lex.right
    simp [SearchPath.left]

/-- Starts a path at a hint that the search has not come to. -/
def followFrom (c : Circuit p) (marks : Marks) (h : Nat) : Except Nat Marks :=
  if marks[h]? = some .new then
    c.followPath (marks.mark h .active) [(h, (c.prerequisites h).reverse)]
  else
    .ok marks

/-- Looks for a hint that needs its own outputs, from one hint after the other. -/
def searchHints (c : Circuit p) : Except Fault Unit :=
  match (List.range c.hints.size).foldlM c.followFrom (Array.replicate c.hints.size .new) with
  | .ok _ => .ok ()
  | .error h => .error (.hintCycle h)

end Circuit

end WireSolve
