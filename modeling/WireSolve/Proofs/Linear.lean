/-
WireSolve/Proofs/Linear.lean

The text of a constraint identifies it.

The dot of a term is not in its numbers, so a term comes apart at the dot, if it has one
(`Term.text_injective`).  There is no space in a term, so a sum comes apart at its plus signs
(`LinComb.text_injective`); the empty sum has a text of its own, since every other one starts
with a letter.  And there is no closing bracket in a sum, so the factors of a constraint end
where their brackets close.

Main result: `Rank1.text_inj`.
-/
import Mathlib.Data.List.Basic
import WireSolve.Linear
import WireSolve.Proofs.Slices

namespace WireSolve

variable {c : Char}

/-! ### Terms -/

namespace Term

variable {t : Term}

/-- A letter and the digits of a number. -/
def label (letter : Char) (n : Nat) : List Char := letter :: '_' :: Nat.toDigits 10 n

theorem label_inj {letter : Char} {m n : Nat} (h : label letter m = label letter n) : m = n :=
  toDigits_injective (List.cons.inj (List.cons.inj h).2).2

/-- A character of a label is its letter, the line below or a digit. -/
theorem not_mem_label {letter : Char} (n : Nat) (hletter : c ≠ letter) (hline : c ≠ '_')
    (hdigit : c.isDigit = false) : c ∉ label letter n :=
  List.not_mem_cons_of_ne_of_not_mem hletter
    (List.not_mem_cons_of_ne_of_not_mem hline (not_mem_toDigits hdigit n))

/-- The labels of a term: that of its coefficient, and that of its wire unless it is constant. -/
def labels (t : Term) : List (List Char) :=
  label 'c' t.coeff :: if t.isConstant then [] else [label 'v' t.wire.toNat]

theorem toList_text (t : Term) : t.text.toList = ['·'].intercalate t.labels := by
  have hdigits (n : Nat) : (toString n).toList = Nat.toDigits 10 n := Nat.toList_repr
  unfold text labels
  split
  · rw [List.intercalate_singleton, String.toList_append, hdigits]
    rfl
  · simp only [List.intercalate_cons_cons, List.intercalate_singleton, String.toList_append,
      hdigits, List.append_assoc]
    rfl

/-- What is neither a letter of a label nor a digit is in no label. -/
theorem not_mem_labels (hc : c ∉ ['c', 'v', '_']) (hdigit : c.isDigit = false) :
    ∀ l ∈ t.labels, c ∉ l := by
  simp only [List.mem_cons, List.not_mem_nil, or_false, not_or] at hc
  obtain ⟨hcoeff, hwire, hline⟩ := hc
  intro l hl
  rcases List.mem_cons.1 hl with rfl | hl
  · exact not_mem_label _ hcoeff hline hdigit
  · split at hl
    · cases hl
    · obtain rfl := List.mem_singleton.1 hl
      exact not_mem_label _ hwire hline hdigit

/-- Terms that are not constant have a label more. -/
theorem labels_injective : Function.Injective labels := by
  rintro ⟨i, w⟩ ⟨j, v⟩ h
  obtain ⟨hcoeff, hwire⟩ := List.cons.inj h
  obtain rfl : i = j := label_inj hcoeff
  by_cases hw : isConstant ⟨i, w⟩ <;> by_cases hv : isConstant ⟨i, v⟩ <;>
    simp only [hw, hv, if_true] at hwire
  · -- both carry the tag
    rw [show w = v from (eq_of_beq hw).trans (eq_of_beq hv).symm]
  · cases hwire
  · cases hwire
  · rw [UInt32.toNat_inj.1 (label_inj (List.cons.inj hwire).1)]

theorem text_injective : Function.Injective text := by
  intro t u h
  have hchars := congrArg String.toList h
  rw [toList_text, toList_text] at hchars
  have hdot (t : Term) : ∀ l ∈ t.labels, '·' ∉ l := not_mem_labels (by decide) (by decide)
  exact labels_injective (intercalate_cons_inj (hdot t) (hdot u) (List.cons_ne_nil _ _)
    (List.cons_ne_nil _ _) hchars)

/-- What is neither in a label nor the dot is not in the text. -/
theorem not_mem_text (hc : c ∉ ['c', 'v', '_', '·']) (hdigit : c.isDigit = false) :
    c ∉ t.text.toList := by
  have hlabels : ∀ l ∈ t.labels, c ∉ l :=
    not_mem_labels (fun hmem => hc (List.mem_append_left ['·'] hmem)) hdigit
  have hdot : c ∉ ['·'] := fun hmem => hc (List.mem_append_right ['c', 'v', '_'] hmem)
  rw [toList_text]
  exact not_mem_intercalate hdot hlabels

/-- A term starts with a letter. -/
theorem toList_text_ne_zero (t : Term) : t.text.toList ≠ ['0'] := by
  rw [toList_text, labels]
  split
  · rw [List.intercalate_singleton]
    exact fun h => absurd (List.cons.inj h).1 (by decide)
  · rw [List.intercalate_cons_cons]
    exact fun h => absurd (List.cons.inj h).1 (by decide)

end Term

/-! ### Sums -/

namespace LinComb

variable {e : LinComb}

/-- The texts of the terms, or the text of the empty sum. -/
def parts (e : LinComb) : List (List Char) :=
  if e.isEmpty then [['0']] else e.map fun t => t.text.toList

theorem toList_text (e : LinComb) : (text e).toList = [' ', '+', ' '].intercalate (parts e) := by
  unfold text parts
  split
  · rfl
  · rw [String.toList_intercalate, List.map_map]
    rfl

theorem not_mem_parts (hc : c ∉ ['c', 'v', '_', '·']) (hdigit : c.isDigit = false) :
    ∀ l ∈ parts e, c ∉ l := by
  intro l hl
  unfold parts at hl
  split at hl
  · obtain rfl := List.mem_singleton.1 hl
    intro hmem
    rw [List.mem_singleton.1 hmem] at hdigit
    cases hdigit
  · obtain ⟨t, -, rfl⟩ := List.mem_map.1 hl
    exact Term.not_mem_text hc hdigit

theorem parts_ne_nil (e : LinComb) : parts e ≠ [] := by
  rcases e with - | ⟨t, e⟩ <;> exact List.cons_ne_nil _ _

theorem parts_injective : Function.Injective parts := by
  intro e f h
  have hterms : Function.Injective fun t : Term => t.text.toList := fun t u htext =>
    Term.text_injective (String.toList_inj.1 htext)
  rcases e with - | ⟨t, e⟩ <;> rcases f with - | ⟨u, f⟩
  · rfl
  · exact absurd (List.cons.inj h).1.symm u.toList_text_ne_zero
  · exact absurd (List.cons.inj h).1 t.toList_text_ne_zero
  · exact List.map_injective_iff.2 hterms h

theorem text_injective : Function.Injective text := by
  intro e f h
  have hchars := congrArg String.toList h
  rw [toList_text, toList_text] at hchars
  have hspace (e : LinComb) : ∀ l ∈ parts e, ' ' ∉ l := not_mem_parts (by decide) (by decide)
  exact parts_injective
    (intercalate_cons_inj (hspace e) (hspace f) (parts_ne_nil e) (parts_ne_nil f) hchars)

/-- A bracket that closes around a sum is the first one. -/
theorem bracket_not_mem_text (e : LinComb) : ')' ∉ (text e).toList := by
  rw [toList_text]
  exact not_mem_intercalate (by decide) (not_mem_parts (by decide) (by decide))

end LinComb

/-! ### Constraints -/

namespace Rank1

variable {r s : Rank1}

theorem toList_text (r : Rank1) :
    r.text.toList = '(' :: ((LinComb.text r.left).toList ++ ')' ::
      ([' ', '⋅', ' ', '('] ++ ((LinComb.text r.right).toList ++ ')' ::
        ([' ', '=', '=', ' '] ++ (LinComb.text r.out).toList)))) := by
  simp only [text, String.toList_append, List.append_assoc]
  rfl

/-- Two constraints have the same text exactly if they have the same terms, in the same order and
on the same side. -/
theorem text_inj : r.text = s.text ↔ r = s := by
  refine ⟨fun h => ?_, congrArg text⟩
  have hchars := congrArg String.toList h
  rw [toList_text, toList_text] at hchars
  obtain ⟨hleft, hrest⟩ := append_cons_inj (LinComb.bracket_not_mem_text _)
    (LinComb.bracket_not_mem_text _) (List.cons.inj hchars).2
  obtain ⟨hright, hout⟩ := append_cons_inj (LinComb.bracket_not_mem_text _)
    (LinComb.bracket_not_mem_text _) (List.append_cancel_left hrest)
  have hsum {e f : LinComb} (hsame : (LinComb.text e).toList = (LinComb.text f).toList) : e = f :=
    LinComb.text_injective (String.toList_inj.1 hsame)
  obtain ⟨left, right, out⟩ := r
  obtain ⟨left', right', out'⟩ := s
  rw [show left = left' from hsum hleft, show right = right' from hsum hright,
    show out = out' from hsum (List.append_cancel_left hout)]

example : text ⟨[⟨1, 3⟩, .constant 2], [], [⟨4, 0⟩]⟩ = "(c_1·v_3 + c_2) ⋅ (0) == c_4·v_0" := by
  decide +kernel

end Rank1

end WireSolve
