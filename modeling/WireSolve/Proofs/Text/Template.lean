/-
WireSolve/Proofs/Text/Template.lean

Filling a template puts the values between the pieces of its format, and does nothing else.

A piece is plain: no placeholder occurs in it.  It may end with the first character of one or
start with the second, and still the placeholder behind it is the first in the text
(`cut?_append`), because a placeholder does not overlap with itself.  So a format is cut into
pieces in one way (`exists_splits`, `Splits.unique`), and it is filled piece by piece
(`fill_append`).

Main result: `fill_exact`.
-/
import Mathlib.Data.List.GetD
import Mathlib.Data.List.Infix
import WireSolve.Text.Template

namespace WireSolve

namespace Template

variable {cs before after : List Char} {c : Char} {q s t format : String}
  {values pieces pieces' : List String}

/-! ### The first placeholder -/

/-- No placeholder occurs in a text. -/
def Plain (cs : List Char) : Prop := ¬ placeholder.toList <:+: cs

instance : DecidablePred Plain := fun cs =>
  inferInstanceAs (Decidable (¬ placeholder.toList <:+: cs))

theorem isPrefix_cons_iff :
    placeholder.toList <+: c :: cs ↔ c = '\x7b' ∧ ∃ rest, cs = '\x7d' :: rest := by
  rw [show placeholder.toList = ['\x7b', '\x7d'] from rfl, List.cons_prefix_cons, eq_comm,
    List.prefix_iff_exists_eq_append]
  rfl

theorem plain_cons_iff :
    Plain (c :: cs) ↔ ¬ placeholder.toList <+: c :: cs ∧ Plain cs := by
  unfold Plain
  rw [List.infix_cons_iff, not_or]

/-- Where none starts, a character is before the first one. -/
theorem cut?_cons (h : ¬ placeholder.toList <+: c :: cs) :
    cut? (c :: cs) = (cut? cs).map fun (before, after) => (c :: before, after) := by
  rw [cut?]
  intro rest hc hcs
  exact h (isPrefix_cons_iff.2 ⟨hc, rest, hcs⟩)

theorem fillChars_cons (h : ¬ placeholder.toList <+: c :: cs) (values : List String) :
    fillChars (c :: cs) values = c :: fillChars cs values := by
  rw [fillChars]
  · intro rest _ hc hcs
    exact h (isPrefix_cons_iff.2 ⟨hc, rest, hcs⟩)
  · intro rest v vs _ hc hcs
    exact h (isPrefix_cons_iff.2 ⟨hc, rest, hcs⟩)

/-- Reading from left to right, either a placeholder starts or none does. -/
theorem readRec {motive : List Char → Prop} (nil : motive [])
    (skip : ∀ rest, motive (placeholder.toList ++ rest))
    (cons : ∀ c cs, ¬ placeholder.toList <+: c :: cs → motive cs → motive (c :: cs)) (cs) :
    motive cs := by
  induction cs with
  | nil => exact nil
  | cons c cs ih =>
    by_cases h : placeholder.toList <+: c :: cs
    · obtain ⟨rest, hrest⟩ := h
      rw [← hrest]
      exact skip rest
    · exact cons c cs h ih

/-- None starts in a plain text and ends in the one behind it. -/
theorem not_isPrefix_append (h : Plain (c :: before)) (after : List Char) :
    ¬ placeholder.toList <+: c :: (before ++ placeholder.toList ++ after) := by
  intro hstart
  obtain ⟨rfl, rest, heq⟩ := isPrefix_cons_iff.1 hstart
  rcases before with _ | ⟨d, before⟩
  · cases heq
  · obtain ⟨rfl, -⟩ := List.cons_eq_cons.1 heq
    exact (plain_cons_iff.1 h).1 (isPrefix_cons_iff.2 ⟨rfl, before, rfl⟩)

/-- The placeholder behind a plain text is the first. -/
theorem cut?_append (h : Plain before) (after : List Char) :
    cut? (before ++ placeholder.toList ++ after) = some (before, after) := by
  induction before with
  | nil => rfl
  | cons c before ih =>
    show cut? (c :: (before ++ placeholder.toList ++ after)) = _
    rw [cut?_cons (not_isPrefix_append h after), ih (plain_cons_iff.1 h).2]
    rfl

/-- What is cut at is a placeholder, and none is before it. -/
theorem append_of_cut? (h : cut? cs = some (before, after)) :
    cs = before ++ placeholder.toList ++ after ∧ Plain before := by
  induction cs using readRec generalizing before with
  | nil => cases h
  | skip rest =>
    cases h
    exact ⟨rfl, by decide⟩
  | cons c cs hc ih =>
    rw [cut?_cons hc, Option.map_eq_some_iff] at h
    obtain ⟨⟨before, _⟩, hcs, heq⟩ := h
    cases heq
    obtain ⟨rfl, hbefore⟩ := ih hcs
    refine ⟨rfl, plain_cons_iff.2 ⟨fun hstart => hc (hstart.trans ?_), hbefore⟩⟩
    rw [List.append_assoc]
    exact List.prefix_append (c :: before) _

/-- A text is not cut exactly if it is plain. -/
theorem cut?_eq_none_iff : cut? cs = none ↔ Plain cs := by
  induction cs using readRec with
  | nil => exact iff_of_true rfl (by decide)
  | skip rest => exact iff_of_false nofun (not_not_intro (List.prefix_append _ rest).isInfix)
  | cons c cs hc ih =>
    rw [cut?_cons hc, Option.map_eq_none_iff, ih, plain_cons_iff, and_iff_right hc]

/-! ### Filling up to it -/

/-- A plain text stays as it is.  Otherwise the first placeholder is replaced, and the text after
it is filled with the other values. -/
theorem fillChars_eq (cs : List Char) (values : List String) :
    fillChars cs values = match cut? cs with
      | none => cs
      | some (before, after) =>
        before ++ (values.headD placeholder).toList ++ fillChars after values.tail := by
  induction cs using readRec with
  | nil => rfl
  | skip rest => cases values <;> rfl
  | cons c cs hc ih =>
    rw [fillChars_cons hc, cut?_cons hc, ih]
    rcases cut? cs with _ | ⟨before, after⟩
    · rfl
    · rfl

/-- Placeholder by placeholder, a text is filled in the same way. -/
theorem fillLoop_eq (rendered : String) (rest : List Char) (values : List String) :
    fillLoop rendered rest values = rendered ++ String.ofList (fillChars rest values) := by
  rw [fillLoop, fillChars_eq]
  split
  next hcut => rw [hcut]
  next before after hcut =>
    have := length_lt_of_cut? hcut
    rw [fillLoop_eq, hcut]
    simp only [String.ofList_append, String.ofList_toList, String.append_assoc]
termination_by rest.length

theorem fill_of_plain (h : Plain q.toList) (values : List String) : fill q values = q := by
  rw [fill, fillChars_eq, cut?_eq_none_iff.2 h, String.ofList_toList]

theorem fill_append (h : Plain q.toList) (s : String) (values : List String) :
    fill (q ++ placeholder ++ s) values
      = q ++ values.headD placeholder ++ fill s values.tail := by
  rw [fill, fillChars_eq, String.toList_append, String.toList_append, cut?_append h]
  simp only [String.ofList_append, String.ofList_toList]
  rfl

/-! ### Pieces -/

/-- The plain pieces of a format, with a placeholder in each gap between two of them. -/
structure Splits (format : String) (pieces : List String) : Prop where
  /-- There is one piece at least. -/
  ne_nil : pieces ≠ []
  /-- No placeholder occurs in a piece. -/
  plain : ∀ q ∈ pieces, Plain q.toList
  /-- The pieces and the placeholders are the format. -/
  joined : placeholder.intercalate pieces = format

theorem splits_singleton_iff : Splits format [q] ↔ Plain q.toList ∧ q = format := by
  constructor
  · intro h
    exact ⟨h.plain q List.mem_cons_self, String.intercalate_singleton.symm.trans h.joined⟩
  · rintro ⟨hq, rfl⟩
    exact ⟨List.cons_ne_nil q [], List.forall_mem_singleton.2 hq, String.intercalate_singleton⟩

theorem splits_cons_iff (h : pieces ≠ []) :
    Splits format (q :: pieces) ↔
      Plain q.toList ∧ ∃ s, Splits s pieces ∧ format = q ++ placeholder ++ s := by
  constructor
  · intro hsplits
    obtain ⟨hq, hplain⟩ := List.forall_mem_cons.1 hsplits.plain
    refine ⟨hq, _, ⟨h, hplain, rfl⟩, ?_⟩
    rw [← hsplits.joined, String.intercalate_cons_of_ne_nil h]
  · rintro ⟨hq, s, hs, rfl⟩
    refine ⟨List.cons_ne_nil q pieces, List.forall_mem_cons.2 ⟨hq, hs.plain⟩, ?_⟩
    rw [String.intercalate_cons_of_ne_nil h, hs.joined]

/-- Pieces are one piece alone, or one in front of those of the text after the first placeholder. -/
theorem Splits.induct {motive : ∀ format pieces, Splits format pieces → Prop}
    (last : ∀ q (hq : Plain q.toList), motive q [q] (splits_singleton_iff.2 ⟨hq, rfl⟩))
    (cons : ∀ q s pieces (hq : Plain q.toList) (hs : Splits s pieces), motive s pieces hs →
      motive (q ++ placeholder ++ s) (q :: pieces)
        ((splits_cons_iff hs.ne_nil).2 ⟨hq, s, hs, rfl⟩))
    (h : Splits format pieces) : motive format pieces h := by
  induction pieces generalizing format with
  | nil => exact absurd rfl h.ne_nil
  | cons q pieces ih =>
    rcases eq_or_ne pieces [] with rfl | hne
    · obtain ⟨hq, rfl⟩ := splits_singleton_iff.1 h
      exact last q hq
    · obtain ⟨hq, s, hs, rfl⟩ := (splits_cons_iff hne).1 h
      exact cons q s pieces hq hs (ih hs)

/-- Every format has pieces. -/
theorem exists_splits (format : String) : ∃ pieces, Splits format pieces := by
  rcases hcut : cut? format.toList with _ | ⟨before, after⟩
  · exact ⟨[format], splits_singleton_iff.2 ⟨cut?_eq_none_iff.1 hcut, rfl⟩⟩
  · have hlen := length_lt_of_cut? hcut
    obtain ⟨hformat, hbefore⟩ := append_of_cut? hcut
    obtain ⟨pieces, hafter⟩ := exists_splits (String.ofList after)
    refine ⟨String.ofList before :: pieces, (splits_cons_iff hafter.ne_nil).2 ⟨?_, _, hafter, ?_⟩⟩
    · rwa [String.toList_ofList]
    · rw [← String.ofList_toList (s := format), hformat]
      simp only [String.ofList_append, String.ofList_toList]
termination_by format.toList.length

theorem not_plain_append (q s : String) : ¬ Plain (q ++ placeholder ++ s).toList := by
  rw [String.toList_append, String.toList_append]
  exact not_not_intro (List.infix_append q.toList _ s.toList)

/-- The first piece is the text before the first placeholder. -/
theorem append_placeholder_inj {r : String} (hq : Plain q.toList) (hr : Plain r.toList)
    (h : q ++ placeholder ++ s = r ++ placeholder ++ t) : q = r ∧ s = t := by
  have hcut := congrArg (fun format => cut? format.toList) h
  simp only [String.toList_append, cut?_append hq, cut?_append hr] at hcut
  rw [Option.some.injEq, Prod.mk.injEq, String.toList_inj, String.toList_inj] at hcut
  exact hcut

/-- A format without placeholders is one piece. -/
theorem Splits.eq_singleton (h : Splits format pieces) (hplain : Plain format.toList) :
    pieces = [format] := by
  induction h using Splits.induct with
  | last q hq => rfl
  | cons q s pieces hq hs ih => exact absurd hplain (not_plain_append q s)

/-- A format with one starts with the text before it, and has the pieces of the text after it. -/
theorem Splits.exists_eq_cons (h : Splits format pieces) (hq : Plain q.toList)
    (hformat : format = q ++ placeholder ++ s) : ∃ rest, Splits s rest ∧ pieces = q :: rest := by
  induction h using Splits.induct with
  | last r hr => exact absurd (hformat ▸ hr) (not_plain_append q s)
  | cons r t pieces hr ht ih =>
    obtain ⟨rfl, rfl⟩ := append_placeholder_inj hr hq hformat
    exact ⟨pieces, ht, rfl⟩

/-- So it has no other pieces. -/
theorem Splits.unique (h : Splits format pieces) (h' : Splits format pieces') :
    pieces = pieces' := by
  induction h using Splits.induct generalizing pieces' with
  | last q hq => exact (h'.eq_singleton hq).symm
  | cons q s pieces hq hs ih =>
    obtain ⟨rest, hrest, rfl⟩ := h'.exists_eq_cons hq rfl
    rw [ih hrest]

/-! ### Piece by piece -/

/-- Pieces with a text in each gap between two of them. -/
def expand (slot : Nat → String) : (pieces : List String) → String
  | [] => ""
  | [q] => q
  | q :: r :: pieces => q ++ slot 0 ++ expand (fun i => slot (i + 1)) (r :: pieces)

theorem expand_cons (slot : Nat → String) (q : String) (h : pieces ≠ []) :
    expand slot (q :: pieces) = q ++ slot 0 ++ expand (fun i => slot (i + 1)) pieces := by
  obtain ⟨r, pieces, rfl⟩ := List.exists_cons_of_ne_nil h
  rfl

/-- Only the texts of the gaps matter. -/
theorem expand_congr {f g : Nat → String} (h : ∀ i, i + 1 < pieces.length → f i = g i) :
    expand f pieces = expand g pieces := by
  induction pieces generalizing f g with
  | nil => rfl
  | cons q pieces ih =>
    rcases eq_or_ne pieces [] with rfl | hne
    · rfl
    · rw [expand_cons f q hne, expand_cons g q hne,
        h 0 (Nat.succ_lt_succ (List.length_pos_iff.2 hne)),
        ih fun i hi => h (i + 1) (Nat.succ_lt_succ hi)]

/-- With a placeholder in each gap, the pieces are the format. -/
theorem Splits.expand_placeholder (h : Splits format pieces) :
    expand (fun _ => placeholder) pieces = format := by
  induction h using Splits.induct with
  | last q hq => rfl
  | cons q s pieces hq hs ih => rw [expand_cons _ q hs.ne_nil, ih]

/-- What stands in the gaps is the values, in their order, and then the placeholders. -/
theorem Splits.fill_eq (h : Splits format pieces) (values : List String) :
    fill format values = expand (fun i => values.getD i placeholder) pieces := by
  induction h using Splits.induct generalizing values with
  | last q hq => exact fill_of_plain hq values
  | cons q s pieces hq hs ih =>
    rw [fill_append hq, ih, expand_cons _ q hs.ne_nil]
    rcases values with _ | ⟨v, values⟩
    · rfl
    · rfl

/-- What filling does to a format. -/
structure FillsExactly (format : String) (values : List String) : Prop where
  /-- The format is plain pieces with placeholders between them, in one way. -/
  split : ∃! pieces, Splits format pieces
  /-- In gap `i` between the pieces stands value `i`, or a placeholder if there are not so many. -/
  filled : ∀ pieces, Splits format pieces →
    fill format values = expand (fun i => values.getD i placeholder) pieces
  /-- Values that there is no gap for are dropped. -/
  dropped : ∀ pieces extra, Splits format pieces → pieces.length ≤ values.length + 1 →
    fill format (values ++ extra) = fill format values
  /-- Without values the format stays as it is. -/
  unfilled : fill format [] = format
  /-- Placeholder by placeholder it is the same. -/
  looped : fillLoop "" format.toList values = fill format values

theorem fill_exact (format : String) (values : List String) : FillsExactly format values where
  split := by
    obtain ⟨pieces, h⟩ := exists_splits format
    exact ⟨pieces, h, fun _ h' => h'.unique h⟩
  filled pieces h := h.fill_eq values
  dropped pieces extra h hlen := by
    rw [h.fill_eq, h.fill_eq]
    apply expand_congr
    intro i hi
    rw [List.getD_append]
    exact Nat.lt_of_add_lt_add_right (Nat.lt_of_lt_of_le hi hlen)
  unfilled := by
    obtain ⟨pieces, h⟩ := exists_splits format
    rw [h.fill_eq]
    exact h.expand_placeholder
  looped := by
    rw [fillLoop_eq, String.empty_append]
    rfl

/-- Braces next to placeholders are text, and so are placeholders in a value. -/
theorem braces_filled :
    Splits "\x7b\x7b\x7d\x7d \x7b\x7b\x7dé" ["\x7b", "\x7d \x7b", "é"] ∧
      fill "\x7b\x7b\x7d\x7d \x7b\x7b\x7dé" ["\x7b\x7d\x7b\x7d"]
        = "\x7b\x7b\x7d\x7b\x7d\x7d \x7b\x7b\x7dé" := by
  have hsplits : Splits "\x7b\x7b\x7d\x7d \x7b\x7b\x7dé" ["\x7b", "\x7d \x7b", "é"] :=
    ⟨List.cons_ne_nil _ _, by decide, by decide⟩
  exact ⟨hsplits, (fill_exact _ _).filled _ hsplits⟩

end Template

end WireSolve
