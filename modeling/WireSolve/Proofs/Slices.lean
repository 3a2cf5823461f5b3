/-
WireSolve/Proofs/Slices.lean

Cutting a list up, and putting it together again.

A list is cut at places that are in order.  The slices from cut to cut, put together,
are the list up to the last cut (`flatten_slices`).  The other way round, a list that is
put together from parts is cut into them at the lengths of what comes before
(`take_drop_flatten`).  And where an element stands that is not before it, it marks its
place (`append_cons_inj`), so parts are told apart by a separator that starts with it
(`intercalate_cons_inj`).

Where the parts are numbers, what is not a digit can separate them (`not_mem_toDigits`), and
the digits say which number it is (`toDigits_injective`).
-/
namespace WireSolve

variable {α : Type} {rows : List (List α)} {i : Nat}

/-- Slices from cut to cut, put together, reach up to the last cut. -/
theorem flatten_slices {cut : Nat → Nat} {l : List α} {k : Nat} (hzero : cut 0 = 0)
    (hcut : ∀ i < k, cut i ≤ cut (i + 1)) :
    ((List.range k).map fun i => (l.drop (cut i)).take (cut (i + 1) - cut i)).flatten
      = l.take (cut k) := by
  induction k with
  | zero => rw [hzero, List.take_zero, List.range_zero, List.map_nil, List.flatten_nil]
  | succ k ih =>
    rw [List.range_succ, List.map_append, List.flatten_append,
      ih fun i hi => hcut i (Nat.lt_succ_of_lt hi), List.map_singleton, List.flatten_singleton,
      ← List.take_add, Nat.add_sub_cancel' (hcut k (Nat.lt_succ_self k))]

/-- One part further, the length of that part comes on top. -/
theorem length_flatten_take_succ (hi : i < rows.length) :
    (rows.take (i + 1)).flatten.length = (rows.take i).flatten.length + rows[i].length := by
  rw [List.take_succ_eq_append_getElem hi, List.flatten_append, List.length_append,
    List.flatten_singleton]

/-- From where a part starts, as much as the part has is the part. -/
theorem take_drop_flatten (hi : i < rows.length) :
    (rows.flatten.drop (rows.take i).flatten.length).take rows[i].length = rows[i] := by
  have hsplit : rows.flatten
      = (rows.take i).flatten ++ (rows[i] ++ (rows.drop (i + 1)).flatten) := by
    have hrows := congrArg List.flatten (List.take_append_drop i rows)
    rw [List.flatten_append, List.drop_eq_getElem_cons hi, List.flatten_cons] at hrows
    exact hrows.symm
  rw [hsplit, List.drop_left, List.take_left]

/-- A list is cut in one way at the first place of an element. -/
theorem append_cons_inj {a b x y : List α} {c : α} (ha : c ∉ a) (hb : c ∉ b)
    (h : a ++ c :: x = b ++ c :: y) : a = b ∧ x = y := by
  induction a generalizing b with
  | nil =>
    cases b with
    | nil => exact ⟨rfl, (List.cons.inj h).2⟩
    | cons d b => exact absurd (List.mem_cons.2 (Or.inl (List.cons.inj h).1)) hb
  | cons d a ih =>
    cases b with
    | nil => exact absurd (List.mem_cons.2 (Or.inl (List.cons.inj h).1.symm)) ha
    | cons d' b =>
      obtain ⟨rfl, hrest⟩ := List.cons.inj h
      obtain ⟨rfl, rfl⟩ := ih (fun hc => ha (List.mem_cons_of_mem d hc))
        (fun hc => hb (List.mem_cons_of_mem d hc)) hrest
      exact ⟨rfl, rfl⟩

/-- What is neither in a part nor in the separator is not in what the parts are joined to. -/
theorem not_mem_intercalate {c : α} {sep : List α} {xs : List (List α)} (hsep : c ∉ sep)
    (hxs : ∀ x ∈ xs, c ∉ x) : c ∉ sep.intercalate xs := by
  induction xs with
  | nil => exact List.not_mem_nil
  | cons x rest ih =>
    obtain ⟨hx, hrest⟩ := List.forall_mem_cons.1 hxs
    cases rest with
    | nil => rwa [List.intercalate_singleton]
    | cons y rest =>
      rw [List.intercalate_cons_cons, List.mem_append, List.mem_append, not_or, not_or]
      exact ⟨⟨hx, hsep⟩, ih hrest⟩

/-- Parts are read off what they are joined to, if no part has the first element of the
separator. -/
theorem intercalate_cons_inj {c : α} {sep : List α} {xs ys : List (List α)}
    (hx : ∀ x ∈ xs, c ∉ x) (hy : ∀ y ∈ ys, c ∉ y) (hxs : xs ≠ []) (hys : ys ≠ [])
    (h : (c :: sep).intercalate xs = (c :: sep).intercalate ys) : xs = ys := by
  induction xs generalizing ys with
  | nil => exact absurd rfl hxs
  | cons x xs ih =>
    obtain ⟨hxc, hxrest⟩ := List.forall_mem_cons.1 hx
    rcases ys with - | ⟨y, ys⟩
    · exact absurd rfl hys
    · obtain ⟨hyc, hyrest⟩ := List.forall_mem_cons.1 hy
      -- a part that others follow ends where the separator starts, the last part has no such end
      rcases xs with - | ⟨x', xs⟩ <;> rcases ys with - | ⟨y', ys⟩ <;>
        simp only [List.intercalate_cons_cons, List.intercalate_singleton, List.append_assoc,
          List.cons_append] at h
      · rw [h]
      · exact absurd (h ▸ List.mem_append_right y List.mem_cons_self) hxc
      · exact absurd (h ▸ List.mem_append_right x List.mem_cons_self) hyc
      · obtain ⟨rfl, hrest⟩ := append_cons_inj hxc hyc h
        rw [ih hxrest hyrest (List.cons_ne_nil _ _) (List.cons_ne_nil _ _)
          (List.append_cancel_left hrest)]

/-! ### Digits -/

/-- What is not a digit is not in a number. -/
theorem not_mem_toDigits {c : Char} (hc : c.isDigit = false) (n : Nat) :
    c ∉ Nat.toDigits 10 n := by
  intro hmem
  rw [Nat.isDigit_of_mem_toDigits (by decide) (by decide) hmem] at hc
  cases hc

/-- A number is read off its digits. -/
theorem toDigits_injective : Function.Injective (Nat.toDigits 10) := by
  intro m n h
  calc
    m = Nat.ofDigitChars 10 (Nat.toDigits 10 m) 0 := Nat.ofDigitChars_ten_toDigits.symm
    _ = Nat.ofDigitChars 10 (Nat.toDigits 10 n) 0 := by rw [h]
    _ = n := Nat.ofDigitChars_ten_toDigits

end WireSolve
