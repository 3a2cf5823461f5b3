/-
WireSolve/Proofs/CoeffPool.lean

Positions of coefficients, and what becomes of them.

What a coefficient is found at is its first position
(`CoeffPool.find?_eq_some_iff`).  An insertion leaves every position as it is and
finds the coefficient afterwards, so what is found is the same for ever
(`CoeffPool.find?_insertAll_of_some`).  Of all positions only the reserved one holds
zero, unless two is zero (`CoeffPool.denote_ne_zero`).  The number that an insertion
gives is the position as long as it fits into a word, and the number of an earlier
position otherwise (`CoeffPool.get?_insert_self_iff`).

A pool with an index does the same.  Its index has the first position of every entry
as a word, and nothing else (`IndexedPool.Indexed`), whatever is appended: coefficients
that are not there, and reserved ones that are there already.  So its ids stand for
its coefficients, except for those that are appended when all words are taken.  That
does happen in a field that is large enough (`IndexedPool.counting_wraps`).

Main result: `IndexedPool.insertAll_interns`.
-/
import Mathlib.NumberTheory.LucasPrimality
import Mathlib.Tactic.NormNum.Prime
import WireSolve.IndexedPool
import WireSolve.Proofs.Evaluation

namespace WireSolve

variable {p : Nat} [Modulus p]

namespace CoeffPool

variable {c : CoeffPool p} {i j : Nat} {x y : Fp p}

/-! ### Where a coefficient is -/

/-- What is found is the first position. -/
theorem find?_eq_some_iff :
    c.find? x = some i ↔ c.get? i = some x ∧ ∀ j < i, c.get? j ≠ some x := by
  rw [find?, Array.findIdx?_eq_some_iff_getElem]
  constructor
  · rintro ⟨hi, hx, hbefore⟩
    refine ⟨?_, fun j hj hget => hbefore j hj ?_⟩
    · rw [get?, Array.getElem?_eq_getElem hi, beq_iff_eq.1 hx]
    · obtain ⟨_, hx⟩ := Array.getElem?_eq_some_iff.1 hget
      exact beq_iff_eq.2 hx
  · rintro ⟨hget, hbefore⟩
    obtain ⟨hi, hx⟩ := Array.getElem?_eq_some_iff.1 hget
    refine ⟨hi, beq_iff_eq.2 hx, fun j hj hfound => hbefore j hj ?_⟩
    rw [get?, Array.getElem?_eq_getElem (Nat.lt_trans hj hi), beq_iff_eq.1 hfound]

/-- What is not found is not there. -/
theorem find?_eq_none_iff : c.find? x = none ↔ x ∉ c.entries := by
  rw [find?, Array.findIdx?_eq_none_iff]
  constructor
  · intro h hx
    exact beq_eq_false_iff_ne.1 (h x hx) rfl
  · intro h y hy
    exact beq_eq_false_iff_ne.2 fun heq => h (heq ▸ hy)

/-- Past the reserved positions, a coefficient has one position. -/
theorem eq_of_get? (hi : 4 ≤ i) (hx : c.get? i = some x) (hj : c.get? j = some x) : j = i := by
  obtain ⟨hilt, hix⟩ := Array.getElem?_eq_some_iff.1 hx
  obtain ⟨hjlt, hjx⟩ := Array.getElem?_eq_some_iff.1 hj
  rcases Nat.lt_trichotomy j i with hlt | heq | hgt
  · exact absurd (hjx.trans hix.symm) (c.fresh j i hlt hilt hi)
  · exact heq
  · exact absurd (hix.trans hjx.symm) (c.fresh i j hgt hjlt (Nat.le_trans hi (Nat.le_of_lt hgt)))

theorem find?_lt_size (h : c.find? x = some i) : i < c.size :=
  (Array.getElem?_eq_some_iff.1 (find?_eq_some_iff.1 h).1).1

/-! ### Numbers of positions -/

/-- Positions that wrap around have the numbers of earlier ones. -/
theorem number_le (i : Nat) : number i ≤ i := by
  rw [number, UInt32.toNat_ofNat']
  exact Nat.mod_le _ _

theorem number_lt (i : Nat) : number i < UInt32.size :=
  UInt32.toNat_lt_size _

theorem number_eq_self (h : i < UInt32.size) : number i = i :=
  UInt32.toNat_ofNat_of_lt' h

/-! ### Insertion -/

theorem insert_of_find?_eq_some (h : c.find? x = some i) : c.insert x = (c, number i) := by
  unfold insert
  split
  · next j hj => rw [Option.some.inj (hj.symm.trans h)]
  · next hnone =>
    rw [hnone] at h
    cases h

theorem insert_of_find?_eq_none (h : c.find? x = none) :
    (c.insert x).1.entries = c.entries.push x ∧ (c.insert x).2 = number c.size := by
  unfold insert
  split
  · next i hi =>
    rw [hi] at h
    cases h
  · exact ⟨rfl, rfl⟩

/-- A coefficient is appended exactly if it is not there. -/
theorem entries_insert (c : CoeffPool p) (x : Fp p) :
    (c.insert x).1.entries = if x ∈ c.entries then c.entries else c.entries.push x := by
  rcases hfind : c.find? x with - | i
  · rw [(insert_of_find?_eq_none hfind).1, if_neg (find?_eq_none_iff.1 hfind)]
  · have hx : x ∈ c.entries := Array.mem_of_getElem? (find?_eq_some_iff.1 hfind).1
    rw [insert_of_find?_eq_some hfind, if_pos hx]

/-- A pool only grows. -/
theorem size_le_insert (c : CoeffPool p) (x : Fp p) : c.size ≤ (c.insert x).1.size := by
  rw [size, size, entries_insert]
  split
  · exact Nat.le_refl _
  · rw [Array.size_push]
    exact Nat.le_succ _

theorem size_insert_le (c : CoeffPool p) (x : Fp p) : (c.insert x).1.size ≤ c.size + 1 := by
  rw [size, size, entries_insert]
  split
  · exact Nat.le_succ _
  · rw [Array.size_push]

/-- A position keeps its coefficient. -/
theorem get?_insert_of_some (h : c.get? i = some y) (x : Fp p) :
    (c.insert x).1.get? i = some y := by
  rw [get?, entries_insert]
  split
  · exact h
  · obtain ⟨hlt, hget⟩ := Array.getElem?_eq_some_iff.1 h
    rw [Array.getElem?_push_lt hlt, hget]

/-- A coefficient that is found is found there after an insertion. -/
theorem find?_insert_of_some (h : c.find? x = some i) (y : Fp p) :
    (c.insert y).1.find? x = some i := by
  rw [find?, entries_insert]
  split
  · exact h
  · rw [Array.findIdx?_push]
    show (c.find? x).or _ = some i
    rw [h, Option.some_or]

/-- What is new is found at the end. -/
theorem find?_insert_of_eq_none (h : c.find? x = none) : (c.insert x).1.find? x = some c.size := by
  rw [find?, (insert_of_find?_eq_none h).1, Array.findIdx?_push]
  show (c.find? x).or _ = some c.size
  rw [h, Option.none_or, if_pos (beq_self_eq_true x)]
  rfl

/-- What is inserted is found, and the number of its position is given. -/
theorem exists_find?_insert (c : CoeffPool p) (x : Fp p) :
    ∃ i, (c.insert x).1.find? x = some i ∧ (c.insert x).2 = number i := by
  rcases hfind : c.find? x with - | i
  · exact ⟨c.size, find?_insert_of_eq_none hfind, (insert_of_find?_eq_none hfind).2⟩
  · rw [insert_of_find?_eq_some hfind]
    exact ⟨i, hfind, rfl⟩

/-- The number that is given is that of a position of the pool. -/
theorem insert_lt_size (c : CoeffPool p) (x : Fp p) : (c.insert x).2 < (c.insert x).1.size := by
  obtain ⟨i, hfind, hi⟩ := c.exists_find?_insert x
  rw [hi]
  exact Nat.lt_of_le_of_lt (number_le i) (find?_lt_size hfind)

/-- No position before that number holds what is inserted. -/
theorem insert_le_of_get? (h : (c.insert x).1.get? i = some x) : (c.insert x).2 ≤ i := by
  obtain ⟨k, hfind, hk⟩ := c.exists_find?_insert x
  have hbefore := (find?_eq_some_iff.1 hfind).2
  rw [hk]
  exact (number_le k).trans (Nat.le_of_not_lt fun hlt => hbefore i hlt h)

/-- It is the position of what is inserted exactly if that position fits into a word. -/
theorem get?_insert_self_iff (c : CoeffPool p) (x : Fp p) :
    (c.insert x).1.get? (c.insert x).2 = some x ↔
      ∃ i < UInt32.size, (c.insert x).1.find? x = some i := by
  obtain ⟨k, hfind, hk⟩ := c.exists_find?_insert x
  constructor
  · intro h
    refine ⟨k, Nat.lt_of_le_of_lt ?_ (number_lt k), hfind⟩
    exact Nat.le_of_not_lt fun hlt => (find?_eq_some_iff.1 hfind).2 _ hlt (hk ▸ h)
  · rintro ⟨i, hi, hfind'⟩
    obtain rfl : k = i := Option.some.inj (hfind.symm.trans hfind')
    rw [hk, number_eq_self hi]
    exact (find?_eq_some_iff.1 hfind).1

/-- And so it is while there are words for all positions. -/
theorem get?_insert_self (hsize : (c.insert x).1.size ≤ UInt32.size) :
    (c.insert x).1.get? (c.insert x).2 = some x := by
  obtain ⟨i, hfind, -⟩ := c.exists_find?_insert x
  exact (c.get?_insert_self_iff x).2
    ⟨i, Nat.lt_of_lt_of_le (find?_lt_size hfind) hsize, hfind⟩

/-- Where the position of what is inserted fits into a word: it was there before at such a position,
or it is new and there is a word for one more. -/
theorem exists_find?_insert_lt_iff :
    (∃ i < UInt32.size, (c.insert x).1.find? x = some i) ↔
      (∃ i < UInt32.size, c.get? i = some x) ∨ x ∉ c.entries ∧ c.size < UInt32.size := by
  rcases hfind : c.find? x with - | k
  · have habsent := find?_eq_none_iff.1 hfind
    have hnot : ¬ ∃ i < UInt32.size, c.get? i = some x :=
      fun ⟨_, _, hget⟩ => habsent (Array.mem_of_getElem? hget)
    rw [find?_insert_of_eq_none hfind, or_iff_right hnot, and_iff_right habsent]
    simp
  · obtain ⟨hget, hbefore⟩ := find?_eq_some_iff.1 hfind
    have hpresent : ¬ (x ∉ c.entries ∧ c.size < UInt32.size) :=
      fun h => h.1 (Array.mem_of_getElem? hget)
    rw [insert_of_find?_eq_some hfind, or_iff_left hpresent]
    constructor
    · rintro ⟨i, hi, hfind'⟩
      exact ⟨i, hi, (find?_eq_some_iff.1 hfind').1⟩
    · rintro ⟨i, hi, hget'⟩
      have hle : k ≤ i := Nat.le_of_not_lt fun hlt => hbefore i hlt hget'
      exact ⟨k, Nat.lt_of_le_of_lt hle hi, hfind⟩

theorem mem_insert_iff : y ∈ (c.insert x).1.entries ↔ y ∈ c.entries ∨ y = x := by
  rw [entries_insert]
  split
  · next hx =>
    refine (or_iff_left_of_imp ?_).symm
    rintro rfl
    exact hx
  · exact Array.mem_push

/-! ### Insertions, one after the other -/

theorem get?_insertAll_of_some (h : c.get? i = some y) (xs : List (Fp p)) :
    (c.insertAll xs).get? i = some y := by
  induction xs generalizing c with
  | nil => exact h
  | cons x xs ih => exact ih (get?_insert_of_some h x)

theorem find?_insertAll_of_some (h : c.find? x = some i) (ys : List (Fp p)) :
    (c.insertAll ys).find? x = some i := by
  induction ys generalizing c with
  | nil => exact h
  | cons y ys ih => exact ih (find?_insert_of_some h y)

/-- Inserted again, whatever has been inserted since, a coefficient is given the same number, and
nothing is appended. -/
theorem insert_again (c : CoeffPool p) (x : Fp p) (ys : List (Fp p)) :
    ((c.insert x).1.insertAll ys).insert x = ((c.insert x).1.insertAll ys, (c.insert x).2) := by
  obtain ⟨i, hfind, hi⟩ := c.exists_find?_insert x
  rw [insert_of_find?_eq_some (find?_insertAll_of_some hfind ys), hi]

theorem size_le_insertAll (c : CoeffPool p) (xs : List (Fp p)) :
    c.size ≤ (c.insertAll xs).size := by
  induction xs generalizing c with
  | nil => exact Nat.le_refl _
  | cons x xs ih => exact (c.size_le_insert x).trans (ih (c.insert x).1)

theorem mem_insertAll_iff {xs : List (Fp p)} :
    y ∈ (c.insertAll xs).entries ↔ y ∈ c.entries ∨ y ∈ xs := by
  induction xs generalizing c with
  | nil => exact (or_iff_left List.not_mem_nil).symm
  | cons x xs ih =>
    rw [List.mem_cons, ← or_assoc, ← mem_insert_iff]
    exact ih

/-- Different coefficients that are not there are all appended. -/
theorem size_insertAll_of_nodup {xs : List (Fp p)} (hxs : xs.Nodup)
    (habsent : ∀ x ∈ xs, x ∉ c.entries) : (c.insertAll xs).size = c.size + xs.length := by
  induction xs generalizing c with
  | nil => rfl
  | cons x xs ih =>
    obtain ⟨hx, hxs⟩ := List.nodup_cons.1 hxs
    obtain ⟨hfirst, hrest⟩ := List.forall_mem_cons.1 habsent
    have hstep := ih (c := (c.insert x).1) hxs fun y hy hmem => by
      rcases mem_insert_iff.1 hmem with hmem | rfl
      · exact hrest y hy hmem
      · exact hx hy
    have hsize : (c.insert x).1.size = c.size + 1 := by
      rw [size, entries_insert, if_neg hfirst, Array.size_push]
      rfl
    rw [List.length_cons, Nat.add_comm xs.length, ← Nat.add_assoc, ← hsize]
    exact hstep

/-! ### Coefficients that are not zero -/

theorem denote_eq_of_get? (h : c.get? i = some x) : c.denote i = x := by
  rw [denote, h, Option.getD_some]

/-- Every coefficient differs from zero but the one at the reserved position, and two in the field
of order two. -/
theorem denote_ne_zero [Fact p.Prime] (hi : i < c.size) (hzero : i ≠ 0) (htwo : i ≠ 2 ∨ p ≠ 2) :
    c.denote i ≠ 0 := by
  by_cases hreserved : i < 4
  · obtain rfl | rfl | rfl : i = 1 ∨ i = 2 ∨ i = 3 := by omega
    · rw [denote_one]
      exact one_ne_zero
    · rw [denote_two]
      exact Fp.two_ne_zero (htwo.resolve_left fun h => h rfl)
    · rw [denote_three]
      exact neg_ne_zero.2 one_ne_zero
  · -- a later entry has one position, and zero has the first
    intro hdenote
    have hget : c.get? i = some 0 := by
      rw [← hdenote, denote, get?, Array.getElem?_eq_getElem hi, Option.getD_some]
    have hfirst : c.get? 0 = some 0 := get?_reserved (by decide)
    exact hzero (eq_of_get? (Nat.le_of_not_lt hreserved) hget hfirst).symm

/-- Zero is at the reserved position and nowhere else, in a field in which two is not zero. -/
theorem get?_eq_some_zero_iff [Fact p.Prime] (hp : p ≠ 2) : c.get? i = some 0 ↔ i = 0 := by
  constructor
  · intro h
    by_contra hzero
    have hi : i < c.size := (Array.getElem?_eq_some_iff.1 h).1
    exact denote_ne_zero hi hzero (Or.inr hp) (denote_eq_of_get? h)
  · rintro rfl
    exact get?_reserved (by decide)

end CoeffPool

/-! ### The index -/

namespace IndexedPool

variable {t : IndexedPool p} {c : CoeffPool p} {x : Fp p}

/-- The index has the first position of every coefficient that is there, and no other. -/
def Indexed (t : IndexedPool p) : Prop :=
  ∀ x, t.index[x]? = (t.entries.findIdx? (· == x)).map UInt32.ofNat

section

omit [Modulus p]

/-- One entry more is found at the end, unless it is there before. -/
theorem findIdx?_push (t : IndexedPool p) (x y : Fp p) :
    ((t.entries.push x).findIdx? (· == y)).map UInt32.ofNat
      = ((t.entries.findIdx? (· == y)).map UInt32.ofNat).or
          (if x == y then some t.next else none) := by
  rw [Array.findIdx?_push, Option.map_or]
  split <;> rfl

theorem indexed_empty : (empty : IndexedPool p).Indexed := by
  intro x
  show (∅ : Std.HashMap (Fp p) UInt32)[x]? = ((#[] : Array (Fp p)).findIdx? (· == x)).map _
  rw [Std.HashMap.getElem?_empty, Array.findIdx?_empty, Option.map_none]

/-- An entry that is appended in any case is indexed if it is not there before. -/
theorem Indexed.reserve (ht : t.Indexed) (x : Fp p) : (t.reserve x).Indexed := by
  intro y
  show (t.index.insertIfNew x t.next)[y]? = ((t.entries.push x).findIdx? (· == y)).map _
  rw [findIdx?_push, ← ht y, Std.HashMap.getElem?_insertIfNew]
  by_cases hxy : x = y
  · subst hxy
    simp only [Std.HashMap.mem_iff_isSome_getElem?]
    rcases t.index[x]? with - | i <;> simp
  · simp [hxy]

theorem insert_of_getElem?_eq_some {i : UInt32} (h : t.index[x]? = some i) :
    t.insert x = (t, i) := by
  rw [insert, h]

theorem insert_of_getElem?_eq_none (h : t.index[x]? = none) :
    t.insert x = (⟨t.entries.push x, t.index.insert x t.next⟩, t.next) := by
  rw [insert, h]

/-- An entry that is appended because it is not there is indexed. -/
theorem Indexed.insert (ht : t.Indexed) (x : Fp p) : (t.insert x).1.Indexed := by
  rcases hindex : t.index[x]? with - | i
  · rw [insert_of_getElem?_eq_none hindex]
    intro y
    show (t.index.insert x t.next)[y]? = ((t.entries.push x).findIdx? (· == y)).map _
    rw [findIdx?_push, ← ht y, Std.HashMap.getElem?_insert]
    by_cases hxy : x = y
    · subst hxy
      simp [hindex]
    · simp [hxy]
  · rw [insert_of_getElem?_eq_some hindex]
    exact ht

end

/-- Reserved coefficients are indexed as they are appended, also where two of them coincide. -/
theorem indexed_initial : (initial : IndexedPool p).Indexed :=
  List.foldlRecOn (reservedCoeffs p) reserve indexed_empty fun _ ht x _ => ht.reserve x

/-! ### With an index and without -/

/-- A pool with an index that is in step with a pool without. -/
structure Follows (t : IndexedPool p) (c : CoeffPool p) : Prop where
  /-- Both have the same entries. -/
  entries : t.entries = c.entries
  /-- The index has what is found in the pool, as words, and nothing else. -/
  index : ∀ x, t.index[x]? = (c.find? x).map UInt32.ofNat

theorem Indexed.follows (ht : t.Indexed) (h : t.entries = c.entries) : t.Follows c := by
  refine ⟨h, fun x => ?_⟩
  rw [ht x, h]
  rfl

theorem Follows.indexed (h : t.Follows c) : t.Indexed := by
  intro x
  rw [h.index x, h.entries]
  rfl

/-- An insertion comes to the same entries. -/
theorem Follows.entries_insert (h : t.Follows c) (x : Fp p) :
    (t.insert x).1.entries = (c.insert x).1.entries := by
  have hindex := h.index x
  rcases hfind : c.find? x with - | i <;> rw [hfind] at hindex
  · rw [insert_of_getElem?_eq_none hindex, (CoeffPool.insert_of_find?_eq_none hfind).1]
    exact congrArg (Array.push · x) h.entries
  · rw [insert_of_getElem?_eq_some hindex, CoeffPool.insert_of_find?_eq_some hfind]
    exact h.entries

/-- The number that it gives is the same. -/
theorem Follows.toNat_insert (h : t.Follows c) (x : Fp p) :
    (t.insert x).2.toNat = (c.insert x).2 := by
  have hindex := h.index x
  rcases hfind : c.find? x with - | i <;> rw [hfind] at hindex
  · rw [insert_of_getElem?_eq_none hindex, (CoeffPool.insert_of_find?_eq_none hfind).2, next,
      h.entries]
    rfl
  · rw [insert_of_getElem?_eq_some hindex, CoeffPool.insert_of_find?_eq_some hfind]
    rfl

theorem Follows.insert (h : t.Follows c) (x : Fp p) : (t.insert x).1.Follows (c.insert x).1 :=
  (h.indexed.insert x).follows (h.entries_insert x)

theorem Follows.insertAll (h : t.Follows c) (xs : List (Fp p)) :
    (t.insertAll xs).Follows (c.insertAll xs) := by
  induction xs generalizing t c with
  | nil => exact h
  | cons x xs ih => exact ih (h.insert x)

/-- An id is looked up as a number. -/
theorem Follows.get? (h : t.Follows c) (i : UInt32) : t.get? i = c.get? i.toNat := by
  rw [IndexedPool.get?, h.entries]
  rfl

theorem Follows.get?_insert (h : t.Follows c) (x : Fp p) :
    (t.insert x).1.get? (t.insert x).2 = (c.insert x).1.get? (c.insert x).2 := by
  rw [(h.insert x).get?, h.toNat_insert]

theorem follows_initial : (initial : IndexedPool p).Follows .initial :=
  indexed_initial.follows rfl

/-! ### What ids stand for -/

/-- The ids of a pool stand for its coefficients, whatever is inserted afterwards, as long as there
are words for all positions. -/
structure Interns (t : IndexedPool p) : Prop where
  /-- The reserved ids hold zero, one, two and minus one. -/
  reserved : t.get? 0 = some 0 ∧ t.get? 1 = some 1 ∧ t.get? 2 = some 2 ∧ t.get? 3 = some (-1)
  /-- The id that is given holds what is inserted exactly if that had an id before, or is appended
  at a position that is a word. -/
  insert_self_iff : ∀ x, (t.insert x).1.get? (t.insert x).2 = some x ↔
    (∃ i, t.get? i = some x) ∨ x ∉ t.entries ∧ t.entries.size < UInt32.size
  /-- So it holds what is inserted if the pool has no more entries then than there are words. -/
  insert_self : ∀ x, (t.insert x).1.entries.size ≤ UInt32.size →
    (t.insert x).1.get? (t.insert x).2 = some x
  /-- No earlier id does. -/
  insert_least : ∀ x i, (t.insert x).1.get? i = some x → (t.insert x).2 ≤ i
  /-- What is inserted is appended exactly if it was not there, and nothing else happens. -/
  insert_entries : ∀ x,
    (t.insert x).1.entries = if x ∈ t.entries then t.entries else t.entries.push x
  /-- Every id keeps its coefficient through all later insertions. -/
  keeps : ∀ i y ys, t.get? i = some y → (t.insertAll ys).get? i = some y
  /-- The same coefficient, inserted again after others, is given the same id, and the pool stays as
  it is. -/
  again : ∀ x ys, ((t.insert x).1.insertAll ys).insert x
    = ((t.insert x).1.insertAll ys, (t.insert x).2)
  /-- Only the first id holds zero. -/
  zero : ∀ i, t.get? i = some 0 ↔ i = 0
  /-- An entry past the reserved ones differs from all others. -/
  distinct : ∀ (i j : Nat) x, 4 ≤ i → t.entries[i]? = some x → t.entries[j]? = some x → j = i

/-- A coefficient has an id if it is at a position that is a word. -/
theorem Follows.exists_get?_iff (h : t.Follows c) :
    (∃ i, t.get? i = some x) ↔ ∃ i < UInt32.size, c.get? i = some x := by
  constructor
  · rintro ⟨i, hi⟩
    rw [h.get?] at hi
    exact ⟨i.toNat, UInt32.toNat_lt_size i, hi⟩
  · rintro ⟨i, hlt, hi⟩
    refine ⟨UInt32.ofNat i, ?_⟩
    rw [h.get?, UInt32.toNat_ofNat_of_lt' hlt]
    exact hi

theorem Follows.interns [Fact p.Prime] (hp : p ≠ 2) (h : t.Follows c) : t.Interns where
  reserved := by
    have hone : (1 : Fp p) + 1 = 2 := one_add_one_eq_two
    rw [h.get?, h.get?, h.get?, h.get?]
    refine ⟨CoeffPool.get?_reserved (by decide), CoeffPool.get?_reserved (by decide), ?_,
      CoeffPool.get?_reserved (by decide)⟩
    rw [← hone]
    exact CoeffPool.get?_reserved (by decide)
  insert_self_iff x := by
    rw [h.get?_insert, c.get?_insert_self_iff, CoeffPool.exists_find?_insert_lt_iff,
      h.exists_get?_iff, h.entries]
    rfl
  insert_self x hsize := by
    rw [(h.insert x).entries] at hsize
    rw [h.get?_insert]
    exact CoeffPool.get?_insert_self hsize
  insert_least x i hi := by
    rw [(h.insert x).get?] at hi
    rw [UInt32.le_iff_toNat_le, h.toNat_insert]
    exact CoeffPool.insert_le_of_get? hi
  insert_entries x := by
    rw [(h.insert x).entries, c.entries_insert, h.entries]
  keeps i y ys hi := by
    rw [h.get?] at hi
    rw [(h.insertAll ys).get?]
    exact CoeffPool.get?_insertAll_of_some hi ys
  again x ys := by
    have hall := (h.insert x).insertAll ys
    obtain ⟨i, hfind, -⟩ := c.exists_find?_insert x
    have hindex := hall.index x
    rw [CoeffPool.find?_insertAll_of_some hfind ys] at hindex
    have hid : (((t.insert x).1.insertAll ys).insert x).2 = (t.insert x).2 := by
      rw [← UInt32.toNat_inj, hall.toNat_insert, h.toNat_insert, c.insert_again]
    rw [insert_of_getElem?_eq_some hindex] at hid ⊢
    exact congrArg _ hid
  zero i := by
    rw [h.get?, CoeffPool.get?_eq_some_zero_iff hp]
    exact UInt32.toNat_inj (b := 0)
  distinct i j x hi hx hj := by
    rw [h.entries] at hx hj
    exact CoeffPool.eq_of_get? hi hx hj

/-! ### Any sequence of insertions -/

/-- In a sequence of insertions, every id that is given holds what was inserted for it. -/
def GivesIds (xs : List (Fp p)) : Prop :=
  ∀ before x after, xs = before ++ x :: after →
    ((initial.insertAll before).insert x).1.get? ((initial.insertAll before).insert x).2 = some x

omit [Modulus p] in
theorem insertAll_append (t : IndexedPool p) (xs ys : List (Fp p)) :
    t.insertAll (xs ++ ys) = (t.insertAll xs).insertAll ys :=
  List.foldl_append

/-- A pool with an index only grows. -/
theorem Follows.size_le_insertAll (h : t.Follows c) (xs : List (Fp p)) :
    t.entries.size ≤ (t.insertAll xs).entries.size := by
  rw [h.entries, (h.insertAll xs).entries]
  exact c.size_le_insertAll xs

/-- Every insertion gives an id of what is inserted as long as there are words for all positions. -/
theorem givesIds_of_size_le [Fact p.Prime] (hp : p ≠ 2) {xs : List (Fp p)}
    (hsize : (initial.insertAll xs).entries.size ≤ UInt32.size) : GivesIds xs := by
  rintro before x after rfl
  have hfollows := (follows_initial (p := p)).insertAll before
  refine (hfollows.interns hp).insert_self x (Nat.le_trans ?_ hsize)
  rw [insertAll_append]
  exact (hfollows.insert x).size_le_insertAll after

/-- And no longer, by induction on the insertions, from the last one. -/
theorem size_le_of_givesIds [Fact p.Prime] (hp : p ≠ 2) {xs : List (Fp p)} (h : GivesIds xs) :
    (initial.insertAll xs).entries.size ≤ UInt32.size := by
  induction xs using List.reverseRecOn with
  | nil => exact (by decide : 4 ≤ UInt32.size)
  | append_singleton xs x ih =>
    have hinterns := ((follows_initial (p := p)).insertAll xs).interns hp
    have hsize : (initial.insertAll xs).entries.size ≤ UInt32.size := by
      refine ih ?_
      rintro before y after rfl
      exact h before y (after ++ [x]) (by simp)
    rw [insertAll_append]
    show ((initial.insertAll xs).insert x).1.entries.size ≤ UInt32.size
    rw [hinterns.insert_entries]
    split
    · exact hsize
    · next hx =>
      -- what is new has its id only if there is a word for it
      rw [Array.size_push]
      rcases (hinterns.insert_self_iff x).1 (h xs x [] rfl) with ⟨i, hi⟩ | ⟨-, hlt⟩
      · exact absurd (Array.mem_of_getElem? hi) hx
      · exact hlt

/-- Insertions come to the same in a pool with an index as in one without. -/
structure InStep (t : IndexedPool p) (c : CoeffPool p) : Prop where
  /-- Both have the same entries. -/
  entries : t.entries = c.entries
  /-- An insertion comes to the same entries. -/
  insert_entries : ∀ x, (t.insert x).1.entries = (c.insert x).1.entries
  /-- It gives the same number. -/
  insert_toNat : ∀ x, (t.insert x).2.toNat = (c.insert x).2
  /-- Ids are looked up as numbers. -/
  get? : ∀ i, t.get? i = c.get? i.toNat

/-- Whatever is inserted into a pool with an index, one by one, its ids stand for its coefficients
as long as there are words for all positions, and all ids that were given hold what was inserted
exactly if there still are in the end.  It is kept in step with a pool without an index. -/
theorem insertAll_interns [Fact p.Prime] (hp : p ≠ 2) (xs : List (Fp p)) :
    (initial.insertAll xs).Interns ∧
      (GivesIds xs ↔ (initial.insertAll xs).entries.size ≤ UInt32.size) ∧
      (initial.insertAll xs).InStep (CoeffPool.initial.insertAll xs) := by
  have hfollows := follows_initial.insertAll xs
  refine ⟨hfollows.interns hp, ⟨size_le_of_givesIds hp, givesIds_of_size_le hp⟩, ?_⟩
  exact ⟨hfollows.entries, hfollows.entries_insert, hfollows.toNat_insert, hfollows.get?⟩

/-- In the field of order three, two is minus one: it has the earlier of its two ids, and nothing is
ever appended. -/
theorem insertAll_interns_three :
    Nat.Prime 3 ∧ 3 ≠ 2 ∧ (initial.insertAll [2, 0] : IndexedPool 3).Interns ∧
      ((initial.insertAll [2, 0]).insert (-1 : Fp 3)).2 = 2 ∧
      ((initial.insertAll [2, 0]).insert (-1 : Fp 3)).1.entries.size = 4 := by
  have hne : 3 ≠ 2 := by decide
  obtain ⟨hinterns, -, hstep⟩ := insertAll_interns (p := 3) hne [2, 0]
  have hfind : (CoeffPool.initial.insertAll [2, 0] : CoeffPool 3).find? (-1) = some 2 := by
    decide +kernel
  have hinsert := CoeffPool.insert_of_find?_eq_some hfind
  refine ⟨by decide, hne, hinterns, ?_, ?_⟩
  · rw [← UInt32.toNat_inj, hstep.insert_toNat, hinsert]
    rfl
  · rw [hstep.insert_entries, hinsert]
    decide +kernel

/-! ### More coefficients than words -/

/-- The numbers from three on, as coefficients. -/
def counting (p n : Nat) [Modulus p] : List (Fp p) := (List.range n).map fun i => .ofNat (3 + i)

section Counting

variable {n i : Nat} (hn : n + 5 ≤ p)

include hn

theorem val_ofNat_counting (hi : i ≤ n) : (Fp.ofNat (3 + i) : Fp p).val = 3 + i :=
  Nat.mod_eq_of_lt (by omega)

/-- Numbers from three on are not reserved if they come before minus one. -/
theorem ofNat_not_mem_initial (hi : i ≤ n) :
    Fp.ofNat (3 + i) ∉ (CoeffPool.initial : CoeffPool p).entries := by
  have hval := val_ofNat_counting hn hi
  have hone : 1 % p = 1 := Nat.mod_eq_of_lt (by omega)
  have htwo : (1 + 1) % p = 2 := Nat.mod_eq_of_lt (by omega)
  have hminus : (p - 1) % p = p - 1 := Nat.mod_eq_of_lt (by omega)
  intro hmem
  have hcases : Fp.ofNat (3 + i) = (0 : Fp p) ∨ Fp.ofNat (3 + i) = (1 : Fp p) ∨
      Fp.ofNat (3 + i) = (1 + 1 : Fp p) ∨ Fp.ofNat (3 + i) = (-1 : Fp p) := by
    simpa [CoeffPool.initial, reservedCoeffs] using hmem
  rcases hcases with h | h | h | h <;> rw [Fp.ext_iff, hval] at h <;>
    simp [hone, htwo, hminus] at h <;> omega

/-- They are all appended, and the next one is not there. -/
theorem size_counting : ((CoeffPool.initial : CoeffPool p).insertAll (counting p n)).size = 4 + n ∧
    Fp.ofNat (3 + n) ∉ ((CoeffPool.initial : CoeffPool p).insertAll (counting p n)).entries := by
  have hinj : ∀ i ≤ n, ∀ j ≤ n, Fp.ofNat (3 + i) = (Fp.ofNat (3 + j) : Fp p) → i = j := by
    intro i hi j hj h
    rw [Fp.ext_iff, val_ofNat_counting hn hi, val_ofNat_counting hn hj] at h
    omega
  have hlt : ∀ i ∈ List.range n, i < n := fun i hi => List.mem_range.1 hi
  constructor
  · have hnodup : (counting p n).Nodup := List.nodup_range.map_on fun i hi j hj h =>
      hinj i (hlt i hi).le j (hlt j hj).le h
    rw [CoeffPool.size_insertAll_of_nodup hnodup fun x hx => ?_, counting, List.length_map,
      List.length_range]
    · rfl
    · obtain ⟨i, hi, rfl⟩ := List.mem_map.1 hx
      exact ofNat_not_mem_initial hn (hlt i hi).le
  · rw [CoeffPool.mem_insertAll_iff, not_or]
    refine ⟨ofNat_not_mem_initial hn (Nat.le_refl n), fun hmem => ?_⟩
    obtain ⟨i, hi, h⟩ := List.mem_map.1 hmem
    exact (hlt i hi).ne (hinj i (hlt i hi).le n (Nat.le_refl n) h)

/-- The id of the next one is the number of all that are there, as a word. -/
theorem insert_counting : ((initial.insertAll (counting p n)).insert (.ofNat (3 + n))).2
    = UInt32.ofNat (4 + n) := by
  obtain ⟨hsize, habsent⟩ := size_counting hn
  have hfollows := (follows_initial (p := p)).insertAll (counting p n)
  rw [← UInt32.toNat_inj, hfollows.toNat_insert,
    (CoeffPool.insert_of_find?_eq_none (CoeffPool.find?_eq_none_iff.2 habsent)).2, hsize]
  rfl

end Counting

/-- A prime with more residues than there are words. -/
def goldilocks : Nat := 18446744069414584321

instance modulus_goldilocks : Modulus goldilocks := ⟨by decide⟩

theorem eq_of_dvd_goldilocks_sub_one {q : Nat} (hq : q.Prime) (hdvd : q ∣ goldilocks - 1) :
    q = 2 ∨ q = 3 ∨ q = 5 ∨ q = 17 ∨ q = 257 ∨ q = 65537 := by
  have hfactors : goldilocks - 1 = 2 ^ 32 * (3 * (5 * (17 * (257 * 65537)))) := by decide
  have heq : ∀ r, r.Prime → (q ∣ r ↔ q = r) := fun r hr => Nat.prime_dvd_prime_iff_eq hq hr
  rwa [hfactors, hq.dvd_mul, hq.dvd_mul, hq.dvd_mul, hq.dvd_mul, hq.dvd_mul,
    hq.prime.dvd_pow_iff_dvd (by decide), heq 2 (by norm_num), heq 3 (by norm_num),
    heq 5 (by norm_num), heq 17 (by norm_num), heq 257 (by norm_num),
    heq 65537 (by norm_num)] at hdvd

/-- Seven has all residues but zero as its powers. -/
theorem prime_goldilocks : goldilocks.Prime := by
  have hone : 1 < goldilocks := by decide
  refine lucas_primality goldilocks (7 : Nat) ?_ fun q hq hdvd => ?_
  · rw [pow_eq_one_iff_powMod hone]
    decide +kernel
  · rw [ne_eq, pow_eq_one_iff_powMod hone]
    rcases eq_of_dvd_goldilocks_sub_one hq hdvd with rfl | rfl | rfl | rfl | rfl | rfl <;>
      decide +kernel

/-- When the numbers from three on have been inserted until there are as many entries as words, the
next number is given the first id, and that is the id of zero. -/
theorem counting_wraps :
    goldilocks.Prime ∧ goldilocks ≠ 2 ∧
      ((initial.insertAll (counting goldilocks 4294967292)).insert (.ofNat 4294967295)).2 = 0 ∧
      ((initial.insertAll (counting goldilocks 4294967292)).insert (.ofNat 4294967295)).1.get? 0
        = some 0 ∧
      (.ofNat 4294967295 : Fp goldilocks) ≠ 0 := by
  have hid : ((initial.insertAll (counting goldilocks 4294967292)).insert (.ofNat 4294967295)).2
      = UInt32.ofNat 4294967296 := insert_counting (p := goldilocks) (n := 4294967292) (by decide)
  refine ⟨prime_goldilocks, by decide, hid, ?_, by decide⟩
  have hfollows := (follows_initial (p := goldilocks)).insertAll (counting goldilocks 4294967292)
  rw [(hfollows.insert _).get?]
  exact CoeffPool.get?_reserved (by decide)

end IndexedPool

end WireSolve
