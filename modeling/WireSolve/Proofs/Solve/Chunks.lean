/-
WireSolve/Proofs/Solve/Chunks.lean

The chunks of a level are the level, cut up evenly.

The cuts are in order, the first chunk starts at zero and the last one ends with the
level, so nothing is lost, doubled or moved (`flatten_chunks`).  A chunk gets a share
of the quotient, and the first ones get one instruction more, as many as the division
leaves over (`chunkStart_succ`): sizes never grow from one chunk to a later one, and
they shrink by one at most.  Dealing the chunks out one by one gives the same bounds
(`dealChunks_eq`).

Main result: `chunkBounds_even`.
-/
import Mathlib.Algebra.Order.Floor.Div
import WireSolve.Proofs.Slices
import WireSolve.Solve.Chunks

namespace WireSolve

variable {α : Type} {level : List α} {parts : List (List α)} {len workers : Nat}
  {bounds : List (Nat × Nat)}

/-! ### Where chunks start -/

theorem chunkStart_zero (len k : Nat) : chunkStart len k 0 = 0 := by
  rw [chunkStart, Nat.zero_mul, Nat.zero_min]

/-- A chunk has the share of all, and one instruction more if it is among the first. -/
theorem chunkStart_succ (len k i : Nat) :
    chunkStart len k (i + 1)
      = chunkStart len k i + (len / k + if i < len % k then 1 else 0) := by
  rw [chunkStart, chunkStart, Nat.succ_mul]
  split <;> omega

/-- Chunks start in order. -/
theorem chunkStart_le_succ (len k i : Nat) : chunkStart len k i ≤ chunkStart len k (i + 1) := by
  rw [chunkStart_succ]
  exact Nat.le_add_right _ _

/-- The last chunk ends with the level. -/
theorem chunkStart_self (len : Nat) {k : Nat} (hk : 0 < k) : chunkStart len k k = len := by
  have hrest : len % k < k := Nat.mod_lt len hk
  rw [chunkStart, Nat.min_eq_right (Nat.le_of_lt hrest)]
  exact Nat.div_add_mod len k

/-- No chunk ends past the end of the level. -/
theorem chunkStart_le_len {len k i : Nat} (hi : i < k) : chunkStart len k (i + 1) ≤ len := by
  calc chunkStart len k (i + 1)
      ≤ k * (len / k) + len % k :=
        Nat.add_le_add (Nat.mul_le_mul_right _ hi) (Nat.min_le_right _ _)
    _ = len := Nat.div_add_mod len k

/-! ### Dealing out -/

/-- Chunks that are dealt out start after the shares of those before them, and after the
instructions that these got on top. -/
theorem dealChunks_eq (share n leftOver start : Nat) :
    dealChunks share n leftOver start = (List.range n).map fun i =>
      (start + (i * share + min i leftOver), start + ((i + 1) * share + min (i + 1) leftOver)) := by
  induction n generalizing leftOver start with
  | zero => rfl
  | succ n ih =>
    rw [List.range_succ_eq_map, List.map_cons, List.map_map]
    cases leftOver with
    | zero =>
      rw [dealChunks, ih, List.cons.injEq]
      refine ⟨by simp, List.map_congr_left fun i _ => ?_⟩
      simp only [Function.comp_apply, Prod.mk.injEq, Nat.min_zero, Nat.succ_mul]
      omega
    | succ leftOver =>
      rw [dealChunks, ih, List.cons.injEq]
      refine ⟨by simp [Nat.add_assoc], List.map_congr_left fun i _ => ?_⟩
      simp only [Function.comp_apply, Prod.mk.injEq, Nat.succ_mul]
      omega

/-- From zero, they are the chunks between the starts. -/
theorem dealChunks_zero (len k : Nat) :
    dealChunks (len / k) k (len % k) 0
      = (List.range k).map fun i => (chunkStart len k i, chunkStart len k (i + 1)) := by
  simp only [dealChunks_eq, Nat.zero_add, chunkStart]

/-! ### Chunks -/

theorem chunkBounds_eq_none_iff :
    chunkBounds len workers = none ↔ workers ≤ 1 ∨ len ≤ 50 := by
  unfold chunkBounds
  split
  · next hwhole => exact iff_of_true rfl hwhole
  · next hsplit => exact iff_of_false (by simp) hsplit

/-- A level that is split has more than one worker and more instructions than one of them should
get, and its chunks lie between the starts. -/
theorem chunkBounds_eq_some (h : chunkBounds len workers = some bounds) :
    (1 < workers ∧ 50 < len) ∧ bounds = (List.range (chunkCount len workers)).map fun i =>
      (chunkStart len (chunkCount len workers) i,
        chunkStart len (chunkCount len workers) (i + 1)) := by
  unfold chunkBounds at h
  split at h
  · cases h
  · next hsplit =>
    rw [not_or, Nat.not_le, Nat.not_le] at hsplit
    exact ⟨hsplit, (Option.some.inj h).symm⟩

theorem chunkCount_pos (hworkers : 0 < workers) (hlen : 0 < len) :
    0 < chunkCount len workers := by
  simp only [chunkCount, minChunk]
  omega

/-- There are not more chunks than instructions. -/
theorem chunkCount_le (len workers : Nat) : chunkCount len workers ≤ len := by
  simp only [chunkCount, minChunk]
  omega

/-- A level that is split is split into its parts, in order. -/
theorem flatten_chunks (h : chunks level workers = some parts) : parts.flatten = level := by
  obtain ⟨bounds, hbounds, rfl⟩ := Option.map_eq_some_iff.1 h
  obtain ⟨⟨hworkers, hlen⟩, rfl⟩ := chunkBounds_eq_some hbounds
  have hk : 0 < chunkCount level.length workers :=
    chunkCount_pos (Nat.zero_lt_of_lt hworkers) (Nat.zero_lt_of_lt hlen)
  rw [List.map_map]
  show ((List.range _).map fun i => (level.drop (chunkStart _ _ i)).take
    (chunkStart _ _ (i + 1) - chunkStart _ _ i)).flatten = level
  rw [flatten_slices (chunkStart_zero _ _) fun i _ => chunkStart_le_succ _ _ i,
    chunkStart_self _ hk, List.take_length]

/-- Each part of a level has the size of its chunk. -/
theorem map_length_chunks (h : chunks level workers = some parts)
    (hbounds : chunkBounds level.length workers = some bounds) :
    parts.map List.length = bounds.map fun x => x.2 - x.1 := by
  have hparts : bounds.map (fun x => (level.drop x.1).take (x.2 - x.1)) = parts := by
    unfold chunks at h
    rw [hbounds] at h
    exact Option.some.inj h
  obtain ⟨⟨hworkers, hlen⟩, rfl⟩ := chunkBounds_eq_some hbounds
  rw [← hparts, List.map_map, List.map_map, List.map_map]
  apply List.map_congr_left
  intro i hi
  -- no chunk reaches past the end of the level
  have hstop : chunkStart level.length (chunkCount level.length workers) (i + 1)
      ≤ level.length :=
    chunkStart_le_len (List.mem_range.1 hi)
  simp only [Function.comp_apply, List.length_take, List.length_drop]
  omega

/-! ### Even splits -/

/-- The bounds of chunks that split a level of `len` instructions evenly, and in order, for a number
of workers. -/
structure SplitsEvenly (len workers : Nat) (bounds : List (Nat × Nat)) : Prop where
  /-- There is a chunk for every fifty instructions, or part of them, but not more than workers. -/
  count : bounds.length = min workers (len ⌈/⌉ 50)
  /-- The first chunk starts where the level does. -/
  first : bounds.head?.map Prod.fst = some 0
  /-- Each chunk starts where the one before it ends. -/
  next : bounds.IsChain fun x y => y.1 = x.2
  /-- The last chunk ends where the level does. -/
  last : bounds.getLast?.map Prod.snd = some len
  /-- No chunk is empty. -/
  nonempty : ∀ x ∈ bounds, x.1 < x.2
  /-- A later chunk is not larger, and smaller by one at most. -/
  even : bounds.Pairwise fun x y => y.2 - y.1 ≤ x.2 - x.1 ∧ x.2 - x.1 ≤ y.2 - y.1 + 1
  /-- They are the chunks that are dealt out one by one, with what the division leaves over. -/
  dealt : bounds = dealChunks (len / bounds.length) bounds.length (len % bounds.length) 0
  /-- The parts of a level have the sizes of the chunks, and put together they are the level. -/
  whole : ∀ {α : Type} (level : List α), level.length = len → ∃ parts,
    chunks level workers = some parts ∧
      parts.map List.length = bounds.map (fun x => x.2 - x.1) ∧ parts.flatten = level

/-- A level is kept whole for one worker, and when it has fifty instructions or fewer; every other
level is split evenly. -/
theorem chunkBounds_even (len workers : Nat) :
    (chunkBounds len workers = none ↔ workers ≤ 1 ∨ len ≤ 50) ∧
      ∀ bounds, chunkBounds len workers = some bounds → SplitsEvenly len workers bounds := by
  refine ⟨chunkBounds_eq_none_iff, fun bounds h => ?_⟩
  obtain ⟨⟨hworkers, hlen⟩, hbounds⟩ := chunkBounds_eq_some h
  have hk : 0 < chunkCount len workers :=
    chunkCount_pos (Nat.zero_lt_of_lt hworkers) (Nat.zero_lt_of_lt hlen)
  have hcount : bounds.length = chunkCount len workers := by
    rw [hbounds, List.length_map, List.length_range]
  -- there is an instruction for every chunk, so the share is not zero
  have hshare : 0 < len / chunkCount len workers := Nat.div_pos (chunkCount_le len workers) hk
  exact {
    count := hcount
    first := by
      rw [hbounds, List.head?_map, List.head?_range, if_neg hk.ne']
      exact congrArg some (chunkStart_zero len _)
    next := by
      rw [hbounds, List.isChain_iff_getElem]
      intro i hi
      rw [List.getElem_map, List.getElem_map, List.getElem_range, List.getElem_range]
    last := by
      rw [hbounds, List.getLast?_map, List.getLast?_range, if_neg hk.ne']
      show some (chunkStart len _ (chunkCount len workers - 1 + 1)) = some len
      rw [Nat.sub_add_cancel hk, chunkStart_self len hk]
    nonempty := by
      intro x hx
      obtain ⟨i, -, rfl⟩ := List.mem_map.1 (hbounds ▸ hx)
      show chunkStart len _ i < chunkStart len _ (i + 1)
      rw [chunkStart_succ]
      omega
    even := by
      rw [hbounds, List.pairwise_map]
      apply List.pairwise_lt_range.imp
      intro i j hij
      show chunkStart len _ (j + 1) - chunkStart len _ j ≤ _ ∧ _
      rw [chunkStart_succ, chunkStart_succ, Nat.add_sub_cancel_left, Nat.add_sub_cancel_left]
      -- what is left over goes to the chunks that come first
      split <;> split <;> omega
    dealt := by
      rw [hcount, dealChunks_zero]
      exact hbounds
    whole := by
      rintro α level rfl
      obtain ⟨parts, hparts⟩ : ∃ parts, chunks level workers = some parts := by
        unfold chunks
        rw [h]
        exact ⟨_, rfl⟩
      exact ⟨parts, hparts, map_length_chunks hparts h, flatten_chunks hparts⟩ }

/-- A level of 1003 instructions, for four workers. -/
theorem chunkBounds_even_thousandThree :
    chunkBounds 1003 4 = some [(0, 251), (251, 502), (502, 753), (753, 1003)] ∧
      SplitsEvenly 1003 4 [(0, 251), (251, 502), (502, 753), (753, 1003)] := by
  have hbounds : chunkBounds 1003 4 = some [(0, 251), (251, 502), (502, 753), (753, 1003)] := by
    decide
  exact ⟨hbounds, (chunkBounds_even 1003 4).2 _ hbounds⟩

end WireSolve
