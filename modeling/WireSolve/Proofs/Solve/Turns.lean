/-
WireSolve/Proofs/Solve/Turns.lean

Workers that take turns go through the instructions in some order.

As long as no instruction fails, turns are nothing but an order of the instructions
(`order`), and the first failure ends both in the same way
(`Circuit.alike_processTurns`).  So a solve whose workers take turns has the outcome of
a solve along that order, failures included (`Circuit.outcomeInTurns_eq`).  With enough
turns the order is the levels, each of them rearranged (`Circuit.orderInTurns_perm`),
and what is shown of a solve along every rearrangement holds of every interleaving.

The chunks one by one are a case of taking turns.  Their order is that of the levels,
and their outcome that of `Circuit.solve` (`Circuit.outcomeInTurns_chunkByChunk`).
-/
import WireSolve.Proofs.Solve.Sequential
import WireSolve.Solve.Turns

namespace WireSolve

variable {p : Nat}

/-! ### Turns as an order -/

section Order

variable {i j : Nat} {turns rest part : List Nat} {left parts : List (List Nat)}

theorem order_cons (hj : left[j]? = some (i :: rest)) (turns : List Nat) :
    order (j :: turns) left = i :: order turns (left.set j rest) := by
  rw [order, hj]

theorem order_skip (hj : ∀ i rest, left[j]? ≠ some (i :: rest)) (turns : List Nat) :
    order (j :: turns) left = order turns left := by
  rw [order]
  split
  · next i rest heq => exact absurd heq (hj i rest)
  · rfl

theorem allTaken_iff : AllTaken turns parts ↔
    ∀ (j : Nat) part, parts[j]? = some part → part.length ≤ turns.count j := by
  constructor
  · intro h j part hj
    exact h (part, j) (List.mem_zipIdx_iff_getElem?.2 hj)
  · intro h x hx
    exact h x.2 x.1 (List.mem_zipIdx_iff_getElem?.1 hx)

/-- The rest of a chunk, with the instruction that is taken from it. -/
theorem perm_flatten_set (hj : left[j]? = some (i :: rest)) :
    (i :: (left.set j rest).flatten).Perm left.flatten := by
  induction left generalizing j with
  | nil => cases hj
  | cons part left ih =>
    cases j with
    | zero =>
      obtain rfl : part = i :: rest := Option.some.inj hj
      exact List.Perm.refl _
    | succ j =>
      rw [List.set_cons_succ, List.flatten_cons, List.flatten_cons]
      exact List.perm_middle.symm.trans ((ih hj).append_left part)

/-- Enough turns process everything that is left. -/
theorem order_perm (h : AllTaken turns left) : (order turns left).Perm left.flatten := by
  induction turns generalizing left with
  | nil =>
    have hempty : ∀ part ∈ left, part = [] := by
      intro part hpart
      obtain ⟨j, hj⟩ := List.mem_iff_getElem?.1 hpart
      exact List.eq_nil_of_length_eq_zero (Nat.le_zero.1 (allTaken_iff.1 h j part hj))
    rw [order, List.flatten_eq_nil_iff.2 hempty]
  | cons j turns ih =>
    rw [allTaken_iff] at h
    by_cases hj : ∃ i rest, left[j]? = some (i :: rest)
    · obtain ⟨i, rest, hj⟩ := hj
      rw [order_cons hj]
      refine ((ih (allTaken_iff.2 fun k part hk => ?_)).cons i).trans (perm_flatten_set hj)
      by_cases hjk : j = k
      · -- the worker has had one of its turns
        subst hjk
        have hbefore := h j _ hj
        rw [List.getElem?_set_self (List.getElem?_eq_some_iff.1 hj).1] at hk
        rw [List.count_cons_self, List.length_cons] at hbefore
        rw [← Option.some.inj hk]
        exact Nat.le_of_succ_le_succ hbefore
      · rw [List.getElem?_set_ne hjk] at hk
        rw [← List.count_cons_of_ne hjk]
        exact h k part hk
    · simp only [not_exists] at hj
      rw [order_skip hj]
      refine ih (allTaken_iff.2 fun k part hk => ?_)
      by_cases hjk : j = k
      · -- the worker had nothing left
        subst hjk
        rcases part with - | ⟨i, rest⟩
        · exact Nat.zero_le _
        · exact absurd hk (hj i rest)
      · rw [← List.count_cons_of_ne hjk]
        exact h k part hk

theorem order_replicate (i : Nat) (part : List Nat) (hi : left[i]? = some part) (turns : List Nat) :
    order (List.replicate part.length i ++ turns) left = part ++ order turns (left.set i []) := by
  induction part generalizing left with
  | nil =>
    obtain ⟨hlt, hempty⟩ := List.getElem?_eq_some_iff.1 hi
    have hset : left.set i [] = left := by rw [← hempty, List.set_getElem_self]
    rw [hset, List.length_nil, List.replicate_zero, List.nil_append, List.nil_append]
  | cons a part ih =>
    have hlt := (List.getElem?_eq_some_iff.1 hi).1
    rw [List.length_cons, List.replicate_succ, List.cons_append, order_cons hi,
      ih (List.getElem?_set_self hlt), List.set_set, List.cons_append]

/-- One chunk after the other is the order of the level. -/
theorem order_oneByOne (done parts : List (List Nat)) :
    order (oneByOne done.length parts) (done ++ parts) = parts.flatten := by
  induction parts generalizing done with
  | nil => rw [oneByOne, order, List.flatten_nil]
  | cons part rest ih =>
    rw [oneByOne, order_replicate _ part (by simp), List.flatten_cons]
    have hrest := ih (done ++ [[]])
    simp only [List.length_append, List.length_singleton, List.append_assoc,
      List.singleton_append] at hrest
    rw [List.set_append_right _ _ (Nat.le_refl _), Nat.sub_self, List.set_cons_zero, hrest]

/-- There are enough turns when the chunks come one after the other. -/
theorem allTaken_oneByOne (parts : List (List Nat)) : AllTaken (oneByOne 0 parts) parts := by
  have hall : ∀ i, ∀ x ∈ parts.zipIdx i, x.1.length ≤ (oneByOne i parts).count x.2 := by
    induction parts with
    | nil => exact fun _ _ hx => absurd hx List.not_mem_nil
    | cons part rest ih =>
      intro i x hx
      rw [oneByOne, List.count_append]
      rw [List.zipIdx_cons, List.mem_cons] at hx
      rcases hx with rfl | hx
      · rw [List.count_replicate_self]
        exact Nat.le_add_right part.length _
      · exact Nat.le_add_left_of_le (ih (i + 1) x hx)
  exact hall 0

/-! ### The order of the levels -/

variable {workers depth : Nat} {level : List Nat} {levels : List (List Nat)}

/-- With enough turns, all instructions of a level are processed. -/
theorem levelOrder_perm (h : ∀ parts ∈ chunks level workers, AllTaken turns parts) :
    (levelOrder workers turns level).Perm level := by
  unfold levelOrder
  split
  · exact List.Perm.refl level
  · next parts hparts =>
    have hperm := order_perm (h parts hparts)
    rwa [flatten_chunks hparts] at hperm

/-- And so are those of all levels. -/
theorem levelsOrder_perm {turns : Nat → List Nat}
    (h : ∀ x ∈ levels.zipIdx depth, ∀ parts ∈ chunks x.1 workers, AllTaken (turns x.2) parts) :
    (levelsOrder workers turns depth levels).Perm levels.flatten := by
  induction levels generalizing depth with
  | nil => exact List.Perm.refl []
  | cons level rest ih =>
    rw [List.zipIdx_cons] at h
    obtain ⟨hfirst, hrest⟩ := List.forall_mem_cons.1 h
    exact (levelOrder_perm hfirst).append (ih hrest)

/-- Chunk by chunk, a level keeps its order. -/
theorem levelOrder_oneByOne (workers : Nat) (level : List Nat) :
    levelOrder workers (oneByOne 0 ((chunks level workers).getD [])) level = level := by
  unfold levelOrder
  split
  · rfl
  · next parts hparts =>
    have horder : order (oneByOne 0 parts) parts = parts.flatten := order_oneByOne [] parts
    rw [hparts, Option.getD_some, horder, flatten_chunks hparts]

end Order

/-! ### Levels in turns -/

namespace Circuit

open Solve

variable [Modulus p] {c : Circuit p} {o : Options}

theorem takeTurn_of_done {crew : Crew p} {j : Nat}
    (hj : ∀ i rest, crew.left[j]? ≠ some (i :: rest)) : c.takeTurn o crew j = crew := by
  rw [takeTurn]
  split
  · next i rest heq => exact absurd heq (hj i rest)
  · rfl

/-- The failure that came first stays the first. -/
theorem failure_takeTurn {crew : Crew p} {e : Failure} (he : crew.failure = some e) (j : Nat) :
    (c.takeTurn o crew j).failure = some e := by
  rw [takeTurn]
  split
  · split
    · exact he
    · show some (crew.failure.getD _) = some e
      rw [he, Option.getD_some]
  · exact he

theorem failure_foldl_takeTurn {turns : List Nat} {crew : Crew p} {e : Failure}
    (he : crew.failure = some e) : (turns.foldl (c.takeTurn o) crew).failure = some e := by
  induction turns generalizing crew with
  | nil => exact he
  | cons j turns ih => exact ih (failure_takeTurn he j)

section Cons

variable {i j : Nat} {turns rest : List Nat} {parts : List (List Nat)} {run t : Run p} {e : Failure}

theorem processTurns_skip (hj : ∀ i rest, parts[j]? ≠ some (i :: rest)) :
    c.processTurns o (j :: turns) parts = c.processTurns o turns parts := by
  funext run
  rw [processTurns, List.foldl_cons, takeTurn_of_done hj]
  rfl

theorem processTurns_of_ok (hj : parts[j]? = some (i :: rest))
    (hi : c.process o i { run with worker := some j } = .ok () t) :
    c.processTurns o (j :: turns) parts run = c.processTurns o turns (parts.set j rest) t := by
  rw [processTurns, List.foldl_cons, takeTurn, hj]
  dsimp only
  rw [hi]
  rfl

theorem processTurns_of_error (hj : parts[j]? = some (i :: rest))
    (hi : c.process o i { run with worker := some j } = .error e t) :
    ∃ t', c.processTurns o (j :: turns) parts run = .error e t' := by
  rw [processTurns, List.foldl_cons, takeTurn, hj]
  dsimp only
  rw [hi]
  dsimp only
  rw [failure_foldl_takeTurn (e := e) rfl]
  exact ⟨_, rfl⟩

end Cons

/-- Turns are an order of the instructions, up to the first failure. -/
theorem alike_processTurns (turns : List Nat) (parts : List (List Nat)) :
    Alike (c.processTurns o turns parts) (c.processAll o (order turns parts)) := by
  induction turns generalizing parts with
  | nil => exact fun run run' h => ⟨rfl, h.wires_eq, h.sides_eq⟩
  | cons j turns ih =>
    by_cases hj : ∃ i rest, parts[j]? = some (i :: rest)
    · obtain ⟨i, rest, hj⟩ := hj
      intro run run' h
      have hstep := alike_process (c := c) o i { run with worker := some j } run'
        ⟨h.wires_eq, h.sides_eq⟩
      have hcons : c.processAll o (i :: order turns (parts.set j rest))
          = c.process o i >>= fun _ => c.processAll o (order turns (parts.set j rest)) := rfl
      rw [order_cons hj, hcons]
      rcases hi : c.process o i { run with worker := some j } with ⟨_, t⟩ | ⟨e, t⟩ <;>
        rcases hi' : c.process o i run' with ⟨_, t'⟩ | ⟨e', t'⟩ <;> rw [hi, hi'] at hstep
      · rw [processTurns_of_ok hj hi, bind_of_ok hi']
        exact ih _ t t' hstep.2
      · cases hstep
      · cases hstep
      · -- the failure that came first stays, whatever the other workers do
        have hfails : ∃ t₂, c.processTurns o (j :: turns) parts run = .error e t₂ :=
          processTurns_of_error hj hi
        obtain ⟨t₂, ht₂⟩ := hfails
        rw [ht₂, bind_of_error hi']
        exact hstep
    · simp only [not_exists] at hj
      rw [order_skip hj, processTurns_skip hj]
      exact ih parts

theorem alike_processLevelInTurns (turns : List Nat) (depth : Nat) (level : List Nat) :
    Alike (c.processLevelInTurns o turns depth level)
      (c.processAll o (levelOrder o.workers turns level)) := by
  unfold processLevelInTurns levelOrder
  split
  · exact alike_emit_bind _ (alike_processAll o level)
  · next parts _ => exact alike_emit_bind _ (alike_processTurns turns parts)

theorem alike_processLevelsInTurns (turns : Nat → List Nat) (depth : Nat)
    (levels : List (List Nat)) :
    Alike (c.processLevelsInTurns o turns depth levels)
      (c.processAll o (levelsOrder o.workers turns depth levels)) := by
  induction levels generalizing depth with
  | nil => exact alike_pure ()
  | cons level rest ih =>
    rw [levelsOrder, processAll_append]
    exact alike_bind (alike_processLevelInTurns (turns depth) depth level) fun _ => ih (depth + 1)

/-! ### The whole solve -/

/-- A solve whose workers take turns ends as one along the order that the turns make. -/
theorem outcomeInTurns_eq (c : Circuit p) (witness : List (Fp p)) (o : Options)
    (turns : Nat → List Nat) :
    c.outcomeInTurns witness o turns = c.outcomeAlong witness o (c.orderInTurns o.workers turns) :=
  bind_congr fun s => outcome_eq_of_alike (alike_processLevelsInTurns turns 0 c.levels) s #[]

/-- What it returns is the end of a run along that order. -/
theorem exists_reaches_of_outcomeInTurns {witness : List (Fp p)} {turns : Nat → List Nat}
    {solution : Solution p} (h : c.outcomeInTurns witness o turns = .ok solution) :
    ∃ run, c.Reaches witness o (c.orderInTurns o.workers turns) run ∧
      c.conclude run = .ok solution := by
  rw [outcomeInTurns_eq] at h
  exact outcomeAlong_eq_ok_iff.1 h

/-- With enough turns, all instructions of the levels are processed. -/
theorem orderInTurns_perm {workers : Nat} {turns : Nat → List Nat}
    (h : c.AllTurnsTaken workers turns) : (c.orderInTurns workers turns).Perm c.levels.flatten :=
  levelsOrder_perm h

/-! ### One after the other -/

theorem allTurnsTaken_chunkByChunk (c : Circuit p) (workers : Nat) :
    c.AllTurnsTaken workers (c.chunkByChunk workers) := by
  intro x hx parts hparts
  rw [chunkByChunk, List.mem_zipIdx_iff_getElem?.1 hx, Option.bind_some, hparts]
  exact allTaken_oneByOne parts

/-- Chunk by chunk, the instructions come in the order of the levels. -/
theorem orderInTurns_chunkByChunk (c : Circuit p) (workers : Nat) :
    c.orderInTurns workers (c.chunkByChunk workers) = c.levels.flatten := by
  have hall : ∀ before after, c.levels = before ++ after →
      levelsOrder workers (c.chunkByChunk workers) before.length after = after.flatten := by
    intro before after
    induction after generalizing before with
    | nil => exact fun _ => rfl
    | cons level rest ih =>
      intro hsplit
      have hdepth : c.levels[before.length]? = some level := by simp [hsplit]
      have hrest := ih (before ++ [level]) (hsplit.trans (List.append_cons before level rest))
      rw [List.length_append, List.length_singleton] at hrest
      rw [levelsOrder, hrest, chunkByChunk, hdepth, Option.bind_some, levelOrder_oneByOne,
        List.flatten_cons]
  exact hall [] c.levels rfl

/-- A solve that processes its chunks one after the other takes turns in a special way. -/
theorem outcomeInTurns_chunkByChunk (c : Circuit p) (witness : List (Fp p)) (o : Options) :
    c.outcomeInTurns witness o (c.chunkByChunk o.workers) = (c.solve witness o).outcome := by
  rw [outcomeInTurns_eq, orderInTurns_chunkByChunk, outcome_solve]

end Circuit

end WireSolve
