/-
WireSolve/Proofs/Solve/Cycle.lean

The check of the hints is exact: it accepts a circuit when no hint needs its own
outputs, and it names a hint that does when there is one.

The loop with a path and marks (`Circuit.searchHints`) and the recursion
(`Circuit.checkHints`) give the same answer.  At every point of the recursion the
marks are a function of what is pending and what is finished
(`Circuit.marksAt`): done is finished, new is pending, and what is neither is on the
path.  So the rounds that the loop spends on a list of prerequisites are the visits of
the recursion (`Circuit.followPath_cons`).

A refusal names a hint that is not pending where it is visited, and every hint that is
not pending leads to the one that is visited (`Circuit.Leads`).

Main result: `Circuit.searchHints_exact`.
-/
import WireSolve.Proofs.Solve.Producers
import WireSolve.Solve.Search

namespace WireSolve

namespace Circuit

variable {p : Nat} [Modulus p] {c : Circuit p} {pending finished rest : List Nat} {g h : Nat}
  {marks : Marks} {path : SearchPath}

/-! ### The marks in the recursion -/

/-- The mark of a hint where some hints are pending and some are finished. -/
def markAt (pending finished : List Nat) (g : Nat) : Mark :=
  if g ∈ finished then .done else if g ∈ pending then .new else .active

/-- The marks of all hints where some are pending and some are finished. -/
def marksAt (c : Circuit p) (pending finished : List Nat) : Marks :=
  Array.ofFn fun g : Fin c.hints.size => markAt pending finished g

theorem getElem?_marksAt (g : Nat) : (c.marksAt pending finished)[g]?
    = if g < c.hints.size then some (markAt pending finished g) else none := by
  rw [marksAt, Array.getElem?_ofFn]
  rfl

/-- Before the search, all hints are new. -/
theorem replicate_new (c : Circuit p) :
    Array.replicate c.hints.size .new = c.marksAt (List.range c.hints.size) [] := by
  apply Array.ext_getElem?
  intro g
  rw [Array.getElem?_replicate, getElem?_marksAt]
  by_cases hg : g < c.hints.size
  · rw [if_pos hg, if_pos hg, markAt, if_neg List.not_mem_nil, if_pos (List.mem_range.2 hg)]
  · rw [if_neg hg, if_neg hg]

/-- A mark is changed in one place. -/
theorem mark_marksAt {pending' finished' : List Nat} {m : Mark}
    (hh : markAt pending' finished' h = m)
    (hother : ∀ g, g ≠ h → markAt pending' finished' g = markAt pending finished g) :
    (c.marksAt pending finished).mark h m = c.marksAt pending' finished' := by
  apply Array.ext_getElem?
  intro g
  rw [Marks.mark, Array.getElem?_setIfInBounds, getElem?_marksAt, getElem?_marksAt]
  split
  · next hhg =>
    rw [← hhg, hh, marksAt, Array.size_ofFn]
  · next hhg => rw [hother g (Ne.symm hhg)]

/-- A hint that is started is taken out of what is pending. -/
theorem mark_active (hnodup : pending.Nodup) (hh : h ∉ finished) :
    (c.marksAt pending finished).mark h .active = c.marksAt (pending.erase h) finished := by
  apply mark_marksAt
  · rw [markAt, if_neg hh, if_neg hnodup.not_mem_erase]
  · intro g hgh
    simp only [markAt, List.mem_erase_of_ne hgh]

/-- A hint that is done is finished. -/
theorem mark_done :
    (c.marksAt (pending.erase h) finished).mark h .done = c.marksAt pending (h :: finished) := by
  apply mark_marksAt
  · rw [markAt, if_pos List.mem_cons_self]
  · intro g hgh
    simp only [markAt, List.mem_erase_of_ne hgh, List.mem_cons, hgh, false_or]

/-! ### Rounds of the loop -/

theorem followPath_of_active (hg : marks[g]? = some .active) :
    c.followPath marks ((h, g :: rest) :: path) = .error g := by
  rw [followPath]
  split <;> simp_all

theorem followPath_of_new (hg : marks[g]? = some .new) :
    c.followPath marks ((h, g :: rest) :: path) = c.followPath (marks.mark g .active)
      ((g, (c.prerequisites g).reverse) :: (h, rest) :: path) := by
  rw [followPath]
  split <;> simp_all

theorem followPath_of_done (hg : marks[g]? = some .done) :
    c.followPath marks ((h, g :: rest) :: path) = c.followPath marks ((h, rest) :: path) := by
  rw [followPath]
  split <;> simp_all

theorem followPath_of_nil :
    c.followPath marks ((h, []) :: path) = c.followPath (marks.mark h .done) path := by
  rw [followPath]

/-- Prerequisites are hints of the circuit. -/
theorem lt_of_mem_prerequisites (hg : g ∈ (c.prerequisites h).reverse) : g < c.hints.size :=
  lt_of_needs (mem_prerequisites.1 (List.mem_reverse.1 hg))

/-- A visit of a pending hint: its prerequisites are visited, and then it is finished. -/
theorem visit_of_pending (hfinished : h ∉ finished) (hpending : h ∈ pending) :
    c.visit pending finished h = (do
      let finished ← (c.prerequisites h).reverse.foldlM
        (fun finished g => c.visit (pending.erase h) finished g) finished
      return h :: finished) := by
  rw [visit, if_neg hfinished, dif_pos hpending]

/-- The rounds that are spent on the prerequisites of the hint on top are the visits of these.  The
induction is on the number of hints that are pending, and for each on the prerequisites left. -/
theorem followPath_cons (hnodup : pending.Nodup) (hrest : ∀ g ∈ rest, g < c.hints.size)
    (finished : List Nat) (h : Nat) (path : SearchPath) :
    c.followPath (c.marksAt pending finished) ((h, rest) :: path) = (do
      let finished ← rest.foldlM (fun finished g => c.visit pending finished g) finished
      c.followPath (c.marksAt pending finished) ((h, []) :: path)) := by
  induction hn : pending.length using Nat.strong_induction_on
    generalizing pending rest finished h path with
  | _ n ih =>
    induction rest generalizing finished with
    | nil => rfl
    | cons g rest ih_rest =>
      obtain ⟨hg, hrest⟩ := List.forall_mem_cons.1 hrest
      have hmark : (c.marksAt pending finished)[g]? = some (markAt pending finished g) := by
        rw [getElem?_marksAt, if_pos hg]
      rw [List.foldlM_cons, bind_assoc]
      by_cases hfinished : g ∈ finished
      · -- it is done, and the round only drops it
        rw [markAt, if_pos hfinished] at hmark
        rw [followPath_of_done hmark, ih_rest hrest, visit, if_pos hfinished, Outcome.ok_bind]
      by_cases hpending : g ∈ pending
      · -- it is new: first come its own prerequisites, with one hint fewer that is pending
        rw [markAt, if_neg hfinished, if_pos hpending] at hmark
        have hshorter : (pending.erase g).length < n := hn ▸ length_erase_lt_of_mem hpending
        rw [followPath_of_new hmark, mark_active hnodup hfinished,
          ih _ hshorter (hnodup.erase g) (fun _ => lt_of_mem_prerequisites) finished g _ rfl,
          visit_of_pending hfinished hpending, bind_assoc]
        congr 1
        funext finished'
        rw [pure_bind, followPath_of_nil, mark_done, ih_rest hrest]
      · -- it is on the path, where both stop
        rw [markAt, if_neg hfinished, if_neg hpending] at hmark
        rw [followPath_of_active hmark, visit, if_neg hfinished, dif_neg hpending]
        rfl

/-- A path that starts at a hint of the circuit is a visit of it. -/
theorem followFrom_eq (hnodup : pending.Nodup) (hh : h < c.hints.size) (hpending : h ∈ pending)
    (finished : List Nat) :
    c.followFrom (c.marksAt pending finished) h
      = (c.visit pending finished h).map (c.marksAt pending) := by
  rw [followFrom, getElem?_marksAt, if_pos hh, markAt]
  by_cases hfinished : h ∈ finished
  · rw [if_pos hfinished, if_neg (by simp), visit, if_pos hfinished]
    rfl
  · rw [if_neg hfinished, if_pos hpending, if_pos rfl, mark_active hnodup hfinished,
      followPath_cons (hnodup.erase h) (fun _ => lt_of_mem_prerequisites),
      visit_of_pending hfinished hpending]
    rcases (c.prerequisites h).reverse.foldlM
      (fun finished g => c.visit (pending.erase h) finished g) finished with e | finished'
    · rfl
    · change c.followPath _ _ = .ok _
      rw [followPath_of_nil, mark_done, followPath]

/-- The loop over the hints, from what one path comes to. -/
theorem foldlM_followFrom (hnodup : pending.Nodup)
    (hrest : ∀ h ∈ rest, h < c.hints.size ∧ h ∈ pending) (finished : List Nat) :
    rest.foldlM c.followFrom (c.marksAt pending finished)
      = (rest.foldlM (fun finished h => c.visit pending finished h) finished).map
          (c.marksAt pending) := by
  induction rest generalizing finished with
  | nil => rfl
  | cons h rest ih =>
    obtain ⟨hh, hrest⟩ := List.forall_mem_cons.1 hrest
    rw [List.foldlM_cons, List.foldlM_cons, followFrom_eq hnodup hh.1 hh.2]
    rcases c.visit pending finished h with e | finished'
    · rfl
    · exact ih hrest finished'

/-- The loop gives the answer of the recursion. -/
theorem searchHints_eq (c : Circuit p) : c.searchHints = c.checkHints := by
  rw [searchHints, checkHints, replicate_new, foldlM_followFrom List.nodup_range
    (fun h hh => ⟨List.mem_range.1 hh, hh⟩)]
  rcases (List.range c.hints.size).foldlM
    (fun finished h => c.visit (List.range c.hints.size) finished h) [] <;> rfl

/-! ### What a refusal names -/

/-- Every hint that is not pending leads to a hint. -/
def Leads (c : Circuit p) (pending : List Nat) (h : Nat) : Prop :=
  ∀ x < c.hints.size, x ∉ pending → Relation.TransGen c.Needs x h

/-- What leads to a hint leads to its prerequisites, and so does the hint. -/
theorem Leads.erase (hleads : c.Leads pending h) (hneeds : c.Needs h g) :
    c.Leads (pending.erase h) g := by
  intro x hx hmem
  by_cases hxh : x = h
  · exact hxh ▸ Relation.TransGen.single hneeds
  · rw [List.mem_erase_of_ne hxh] at hmem
    exact (hleads x hx hmem).tail hneeds

/-- A loop that fails has failed at some step. -/
theorem exists_of_foldlM_eq_error {visit : List Nat → Nat → Except Nat (List Nat)} {e : Nat}
    (hloop : rest.foldlM visit finished = .error e) :
    ∃ g ∈ rest, ∃ finished, visit finished g = .error e := by
  induction rest generalizing finished with
  | nil => cases hloop
  | cons g rest ih =>
    rw [List.foldlM_cons, Outcome.bind_eq_error_iff] at hloop
    rcases hloop with hg | ⟨finished', -, hrest⟩
    · exact ⟨g, List.mem_cons_self, finished, hg⟩
    · obtain ⟨g', hmem, hg'⟩ := ih hrest
      exact ⟨g', List.mem_cons_of_mem g hmem, hg'⟩

/-- A visit that fails names a hint on a cycle, by the number of hints that are pending. -/
theorem cycle_of_visit_eq_error (hh : h < c.hints.size) (hleads : c.Leads pending h)
    (hvisit : c.visit pending finished h = .error g) : Relation.TransGen c.Needs g g := by
  induction hn : pending.length using Nat.strong_induction_on
    generalizing pending finished h with
  | _ n ih =>
    rw [visit] at hvisit
    split at hvisit
    · cases hvisit
    split at hvisit
    · next hmem =>
      -- the failure is that of a prerequisite
      rcases Outcome.bind_eq_error_iff.1 hvisit with hloop | ⟨_, -, hpure⟩
      · obtain ⟨g', hmem', finished', hfails⟩ := exists_of_foldlM_eq_error hloop
        have hneeds := mem_prerequisites.1 (List.mem_reverse.1 hmem')
        exact ih _ (hn ▸ length_erase_lt_of_mem hmem) (lt_of_needs hneeds)
          (hleads.erase hneeds) hfails rfl
      · exact absurd hpure Outcome.pure_ne_error
    · next hmem =>
      -- the hint is on the path
      obtain rfl := Except.error.inj hvisit
      exact hleads h hh hmem

/-- A circuit that is refused has a cycle of hints, and the refusal names a hint on it. -/
theorem cycle_of_checkHints_eq_error {f : Fault} (hcheck : c.checkHints = .error f) :
    ∃ g, f = .hintCycle g ∧ Relation.TransGen c.Needs g g := by
  unfold checkHints at hcheck
  dsimp only at hcheck
  split at hcheck
  · cases hcheck
  · next g hloop =>
    obtain ⟨h, hmem, finished, hfails⟩ := exists_of_foldlM_eq_error hloop
    have hlt := List.mem_range.1 hmem
    have hleads : c.Leads (List.range c.hints.size) h :=
      fun x hx hnot => absurd (List.mem_range.2 hx) hnot
    exact ⟨g, (Except.error.inj hcheck).symm, cycle_of_visit_eq_error hlt hleads hfails⟩

/-- A circuit passes its check exactly when no hint needs itself, directly or through others. -/
theorem checkHints_eq_ok_iff_no_cycle :
    c.checkHints = .ok () ↔ ∀ h, ¬Relation.TransGen c.Needs h h := by
  constructor
  · intro hcheck h hcycle
    have hwf := (checkHints_eq_ok_iff.1 hcheck).transGen
    exact hwf.irrefl.irrefl h (Relation.transGen_swap.1 hcycle)
  · intro hnone
    rcases hcheck : c.checkHints with f | ⟨⟩
    · obtain ⟨g, -, hcycle⟩ := cycle_of_checkHints_eq_error hcheck
      exact absurd hcycle (hnone g)
    · rfl

/-! ### The check is exact -/

/-- A hint reads a wire that is entered as the output of a hint. -/
theorem needs_iff : c.Needs h g ↔ ∃ call, c.hints[h]? = some call ∧
    ∃ e ∈ call.inputs, ∃ t ∈ e, ¬t.isConstant ∧ t.coeff ≠ 0 ∧
      c.hintOutputs[t.wire]? = some g := by
  simp only [getElem?_hintOutputs]
  exact Iff.rfl

/-- What the check of the hints decides, for every circuit. -/
structure CheckIsExact (c : Circuit p) : Prop where
  /-- A hint needs those that the wires it reads are entered with. -/
  needs : ∀ h g, c.Needs h g ↔ ∃ call, c.hints[h]? = some call ∧
    ∃ e ∈ call.inputs, ∃ t ∈ e, ¬t.isConstant ∧ t.coeff ≠ 0 ∧ c.hintOutputs[t.wire]? = some g
  /-- The loop and the recursion give the same answer. -/
  search : c.searchHints = c.checkHints
  /-- A circuit is accepted exactly when its hints have no cycle. -/
  ok_iff : c.searchHints = .ok () ↔ ∀ h, ¬Relation.TransGen c.Needs h h
  /-- A refusal names a hint on a cycle. -/
  names : ∀ f, c.searchHints = .error f → ∃ g, f = .hintCycle g ∧ Relation.TransGen c.Needs g g

/-- The check of the hints finds a cycle where there is one, and nothing else. -/
theorem searchHints_exact (c : Circuit p) : c.CheckIsExact where
  needs _ _ := needs_iff
  search := searchHints_eq c
  ok_iff := searchHints_eq c ▸ checkHints_eq_ok_iff_no_cycle
  names _ hf := cycle_of_checkHints_eq_error (searchHints_eq c ▸ hf)

/-- A circuit in which two hints have an output in common, and the later one needs itself through
the last. -/
def tangled : Circuit 17 where
  family := .gates
  publicWires := 0
  secretWires := 0
  internalWires := 4
  hints := #[⟨0, [[⟨1, 1⟩, ⟨1, 0⟩]], ⟨1, 3⟩⟩, ⟨0, [[⟨1, 3⟩]], ⟨1, 2⟩⟩,
    ⟨0, [[⟨0, 2⟩, ⟨2, 1⟩]], ⟨3, 4⟩⟩]

/-- Wire 1 counts as an output of hint 1, so hint 0, which reads it, is not on the cycle. -/
theorem tangled_exact :
    tangled.searchHints = .error (.hintCycle 1) ∧ Relation.TransGen tangled.Needs 1 1 := by
  have hcheck : tangled.checkHints = .error (.hintCycle 1) := by decide +kernel
  have hfails := (searchHints_eq tangled).trans hcheck
  obtain ⟨g, hg, hcycle⟩ := (searchHints_exact tangled).names _ hfails
  cases hg
  exact ⟨hfails, hcycle⟩

end Circuit

end WireSolve
