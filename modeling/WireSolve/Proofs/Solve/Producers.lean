/-
WireSolve/Proofs/Solve/Producers.lean

The hints that a hint needs, and the wires that they give values to.

A circuit passes its check exactly when it has no cycles of hints
(`Circuit.checkHints_eq_ok_iff`): the search finishes a hint after all its
prerequisites, so by the order in which hints are finished the relation
`Circuit.Needs` is well-founded.  A hint that is run calls hints that it needs,
directly or through others, and nothing else, so it gives values to the outputs of
these only (`Circuit.frame_of_resolve`).
-/
import Mathlib.Data.List.Find
import Mathlib.Logic.Relation
import Std.Data.TreeMap.Lemmas
import WireSolve.Proofs.Solve.Calls
import WireSolve.Solve.Cycle

namespace WireSolve

namespace Circuit

open Solve

variable {p : Nat} [Modulus p] {c : Circuit p} {table : HintTable} {pending : List Nat}
  {g h : Nat} {w : Wire} {run t : Run p}

/-! ### Producers -/

/-- The producer of a wire is a hint that has it among its outputs. -/
theorem produces_of_producer? (hg : c.producer? w = some g) : c.Produces g w := by
  have hfound := List.find?_some hg
  rcases hcall : c.hints[g]? with - | call
  · rw [hcall] at hfound
    cases hfound
  · rw [hcall] at hfound
    exact ⟨call, hcall, WireRange.mem_wires.2 hfound⟩

theorem lt_of_produces (hg : c.Produces g w) : g < c.hints.size := by
  obtain ⟨call, hcall, -⟩ := hg
  exact (Array.getElem?_eq_some_iff.1 hcall).1

/-- Where no outputs are shared, a hint is the producer of its outputs. -/
theorem producer?_of_produces (hdisjoint : ∀ g h w, c.Produces g w → c.Produces h w → g = h)
    (hg : c.Produces g w) :
    c.producer? w = some g := by
  rcases hfound : c.producer? w with - | g'
  · obtain ⟨call, hcall, hw⟩ := hg
    have hnone := List.find?_eq_none.1 hfound g
      (List.mem_reverse.2 (List.mem_range.2 (Array.getElem?_eq_some_iff.1 hcall).1))
    rw [hcall] at hnone
    exact absurd (WireRange.mem_wires.1 hw) hnone
  · rw [hdisjoint g g' w hg (produces_of_producer? hfound)]

/-- A hint is entered for all its outputs, over what was entered before. -/
theorem getElem?_foldl_insert (ws : List Wire) (h : Nat) (producers : Std.TreeMap Wire Nat)
    (w : Wire) :
    (ws.foldl (fun producers w => producers.insert w h) producers)[w]?
      = if w ∈ ws then some h else producers[w]? := by
  induction ws generalizing producers with
  | nil => simp
  | cons w' ws ih =>
    rw [List.foldl_cons, ih, Std.TreeMap.getElem?_insert]
    by_cases hmem : w ∈ ws
    · simp [hmem]
    · by_cases heq : w' = w
      · simp [heq]
      · simp [hmem, heq, Ne.symm heq]

/-- The search for the producer among the first hints of a list, the last one first. -/
theorem getElem?_foldl_producers (calls : List HintCall) (w : Wire) :
    (calls.zipIdx.foldl (fun (producers : Std.TreeMap Wire Nat) (x : HintCall × Nat) =>
      x.1.outputs.wires.foldl (fun producers w => producers.insert w x.2) producers) ∅)[w]?
      = (List.range calls.length).reverse.find? fun h =>
          calls[h]?.any fun call => call.outputs.contains w := by
  induction calls using List.reverseRecOn with
  | nil => simp
  | append_singleton calls call ih =>
    have hbefore : ∀ h ∈ (List.range calls.length).reverse,
        ((calls ++ [call])[h]?.any fun call => call.outputs.contains w)
          = calls[h]?.any fun call => call.outputs.contains w := by
      intro h hh
      rw [List.getElem?_append_left (List.mem_range.1 (List.mem_reverse.1 hh))]
    rw [List.zipIdx_append, List.foldl_append, List.length_append, List.length_singleton,
      List.range_succ, List.reverse_append, List.reverse_singleton, List.singleton_append,
      List.find?_cons, List.find?_congr hbefore, ← ih]
    simp only [List.zipIdx_singleton, List.foldl_cons, List.foldl_nil, getElem?_foldl_insert,
      List.getElem?_concat_length, Option.any_some, Nat.zero_add, WireRange.mem_wires]
    by_cases hw : call.outputs.contains w <;> simp [hw]

/-- The wires that hints produce are entered with their producers. -/
theorem getElem?_hintOutputs (c : Circuit p) (w : Wire) : c.hintOutputs[w]? = c.producer? w := by
  simpa [hintOutputs, producer?] using getElem?_foldl_producers c.hints.toList w

/-- Only hints of the circuit are needed. -/
theorem lt_of_needs (hneeds : c.Needs h g) : g < c.hints.size := by
  obtain ⟨_, -, _, -, _, -, -, -, hg⟩ := hneeds
  exact lt_of_produces (produces_of_producer? hg)

/-- A hint needs the producers of the wires it reads. -/
theorem needs_of_reads (hreads : c.Reads h w) (hg : c.producer? w = some g) : c.Needs h g := by
  obtain ⟨call, hcall, e, he, t, ht, hconst, hcoeff, rfl⟩ := hreads
  exact ⟨call, hcall, e, he, t, ht, hconst, hcoeff, hg⟩

/-! ### Hints that a hint involves -/

/-- The hints that a hint needs, directly or through others, and the hint itself. -/
def Involves (c : Circuit p) : Nat → Nat → Prop := Relation.ReflTransGen c.Needs

theorem closed_involves (c : Circuit p) (h : Nat) : c.Closed (c.Involves h) :=
  fun _ _ hg hneeds => hg.tail hneeds

/-- A hint that is needed does not involve the one that needs it. -/
theorem not_involves_of_needs (hwf : WellFounded fun g h => c.Needs h g)
    (hneeds : c.Needs h g) : ¬ c.Involves g h := by
  intro hinvolves
  have hcycle : Relation.TransGen c.Needs h h := Relation.TransGen.head' hneeds hinvolves
  have hwf' : WellFounded (Relation.TransGen fun g h => c.Needs h g) := hwf.transGen
  exact hwf'.irrefl.irrefl h (Relation.transGen_swap.1 hcycle)

/-- The hints of a circuit involve hints of the circuit. -/
theorem mem_range_of_involves (hh : h < c.hints.size) (hinvolves : c.Involves h g) :
    g ∈ List.range c.hints.size := by
  rw [List.mem_range]
  rcases Relation.ReflTransGen.cases_tail hinvolves with rfl | ⟨_, -, hneeds⟩
  · exact hh
  · exact lt_of_needs hneeds

/-- A hint that is needed does without the one that needs it. -/
theorem mem_erase_of_involves (hwf : WellFounded fun g h => c.Needs h g)
    (hpending : ∀ g, c.Involves h g → g ∈ pending) (hneeds : c.Needs h g) :
    ∀ g', c.Involves g g' → g' ∈ pending.erase h := by
  intro g' hinvolves
  have hne : g' ≠ h := fun heq => not_involves_of_needs hwf hneeds (heq ▸ hinvolves)
  exact (List.mem_erase_of_ne hne).2 (hpending g' (Relation.ReflTransGen.head hneeds hinvolves))

/-! ### No cycles -/

theorem visit_eq_ok {finished finished' : List Nat} (hvisit : c.visit pending finished h
    = .ok finished') :
    (h ∈ finished ∧ finished' = finished) ∨
      h ∈ pending ∧ ∃ before, (c.prerequisites h).reverse.foldlM
        (fun finished g => c.visit (pending.erase h) finished g) finished = .ok before ∧
        finished' = h :: before := by
  rw [visit] at hvisit
  split at hvisit
  · next hmem => exact Or.inl ⟨hmem, (Except.ok.inj hvisit).symm⟩
  · split at hvisit
    · next hmem =>
      obtain ⟨before, hbefore, hvisit⟩ := Outcome.bind_eq_ok_iff.1 hvisit
      exact Or.inr ⟨hmem, before, hbefore, (Outcome.pure_eq_ok_iff.1 hvisit).symm⟩
    · cases hvisit

/-- Finished hints are on no infinite chain of needs. -/
def Grounded (c : Circuit p) (finished : List Nat) : Prop :=
  ∀ h ∈ finished, Acc (fun g h => c.Needs h g) h

/-- A loop of visits, from what one visit does. -/
theorem grounded_of_foldlM {visit : List Nat → Nat → Except Nat (List Nat)} {hs : List Nat}
    (hvisit : ∀ finished g finished', c.Grounded finished → visit finished g = .ok finished' →
      c.Grounded finished' ∧ g ∈ finished' ∧ finished ⊆ finished')
    {finished finished' : List Nat} (hfinished : c.Grounded finished)
    (hloop : hs.foldlM visit finished = .ok finished') :
    c.Grounded finished' ∧ hs ⊆ finished' ∧ finished ⊆ finished' := by
  induction hs generalizing finished with
  | nil =>
    obtain rfl := Except.ok.inj hloop
    exact ⟨hfinished, List.nil_subset _, List.Subset.refl _⟩
  | cons g rest ih =>
    rw [List.foldlM_cons] at hloop
    obtain ⟨before, hbefore, hloop⟩ := Outcome.bind_eq_ok_iff.1 hloop
    obtain ⟨hgrounded, hg, hsub⟩ := hvisit finished g before hfinished hbefore
    obtain ⟨hgrounded', hrest, hsub'⟩ := ih hgrounded hloop
    exact ⟨hgrounded', List.cons_subset.2 ⟨hsub' hg, hrest⟩, fun x hx => hsub' (hsub hx)⟩

/-- A visit, by the number of hints that are not on the path. -/
theorem grounded_of_visit {finished finished' : List Nat} (hfinished : c.Grounded finished)
    (hvisit : c.visit pending finished h = .ok finished') :
    c.Grounded finished' ∧ h ∈ finished' ∧ finished ⊆ finished' := by
  induction hn : pending.length using Nat.strong_induction_on
    generalizing pending finished finished' h with
  | _ n ih =>
    rcases visit_eq_ok hvisit with ⟨hmem, rfl⟩ | ⟨hmem, before, hbefore, rfl⟩
    · exact ⟨hfinished, hmem, List.Subset.refl _⟩
    · have hshorter : (pending.erase h).length < n := hn ▸ length_erase_lt_of_mem hmem
      obtain ⟨hgrounded, hprerequisites, hsub⟩ := grounded_of_foldlM
        (fun _ _ _ hfinished hg => ih _ hshorter hfinished hg rfl) hfinished hbefore
      refine ⟨List.forall_mem_cons.2 ⟨Acc.intro h fun g hneeds => ?_, hgrounded⟩,
        List.mem_cons_self, fun g hg => List.mem_cons_of_mem h (hsub hg)⟩
      -- the prerequisites were finished before
      exact hgrounded g (hprerequisites (List.mem_reverse.2 (mem_prerequisites.2 hneeds)))

/-- Hints that pass the check have no cycles. -/
theorem wellFounded_needs (hcheck : c.checkHints = .ok ()) :
    WellFounded fun g h => c.Needs h g := by
  unfold checkHints at hcheck
  dsimp only at hcheck
  rcases hloop : (List.range c.hints.size).foldlM
    (fun finished h => c.visit (List.range c.hints.size) finished h) [] with e | finished
  · rw [hloop] at hcheck
    cases hcheck
  · obtain ⟨hgrounded, hall, -⟩ := grounded_of_foldlM (c := c)
      (fun _ _ _ hfinished hvisit => grounded_of_visit hfinished hvisit)
      (fun _ hh => absurd hh List.not_mem_nil) hloop
    refine ⟨fun h => Acc.intro h fun g hneeds => ?_⟩
    exact hgrounded g (hall (List.mem_range.2 (lt_of_needs hneeds)))

/-- Without cycles, a visit of a hint goes through from every path that it does not lead back to. -/
theorem visit_isOk (hwf : WellFounded fun g h => c.Needs h g)
    (hpending : ∀ g, c.Involves h g → g ∈ pending) (finished : List Nat) :
    ∃ finished', c.visit pending finished h = .ok finished' := by
  induction h using hwf.induction generalizing pending finished with
  | _ h ih =>
    rw [visit]
    split
    · exact ⟨finished, rfl⟩
    rw [dif_pos (hpending h Relation.ReflTransGen.refl)]
    -- each prerequisite is visited from a path that is longer by `h`
    obtain ⟨before, hbefore⟩ := Outcome.foldlM_isOk
      (f := fun finished g => c.visit (pending.erase h) finished g)
      (l := (c.prerequisites h).reverse) (b := finished) fun finished g hg => by
        have hneeds := mem_prerequisites.1 (List.mem_reverse.1 hg)
        exact ih g hneeds (mem_erase_of_involves hwf hpending hneeds) finished
    rw [hbefore]
    exact ⟨h :: before, rfl⟩

/-- A circuit passes its check exactly when its hints have no cycles. -/
theorem checkHints_eq_ok_iff :
    c.checkHints = .ok () ↔ WellFounded fun g h => c.Needs h g := by
  refine ⟨wellFounded_needs, fun hwf => ?_⟩
  obtain ⟨finished, hfinished⟩ := Outcome.foldlM_isOk
    (f := fun finished h => c.visit (List.range c.hints.size) finished h)
    (l := List.range c.hints.size) (b := []) fun finished h hh =>
      visit_isOk hwf (fun _ => mem_range_of_involves (List.mem_range.1 hh)) finished
  unfold checkHints
  dsimp only
  rw [hfinished]

/-! ### What a hint gives values to -/

/-- Calls of hints that involve no others give values to their outputs, and record no sides. -/
theorem keptByCalls_frame {H : Nat → Prop} (run₀ : Run p) :
    c.KeptByCalls table H fun run => run.sides = run₀.sides ∧
      ∀ w, run.wires.isSolved w = true →
        run₀.wires.isSolved w = true ∨ ∃ g, H g ∧ c.Produces g w := by
  rintro h call f xs run t hh ⟨hsides, hframe⟩ hcall - - hres
  obtain ⟨outputs, s, -, hset, rfl⟩ := callHint_eq_ok_iff.1 hres
  refine ⟨hsides, fun w hw => ?_⟩
  by_cases hmem : w ∈ call.outputs.wires
  · exact Or.inr ⟨h, hh, call, hcall, hmem⟩
  · refine hframe w ?_
    rw [← hw, Assignment.isSolved, Assignment.isSolved,
      Assignment.get?_of_setAll_of_notMem hset (by rwa [WireRange.map_fst_zip])]

/-- A hint gives values to outputs of hints that it involves, and records no sides. -/
theorem frame_of_resolve (hres : c.resolve table pending h run = .ok () t) :
    t.sides = run.sides ∧ ∀ w, t.wires.isSolved w = true →
      run.wires.isSolved w = true ∨ ∃ g, c.Involves h g ∧ c.Produces g w :=
  of_resolve (closed_involves c h) (keptByCalls_frame run) Relation.ReflTransGen.refl
    ⟨rfl, fun _ hw => Or.inl hw⟩ hres

end Circuit

end WireSolve
