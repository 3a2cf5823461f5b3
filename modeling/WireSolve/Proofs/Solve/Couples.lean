/-
WireSolve/Proofs/Solve/Couples.lean

Two runs side by side.

`Solve.Couples R m n Q E` says of two steps that start in states related by `R`:
if both go through, their results and the states after them are related by `Q`;
if one of them fails, `E` relates how they end, with `none` for a step that goes
through.  The rules follow the way steps are put together, as those of
`Solve.Triple` do for a single run.

What two runs of the same hint have in common depends on little: on which wires
have a value, and on how values of one run are related to values of the other
(`Run.Congruence`).  `Circuit.couples_resolve` goes through the hint, and through
the hints that it needs, once for all such relations.
-/
import Mathlib.Data.List.Forall2
import WireSolve.Proofs.Outcome
import WireSolve.Solve.Hints

namespace WireSolve

/-- How two steps may end that do not both go through.  After one of them has failed, the other
may still go anywhere. -/
structure Endings (E : Option Failure → Option Failure → Prop) : Prop where
  /-- The first has failed, and the second goes on. -/
  left : ∀ e o, E (some e) none → E (some e) o
  /-- The second has failed, and the first goes on. -/
  right : ∀ e o, E none (some e) → E o (some e)

namespace Solve

variable {p : Nat} {α β γ δ : Type} {R : Run p → Run p → Prop}
  {Q : α → β → Run p → Run p → Prop} {S : γ → δ → Run p → Run p → Prop}
  {E : Option Failure → Option Failure → Prop} {m : Solve p α} {n : Solve p β}

/-- From states related by `R`, two steps end with `Q` if both go through, and with `E`
otherwise. -/
def Couples (R : Run p → Run p → Prop) (m : Solve p α) (n : Solve p β)
    (Q : α → β → Run p → Run p → Prop) (E : Option Failure → Option Failure → Prop) : Prop :=
  ∀ run run', R run run' → match m run, n run' with
    | .ok a t, .ok b t' => Q a b t t'
    | .ok _ _, .error e _ => E none (some e)
    | .error e _, .ok _ _ => E (some e) none
    | .error e _, .error e' _ => E (some e) (some e')

/-! ### The rules -/

theorem couples_pure {a : α} {b : β} (h : ∀ run run', R run run' → Q a b run run') :
    Couples R (pure a) (pure b) Q E :=
  h

theorem couples_throw {e e' : Failure} (h : E (some e) (some e')) :
    Couples R (throw e : Solve p α) (throw e' : Solve p β) Q E :=
  fun _ _ _ => h

theorem couples_throw_left {e : Failure} (hE : Endings E) (h : E (some e) none) :
    Couples R (throw e : Solve p α) n Q E := by
  intro run run' _
  rcases hn : n run' with ⟨b, t'⟩ | ⟨e', t'⟩
  · exact h
  · exact hE.left e _ h

theorem couples_throw_right {e : Failure} (hE : Endings E) (h : E none (some e)) :
    Couples R m (throw e : Solve p β) Q E := by
  intro run run' _
  rcases hm : m run with ⟨a, t⟩ | ⟨e', t⟩
  · exact h
  · exact hE.right e _ h

theorem couples_bind {f : α → Solve p γ} {g : β → Solve p δ} (hE : Endings E)
    (hmn : Couples R m n Q E) (hfg : ∀ a b, Couples (Q a b) (f a) (g b) S E) :
    Couples R (m >>= f) (n >>= g) S E := by
  intro run run' hR
  have hrun := hmn run run' hR
  rcases hm : m run with ⟨a, t⟩ | ⟨e, t⟩ <;> rcases hn : n run' with ⟨b, t'⟩ | ⟨e', t'⟩ <;>
    rw [hm, hn] at hrun
  · rw [bind_of_ok hm, bind_of_ok hn]
    exact hfg a b t t' hrun
  · -- the first goes on, but the second has failed
    rw [bind_of_ok hm, bind_of_error hn]
    rcases f a t with - | - <;> exact hE.right e' _ hrun
  · -- the second goes on, but the first has failed
    rw [bind_of_error hm, bind_of_ok hn]
    rcases g b t' with - | - <;> exact hE.left e _ hrun
  · rw [bind_of_error hm, bind_of_error hn]
    exact hrun

/-- Reading the wires leaves the states as they are. -/
theorem couples_wires {f : Assignment p → Solve p γ} {g : Assignment p → Solve p δ}
    (h : ∀ run run', R run run' →
      Couples (fun t t' => R t t' ∧ t.wires = run.wires ∧ t'.wires = run'.wires)
        (f run.wires) (g run'.wires) S E) :
    Couples R (wires >>= f) (wires >>= g) S E :=
  fun run run' hR => h run run' hR run run' ⟨hR, rfl, rfl⟩

theorem Couples.strengthen {R' : Run p → Run p → Prop} (h : Couples R m n Q E)
    (hR : ∀ run run', R' run run' → R run run') : Couples R' m n Q E :=
  fun run run' hrun => h run run' (hR run run' hrun)

theorem couples_forM {ι κ : Type} {l : List ι} {l' : List κ} {f : ι → Solve p PUnit}
    {g : κ → Solve p PUnit} (hE : Endings E)
    (h : List.Forall₂ (fun a b => Couples R (f a) (g b) (fun _ _ => R) E) l l') :
    Couples R (l.forM f) (l'.forM g) (fun _ _ => R) E := by
  induction h with
  | nil => exact couples_pure fun _ _ hR => hR
  | cons hab _ ih => exact couples_bind hE hab fun _ _ => ih

theorem couples_foldlM {ι : Type} {l : List ι} {f : α → ι → Solve p α} {g : β → ι → Solve p β}
    (hE : Endings E) {V : α → β → Prop}
    (h : ∀ i ∈ l, ∀ a b, V a b →
      Couples R (f a i) (g b i) (fun a b run run' => V a b ∧ R run run') E)
    {a : α} {b : β} (hab : V a b) :
    Couples R (l.foldlM f a) (l.foldlM g b) (fun a b run run' => V a b ∧ R run run') E := by
  induction l generalizing a b with
  | nil => exact couples_pure fun _ _ hR => ⟨hab, hR⟩
  | cons i rest ih =>
    rw [List.foldlM_cons, List.foldlM_cons]
    refine couples_bind hE (h i List.mem_cons_self a b hab) fun a' b' => ?_
    rintro run run' ⟨hV, hR⟩
    exact ih (fun j hj => h j (List.mem_cons_of_mem i hj)) hV run run' hR

theorem couples_mapM {ι : Type} {l : List ι} {f : ι → Solve p α} {g : ι → Solve p β}
    (hE : Endings E) {V : α → β → Prop}
    (h : ∀ i ∈ l, Couples R (f i) (g i) (fun a b run run' => V a b ∧ R run run') E) :
    Couples R (l.mapM f) (l.mapM g)
      (fun as bs run run' => List.Forall₂ V as bs ∧ R run run') E := by
  induction l with
  | nil => exact couples_pure fun _ _ hR => ⟨List.Forall₂.nil, hR⟩
  | cons i rest ih =>
    rw [List.mapM_cons, List.mapM_cons]
    have hrest := ih fun j hj => h j (List.mem_cons_of_mem i hj)
    refine couples_bind hE (h i List.mem_cons_self) fun a b => ?_
    rintro run run' ⟨hV, hR⟩
    refine couples_bind hE hrest (fun as bs => couples_pure ?_) run run' hR
    rintro t t' ⟨hVs, hR'⟩
    exact ⟨List.Forall₂.cons hV hVs, hR'⟩

end Solve

/-! ### Hints in two runs -/

/-- A relation between states, with one between values, that two runs of the same hint keep. -/
structure Run.Congruence {p : Nat} [Modulus p] (c : Circuit p) (R : Run p → Run p → Prop)
    (V : Fp p → Fp p → Prop) (E : Option Failure → Option Failure → Prop) : Prop where
  endings : Endings E
  /-- The same failure in both runs. -/
  same : ∀ e, E (some e) (some e)
  zero : V 0 0
  /-- The journals and the workers do not matter. -/
  bookkeeping : ∀ {run run'} journal journal' worker worker', R run run' →
    R { run with journal := journal, worker := worker }
      { run' with journal := journal', worker := worker' }
  /-- The same wires have values. -/
  solved : ∀ {run run'} w, R run run' → run.wires.isSolved w = run'.wires.isSolved w
  /-- A term is added to related sums. -/
  read : ∀ {run run'} (t : Term) {acc acc'}, R run run' → V acc acc' →
    (∃ x y, t.addTo c.pool run.wires acc = .ok x ∧ t.addTo c.pool run'.wires acc' = .ok y ∧
      V x y) ∨
    ∃ f, t.addTo c.pool run.wires acc = .error f ∧ t.addTo c.pool run'.wires acc' = .error f
  /-- A wire is given related values. -/
  write : ∀ {run run'} w {x y}, R run run' → V x y →
    (∃ s s', run.wires.set w x = .ok s ∧ run'.wires.set w y = .ok s' ∧
      R { run with wires := s } { run' with wires := s' }) ∨
    ∃ f, run.wires.set w x = .error f ∧ run'.wires.set w y = .error f
  /-- A function is called on related inputs. -/
  call : ∀ (id : HintId) (f : HintFunction) (n : Nat) {xs ys}, List.Forall₂ V xs ys →
    match f.call p (xs.map Fp.val) (Vector.replicate n 0),
      f.call p (ys.map Fp.val) (Vector.replicate n 0) with
    | .ok outputs, .ok outputs' =>
      List.Forall₂ (fun x y => V (Fp.ofNat x) (Fp.ofNat y)) outputs.toList outputs'.toList
    | .ok _, .error e => E none (some (.hintFailed id e.message))
    | .error e, .ok _ => E (some (.hintFailed id e.message)) none
    | .error e, .error e' =>
      E (some (.hintFailed id e.message)) (some (.hintFailed id e'.message))

namespace Circuit

open Solve

variable {p : Nat} [Modulus p] {c : Circuit p} {R : Run p → Run p → Prop}
  {V : Fp p → Fp p → Prop} {E : Option Failure → Option Failure → Prop}

theorem couples_emit (hR : Run.Congruence c R V E) (e e' : Event p) :
    Couples R (emit e) (emit e') (fun _ _ => R) E :=
  fun run run' h => hR.bookkeeping _ _ run.worker run'.worker h

theorem couples_assign (hR : Run.Congruence c R V E) (w : Wire) {x y : Fp p} (hxy : V x y) :
    Couples R (assign w x) (assign w y) (fun _ _ => R) E := by
  intro run run' h
  rw [assign_apply, assign_apply]
  rcases hR.write w h hxy with ⟨s, s', hs, hs', hR'⟩ | ⟨f, hs, hs'⟩
  · rw [hs, hs']
    exact hR'
  · rw [hs, hs']
    exact hR.same _

variable {produce : Nat → Solve p Unit}

theorem couples_provide (hR : Run.Congruence c R V E)
    (hproduce : ∀ h, Couples R (produce h) (produce h) (fun _ _ => R) E) (t : Term) :
    Couples R (c.provide produce t) (c.provide produce t) (fun _ _ => R) E := by
  refine couples_wires fun run run' hrun => ?_
  rw [hR.solved t.wire hrun]
  split
  · split
    · exact couples_throw (hR.same _)
    · next g _ => exact (hproduce g).strengthen fun _ _ h => h.1
  · exact couples_pure fun _ _ h => h.1

theorem couples_readInput (hR : Run.Congruence c R V E)
    (hproduce : ∀ h, Couples R (produce h) (produce h) (fun _ _ => R) E) (e : LinComb) :
    Couples R (c.readInput produce e) (c.readInput produce e)
      (fun x y run run' => V x y ∧ R run run') E := by
  refine couples_foldlM hR.endings (fun t _ acc acc' hacc => ?_) hR.zero
  refine couples_bind hR.endings (couples_provide hR hproduce t) fun _ _ => ?_
  refine couples_wires fun run run' hrun => ?_
  rcases hR.read t hrun hacc with ⟨x, y, hx, hy, hxy⟩ | ⟨f, hx, hy⟩
  · rw [hx, hy]
    exact couples_pure fun _ _ h => ⟨hxy, h.1⟩
  · rw [hx, hy]
    exact couples_throw (hR.same _)

/-- The outputs of two calls of a function go to the same wires. -/
theorem forall₂_zip {xs ys : List Nat}
    (h : List.Forall₂ (fun x y => V (Fp.ofNat x) (Fp.ofNat y)) xs ys) (ws : List Wire) :
    List.Forall₂ (fun wx wy => wx.1 = wy.1 ∧ V (Fp.ofNat wx.2) (Fp.ofNat wy.2))
      (ws.zip xs) (ws.zip ys) := by
  induction h generalizing ws with
  | nil => simp only [List.zip_nil_right, List.Forall₂.nil]
  | cons hxy _ ih =>
    cases ws with
    | nil => exact List.Forall₂.nil
    | cons w ws => exact List.Forall₂.cons ⟨rfl, hxy⟩ (ih ws)

theorem couples_callHint (hR : Run.Congruence c R V E) (h : Nat) (call : HintCall)
    (f : NamedHint) {xs ys : List (Fp p)} (hxys : List.Forall₂ V xs ys) :
    Couples R (callHint h call f xs) (callHint h call f ys) (fun _ _ => R) E := by
  refine couples_bind hR.endings (couples_emit hR _ _) fun _ _ => ?_
  have hcall := hR.call call.hint f.function call.outputs.size hxys
  rcases hxs : f.function.call p (xs.map Fp.val) (Vector.replicate call.outputs.size 0) with
      e | outputs <;>
    rcases hys : f.function.call p (ys.map Fp.val) (Vector.replicate call.outputs.size 0) with
      e' | outputs' <;>
    rw [hxs, hys] at hcall
  · exact couples_throw hcall
  · exact couples_throw_left hR.endings hcall
  · exact couples_throw_right hR.endings hcall
  · refine couples_forM hR.endings ((forall₂_zip hcall _).imp ?_)
    rintro ⟨w, x⟩ ⟨w', y⟩ ⟨rfl, hxy⟩
    exact couples_assign hR w hxy

/-- Two runs of the same hint, by the number of hints that are left. -/
theorem couples_resolve (hR : Run.Congruence c R V E) (table : HintTable) (pending : List Nat)
    (h : Nat) :
    Couples R (c.resolve table pending h) (c.resolve table pending h) (fun _ _ => R) E := by
  induction hn : pending.length using Nat.strongRecOn generalizing pending h with
  | ind n ih =>
    rw [resolve]
    split
    · exact couples_throw (hR.same _)
    · next call _ =>
      split
      · next hmem =>
        refine couples_wires fun run run' hrun => ?_
        rw [hR.solved call.outputs.start hrun]
        split
        · exact couples_pure fun _ _ h => h.1
        · split
          · exact couples_throw (hR.same _)
          · next f _ =>
            have hshorter : (pending.erase h).length < n := hn ▸ length_erase_lt_of_mem hmem
            have hinputs : Couples R _ _ _ E :=
              couples_mapM (l := call.inputs) hR.endings fun e _ =>
                couples_readInput hR (fun g => ih _ hshorter _ g rfl) e
            refine couples_bind hR.endings (hinputs.strengthen fun _ _ h => h.1)
              fun xs ys => ?_
            rintro t t' ⟨hxys, ht⟩
            exact couples_callHint hR h call f hxys t t' ht
      · exact couples_throw (hR.same _)

end Circuit

end WireSolve
