/-
WireSolve/Proofs/Solve/Triple.lean

Pre- and postconditions for the steps of a solve.

`Solve.Triple P m Q E` says that from a state with `P` the step `m` either goes
through, and its result and the state after it satisfy `Q`, or fails, and the
failure and the state it leaves satisfy `E`.  The rules follow the way steps are
put together: `triple_bind` for a sequence, and one rule for each kind of loop.

`Solve.Keeps P m` is the case of an invariant: whatever happens, `P` is kept.
-/
import Mathlib.Data.List.Forall2
import WireSolve.Proofs.Outcome

namespace WireSolve

namespace Solve

variable {p : Nat} {α β : Type} {P : Run p → Prop} {Q : α → Run p → Prop} {R : β → Run p → Prop}
  {E : Failure → Run p → Prop} {m : Solve p α} {f : α → Solve p β}

/-- From a state with `P`, a step that goes through ends with `Q`, and one that fails with `E`. -/
def Triple (P : Run p → Prop) (m : Solve p α) (Q : α → Run p → Prop)
    (E : Failure → Run p → Prop) : Prop :=
  ∀ run, P run → match m run with
    | .ok a t => Q a t
    | .error e t => E e t

theorem Triple.of_ok {run t : Run p} {a : α} (h : Triple P m Q E) (hP : P run)
    (hm : m run = .ok a t) : Q a t := by
  have hrun := h run hP
  rw [hm] at hrun
  exact hrun

theorem Triple.of_error {run t : Run p} {e : Failure} (h : Triple P m Q E) (hP : P run)
    (hm : m run = .error e t) : E e t := by
  have hrun := h run hP
  rw [hm] at hrun
  exact hrun

/-! ### The rules -/

theorem triple_pure {a : α} (h : ∀ run, P run → Q a run) : Triple P (pure a) Q E :=
  h

theorem triple_throw {e : Failure} (h : ∀ run, P run → E e run) :
    Triple P (throw e : Solve p α) Q E :=
  h

/-- A sequence: what the first step ends with is where the second starts. -/
theorem triple_bind (hm : Triple P m Q E) (hf : ∀ a, Triple (Q a) (f a) R E) :
    Triple P (m >>= f) R E := by
  intro run hP
  have hrun := hm run hP
  rcases hm : m run with ⟨a, s⟩ | ⟨e, s⟩
  · rw [hm] at hrun
    rw [bind_of_ok hm]
    exact hf a s hrun
  · rw [hm] at hrun
    rw [bind_of_error hm]
    exact hrun

theorem Triple.weaken {Q' : α → Run p → Prop} (h : Triple P m Q E)
    (hQ : ∀ a run, Q a run → Q' a run) : Triple P m Q' E := by
  intro run hP
  have hrun := h run hP
  rcases hm : m run with ⟨a, s⟩ | ⟨e, s⟩
  · rw [hm] at hrun
    exact hQ a s hrun
  · rw [hm] at hrun
    exact hrun

/-- Reading the wires leaves the state as it is. -/
theorem triple_wires {f : Assignment p → Solve p β}
    (h : ∀ s, Triple (fun run => P run ∧ run.wires = s) (f s) R E) :
    Triple P (wires >>= f) R E :=
  fun run hP => h run.wires run ⟨hP, rfl⟩

/-- A computation that does not touch the state. -/
theorem triple_lift {n : Except Fault α} (hok : ∀ a, n = .ok a → ∀ run, P run → Q a run)
    (herror : ∀ e, n = .error e → ∀ run, P run → E (.fault e) run) :
    Triple P (liftM n : Solve p α) Q E := by
  rcases hn : n with e | a
  · exact herror e hn
  · exact hok a hn

/-- A loop that keeps `P` as long as its steps go through. -/
theorem triple_forM {ι : Type} {l : List ι} {f : ι → Solve p PUnit}
    (h : ∀ a ∈ l, Triple P (f a) (fun _ => P) E) : Triple P (l.forM f) (fun _ => P) E := by
  induction l with
  | nil => exact triple_pure fun _ h => h
  | cons a rest ih =>
    have hrest := ih fun b hb => h b (List.mem_cons_of_mem a hb)
    exact triple_bind (h a List.mem_cons_self) fun _ => hrest

/-- A loop that carries a result along. -/
theorem triple_foldlM {ι : Type} {l : List ι} {f : β → ι → Solve p β} (b : β)
    (h : ∀ b, ∀ a ∈ l, Triple (R b) (f b a) R E) : Triple (R b) (l.foldlM f b) R E := by
  induction l generalizing b with
  | nil => exact triple_pure fun _ h => h
  | cons a rest ih =>
    rw [List.foldlM_cons]
    exact triple_bind (h b a List.mem_cons_self) fun b' =>
      ih b' fun b'' a' ha' => h b'' a' (List.mem_cons_of_mem a ha')

/-- A loop that collects results, each of which is known. -/
theorem triple_mapM {ι : Type} {l : List ι} {f : ι → Solve p β} {V : ι → β → Prop}
    (h : ∀ a ∈ l, Triple P (f a) (fun b run => V a b ∧ P run) E) :
    Triple P (l.mapM f) (fun bs run => List.Forall₂ V l bs ∧ P run) E := by
  induction l with
  | nil => exact triple_pure fun _ h => ⟨List.Forall₂.nil, h⟩
  | cons a rest ih =>
    rw [List.mapM_cons]
    have hrest := ih fun b hb => h b (List.mem_cons_of_mem a hb)
    refine triple_bind (h a List.mem_cons_self) fun b => ?_
    rintro run ⟨hb, hP⟩
    refine triple_bind hrest (fun bs => triple_pure ?_) run hP
    rintro t ⟨hbs, hP'⟩
    exact ⟨List.Forall₂.cons hb hbs, hP'⟩

/-! ### Invariants -/

/-- Whether the step goes through or fails, `P` is kept. -/
def Keeps (P : Run p → Prop) (m : Solve p α) : Prop :=
  Triple P m (fun _ => P) (fun _ => P)

theorem keeps_pure (a : α) : Keeps P (pure a) :=
  triple_pure fun _ h => h

theorem keeps_throw (e : Failure) : Keeps P (throw e : Solve p α) :=
  triple_throw fun _ h => h

theorem keeps_bind (hm : Keeps P m) (hf : ∀ a, Keeps P (f a)) : Keeps P (m >>= f) :=
  triple_bind hm hf

theorem keeps_wires : Keeps P (wires : Solve p (Assignment p)) :=
  fun _ h => h

theorem keeps_forM {ι : Type} {l : List ι} {f : ι → Solve p PUnit}
    (h : ∀ a ∈ l, Keeps P (f a)) : Keeps P (l.forM f) :=
  triple_forM h

theorem keeps_mapM {ι : Type} {l : List ι} {f : ι → Solve p β}
    (h : ∀ a ∈ l, Keeps P (f a)) : Keeps P (l.mapM f) := by
  have hmap := triple_mapM (V := fun _ _ => True) fun a ha =>
    (h a ha).weaken fun _ _ hP => ⟨trivial, hP⟩
  exact hmap.weaken fun _ _ hP => hP.2

end Solve

end WireSolve
