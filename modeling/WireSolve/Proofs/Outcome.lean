/-
WireSolve/Proofs/Outcome.lean

Peeling a computation apart: what a sequence of steps returns, or how it fails,
said of its first step and the rest.  Once for `Except`, in which terms and
constraints are processed, and once for `Solve`, which keeps its state when it
fails.
-/
import WireSolve.Solve.State

namespace WireSolve

/-! ### Steps without a state -/

namespace Outcome

variable {ε α β : Type} {m : Except ε α} {f : α → Except ε β}

theorem bind_eq_ok_iff {b : β} : (m >>= f) = .ok b ↔ ∃ a, m = .ok a ∧ f a = .ok b := by
  rcases m with e | a <;> simp [bind, Except.bind]

theorem bind_eq_error_iff {e : ε} :
    (m >>= f) = .error e ↔ m = .error e ∨ ∃ a, m = .ok a ∧ f a = .error e := by
  rcases m with e' | a <;> simp [bind, Except.bind]

theorem ok_bind (a : α) : ((.ok a : Except ε α) >>= f) = f a := rfl

theorem pure_eq_ok_iff {a b : α} : (pure a : Except ε α) = .ok b ↔ a = b := by
  simp [pure, Except.pure]

theorem pure_ne_error {a : α} {e : ε} : (pure a : Except ε α) ≠ .error e := by
  simp [pure, Except.pure]

/-- A loop all of whose steps go through. -/
theorem mapM_eq_ok {l : List α} {g : α → β} (h : ∀ a ∈ l, f a = .ok (g a)) :
    l.mapM f = .ok (l.map g) := by
  induction l with
  | nil => rfl
  | cons a rest ih =>
    rw [List.mapM_cons, h a List.mem_cons_self, ih fun b hb => h b (List.mem_cons_of_mem a hb)]
    rfl

/-- A loop that goes through has gone through at every step. -/
theorem exists_of_mapM_eq_ok {l : List α} {bs : List β} (h : l.mapM f = .ok bs) {a : α}
    (ha : a ∈ l) : ∃ b ∈ bs, f a = .ok b := by
  induction l generalizing bs with
  | nil => cases ha
  | cons a' rest ih =>
    rw [List.mapM_cons] at h
    obtain ⟨b, hb, h⟩ := bind_eq_ok_iff.1 h
    obtain ⟨bs', hrest, h⟩ := bind_eq_ok_iff.1 h
    obtain rfl := pure_eq_ok_iff.1 h
    rcases List.mem_cons.1 ha with rfl | ha
    · exact ⟨b, List.mem_cons_self, hb⟩
    · obtain ⟨b', hmem, hb'⟩ := ih hrest ha
      exact ⟨b', List.mem_cons_of_mem b hmem, hb'⟩

/-- A loop goes through exactly if all of its steps do. -/
theorem mapM_isOk_iff {l : List α} : (∃ bs, l.mapM f = .ok bs) ↔ ∀ a ∈ l, ∃ b, f a = .ok b := by
  constructor
  · rintro ⟨bs, h⟩ a ha
    obtain ⟨b, -, hb⟩ := exists_of_mapM_eq_ok h ha
    exact ⟨b, hb⟩
  · intro h
    induction l with
    | nil => exact ⟨[], rfl⟩
    | cons a rest ih =>
      obtain ⟨b, hb⟩ := h a List.mem_cons_self
      obtain ⟨bs, hbs⟩ := ih fun a' ha' => h a' (List.mem_cons_of_mem a ha')
      refine ⟨b :: bs, ?_⟩
      rw [List.mapM_cons, hb, hbs]
      rfl

/-- A loop all of whose steps go through, whatever they are handed. -/
theorem foldlM_isOk {f : β → α → Except ε β} {l : List α}
    (h : ∀ b, ∀ a ∈ l, ∃ b', f b a = .ok b') (b : β) : ∃ b', l.foldlM f b = .ok b' := by
  induction l generalizing b with
  | nil => exact ⟨b, rfl⟩
  | cons a rest ih =>
    obtain ⟨b', hb'⟩ := h b a List.mem_cons_self
    rw [List.foldlM_cons, hb']
    exact ih (fun b a' ha' => h b a' (List.mem_cons_of_mem a ha')) b'

variable {n : Except Fault α}

theorem lift_ok (a : α) : (liftM (.ok a : Except Fault α) : Except Refusal α) = .ok a := rfl

theorem lift_error (f : Fault) :
    (liftM (.error f : Except Fault α) : Except Refusal α) = .error (.fault f) :=
  rfl

theorem lift_ok_bind (a : α) (f : α → Except Refusal β) :
    ((liftM (.ok a : Except Fault α) : Except Refusal α) >>= f) = f a :=
  rfl

/-- What is malformed stops a constraint, and what is well formed goes on. -/
theorem lift_eq_ok_iff {a : α} : (liftM n : Except Refusal α) = .ok a ↔ n = .ok a := by
  rcases n with f | b
  · simp [lift_error]
  · simp [lift_ok]

theorem lift_ne_mismatch {m : Mismatch} :
    (liftM n : Except Refusal α) ≠ .error (.mismatch m) := by
  rcases n with f | b
  · simp [lift_error]
  · simp [lift_ok]

end Outcome

/-! ### Steps of a solve -/

namespace Solve

variable {p : Nat} {α β : Type} {m : Solve p α} {f : α → Solve p β} {run t : Run p}

/-- A step that goes through hands its result and its state on. -/
theorem bind_of_ok {a : α} (h : m run = .ok a t) : (m >>= f) run = f a t := by
  change EStateM.bind m f run = f a t
  rw [EStateM.bind, h]

/-- A step that fails is the end. -/
theorem bind_of_error {e : Failure} (h : m run = .error e t) : (m >>= f) run = .error e t := by
  change EStateM.bind m f run = _
  rw [EStateM.bind, h]

theorem bind_eq_ok_iff {b : β} :
    (m >>= f) run = .ok b t ↔ ∃ a s, m run = .ok a s ∧ f a s = .ok b t := by
  rcases hm : m run with ⟨a, s⟩ | ⟨e, s⟩
  · rw [bind_of_ok hm]
    constructor
    · intro h
      exact ⟨a, s, rfl, h⟩
    · rintro ⟨a', s', h', h⟩
      cases h'
      exact h
  · rw [bind_of_error hm]
    simp

theorem bind_eq_error_iff {e : Failure} :
    (m >>= f) run = .error e t ↔
      m run = .error e t ∨ ∃ a s, m run = .ok a s ∧ f a s = .error e t := by
  rcases hm : m run with ⟨a, s⟩ | ⟨e', s⟩
  · rw [bind_of_ok hm]
    constructor
    · intro h
      exact Or.inr ⟨a, s, rfl, h⟩
    · rintro (h' | ⟨a', s', h', h⟩)
      · cases h'
      · cases h'
        exact h
  · rw [bind_of_error hm]
    simp

/-! ### The primitive steps -/

theorem assign_apply (w : Wire) (x : Fp p) (run : Run p) :
    assign w x run = match run.wires.set w x with
      | .ok s => .ok () { run with wires := s }
      | .error f => .error (.fault f) run := by
  obtain ⟨s, sides, journal, worker⟩ := run
  rfl

theorem record_apply (k : Nat) (x : Sides p) (run : Run p) :
    record .rank1 k x run = match run.sides[k]? with
      | none => .error (.fault (.noInstruction k)) run
      | some (some _) => .error (.fault (.processedTwice k)) run
      | some none => .ok () { run with sides := run.sides.setIfInBounds k (some x) } := by
  show ((get : Solve p (Run p)) >>= fun _ => _) run = _
  rw [bind_of_ok (m := (get : Solve p (Run p))) rfl]
  rcases run.sides[k]? with - | - | y <;> rfl

end Solve

end WireSolve
