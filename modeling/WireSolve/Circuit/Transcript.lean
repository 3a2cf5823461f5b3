/-
WireSolve/Circuit/Transcript.lean

The calls of a session side by side with what came back from them, and what can
be read off there without a look at the circuit: the wires that were handed out
for inputs and those that were appended, the numbers of constraints, the lines that
were recorded with the numbers of their locations, and the uses of hints.
-/
import WireSolve.Circuit.Session

namespace WireSolve

variable {p : Nat}

namespace Draft.Call

/-- Whether a call asks for the wire of an input. -/
def asksInput : Call p → Bool
  | one | publicInput _ | secretInput _ => true
  | _ => false

/-- Whether a call asks for wires that are appended. -/
def asksFresh : Call p → Bool
  | internal | hint _ _ _ | detachedHint _ _ _ => true
  | _ => false

/-- The line that a call records, if it records one. -/
def sourceLine? : Call p → Option SourceLine
  | location function file line => some ⟨⟨function, file⟩, line⟩
  | _ => none

end Draft.Call

/-- The numbers of constraints that a reply gives. -/
def Reply.constraints : Reply → List Nat
  | constraint k => [k]
  | _ => []

/-- The number of a location that a reply gives. -/
def Reply.location? : Reply → Option Nat
  | location id => some id
  | _ => none

/-- A use of a hint: whether it is scheduled, and the wires that came back. -/
structure HintUse where
  /-- Whether the hint has an instruction. -/
  scheduled : Bool
  /-- The wires that were handed out for its outputs. -/
  outputs : List Wire
  deriving DecidableEq, Repr

/-- The use of a hint that a call makes, if it makes one. -/
def HintUse.ofCall? (r : Reply) : Draft.Call p → Option HintUse
  | .hint _ _ _ => some ⟨true, r.handedOut⟩
  | .detachedHint _ _ _ => some ⟨false, r.handedOut⟩
  | _ => none

/-- Calls, each with what came back from it. -/
abbrev Transcript (p : Nat) := List (Draft.Call p × Reply)

namespace Transcript

/-- The wires of inputs. -/
def inputs (ts : Transcript p) : List Wire :=
  ts.flatMap fun x => if x.1.asksInput then x.2.handedOut else []

/-- The wires that were appended. -/
def fresh (ts : Transcript p) : List Wire :=
  ts.flatMap fun x => if x.1.asksFresh then x.2.handedOut else []

/-- The numbers of constraints. -/
def constraints (ts : Transcript p) : List Nat := ts.flatMap fun x => x.2.constraints

/-- The lines that were recorded. -/
def sourceLines (ts : Transcript p) : List SourceLine := ts.filterMap fun x => x.1.sourceLine?

/-- The numbers of locations. -/
def locations (ts : Transcript p) : List Nat := ts.filterMap fun x => x.2.location?

/-- The uses of hints. -/
def hints (ts : Transcript p) : List HintUse := ts.filterMap fun x => HintUse.ofCall? x.2 x.1

theorem filterMap_sourceLine? (ts : Transcript p) :
    (ts.map Prod.fst).filterMap Draft.Call.sourceLine? = ts.sourceLines := List.filterMap_map

theorem filterMap_location? (ts : Transcript p) :
    (ts.map Prod.snd).filterMap Reply.location? = ts.locations := List.filterMap_map

/-! ### One more call -/

theorem filterMap_concat {α β : Type} (f : α → Option β) (xs : List α) (x : α) :
    (xs ++ [x]).filterMap f = xs.filterMap f ++ (f x).toList := by
  rw [List.filterMap_append, List.filterMap_cons, List.filterMap_nil]
  cases f x <;> rfl

variable (ts : Transcript p) (a : Draft.Call p) (r : Reply)

@[simp] theorem inputs_concat :
    inputs (ts ++ [(a, r)]) = ts.inputs ++ if a.asksInput then r.handedOut else [] := by
  simp [inputs]

@[simp] theorem fresh_concat :
    fresh (ts ++ [(a, r)]) = ts.fresh ++ if a.asksFresh then r.handedOut else [] := by
  simp [fresh]

@[simp] theorem constraints_concat :
    constraints (ts ++ [(a, r)]) = ts.constraints ++ r.constraints := by
  simp [constraints]

@[simp] theorem sourceLines_concat :
    sourceLines (ts ++ [(a, r)]) = ts.sourceLines ++ a.sourceLine?.toList :=
  filterMap_concat _ ts (a, r)

@[simp] theorem locations_concat :
    locations (ts ++ [(a, r)]) = ts.locations ++ r.location?.toList :=
  filterMap_concat _ ts (a, r)

@[simp] theorem hints_concat :
    hints (ts ++ [(a, r)]) = ts.hints ++ (HintUse.ofCall? r a).toList :=
  filterMap_concat _ ts (a, r)

/-- The wires of the uses of hints are among the wires that were appended, in the same order. -/
theorem flatMap_outputs_sublist :
    (ts.hints.flatMap HintUse.outputs).Sublist ts.fresh := by
  induction ts with
  | nil => exact List.Sublist.refl []
  | cons x ts ih =>
    obtain ⟨a, r⟩ := x
    rw [hints, List.filterMap_cons, fresh, List.flatMap_cons]
    cases a with
    | hint | detachedHint =>
      rw [HintUse.ofCall?, List.flatMap_cons]
      exact (List.Sublist.refl _).append ih
    | internal => exact ih.trans (List.sublist_append_right _ _)
    | _ => exact ih

end Transcript

/-- The calls that a session has made, each with what came back. -/
def Session.transcript [Modulus p] (s : Session p) (calls : List (Draft.Call p)) : Transcript p :=
  calls.zip s.replies

/-- There is a reply to every call. -/
theorem Session.length_replies_run [Modulus p] (s : Session p) (calls : List (Draft.Call p)) :
    (s.run calls).replies.length = s.replies.length + calls.length := by
  induction calls generalizing s with
  | nil => rfl
  | cons a rest ih =>
    have hcall : (s.call a).replies.length = s.replies.length + 1 := List.length_append
    rw [List.length_cons, Nat.add_comm rest.length, ← Nat.add_assoc, ← hcall]
    exact ih (s.call a)

/-- The calls are found in the transcript, and the replies too. -/
theorem Session.unzip_transcript_run [Modulus p] (family : Family)
    (publicInputs secretInputs : Count) (calls : List (Draft.Call p)) :
    let s := (start family publicInputs secretInputs : Session p).run calls
    (s.transcript calls).map Prod.fst = calls ∧ (s.transcript calls).map Prod.snd = s.replies := by
  intro s
  have hlength : s.replies.length = calls.length :=
    (length_replies_run _ calls).trans (Nat.zero_add _)
  exact ⟨List.map_fst_zip (Nat.le_of_eq hlength.symm), List.map_snd_zip (Nat.le_of_eq hlength)⟩

/-- What every call keeps of a draft and the transcript so far is kept by a session. -/
theorem Session.run_induction [Modulus p] {motive : Draft p → Transcript p → Prop}
    (hcall : ∀ d ts a, motive d ts → motive (d.perform a).1 (ts ++ [(a, (d.perform a).2)]))
    (s : Session p) (before : List (Draft.Call p)) (hlength : before.length = s.replies.length)
    (hs : motive s.draft (s.transcript before)) (calls : List (Draft.Call p)) :
    motive (s.run calls).draft ((s.run calls).transcript (before ++ calls)) := by
  induction calls generalizing s before with
  | nil =>
    rw [List.append_nil]
    exact hs
  | cons a rest ih =>
    have hstep := hcall s.draft (s.transcript before) a hs
    rw [transcript] at hstep
    have hrest := ih (s.call a) (before ++ [a]) (by simp [Session.call, hlength]) (by
      show motive (s.draft.perform a).1
        ((before ++ [a]).zip (s.replies ++ [(s.draft.perform a).2]))
      rwa [List.zip_append hlength])
    rwa [List.append_assoc, List.singleton_append] at hrest

/-- So what holds of a draft that was told nothing, and is kept, holds after any calls. -/
theorem Session.start_induction [Modulus p] {motive : Draft p → Transcript p → Prop}
    (hcall : ∀ d ts a, motive d ts → motive (d.perform a).1 (ts ++ [(a, (d.perform a).2)]))
    {family : Family} {publicInputs secretInputs : Count}
    (hstart : motive (Draft.start family publicInputs secretInputs) [])
    (calls : List (Draft.Call p)) :
    let s := (start family publicInputs secretInputs : Session p).run calls
    motive s.draft (s.transcript calls) :=
  run_induction hcall (start family publicInputs secretInputs) [] rfl hstart calls

end WireSolve
