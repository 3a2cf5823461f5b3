/-
WireSolve/Circuit/Naming.lean

Wires by what was asked for.

A draft hands out words, and a word does not say which wire it was handed out for.
Here a wire has a name: it is the constant one, an input of a kind, or the wire that
was appended after so many others.  The wires that a session hands out are read off
its transcript, each with its word (`Transcript.handouts`).  The words tell them apart
if none was handed out for two of them and none is the tag of constants (`TellsApart`).
-/
import WireSolve.Circuit.Transcript

namespace WireSolve

/-- A wire, by what is asked for. -/
inductive WireName where
  /-- The constant one. -/
  | one
  /-- A public input. -/
  | publicInput (i : Count)
  /-- A secret input. -/
  | secretInput (i : Count)
  /-- The wire that was appended after so many others. -/
  | internal (k : Nat)
  deriving DecidableEq, Repr

/-! ### Where wires belong -/

/-- What a draft is started with. -/
structure Inputs where
  /-- The family of the circuit. -/
  family : Family
  /-- The number of public inputs, without the constant one. -/
  publicInputs : Count
  /-- The number of secret inputs. -/
  secretInputs : Count
  deriving DecidableEq, Repr

namespace Inputs

/-- The number of wires that are there before any is appended, as a number of any size. -/
def size (s : Inputs) : Nat :=
  s.family.reservedWires + s.publicInputs.toNat + s.secretInputs.toNat

/-- The position that a wire has in the layout, if no sum wraps around. -/
def position (s : Inputs) : WireName → Nat
  | .one => 0
  | .publicInput i => s.family.reservedWires + i.toNat
  | .secretInput i => s.family.reservedWires + s.publicInputs.toNat + i.toNat
  | .internal k => s.size + k

/-- The wire at a position of the layout. -/
def nameAt (s : Inputs) (n : Nat) : WireName :=
  if n < s.family.reservedWires then
    .one
  else if n < s.family.reservedWires + s.publicInputs.toNat then
    .publicInput (UInt64.ofNat (n - s.family.reservedWires))
  else if n < s.size then
    .secretInput (UInt64.ofNat (n - (s.family.reservedWires + s.publicInputs.toNat)))
  else
    .internal (n - s.size)

/-- The wires that there are, once so many are appended. -/
def Has (s : Inputs) (appended : Nat) : WireName → Prop
  | .one => s.family = .rank1
  | .publicInput i => i < s.publicInputs
  | .secretInput i => i < s.secretInputs
  | .internal k => k < appended

end Inputs

/-! ### What is handed out -/

variable {p : Nat}

/-- The wires that a call asks for, when so many are appended already. -/
def Draft.Call.names (appended : Nat) : Call p → List WireName
  | one => [.one]
  | publicInput i => [.publicInput i]
  | secretInput i => [.secretInput i]
  | a => (List.range a.appends).map fun j => .internal (appended + j)

/-- The wires that are handed out when so many are appended already, each with its word. -/
def Transcript.handoutsFrom (appended : Nat) : Transcript p → List (WireName × Wire)
  | [] => []
  | (a, r) :: rest =>
    (a.names appended).zip r.handedOut ++ handoutsFrom (appended + a.appends) rest

/-- The wires that are handed out, each with its word. -/
def Transcript.handouts (ts : Transcript p) : List (WireName × Wire) := ts.handoutsFrom 0

theorem Draft.Call.appendsAll_concat (calls : List (Call p)) (a : Call p) :
    appendsAll (calls ++ [a]) = appendsAll calls + a.appends := by
  induction calls with
  | nil => exact Nat.add_comm a.appends 0
  | cons b rest ih => rw [List.cons_append, appendsAll, appendsAll, ih, Nat.add_assoc]

theorem Transcript.handoutsFrom_concat (ts : Transcript p) (a : Draft.Call p) (r : Reply)
    (appended : Nat) :
    handoutsFrom appended (ts ++ [(a, r)]) = ts.handoutsFrom appended ++
      (a.names (appended + Draft.Call.appendsAll (ts.map Prod.fst))).zip r.handedOut := by
  induction ts generalizing appended with
  | nil => exact List.append_nil _
  | cons x rest ih =>
    obtain ⟨b, q⟩ := x
    rw [List.cons_append, handoutsFrom, handoutsFrom, ih, List.map_cons, Draft.Call.appendsAll,
      List.append_assoc, Nat.add_assoc]

/-- Words that tell wires apart, and from what a term without a wire carries. -/
structure TellsApart (hs : List (WireName × Wire)) : Prop where
  /-- No word was handed out for two wires. -/
  eq_of_word_eq : ∀ x ∈ hs, ∀ y ∈ hs, x.2 = y.2 → x.1 = y.1
  /-- None is the tag of constants. -/
  ne_tag : ∀ x ∈ hs, x.2 ≠ Wire.constantTag
  /-- So no term on one of them is read as a constant. -/
  not_constant : ∀ x ∈ hs, ∀ coeff, Term.isConstant ⟨coeff, x.2⟩ = false

/-- The wires that are handed out by a sequence of calls, each with its word. -/
def Inputs.handouts [Modulus p] (s : Inputs) (calls : List (Draft.Call p)) :
    List (WireName × Wire) :=
  (((Session.start s.family s.publicInputs s.secretInputs).run calls).transcript calls).handouts

end WireSolve
