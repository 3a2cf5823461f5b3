/-
WireSolve/Circuit/Session.lean

A circuit that is described call by call.

A session drives a draft with calls, one kind for each thing that a draft can do,
and keeps what comes back.  The replies say which wires were handed out and which
coefficients were given a position.  The draft takes every wire and every position
that it is told; the session allows a call if it names only wires that were handed
out, and only coefficients that are reserved or were given a position.
-/
import WireSolve.Circuit.Draft
import WireSolve.Semantics

namespace WireSolve

/-- Something that a draft is told to do. -/
inductive Draft.Call (p : Nat) where
  /-- To hand out the constant one. -/
  | one
  /-- To hand out a public input. -/
  | publicInput (i : Count)
  /-- To hand out a secret input. -/
  | secretInput (i : Count)
  /-- To append an internal wire. -/
  | internal
  /-- To give a coefficient a position. -/
  | coeff (x : Fp p)
  /-- To make a term of a coefficient and a wire. -/
  | term (x : Fp p) (w : Wire)
  /-- To make a constant term of a coefficient. -/
  | constant (x : Fp p)
  /-- To append a constraint and schedule it. -/
  | constrain (q : Constraint p)
  /-- To append a hint and schedule it. -/
  | hint (name : String) (inputs : List LinComb) (n : Nat)
  /-- To append a hint that only runs when another one needs it. -/
  | detachedHint (name : String) (inputs : List LinComb) (n : Nat)
  /-- To close the open level. -/
  | nextLevel
  /-- To record a source location. -/
  | location (function file : String) (line : Nat)
  /-- To attach a note to a constraint. -/
  | annotate (k : Nat) (n : Note)
  /-- To add a note to log. -/
  | log (n : Note)

/-- The number of wires that a call appends. -/
def Draft.Call.appends {p : Nat} : Call p → Nat
  | internal => 1
  | hint _ _ n => n
  | detachedHint _ _ n => n
  | _ => 0

/-- The number of wires that a sequence of calls appends. -/
def Draft.Call.appendsAll {p : Nat} : List (Call p) → Nat
  | [] => 0
  | a :: rest => a.appends + appendsAll rest

/-- What comes back from a call. -/
inductive Reply where
  /-- The wires that are handed out. -/
  | wires (ws : List Wire)
  /-- Why there is no wire to hand out. -/
  | refused (e : DraftError)
  /-- The position of a coefficient. -/
  | coeff (i : Nat)
  /-- A term. -/
  | term (t : Term)
  /-- The number of a constraint. -/
  | constraint (k : Nat)
  /-- The number of a location. -/
  | location (id : Nat)
  /-- Nothing. -/
  | done
  deriving DecidableEq, Repr

namespace Reply

/-- The wire that is handed out, or why there is none. -/
def ofWire : Except DraftError Wire → Reply
  | .ok w => wires [w]
  | .error e => refused e

/-- The wires that a reply hands out. -/
def handedOut : Reply → List Wire
  | wires ws => ws
  | _ => []

/-- The positions of coefficients that a reply gives. -/
def positions : Reply → List Nat
  | coeff i => [i]
  | term t => [t.coeff]
  | _ => []

end Reply

variable {p : Nat} [Modulus p]

/-- Does what a call says.  A call that is refused changes nothing. -/
def Draft.perform (d : Draft p) : Call p → Draft p × Reply
  | .one => (d, .ofWire d.one)
  | .publicInput i => (d, .ofWire (d.publicInput i))
  | .secretInput i => (d, .ofWire (d.secretInput i))
  | .internal => (d.internals 1).map id .wires
  | .coeff x => (d.coeff x).map id .coeff
  | .term x w => (d.term x w).map id .term
  | .constant x => (d.constant x).map id .term
  | .constrain q => (d.constrain q).map id .constraint
  | .hint name inputs n => (d.hint name inputs n).map id .wires
  | .detachedHint name inputs n => (d.detachedHint name inputs n).map id .wires
  | .nextLevel => (d.nextLevel, .done)
  | .location function file line => (d.location function file line).map id .location
  | .annotate k n => (d.annotate k n, .done)
  | .log n => (d.log n, .done)

/-- A draft, and what has come back from the calls that have been made. -/
structure Session (p : Nat) [Modulus p] where
  /-- The draft. -/
  draft : Draft p
  /-- The replies, in order. -/
  replies : List Reply := []

namespace Session

/-- A session before the first call. -/
def start (family : Family) (publicInputs secretInputs : Count) : Session p where
  draft := Draft.start family publicInputs secretInputs

/-- The session after a call. -/
def call (s : Session p) (a : Draft.Call p) : Session p where
  draft := (s.draft.perform a).1
  replies := s.replies ++ [(s.draft.perform a).2]

/-- The session after a sequence of calls. -/
def run (s : Session p) (calls : List (Draft.Call p)) : Session p := calls.foldl call s

/-- The circuit that has been described. -/
def circuit (s : Session p) : Circuit p := s.draft.finish

/-- The wires that have been handed out. -/
def handedOut (s : Session p) : List Wire := s.replies.flatMap Reply.handedOut

/-- The positions of coefficients that have been given. -/
def positions (s : Session p) : List Nat := s.replies.flatMap Reply.positions

/-! ### What is allowed -/

/-- A coefficient that can be named: a reserved one, or one that was given a position. -/
def KnowsCoeff (s : Session p) (i : Nat) : Prop := i < 4 ∨ i ∈ s.positions

instance (s : Session p) (i : Nat) : Decidable (s.KnowsCoeff i) :=
  inferInstanceAs (Decidable (_ ∨ _))

/-- A term that can be named: a constant, or one on a wire that was handed out. -/
def KnowsTerm (s : Session p) (t : Term) : Prop :=
  s.KnowsCoeff t.coeff ∧ (t.isConstant ∨ t.wire ∈ s.handedOut)

instance (s : Session p) (t : Term) : Decidable (s.KnowsTerm t) :=
  inferInstanceAs (Decidable (_ ∧ _))

/-- A gate that can be appended: the wires that take part in it were handed out. -/
def KnowsGate (s : Session p) (g : Gate) : Prop :=
  (∀ q ∈ [g.qL, g.qR, g.qO, g.qM, g.qC], s.KnowsCoeff q) ∧
    (g.usesA → g.xa ∈ s.handedOut) ∧ (g.usesB → g.xb ∈ s.handedOut) ∧
      (g.usesC → g.xc ∈ s.handedOut)

instance (s : Session p) (g : Gate) : Decidable (s.KnowsGate g) :=
  inferInstanceAs (Decidable (_ ∧ _ ∧ _ ∧ _))

/-- A constraint that can be appended.  Programs cannot, since they fail as they like. -/
def KnowsConstraint (s : Session p) : Constraint p → Prop
  | .rank1 r => ∀ t ∈ r.terms, s.KnowsTerm t
  | .gate g => s.KnowsGate g
  | .custom _ => False

instance (s : Session p) : DecidablePred s.KnowsConstraint
  | .rank1 r => inferInstanceAs (Decidable (∀ t ∈ r.terms, s.KnowsTerm t))
  | .gate g => inferInstanceAs (Decidable (s.KnowsGate g))
  | .custom _ => .isFalse not_false

/-- Whether a call names only what is known.  A term that is merely made is not used yet. -/
def Allows (s : Session p) : Draft.Call p → Prop
  | .constrain q => s.KnowsConstraint q
  | .hint _ inputs _ => ∀ e ∈ inputs, ∀ t ∈ e, s.KnowsTerm t
  | .detachedHint _ inputs _ => ∀ e ∈ inputs, ∀ t ∈ e, s.KnowsTerm t
  | _ => True

instance (s : Session p) : DecidablePred s.Allows
  | .constrain q => inferInstanceAs (Decidable (s.KnowsConstraint q))
  | .hint _ inputs _ => inferInstanceAs (Decidable (∀ e ∈ inputs, ∀ t ∈ e, s.KnowsTerm t))
  | .detachedHint _ inputs _ =>
    inferInstanceAs (Decidable (∀ e ∈ inputs, ∀ t ∈ e, s.KnowsTerm t))
  | .one | .publicInput _ | .secretInput _ | .internal | .coeff _ | .term _ _ | .constant _
  | .nextLevel | .location _ _ _ | .annotate _ _ | .log _ => .isTrue trivial

/-- Whether each of a sequence of calls is allowed when it is made. -/
def AllowsAll (s : Session p) : List (Draft.Call p) → Prop
  | [] => True
  | a :: rest => s.Allows a ∧ (s.call a).AllowsAll rest

instance decidableAllowsAll (s : Session p) :
    (calls : List (Draft.Call p)) → Decidable (s.AllowsAll calls)
  | [] => .isTrue trivial
  | a :: rest =>
    have := decidableAllowsAll (s.call a) rest
    inferInstanceAs (Decidable (s.Allows a ∧ (s.call a).AllowsAll rest))

/-- The number of wires that a session asks for: a number, where the circuit has a word. -/
def wireDemand (family : Family) (publicInputs secretInputs : Count)
    (calls : List (Draft.Call p)) : Nat :=
  family.reservedWires + publicInputs.toNat + secretInputs.toNat
    + Draft.Call.appendsAll calls

end Session

end WireSolve
