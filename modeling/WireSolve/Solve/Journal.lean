/-
WireSolve/Solve/Journal.lean

What a solve leaves behind besides its outcome: the events of the run, in order.

A level that is dispatched is processed by workers, and an event in it carries
the number of the worker.  The events without a number are those of the solve's
own thread.  How much of them a listener gets depends on its verbosity.
-/
import WireSolve.Circuit.Basic

namespace WireSolve

/-- Something that happened in a solve. -/
inductive Event (p : Nat) where
  /-- The solve was started. -/
  | started (family : Family) (wires levels : Nat)
  /-- The witness and the hint functions were accepted. -/
  | ready (workers : Nat)
  /-- A level is processed in order. -/
  | levelStarted (depth instructions : Nat)
  /-- A level is processed in chunks. -/
  | levelDispatched (depth instructions chunks : Nat)
  /-- The function of hint number `h` is called. -/
  | hintCalled (h : Nat) (id : HintId) (name : String) (inputs : List Nat) (outputs : Nat)
  /-- A custom constraint got an answer. -/
  | answered (constraint : Nat) (q : Query p) (reply : q.Reply)
  /-- A note was logged. -/
  | logged (caller text : String)
  /-- The solution is complete. -/
  | finished

/-- How much a listener wants to hear. -/
inductive Verbosity where
  | off
  | info
  | debug
  | trace
  deriving DecidableEq, Repr

/-- Whether a listener gets debug events, logged notes among them. -/
def Verbosity.includesDebug : Verbosity → Bool
  | off => false
  | info => false
  | debug => true
  | trace => true

/-- An event, with the worker it belongs to if its level was dispatched. -/
structure Entry (p : Nat) where
  /-- The worker. -/
  worker : Option Nat
  /-- The event. -/
  event : Event p

/-- The events of a solve, in order. -/
abbrev Journal (p : Nat) := Array (Entry p)

namespace Journal

variable {p : Nat}

/-- All events, whatever thread they belong to. -/
def events (j : Journal p) : List (Event p) := j.toList.map Entry.event

/-- The events of the solve's own thread. -/
def ownEvents (j : Journal p) : List (Event p) :=
  j.toList.filterMap fun e => if e.worker.isNone then some e.event else none

/-- The notes that a listener gets to see, with their callers. -/
def logs (j : Journal p) (v : Verbosity) : List (String × String) :=
  if v.includesDebug then
    j.events.filterMap fun
      | .logged caller text => some (caller, text)
      | _ => none
  else
    []

end Journal

end WireSolve
