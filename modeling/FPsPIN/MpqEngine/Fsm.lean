import Mathlib.Data.List.Basic
import FPsPIN.Config

/-!
# The state machine of one message processing queue

The module mpq_fsm, and the lane it drives: the registers of one MPQ together
with the packets its FIFO holds. Both counters of mpq_t are eight bits wide,
one more than the index of NUM_MPQ_CELLS needs.
-/

namespace FPsPIN.MpqEngine

open Config

inductive MpqState where
  | free
  | header
  | headerRunning
  | payload
  | payloadDraining
  | completion
  | completionRunning
deriving DecidableEq

structure Mpq where
  state : MpqState
  length : Nat
  inFlight : Nat
  hasCompletion : Bool
  eomSeen : Bool
deriving DecidableEq

/-- Inputs of mpq_fsm besides the registers. -/
structure FsmEvents where
  herNew : Bool
  taskSent : Bool
  feedback : Bool
  herNewHasHh : Bool
  herNewHasTh : Bool
  herNewIsEom : Bool

/-- Both counters wrap at two to the power $clog2(NUM_MPQ_CELLS) + 1. -/
def counterRange : Nat := 256

/-- The common update of length and in_flight: up, down, or neither. -/
def count (up down : Bool) (n : Nat) : Nat :=
  match up, down with
  | true, false => (n + 1) % counterRange
  | false, true => (n + (counterRange - 1)) % counterRange
  | _, _ => n

def fsmState (e : FsmEvents) (m : Mpq) : MpqState :=
  match m.state with
  | .free => if e.herNew then (if e.herNewHasHh then .header else .payload) else .free
  | .header => if e.taskSent then .headerRunning else .header
  | .headerRunning => if e.feedback then .payload else .headerRunning
  | .payload => if e.taskSent && m.eomSeen && m.length == 1 then .payloadDraining else .payload
  | .payloadDraining =>
    if e.feedback && m.inFlight == 1 then (if m.hasCompletion then .completion else .free)
    else .payloadDraining
  | .completion => if e.taskSent then .completionRunning else .completion
  | .completionRunning => if e.feedback then .free else .completionRunning

/-- Output mpq_o of mpq_fsm. -/
def mpqFsm (e : FsmEvents) (m : Mpq) : Mpq where
  state := fsmState e m
  length := count e.herNew (e.taskSent && m.state == .payload) m.length
  inFlight := count e.taskSent e.feedback m.inFlight
  hasCompletion := if m.state == .free && e.herNew then e.herNewHasTh else m.hasCompletion
  eomSeen := if fsmState e m == .free then false else m.eomSeen || (e.herNew && e.herNewIsEom)

/-- Output update_o of mpq_fsm. -/
def fsmUpdate (e : FsmEvents) : Bool := e.herNew || e.taskSent || e.feedback

/-- Registers of the MPQ after a cycle with the given events. -/
def Mpq.next (e : FsmEvents) (m : Mpq) : Mpq := if fsmUpdate e then mpqFsm e m else m

/-- One bit of mpq_valid. -/
def Mpq.valid (m : Mpq) : Bool :=
  m.state == .header || (m.state == .payload && decide (0 < m.length)) || m.state == .completion

/-- The condition of fifo_pop for the MPQ that sends a task. -/
def Mpq.pops (e : FsmEvents) (m : Mpq) : Bool :=
  (m.state == .payload && (mpqFsm e m).state == .payload) ||
    (m.state == .payload && (mpqFsm e m).state == .payloadDraining && !(mpqFsm e m).hasCompletion) ||
    m.state == .completion

end FPsPIN.MpqEngine
