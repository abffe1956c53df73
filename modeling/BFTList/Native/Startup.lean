import Mathlib.Data.Fintype.Basic
import Mathlib.Data.List.FinRange
import Mathlib.Logic.Function.Basic

/-!
# Start of the system

A processor is booting until its communication is set up (`main.py`). A thread of its resolver
asks the REST API of one node after the other for the status, and the system is running when no
node is booting (`wait_for_other_nodes`). All modules wait for that.

A request fails while the node has not been started, and may fail at any other time.
-/

namespace BFTList

/-- The status of a processor. -/
inductive SystemStatus where
  | booting
  | ready
  | running
  deriving DecidableEq, Repr

/-- The number of a status. -/
def SystemStatus.val : SystemStatus → Nat
  | .booting => 1
  | .ready => 2
  | .running => 3

/-- The thread of `wait_for_other_nodes`: which nodes it is still to ask, and what it has found
    out since it last slept. -/
inductive WaitPhase (n : Nat) where
  | asking (rest : List (Fin n)) (nodesReady : List Bool)
  | returned
  deriving DecidableEq, Repr

/-- A processor out of `n`; `setUp` when its main thread has set up the communication. -/
structure Host (n : Nat) where
  started : Bool
  setUp : Bool
  systemStatus : SystemStatus
  wait : WaitPhase n
  deriving DecidableEq, Repr

namespace Host

variable {n : Nat} (self : Host n)

/-- A processor before it is started; alone it does not wait for others. -/
def init : Host n where
  started := false
  setUp := false
  systemStatus := .booting
  wait := if n = 1 then .returned else .asking (List.finRange n) []

/-- True if the system as a whole is running. -/
def systemRunning : Bool := self.systemStatus = .running

/-- The end of `setup_communication`, which only comes once. -/
def setupCommunication : Option (Host n) :=
  if self.started ∧ !self.setUp then some { self with setUp := true, systemStatus := .ready }
  else none

/-- The API of the processor reports another status than `BOOTING`. -/
def isReady : Bool := self.started && self.systemStatus ≠ .booting

/-- `wait_for_other_nodes` asks the next node, or comes to a conclusion when it has asked all. -/
def waitForOtherNodes (isReady : Fin n → Bool) : Option (Host n) :=
  match self.started, self.wait with
  | true, .asking (j :: rest) nodesReady =>
    some { self with wait := .asking rest (nodesReady ++ [isReady j]) }
  | true, .asking [] nodesReady =>
    if nodesReady.all id then some { self with systemStatus := .running, wait := .returned }
    else some { self with wait := .asking (List.finRange n) [] }
  | _, _ => none

end Host

/-- What happens next; a request for the status may remain without an answer. -/
inductive StartLabel (n : Nat) where
  | start (i : Fin n)
  | setupCommunication (i : Fin n)
  | waitForOtherNodes (i : Fin n) (answered : Bool)
  deriving DecidableEq, Repr

/-- All processors. -/
abbrev Hosts (n : Nat) := Fin n → Host n

/-- The processors after a step, if it is possible. -/
def Hosts.next {n : Nat} (hosts : Hosts n) : StartLabel n → Option (Hosts n)
  | .start i =>
    if (hosts i).started then none
    else some (Function.update hosts i { hosts i with started := true })
  | .setupCommunication i => (hosts i).setupCommunication.map (Function.update hosts i)
  | .waitForOtherNodes i answered =>
    ((hosts i).waitForOtherNodes fun j => answered && (hosts j).isReady).map
      (Function.update hosts i)

end BFTList
