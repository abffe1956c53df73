import BFTList.Native.FailureDetector
import BFTList.Native.Predicates
import BFTList.Native.PrimaryMonitoring
import BFTList.Native.ReplicationRun

/-!
# One processor with all its modules

The modules of a processor call each other through its resolver
(`resolve/resolver.py`): each `execute` asks one module for what another one needs to
know, and `dispatch_msg` hands a message to the module it is for. What was an arbitrary
answer in the model of one module is here the answer of the module that is asked.

Every module iterates in a thread of its own; an iteration is one step, in which all
calls see the other modules as they are at its start.
-/

namespace BFTList

/-- The messages of the modules, with the type by which they are dispatched. -/
inductive Msg where
  | viewEstablishment (own : OwnData) (about : Echo)
  | replication (rep : ReplicaStructure)
  | primaryMonitoring (vcm : Vcm)
  | failureDetector (primSusp : Bool)
  deriving DecidableEq

/-- The modules of one processor out of `n`. -/
structure Processor (n : Nat) where
  viewEst : ViewEstablishmentModule n
  replication : ReplicationModule n
  primMon : PrimaryMonitoringModule n
  failDet : FailureDetectorThread n

namespace Processor

variable {n : Nat} (self : Processor n)

/-- The modules as they are started; `nodes` is the number of nodes in the environment. -/
def init (id : Fin n) (f k : Nat) (nodes : Int) : Processor n where
  viewEst := .init id f
  replication := .init id f k true
  primMon := .init id f true
  failDet := .init id f nodes true

/-! ## Calls between the modules -/

/-- `execute` for the Replication module. -/
def resolver : Resolver n where
  allowService := self.viewEst.allowService
  noViewChange := self.primMon.noViewChange
  currentView := self.viewEst.getCurrentView

/-- `execute` for the failure detector. -/
def fdEnv : Py (FdEnv n) := do
  return { self.resolver with pendReqs := ← self.replication.getPendReqs }

/-- The failure detector suspects the primary; this asks for views only. -/
def suspected : Bool := self.failDet.suspected { self.resolver with pendReqs := none }

/-- `execute` for the Primary Monitoring module. -/
def primMonEnv : PrimMonEnv n where
  currentView := self.viewEst.getCurrentView
  allowService := self.viewEst.allowService
  suspected := self.suspected

/-! ## Iterations -/

/-- The View Establishment module iterates. Each of its resets takes back the demand for
    a flush. -/
def runViewEst : Processor n :=
  let needFlush := self.replication.repNeedFlush
  { self with
    viewEst := self.viewEst.run needFlush
    replication :=
      if self.viewEst.runResets needFlush then self.replication.repRequestReset.2
      else self.replication }

/-- The own part of its `send_msg`. -/
def sendViewEst : Processor n := { self with viewEst := self.viewEst.sendOwn }

/-- The Primary Monitoring module iterates, and may ask for a view change. -/
def runPrimMon (order : SetOrder (Fin n)) : Processor n :=
  let (primMon, asks) := self.primMon.run self.primMonEnv order
  { self with
    primMon := primMon
    viewEst := if asks then self.viewEst.viewChange else self.viewEst }

/-- The failure detector iterates. -/
def runFailDet : Py (Processor n) := do
  return { self with failDet := (self.failDet.run (← self.fdEnv)).1 }

/-- The Replication module iterates. -/
def runReplication (order : SetOrder Int) : Py (Processor n × Iteration n) := do
  let it ← self.replication.run self.resolver order
  return ({ self with replication := it.after }, it)

/-! ## Messages and clients -/

/-- Hand a message of processor `j` to the module it is for. -/
def dispatchMsg (j : Fin n) : Msg → Processor n
  | .viewEstablishment own about => { self with viewEst := self.viewEst.receiveMsg j own about }
  | .replication rep =>
    { self with replication := self.replication.receiveRepMsg self.resolver j rep }
  | .primaryMonitoring vcm => { self with primMon := self.primMon.receiveMsg j vcm }
  | .failureDetector primSusp => { self with failDet := self.failDet.receiveMsg j primSusp }

/-- A client request is put into the own pending requests. -/
def injectClientReq (req : ClientRequest) : Processor n :=
  { self with replication := self.replication.injectClientReq req }

/-- What the modules send to processor `j`. -/
def msgsTo (j : Fin n) : List Msg :=
  [.viewEstablishment self.viewEst.ownData (self.viewEst.aboutData j),
    .replication self.replication.own,
    .primaryMonitoring self.primMon.own,
    .failureDetector self.failDet.primSusp]

end Processor

end BFTList
