import BFTList.ForStd.List
import BFTList.Native.Python
import Mathlib.Data.Finset.Basic
import Mathlib.Data.Finset.Insert

/-!
# Models of the Replication module

Operations, client requests, requests and the replica structure
(`modules/replication/models/`). A structure is the record one processor keeps
about itself and, as a copy, about every other processor.

Client requests of the REST interface carry `APPEND` with exactly one argument,
so an operation holds the one argument `execute` reads.
-/

namespace BFTList

/-- Threshold for assigning sequence numbers. -/
def SIGMA : Nat := 5

/-- Sequence number limit, `sys.maxsize`. -/
def MAXINT : Int := 9223372036854775807

/-- Elements of the replicated list. -/
abbrev Value := Int

/-- Operations that can be carried out on the replicated list, an `APPEND` with its argument or
    without any. Nothing checks the type, so a request may carry something else instead. -/
inductive Operation where
  | append (arg : Value)
  | bareAppend
  | noOp
  | other
  deriving DecidableEq, Repr

/-- Execute the operation on a list. -/
def Operation.execute : Operation → List Value → List Value
  | .append v, lst => lst ++ [v]
  | .bareAppend, lst | .noOp, lst | .other, lst => lst

/-- There is a method `execute`, and the argument that it reads. -/
def Operation.Executable : Operation → Prop
  | .append _ | .noOp => True
  | .bareAppend | .other => False

instance : DecidablePred Operation.Executable
  | .append _ | .noOp => .isTrue trivial
  | .bareAppend | .other => .isFalse id

/-- The call `operation.execute(lst)`: `args[0]` is missing, or the method. -/
def Operation.callExecute (op : Operation) (lst : List Value) : Py (List Value) :=
  if op.Executable then .ok (op.execute lst)
  else .error (if op = .other then .attributeError else .indexError)

/-- Status of a request in the request queue. -/
inductive ReplicationEnums where
  | prePrep
  | prep
  | commit
  deriving DecidableEq, Repr

/-- A set of statuses. -/
abbrev Status := Finset ReplicationEnums

/-- A request of a client: `⟨client, timestamp, operation⟩`. -/
structure ClientRequest where
  clientId : Int
  timestamp : Option Int
  operation : Operation
  deriving DecidableEq, Repr

/-- True for the requests `produce_dummy_req` makes. -/
def ClientRequest.isDummy (c : ClientRequest) : Bool :=
  c.clientId = -1 ∧ c.timestamp = none ∧ c.operation = .noOp

/-- The call `is_dummy()`: what is no operation has no type to ask for. -/
def ClientRequest.callIsDummy (c : ClientRequest) : Py Bool :=
  if c.clientId = -1 ∧ c.timestamp = none ∧ c.operation = .other then .error .attributeError
  else .ok c.isDummy

/-- An assigned request: `⟨client request, view, sequence number⟩`. -/
structure Request where
  clientRequest : ClientRequest
  view : Int
  seqNum : Int
  deriving DecidableEq, Repr

/-- An entry of the request queue. -/
structure ReqPair where
  request : Request
  status : Status
  deriving DecidableEq

/-- An entry of the request log; the set of processors that claim to have
    committed the request may be missing in what a peer sends. -/
structure LogEntry where
  request : Request
  xSet : Option (Finset Int)
  deriving DecidableEq

/-- Last executed request of one client. -/
inductive LastReq where
  | unset
  | missing
  | executed (request : Request) (reply : List Value)
  deriving DecidableEq, Repr

/-- The table of last executed requests: a list after construction, a
    dictionary after the structure was set to TEE. -/
inductive LastReqTable where
  | list (l : List LastReq)
  | dict (d : List (Int × LastReq))
  deriving DecidableEq, Repr

/-- The replica structure. -/
structure ReplicaStructure where
  id : Int
  repState : List Value
  rLog : List LogEntry
  pendReqs : List ClientRequest
  reqQ : List ReqPair
  lastReq : LastReqTable
  seqNum : Int
  conFlag : Bool
  viewChanged : Bool
  prim : Int
  numberOfClients : Nat
  deriving DecidableEq

namespace ReplicaStructure

/-- A replica structure with its default state. -/
def init (id : Int) (numberOfClients : Nat) : ReplicaStructure where
  id := id
  repState := []
  rLog := []
  pendReqs := []
  reqQ := []
  lastReq := .list (List.replicate numberOfClients .unset)
  seqNum := -1
  conFlag := false
  viewChanged := false
  prim := 0
  numberOfClients := numberOfClients

/-- Copy everything but the identity and the number of clients from `rs`. -/
def setReplicaStructure (self rs : ReplicaStructure) : ReplicaStructure :=
  { self with
    repState := rs.repState
    rLog := rs.rLog
    pendReqs := rs.pendReqs
    reqQ := rs.reqQ
    lastReq := rs.lastReq
    seqNum := rs.seqNum
    conFlag := false
    viewChanged := false
    prim := rs.prim }

/-- Set the structure to TEE. -/
def setToTee (self : ReplicaStructure) : ReplicaStructure :=
  { self with
    repState := []
    rLog := []
    pendReqs := []
    reqQ := []
    lastReq := .dict []
    seqNum := -1
    conFlag := false
    viewChanged := false
    prim := -1 }

/-- True if the structure corresponds to TEE. -/
def isTee (self : ReplicaStructure) : Bool :=
  self.repState = [] ∧ self.rLog = [] ∧ self.pendReqs = [] ∧ self.reqQ = [] ∧
    self.lastReq = .dict [] ∧ self.seqNum = -1 ∧ self.conFlag = false ∧
    self.viewChanged = false ∧ self.prim = -1

/-- True if the data used for finding prefixes is default. -/
def isDefPrefix (self : ReplicaStructure) : Bool :=
  self.repState = [] ∧ self.rLog = [] ∧ self.pendReqs = [] ∧ self.reqQ = []

/-- True if all processor data is default; unlike the constructor it asks for
    an empty dictionary and sequence number 0. -/
def isDefState (self : ReplicaStructure) : Bool :=
  self.repState = [] ∧ self.rLog = [] ∧ self.pendReqs = [] ∧ self.reqQ = [] ∧
    self.lastReq = .dict [] ∧ self.seqNum = 0 ∧ self.conFlag = false ∧
    self.viewChanged = false ∧ self.prim = 0

/-- True if the replicated list is empty. -/
def isRepStateDefault (self : ReplicaStructure) : Bool := self.repState = []

/-! ## Executed requests -/

/-- The loop of `add_to_r_log`: drop the entry with the lowest sequence number
    until the log is within `3 * SIGMA * K`. -/
def trimRLog (numberOfClients : Nat) (rLog : List LogEntry) : List LogEntry :=
  rLog.evict (fun e => e.request.seqNum) (fun e e' => e = e') (3 * SIGMA * numberOfClients)
    rLog.length

/-- Append an entry to the log and drop the oldest ones over the bound. -/
def addToRLog (self : ReplicaStructure) (entry : LogEntry) : Py ReplicaStructure :=
  if entry.xSet.isNone then .error .valueError
  else .ok { self with rLog := trimRLog self.numberOfClients (self.rLog ++ [entry]) }

/-- `self.last_req[client_id] = …`, growing a list that is too short. -/
def updateLastReq (self : ReplicaStructure) (clientId : Int) (request : Request)
    (reply : List Value) : Py ReplicaStructure :=
  match self.lastReq with
  | .dict d =>
    .ok { self with lastReq := .dict (dictSet d clientId (.executed request reply)) }
  | .list l =>
    match pyIndex l.length clientId with
    | .ok i => .ok { self with lastReq := .list (l.set i (.executed request reply)) }
    | .error _ =>
      -- `for i in range(len(last_req), client_id + 1): last_req.append(None)`
      let grown := l ++ List.replicate (clientId + 1 - l.length).toNat .missing
      match pyIndex grown.length clientId with
      | .ok i => .ok { self with lastReq := .list (grown.set i (.executed request reply)) }
      | .error e => .error e

/-! ## Pending requests -/

/-- Add client requests that are not pending yet, and drop the oldest over `SIGMA * K`. -/
def extendPendReqs (self : ReplicaStructure) (reqs : List ClientRequest) : ReplicaStructure :=
  let pend := reqs.foldl (fun pend r => if r ∈ pend then pend else pend ++ [r]) self.pendReqs
  { self with pendReqs := pend.drop (pend.length - SIGMA * self.numberOfClients) }

/-- Remove the first occurrence of `req`. -/
def removeFromPendReqs (self : ReplicaStructure) (req : ClientRequest) : ReplicaStructure :=
  { self with pendReqs := self.pendReqs.erase req }

/-! ## Requests under process -/

/-- True if the request is in the queue. -/
def reqAlreadyExist (self : ReplicaStructure) (req : Request) : Bool :=
  self.reqQ.any fun q => q.request = req

/-- Remove all occurrences of a request. -/
def removeFromReqQ (self : ReplicaStructure) (req : Request) : ReplicaStructure :=
  { self with reqQ := self.reqQ.filter fun q => q.request ≠ req }

/-- The loop of `add_to_req_q`: drop the request with the lowest sequence
    number until the queue is within `SIGMA * K`. -/
def trimReqQ (numberOfClients : Nat) (reqQ : List ReqPair) : List ReqPair :=
  reqQ.evict (fun q => q.request.seqNum) (fun q q' => q.request = q'.request)
    (SIGMA * numberOfClients) reqQ.length

/-- Add a pair unless its request is there, and drop the lowest over the bound. -/
def addToReqQ (self : ReplicaStructure) (pair : ReqPair) : ReplicaStructure :=
  let reqQ := if self.reqAlreadyExist pair.request then self.reqQ else self.reqQ ++ [pair]
  { self with reqQ := trimReqQ self.numberOfClients reqQ }

/-- Add a status to the entries for `request` whose status is `old`. -/
def upgrade (self : ReplicaStructure) (request : Request) (old : Status)
    (new : ReplicationEnums) : ReplicaStructure :=
  { self with
    reqQ := self.reqQ.map fun q =>
      if q.request = request ∧ q.status = old then { q with status := insert new q.status } else q }

end ReplicaStructure

end BFTList
