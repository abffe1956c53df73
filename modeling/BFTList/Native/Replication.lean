import BFTList.ForStd.Counter
import BFTList.Native.ReplicaStructure
import Mathlib.Data.Finset.Card
import Mathlib.Data.List.FinRange

/-!
# Replication module: state and macros

The table of replica structures one processor keeps, and the macros of
`modules/replication/module.py` that only read it: what is known, supported,
committed and acceptable, and which state the replicas have in common.

Processors are addressed by position in the table in some macros and by the
`id` stored in a structure in others, as in the source.
-/

namespace BFTList

/-- The variables of the Replication module of one processor out of `n`. -/
structure ReplicationModule (n : Nat) where
  id : Fin n
  numberOfByzantine : Nat
  numberOfClients : Nat
  selfStab : Bool
  flush : Bool
  needFlush : Bool
  rep : Fin n → ReplicaStructure

/-- Replica states and logs of a set of processors with a common prefix. -/
structure PrefStates where
  states : List (List Value)
  rLogs : List (List LogEntry)
  isDefaultPrefix : Bool
  deriving DecidableEq

/-- A consolidated state with its log; no state stands for the failure marker `-1`. -/
structure ConsState where
  repState : Option (List Value)
  rLog : List LogEntry
  isDefaultPrefix : Bool
  deriving DecidableEq

/-- The result `(-1, [], False)`. -/
def ConsState.failure : ConsState := ⟨none, [], false⟩

namespace ReplicationModule

variable {n : Nat} (self : ReplicationModule n)

/-- The module after construction. -/
def init (id : Fin n) (f k : Nat) (selfStab : Bool) : ReplicationModule n where
  id := id
  numberOfByzantine := f
  numberOfClients := k
  selfStab := selfStab
  flush := false
  needFlush := false
  rep := fun i => ReplicaStructure.init i.val k

/-- The processor's own structure, `self.rep[self.id]`. -/
def own : ReplicaStructure := self.rep self.id

/-- Replace the processor's own structure. -/
def setOwn (rs : ReplicaStructure) : ReplicationModule n :=
  { self with rep := Function.update self.rep self.id rs }

/-- `self.rep[i]` for an integer `i`. -/
def repAt (i : Int) : Py ReplicaStructure := (pyIndex n i).map self.rep

/-! ## Requests known to enough processors -/

/-- Requests reported by processor `j` with at least the given status. -/
def msg (status : Status) (j : Int) : Py (List Request) := do
  let rs ← self.repAt j
  return (rs.reqQ.filter fun q => status ⊆ q.status).map (·.request)

/-- Last executed sequence number, `-1` for an empty log. -/
def lastExec : Int :=
  match self.own.rLog.getLast? with
  | some e => e.request.seqNum
  | none => -1

/-- Client requests pending `n - 2f` times. -/
def knownPendReqs : List ClientRequest :=
  Counter.keysAtLeast (n - 2 * self.numberOfByzantine)
    (Counter.counts ((List.finRange n).flatMap fun j => (self.rep j).pendReqs))

/-- Entries of the own queue that occur `n - 2f` times in the queues with the status. -/
def knownReqs (status : Status) : List ReqPair :=
  self.own.reqQ.filter fun pair =>
    let processorSet :=
      if status ⊆ pair.status then
        ((List.finRange n).flatMap fun j => (self.rep j).reqQ).countP fun q =>
          pair.request = q.request ∧ status ⊆ q.status
      else 0
    (n : Int) - 2 * self.numberOfByzantine ≤ processorSet

/-- Requests one structure supports: queued with the status, or executed. -/
def listed (status : Status) (rs : ReplicaStructure) : List Request :=
  (rs.reqQ.filter fun q => status ⊆ q.status).map (·.request) ++ rs.rLog.map (·.request)

/-- Requests listed `n - 2f` times with the status that are not in the own log. -/
def supportedReqs (status : Status) : List Request :=
  (Counter.keysAtLeast (n - 2 * self.numberOfByzantine)
    (Counter.counts ((List.finRange n).flatMap fun j => listed status (self.rep j)))).filter
    fun r => r ∉ self.own.rLog.map (·.request)

/-- Processors that report to have committed or executed the request. -/
def committedSet (request : Request) : Py (Finset Int) :=
  (List.finRange n).foldlM (fun set j => do
    let rs := self.rep j
    let committed ← self.msg {.commit} rs.id
    return if request ∈ committed ∨ request ∈ rs.rLog.map (·.request) then insert rs.id set
      else set) ∅

/-! ## Assignment and acceptance of sequence numbers -/

/-- True if processor `prim` reports a `PRE_PREP` for the client request. -/
def existsPreprepMsg (request : ClientRequest) (prim : Int) : Py Bool := do
  let reqs ← self.msg {.prePrep} prim
  return reqs.any fun y => y.clientRequest = request

/-- Pending requests without `PRE_PREP` of the primary that are not known to be
    prepared and committed either. -/
def unassignedReqs : Py (List ClientRequest) :=
  filterPy (fun req => do
    let found ← self.existsPreprepMsg req self.own.prim
    return !found &&
      req ∉ (self.knownReqs {.prep, .commit}).map (·.request.clientRequest))
    self.own.pendReqs

/-- True if the very same request is in the own queue or log. -/
def requestAlreadyExists (req : Request) : Bool :=
  (self.own.reqQ.any fun q =>
    q.request.clientRequest = req.clientRequest ∧ q.request.seqNum = req.seqNum ∧
      q.request.view = req.view) ||
  (self.own.rLog.any fun e =>
    e.request.clientRequest = req.clientRequest ∧ e.request.seqNum = req.seqNum ∧
      e.request.view = req.view)

/-- The sequence numbers the processor may accept next. -/
def inWindow (seqNum : Int) : Bool :=
  self.lastExec < seqNum ∧ seqNum ≤ self.lastExec + SIGMA * self.numberOfClients

/-- True if `prim` offers a request for the client request that can be accepted. -/
def acceptReqPreprep (request : ClientRequest) (prim : Int) : Py Bool := do
  let rp ← self.repAt prim
  let found ← self.existsPreprepMsg request prim
  let offered := fun req : Request =>
    req.clientRequest = request ∧ req.view = prim ∧ self.inWindow req.seqNum ∧
      !self.requestAlreadyExists req
  return (request ∈ self.knownPendReqs && found && rp.reqQ.any fun q => offered q.request) ||
    rp.rLog.any fun e => offered e.request

/-! ## Common prefixes of replica states -/

/-- True if one list is a prefix of the other. -/
def prefixes : List Value → List Value → Bool
  | [], _ => true
  | _ :: _, [] => true
  | a :: as, b :: bs => a = b && prefixes as bs

/-- True if the first list is a prefix of the second. -/
def isPrefixOf (a b : List Value) : Bool := a.isPrefixOf b

/-- Prefix test of two processors, by id; default data only goes with default data. -/
def arePrefixes (a b : Int) : Py Bool := do
  let ra ← self.repAt a
  let rb ← self.repAt b
  if ra.isDefPrefix then return rb.isDefPrefix
  else if rb.isDefPrefix then return false
  else return prefixes ra.repState rb.repState

/-- Longest prefix shared by all states; nothing when the first elements differ. -/
def findPrefix : List (List Value) → Py (Option (List Value))
  | [] => .error .indexError
  | s :: rest =>
    let shortest := rest.foldl (fun best t => if t.length < best.length then t else best) s
    let common := (List.range shortest.length).takeWhile fun i =>
      (s :: rest).all fun t => t[i]? = shortest[i]?
    if shortest = [] then .ok (some [])
    else if common = [] then .ok none
    else .ok (some (shortest.take common.length))

/-- States and logs by stored id, as `com_pref_states` collects them. -/
def replicaStates : List (Int × List Value × List LogEntry) :=
  (List.finRange n).foldl (fun dct j =>
    dictSet dct (self.rep j).id ((self.rep j).repState, (self.rep j).rLog)) []

/-- True if the processors are pairwise prefixes of each other. -/
def allPrefixes (processors : List Int) : Py Bool :=
  processors.pairs.allM fun p => self.arePrefixes p.1 p.2

/-- The loop that keeps the candidate with the longest common prefix. -/
def longestPrefix (candidates : List (List Int)) : Py (List Int) := do
  let best ← candidates.foldlM (fun best processors => do
    let states ← processors.mapM fun id => dictGet self.replicaStates id
    let pre ← findPrefix (states.map Prod.fst)
    let length : Int := match pre with
      | some p => p.length
      | none => -1
    return if length > best.1 then (length, processors) else best) ((-1 : Int), [])
  return best.2

/-- States and logs of `required` processors with the longest common prefix. -/
def comPrefStates (required : Int) : Py PrefStates := do
  if required < 0 then throw .valueError
  let ids := self.replicaStates.map Prod.fst
  let candidates ← filterPy self.allPrefixes (ids.combinations required.toNat)
  let processors ← self.longestPrefix candidates
  let structures ← processors.mapM self.repAt
  let found ← processors.mapM fun id => dictGet self.replicaStates id
  return ⟨found.map Prod.fst, found.map (·.2), structures.any (·.isDefPrefix)⟩

/-- The list a sequence of log entries produces. -/
def replay (entries : List LogEntry) : List Value :=
  entries.foldl (fun state e => e.request.clientRequest.operation.execute state) []

/-- The shortest initial part of a log whose replay is the end of the state. -/
def matchingPart (prefixState : List Value) (rLog : List LogEntry) : Option (List LogEntry) :=
  (rLog.inits.tail).find? fun part =>
    replay part = sliceFrom prefixState (prefixState.length - (replay part).length)

/-- The search in one log. It looks at the entries up to the part it finds, at all if there is
    none, and raises at the first one that cannot be executed. -/
def searchRLog (prefixState : List Value) (rLog : List LogEntry) :
    Py (Option (List LogEntry)) :=
  let part := matchingPart prefixState rLog
  match (part.getD rLog).find? fun e => ¬ e.request.clientRequest.operation.Executable with
  | none => .ok part
  | some e =>
    .error (if e.request.clientRequest.operation = .other then .valueError else .indexError)

/-- The first log with a part that fits the end of the state, cut to that part. -/
def getCorrespondingRLog : List (List LogEntry) → List Value → Py (List LogEntry)
  | [], _ => .ok []
  | rLog :: rLogs, prefixState => do
    match ← searchRLog prefixState rLog with
    | some part => return part
    | none => getCorrespondingRLog rLogs prefixState

/-- Consolidated state and log of a set of processors. -/
def findConsState (p : PrefStates) : Py ConsState := do
  if p.states = [] then return .failure
  match ← findPrefix p.states with
  | none => return .failure
  | some prefixState =>
    let rLog ← getCorrespondingRLog p.rLogs prefixState
    if rLog = [] ∧ prefixState ≠ [] then return .failure
    return ⟨some prefixState, rLog, p.isDefaultPrefix⟩

/-- Prefix test of a proposed state, for the processor with the given id. -/
def checkNewXPrefix (id : Int) (xRep : List Value) (isDefaultPrefix : Bool) : Py Bool := do
  let rs ← self.repAt id
  if rs.isDefPrefix then return isDefaultPrefix
  else if isDefaultPrefix then return false
  else return prefixes rs.repState xRep

/-- A state of `n - 3f` processors that makes `n - f` with those in default state. -/
def getDsState : Py ConsState := do
  let x ← findConsState (← self.comPrefStates (n - 3 * self.numberOfByzantine))
  match x.repState with
  | none => return x
  | some xRep =>
    let count ← (List.finRange n).foldlM (fun (count : Nat × Nat) j => do
      if (self.rep j).isRepStateDefault then return (count.1, count.2 + 1)
      let ok ← self.checkNewXPrefix (self.rep j).id xRep x.isDefaultPrefix
      return if ok then (count.1 + 1, count.2) else count) (0, 0)
    if (n : Int) - 3 * self.numberOfByzantine ≤ count.1 ∧
        (count.1 : Int) < n - 2 * self.numberOfByzantine ∧
        (n : Int) - self.numberOfByzantine ≤ count.1 + count.2 then return x
    return .failure

/-! ## Staleness and conflicts -/

/-- Largest last executed sequence number among logs whose last entry claims
    `n - 2f` processors. -/
def lastCommonExec : Py Int :=
  (List.finRange n).foldlM (fun (best : Int) j => do
    match (self.rep j).rLog.getLast? with
    | none => return best
    | some x =>
      match x.xSet with
      | none => throw .valueError
      | some xSet =>
        if (n : Int) - 2 * self.numberOfByzantine ≤ xSet.card ∧
            (best = -1 ∨ best < x.request.seqNum) then return x.request.seqNum
        return best) (-1)

/-- True if the last executed request is too far behind the last common one. -/
def delayed : Py Bool := do
  let common ← self.lastCommonExec
  return self.lastExec < common - 3 * self.numberOfClients * SIGMA

/-- True if `n - f` processors flag a conflict. -/
def conflict : Bool :=
  (n : Int) - self.numberOfByzantine ≤ (List.finRange n).countP fun j => (self.rep j).conFlag

/-- True if the queue holds two different requests for one client request. -/
def double : Bool :=
  self.own.reqQ.pairs.any fun p =>
    p.1.request.clientRequest = p.2.request.clientRequest ∧ p.1.request ≠ p.2.request

/-- True if the sequence number has reached its limit. -/
def staleReqSeqn : Bool :=
  self.lastExec + self.numberOfClients * SIGMA > MAXINT

/-- True if the own log or queue is stale. -/
def staleRep : Py Bool := do
  let xSetLess ← self.own.rLog.foldlM (fun less e =>
    match e.xSet with
    | none => throw .keyError
    | some xSet => return less || (xSet.card : Int) < n - 2 * self.numberOfByzantine) false
  return self.staleReqSeqn || self.double || xSetLess

end ReplicationModule

end BFTList
