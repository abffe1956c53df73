import BFTList.Native.ViewChange

/-!
# Replication module: the loop

One iteration of `run()` of a processor that follows the code, and the two ways
other threads change the module: `receive_rep_msg` and `inject_client_req`.

The iteration is cut where the source numbers its lines: the view change (1-8),
the consolidation (9-14), the flush, and the processing of requests (15-25),
itself in the steps prepare, commit and execute. Alongside the new state an
iteration reports the requests it assigned a number and those it handed to
`commit()`. An exception while requests are executed ends the loop and with it
the thread, but not what has been executed before.
-/

namespace BFTList

/-- What one iteration of `run()` leaves. -/
structure Iteration (n : Nat) where
  after : ReplicationModule n
  created : List Request
  committed : List Request
  raised : Option PyError

namespace ReplicationModule

variable {n : Nat} (resolver : Resolver n) (order : SetOrder Int) (self : ReplicationModule n)

/-! ## View change, consolidation and flush -/

/-- Lines 1-3: notice a new view, and take its primary. -/
def noticeView : ReplicationModule n :=
  let view := resolver.currentView self.id
  let viewChanged :=
    if self.own.viewChanged then true else !self.own.isTee && view ≠ self.own.prim
  self.setOwn { self.own with viewChanged := viewChanged, prim := view }

/-- Lines 4-8: act on a view change. -/
def actOnViewChange : Py (ReplicationModule n) := do
  let primId := self.own.prim
  if self.own.viewChanged ∧ primId = self.id.val then
    self.actAsPrimWhenViewChanged resolver order
  else if self.own.viewChanged then
    let rp ← self.repAt primId
    if rp.viewChanged = false ∧ primId = rp.prim then
      self.actAsNonprimWhenViewChanged resolver primId
    else return self
  else return self

/-- Lines 9-10: the consolidated state of `n - 2f` processors, or the one of `get_ds_state`. -/
def consolidated : Py ConsState := do
  let x ← findConsState (← self.comPrefStates (n - 2 * self.numberOfByzantine))
  let y ← self.getDsState
  return if x.repState.isNone ∧ y.repState.isSome then y else x

/-- True if the own state has to give way to the consolidated one. -/
def mustAdopt (x : ConsState) : Py Bool := do
  match x.repState with
  | none => return false
  | some repState =>
    let isPrefix ← self.checkNewXPrefix self.id.val repState x.isDefaultPrefix
    if !isPrefix || self.own.isDefState then return true
    self.delayed

/-- Lines 11-14: flag a conflict, or adopt the consolidated state and log. -/
def consolidate : Py (ReplicationModule n) := do
  let x ← self.consolidated
  let self := self.setOwn { self.own with conFlag := x.repState.isNone }
  if ← self.mustAdopt x then
    return self.setOwn { self.own with repState := x.repState.getD [], rLog := x.rLog }
  return self

/-- Reset the table; the new structures have the default number of clients. -/
def flushLocal : ReplicationModule n :=
  { self with rep := fun i => (ReplicaStructure.init i.val 6).setToTee }

/-- Flush a stale or conflicting state, and when the flag asks for it. -/
def flushStep : Py (ReplicationModule n) := do
  let stale ← self.staleRep
  let self :=
    if stale || self.conflict then
      { self.flushLocal.setOwn self.flushLocal.own.setToTee with needFlush := true }
    else self
  return if self.flush then { self.flushLocal with flush := false } else self

/-- Everything an iteration does before it looks at requests; skipped without
    self-stabilization. -/
def reconcile : Py (ReplicationModule n) := do
  if !self.selfStab then return self
  let self ←
    if resolver.allowService then (self.noticeView resolver).actOnViewChange resolver order
    else pure self
  let self ← self.consolidate
  self.flushStep

/-! ## Requests -/

/-- The primary gives one request the next sequence number, if the window has room. -/
def assignSeqNum (primId : Int) (st : ReplicationModule n × List Request) (req : ClientRequest) :
    ReplicationModule n × List Request :=
  let self := st.1
  if self.own.seqNum < self.lastExec + SIGMA * self.numberOfClients then
    let self := self.setOwn { self.own with seqNum := self.own.seqNum + 1 }
    let request : Request := ⟨req, primId, self.own.seqNum⟩
    (self.setOwn (self.own.addToReqQ ⟨request, {.prePrep, .prep}⟩), st.2 ++ [request])
  else st

/-- The primary gives pending requests their sequence numbers. -/
def assignSeqNums (primId : Int) : Py (ReplicationModule n × List Request) := do
  let reqs ← self.unassignedReqs
  return reqs.foldl (assignSeqNum primId) (self, [])

/-- The request of the primary's queue that a backup inserts for a client request. -/
def offeredReq (primId : Int) (primReqQ : List ReqPair) (req : ClientRequest) : Option Request :=
  (primReqQ.find? fun q =>
    q.request.clientRequest = req ∧ q.request.view = primId ∧ self.inWindow q.request.seqNum).map
    (·.request)

/-- A backup gives `PRE_PREP` to one known client request. -/
def prePrepReq (primId : Int) (self : ReplicationModule n) (req : ClientRequest) :
    Py (ReplicationModule n) := do
  if ← self.acceptReqPreprep req primId then
    let rp ← self.repAt primId
    match self.offeredReq primId rp.reqQ req with
    | some request => return self.setOwn (self.own.addToReqQ ⟨request, {.prePrep}⟩)
    | none => return self
  return self

/-- A backup gives `PRE_PREP` to what the primary offers. -/
def prePrepReqs (primId : Int) : Py (ReplicationModule n) :=
  self.knownPendReqs.foldlM (prePrepReq primId) self

/-- A backup gives `PREP` to what is supported. -/
def prepReqs : ReplicationModule n :=
  (self.supportedReqs {.prePrep}).foldl
    (fun self request => self.setOwn (self.own.upgrade request {.prePrep} .prep)) self

/-- Prepare requests, as the primary or as a backup. -/
def prepareReqs (primId : Int) : Py (ReplicationModule n × List Request) := do
  if primId = self.id.val then self.assignSeqNums primId
  else return ((← self.prePrepReqs primId).prepReqs, [])

/-- Commit one supported request, whether or not it is in the own queue. -/
def commitReq (self : ReplicationModule n) (request : Request) : ReplicationModule n :=
  let rs :=
    if self.own.reqAlreadyExist request then
      self.own.upgrade request {.prePrep, .prep} .commit
    else self.own.addToReqQ ⟨request, {.prePrep, .prep, .commit}⟩
  self.setOwn (rs.removeFromPendReqs request.clientRequest)

/-- Commit what is supported. -/
def commitReqs : ReplicationModule n :=
  (self.supportedReqs {.prep}).foldl commitReq self

/-- Execute a request: `commit({REQUEST: request, X_SET: xSet})`, with what it leaves when it
    raises. -/
def commit (request : Request) (xSet : Finset Int) : ReplicationModule n × Option PyError :=
  let c := request.clientRequest
  match c.operation.callExecute self.own.repState with
  | .error e => (self, some e)
  | .ok reply =>
    -- `apply()` has set the state before `update_last_req` can raise
    let self := self.setOwn { self.own with repState := reply }
    match self.own.updateLastReq c.clientId request reply with
    | .error e => (self, some e)
    | .ok rs =>
      match rs.addToRLog ⟨request, some xSet⟩ with
      | .error e => (self.setOwn rs, some e)
      | .ok rs => (self.setOwn ((rs.removeFromPendReqs c).removeFromReqQ request), none)

/-- Execute the supported requests that enough processors committed, each one only
    if it is the next; an exception ends the loop. -/
def executeReqs :
    List Request → ReplicationModule n → List Request →
      ReplicationModule n × List Request × Option PyError
  | [], self, committed => (self, committed, none)
  | request :: requests, self, committed =>
    match self.committedSet request with
    | .error e => (self, committed, some e)
    | .ok xSet =>
      if (n : Int) - 2 * self.numberOfByzantine ≤ xSet.card ∧
          request.seqNum = self.lastExec + 1 then
        match self.commit request xSet with
        | (self, some e) => (self, committed ++ [request], some e)
        | (self, none) => executeReqs requests self (committed ++ [request])
      else executeReqs requests self committed

/-- True if the other modules let requests be processed. -/
def mayProcess : Bool :=
  (!self.selfStab || resolver.allowService) && !self.needFlush && resolver.noViewChange &&
    !self.own.viewChanged

/-- The primary of the iteration. -/
def primId : Int := if self.selfStab then resolver.currentView self.id else 0

/-- Lines 15-25: process requests. -/
def processReqs : Py (Iteration n) := do
  let (prepared, created) ← self.prepareReqs (self.primId resolver)
  let self := prepared.commitReqs
  let (after, committed, raised) := executeReqs (self.supportedReqs {.prep, .commit}) self []
  return ⟨after, created, committed, raised⟩

/-- The client requests known to enough processors become pending. -/
def learnPendReqs : ReplicationModule n :=
  self.setOwn (self.own.extendPendReqs self.knownPendReqs)

/-- One iteration of `run()`. -/
def run : Py (Iteration n) := do
  let self := (← self.reconcile resolver order).learnPendReqs
  if self.mayProcess resolver then self.processReqs resolver
  else return ⟨self, [], [], none⟩

/-! ## Messages and clients -/

/-- Store the structure processor `j` sent. -/
def receiveRepMsg (j : Fin n) (rep : ReplicaStructure) : ReplicationModule n :=
  if !self.selfStab || resolver.allowService then
    if resolver.noViewChange then { self with rep := Function.update self.rep j rep }
    else { self with
      rep := Function.update self.rep j { self.rep j with repState := rep.repState } }
  else self

/-- Add a client request to the own pending requests. -/
def injectClientReq (req : ClientRequest) : ReplicationModule n :=
  self.setOwn (self.own.extendPendReqs [req])

/-! ## Calls of the View Establishment module -/

/-- Ask for a flush of the replica state. -/
def replicaFlush : ReplicationModule n := { self with flush := true }

/-- Take back the demand for a flush; true if there was one. -/
def repRequestReset : Bool × ReplicationModule n :=
  if self.needFlush then (true, { self with needFlush := false }) else (false, self)

/-- True if the module demands a flush. -/
def repNeedFlush : Bool := self.needFlush

/-! ## Calls of the failure detector -/

/-- Known requests without a sequence number; nothing during a view change, where the
    source answers `VIEW_CHANGE`. The list stands for a set, its order means nothing. -/
def getPendReqs : Py (Option (List ClientRequest)) := do
  if self.own.viewChanged then return none
  let unassigned ← self.unassignedReqs
  return some (self.knownPendReqs.filter fun req => req ∈ unassigned)

end ReplicationModule

end BFTList
