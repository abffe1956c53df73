import BFTList.Native.Replication

/-!
# Replication module: view changes

What a processor does with its own structure after the View Establishment
module installed a new view: as the new primary
(`act_as_prim_when_view_changed`) and as a backup
(`act_as_nonprim_when_view_changed`, `check_new_v_state`).
-/

namespace BFTList

/-- What the other modules of the processor answer during one iteration. -/
structure Resolver (n : Nat) where
  allowService : Bool
  noViewChange : Bool
  currentView : Fin n → Int

/-- `GET_CURRENT_VIEW` of the processor with the given id. -/
def Resolver.getCurrentView {n : Nat} (resolver : Resolver n) (j : Int) : Py Int :=
  (pyIndex n j).map resolver.currentView

namespace ReplicationModule

variable {n : Nat} (resolver : Resolver n) (order : SetOrder Int) (self : ReplicationModule n)

/-! ## The new primary -/

/-- True if some entry of the own queue has the sequence number. -/
def reqWithSeqNumInReqQ (seqNum : Int) : Bool :=
  self.own.reqQ.any fun q => q.request.seqNum = seqNum

/-- A request without operation for a missing sequence number. -/
def produceDummyReq (seqNum : Int) : ReqPair :=
  ⟨⟨⟨-1, none, .noOp⟩, self.id.val, seqNum⟩, {.prePrep, .prePrep}⟩

/-- Ids of the structures that report a view change to the own view. -/
def viewChangedProcessors : Py (List Int) :=
  (List.finRange n).foldlM (fun ids j => do
    let jPrim ← resolver.getCurrentView (self.rep j).id
    return if (self.rep j).viewChanged ∧ jPrim = self.id.val then setAdd ids (self.rep j).id
      else ids) []

/-- The sequence number to continue from: the highest one that is prepared and
    not committed, or the last executed one. -/
def newSeq : Int :=
  max self.lastExec <|
    (self.own.reqQ.filter fun q => q.status = {.prePrep, .prep}).foldl
      (fun seq q => max seq q.request.seqNum) (-1)

/-- Put a dummy request for each of the next `count` sequence numbers that has none. -/
def fillGaps : Nat → Int → ReplicationModule n → ReplicationModule n
  | 0, _, self => self
  | count + 1, lastSeqNum, self =>
    let seqNum := lastSeqNum + 1
    fillGaps count seqNum <|
      if self.reqWithSeqNumInReqQ seqNum then self
      else self.setOwn (self.own.addToReqQ (self.produceDummyReq seqNum))

/-- Client requests pending at all the given processors. -/
def commonPendReqs (processorsSet : List Int) : Py (List ClientRequest) := do
  let structures ← (order.iter processorsSet).mapM self.repAt
  return (Counter.counts (structures.flatMap (·.pendReqs))).filterMap fun p =>
    if p.2 = processorsSet.length then some p.1 else none

/-- Own entries with nothing but `PRE_PREP` that all the given processors have. -/
def reqsNeedPrePrep (processorsSet : List Int) : Py (List ReqPair) :=
  (order.iter processorsSet).foldlM (fun need j => do
    let rj ← self.repAt j
    let jNeed := rj.reqQ.filter fun q => q.status = {.prePrep} ∧ q ∈ need
    return need.filter (· ∈ jNeed))
    (self.own.reqQ.filter fun q => q.status = {.prePrep})

/-- Give the entries that need it the own view, the next sequence number and `PREP`. -/
def renumber (view : Int) (need : List ReqPair) : Int → List ReqPair → Int × List ReqPair
  | seqNum, [] => (seqNum, [])
  | seqNum, q :: qs =>
    if q ∈ need then
      let rest := renumber view need (seqNum + 1) qs
      (rest.1, ⟨{ q.request with view := view, seqNum := seqNum + 1 }, insert .prep q.status⟩ ::
        rest.2)
    else
      let rest := renumber view need seqNum qs
      (rest.1, q :: rest.2)

/-- Create a new `PRE_PREP` for the requests that are not executed yet. -/
def renewReqs (processorsSet : List Int) : Py (ReplicationModule n) := do
  let pend ← self.commonPendReqs order processorsSet
  let self := self.setOwn { self.own with pendReqs := pend }
  let need ← self.reqsNeedPrePrep order processorsSet
  let renewed := renumber self.id.val need self.own.seqNum self.own.reqQ
  return self.setOwn { self.own with seqNum := renewed.1, reqQ := renewed.2 }

/-- The state and log the new primary starts from, or TEE when there is none. -/
def adoptConsState (x : ConsState) : ReplicationModule n :=
  match x.repState with
  | none => self.setOwn self.own.setToTee
  | some repState =>
    self.setOwn { self.own with repState := repState, rLog := x.rLog, viewChanged := false }

/-- Actions of the new primary after a view change. -/
def actAsPrimWhenViewChanged : Py (ReplicationModule n) := do
  let processorIds ← self.viewChangedProcessors resolver
  if (n : Int) - self.numberOfByzantine ≤ processorIds.length then
    let newSeq := self.newSeq
    let lastSeqNum := self.lastExec
    let self := self.setOwn { self.own with seqNum := newSeq }
    let self := fillGaps (newSeq - lastSeqNum).toNat lastSeqNum self
    let self ← self.renewReqs order processorIds
    let x ← findConsState (← self.comPrefStates (n - 2 * self.numberOfByzantine))
    return self.adoptConsState x
  return self

/-! ## The backups -/

/-- Structures with nothing but `PRE_PREP` for the client request, counted per entry. -/
def prePrepCount (c : ClientRequest) : Nat :=
  ((List.finRange n).flatMap fun j => (self.rep j).reqQ).countP fun q =>
    q.status = {.prePrep} ∧ q.request.clientRequest = c

/-- Check of one entry of the new primary's queue. -/
def checkNewReq (prim : Int) (primReqQ : List ReqPair) (q : ReqPair) : Py Bool := do
  let key := q.request.clientRequest
  if q.request.view = prim then
    if ← key.callIsDummy then
      return primReqQ.all fun r =>
        ¬ (r.request.clientRequest ≠ key ∧ r.request.seqNum = q.request.seqNum)
    else if self.prePrepCount key = 0 ∨
        (self.prePrepCount key : Int) < n - 2 * self.numberOfByzantine then
      self.acceptReqPreprep key prim
    else return true
  else return true

/-- The list that executing the operations of a log produces. -/
def executeRLog (rLog : List LogEntry) : Py (List Value) :=
  rLog.foldlM (fun state e => e.request.clientRequest.operation.callExecute state) []

/-- The state of the new primary is a prefix of `n - 2f` states and its log produces it. -/
def checkNewStateAndRLog (prim : Int) : Py Bool := do
  let rp ← self.repAt prim
  let count := (List.finRange n).countP fun j => isPrefixOf rp.repState (self.rep j).repState
  if (count : Int) < n - 2 * self.numberOfByzantine then return false
  return (← executeRLog rp.rLog) = rp.repState

/-- Check the structure proposed by the new primary. -/
def checkNewVState (prim : Int) : Py Bool := do
  let rp ← self.repAt prim
  let reqsOk ← rp.reqQ.allM (self.checkNewReq prim rp.reqQ)
  if !reqsOk then return false
  let pend := (List.finRange n).flatMap fun j => (self.rep j).pendReqs
  if rp.pendReqs.all fun req =>
      req ∈ pend ∧ (n : Int) - 2 * self.numberOfByzantine ≤ pend.count req then
    self.checkNewStateAndRLog prim
  else return false

/-- Actions of a backup after a view change. -/
def actAsNonprimWhenViewChanged (primId : Int) : Py (ReplicationModule n) := do
  let processors := (List.finRange n).countP fun i => resolver.currentView i = primId
  if (n : Int) - self.numberOfByzantine ≤ processors then
    if ← self.checkNewVState primId then
      let rp ← self.repAt primId
      return self.setOwn { self.own.setReplicaStructure rp with viewChanged := false }
  return self

end ReplicationModule

end BFTList
