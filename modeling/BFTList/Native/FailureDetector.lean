import BFTList.Native.ViewChange
import Mathlib.Data.Fintype.Basic

/-!
# Primary Monitoring module: failure detector

The responsiveness and liveness checks of a processor
(`modules/primary_monitoring/failure_detector.py`). Processors pass a token around;
`upon_token_from_pj` handles one that arrives, with one answer of each of the other
modules.
-/

namespace BFTList

/-- Threshold for liveness, where `nodes` is the number in the environment. -/
def BEAT_THRESHOLD (nodes : Int) : Int := if nodes ≤ 6 then 50 else 250

/-- Threshold for progress. -/
def CNT_THRESHOLD (nodes : Int) : Int := if nodes ≤ 6 then 25 else 125

/-- What the other modules answer while a token is handled; the Replication module
    answers with a list of requests, or with `VIEW_CHANGE`. -/
structure FdEnv (n : Nat) extends Resolver n where
  pendReqs : Option (List ClientRequest)

/-- The variables of the failure detector of one processor out of `n`. -/
structure FailureDetectorModule (n : Nat) where
  id : Fin n
  nodes : Int
  selfStab : Bool
  beat : Fin n → Int
  cnt : Int
  primSusp : Fin n → Bool
  curCheckReq : List ClientRequest
  fdSet : Finset Int
  prim : Int

namespace FailureDetectorModule

variable {n : Nat} (env : FdEnv n) (self : FailureDetectorModule n)

/-- The module after construction. -/
def init (id : Fin n) (nodes : Int) (selfStab : Bool) : FailureDetectorModule n where
  id := id
  nodes := nodes
  selfStab := selfStab
  beat := fun _ => 0
  cnt := 0
  primSusp := fun _ => false
  curCheckReq := []
  fdSet := ∅
  prim := -1

/-! ## Inter-module communication -/

/-- The current view of a processor; mocked without self-stabilization. -/
def getCurrentView (k : Fin n) : Int := if self.selfStab then env.currentView k else 0

/-- Whether service is allowed; mocked without self-stabilization. -/
def allowService : Bool := if self.selfStab then env.allowService else true

/-- The pending requests; none during a view change, when the Replication module
    checks the progress of the new primary itself. -/
def getPendReqs : List ClientRequest := env.pendReqs.getD []

/-! ## Macros -/

/-- Resets local variables; `fd_set` is kept. -/
def reset : FailureDetectorModule n :=
  { self with
    beat := fun _ => 0
    cnt := 0
    primSusp := fun _ => false
    curCheckReq := [] }

/-- The checked requests are none, or one of them is pending no longer. -/
def existProgress : Bool :=
  self.curCheckReq = [] || self.curCheckReq.any fun req => req ∉ getPendReqs env

/-- Checks for progress done by the primary. -/
def checkProgressByPrim : FailureDetectorModule n :=
  if self.existProgress env then { self with cnt := 0, curCheckReq := getPendReqs env }
  else { self with cnt := self.cnt + 1 }

/-- Responsive check of processor `j`: the processors heard of recently enough. -/
def updateBeat (j : Fin n) : FailureDetectorModule n :=
  let beat := fun k => if k = j ∨ k = self.id then 0 else self.beat k + 1
  { self with
    beat := beat
    fdSet := (Finset.univ.filter fun k : Fin n =>
      k = j ∨ k = self.id ∨ beat k < BEAT_THRESHOLD self.nodes).image fun k => (k.val : Int) }

/-! ## Tokens -/

/-- Set the suspicion of processor `k`. -/
def setPrimSusp (k : Fin n) (b : Bool) : FailureDetectorModule n :=
  { self with primSusp := Function.update self.primSusp k b }

/-- What is done with the token when service is allowed: the progress of the primary,
    or the suspicion of a processor with the same primary. -/
def checkToken (j : Fin n) (primSuspJ : Bool) : FailureDetectorModule n :=
  -- `j` may be the primary, agree with the own primary, or neither
  let self :=
    if self.prim = j.val then self.checkProgressByPrim env
    else if self.prim = self.getCurrentView env j then self.setPrimSusp j primSuspJ
    else self
  if self.prim = self.id.val then { self with cnt := 0 } else self

/-- Suspect the primary when it is silent or makes no progress. -/
def suspectPrim : FailureDetectorModule n :=
  if self.primSusp self.id then self
  else self.setPrimSusp self.id
    (self.prim ∉ self.fdSet || self.cnt > CNT_THRESHOLD self.nodes)

/-- Checks responsiveness and liveness of processor `j`. -/
def uponTokenFromPj (j : Fin n) (primSuspJ : Bool) : FailureDetectorModule n :=
  let self := self.updateBeat j
  let newPrim := self.getCurrentView env self.id
  -- a new primary: what was counted is forgotten, but `fd_set` stays
  let self := if self.prim ≠ newPrim then self.reset else self
  let self := { self with prim := newPrim }
  if self.allowService env && env.noViewChange then
    (self.checkToken env j primSuspJ).suspectPrim
  else if !self.allowService env then self.reset
  else self

/-! ## Interface functions -/

/-- Enough processors with the own view suspect the primary to be faulty. -/
def suspected (numberOfByzantine : Nat) : Bool :=
  (n : Int) - 2 * numberOfByzantine ≤
    (Finset.univ.filter fun k =>
      self.primSusp k ∧ self.getCurrentView env k = self.getCurrentView env self.id).card

end FailureDetectorModule

/-- The failure detector with the queue its thread takes tokens from: the sender of each
    token, and whether that one suspects the primary. -/
structure FailureDetectorThread (n : Nat) where
  module : FailureDetectorModule n
  numberOfByzantine : Nat
  msgQueue : List (Fin n × Bool)
  firstRun : Bool

namespace FailureDetectorThread

variable {n : Nat} (env : FdEnv n) (self : FailureDetectorThread n)

/-- The thread after construction. -/
def init (id : Fin n) (f : Nat) (nodes : Int) (selfStab : Bool) : FailureDetectorThread n where
  module := .init id nodes selfStab
  numberOfByzantine := f
  msgQueue := []
  firstRun := true

/-- The own suspicion, as it is sent. -/
def primSusp : Bool := self.module.primSusp self.module.id

/-- Enough processors with the own view suspect the primary to be faulty. -/
def suspected : Bool := self.module.suspected env self.numberOfByzantine

/-- Put a token of processor `j` into the queue. -/
def receiveMsg (j : Fin n) (primSuspJ : Bool) : FailureDetectorThread n :=
  { self with msgQueue := self.msgQueue ++ [(j, primSuspJ)] }

/-- Handle the next token, if there is one, and send one back to its sender. -/
def handleToken : FailureDetectorThread n × List (Fin n × Bool) :=
  match self.msgQueue with
  | [] => (self, [])
  | (j, primSuspJ) :: rest =>
    let self := { self with
      module := self.module.uponTokenFromPj env j primSuspJ
      msgQueue := rest }
    (self, [(j, self.primSusp)])

/-- One iteration of `run()`, and the tokens it sends; the first one sends a token to
    everybody. -/
def run : FailureDetectorThread n × List (Fin n × Bool) :=
  let (self, sent) := self.handleToken env
  if self.firstRun then
    ({ self with firstRun := false },
      sent ++ ((List.finRange n).filter (· ≠ self.module.id)).map fun j => (j, self.primSusp))
  else (self, sent)

end FailureDetectorThread

end BFTList
