import BFTList.ForStd.Network
import BFTList.Native.Processor
import BFTList.Spec.ReplicationNetwork

/-!
# Processors with all their modules

Every processor runs its four modules, takes client requests and receives messages that were
sent before. What a module asks of another one is answered by that module; nothing is assumed
about the answers. As before a processor has a history of what its Replication module did, and
it is noted whether Primary Monitoring has asked for a view change.
-/

namespace BFTList

/-- One processor with its history; `stopped` if the thread of the Replication module has
    raised. -/
structure Member (n : Nat) extends Processor n where
  stopped : Bool
  asked : Bool
  injected : List ClientRequest
  created : List Request
  accepted : List Request
  executed : List Request

namespace Member

variable {n : Nat}

/-- A processor without a history. -/
def start (s : Processor n) : Member n where
  toProcessor := s
  stopped := false
  asked := false
  injected := []
  created := []
  accepted := []
  executed := []

/-- The Replication module among the answers of the other ones. -/
def node (s : Member n) : Node n where
  module := s.replication
  resolver := s.toProcessor.resolver
  stopped := s.stopped
  injected := s.injected
  created := s.created
  accepted := s.accepted
  executed := s.executed

/-- What happens at one processor: an iteration of one of its threads, or a client request. -/
inductive Action (n : Nat) where
  | runViewEst
  | sendViewEst
  | runPrimMon (order : SetOrder (Fin n))
  | runFailDet
  | runReplication (order : SetOrder Int)
  | inject (req : ClientRequest)

/-- The Replication module iterates; a thread that raised does not iterate again. -/
def replicate (order : SetOrder Int) (s : Member n) : Option (Member n) :=
  if s.stopped then none
  else match s.toProcessor.runReplication order with
    | .error _ => none
    | .ok (after, it) => some { s with
        toProcessor := after
        stopped := it.raised.isSome
        created := s.created ++ it.created
        accepted := s.accepted ++
          Node.newlyAccepted s.toProcessor.resolver order s.replication
        executed := s.executed ++ it.committed }

/-- One action of a processor. -/
def act (s : Member n) : Action n → Option (Member n)
  | .runViewEst => some { s with toProcessor := s.toProcessor.runViewEst }
  | .sendViewEst => some { s with toProcessor := s.toProcessor.sendViewEst }
  | .runPrimMon order => some { s with
      toProcessor := s.toProcessor.runPrimMon order
      asked := s.asked || (s.primMon.run s.toProcessor.primMonEnv order).2 }
  | .runFailDet =>
    match s.toProcessor.runFailDet with
    | .error _ => none
    | .ok after => some { s with toProcessor := after }
  | .runReplication order => s.replicate order
  | .inject req => some { s with
      toProcessor := s.toProcessor.injectClientReq req
      injected := s.injected ++ [req] }

/-- What a faulty processor may send: a structure carries the sender's id. -/
def Forgeable (i : Fin n) : Msg → Prop
  | .replication rep => rep.id = i.val
  | _ => True

instance (i : Fin n) : DecidablePred (Forgeable i) := fun msg =>
  match msg with
  | .replication rep => inferInstanceAs (Decidable (rep.id = i.val))
  | .viewEstablishment .. | .primaryMonitoring _ | .failureDetector _ => .isTrue trivial

/-- The protocol of whole processors. A thread that raised sends nothing any more. -/
def protocol (n : Nat) : Protocol (Fin n) (Member n) (Action n) Msg where
  act _ a s := s.act a
  emit i s j :=
    if j = i then []
    else (s.toProcessor.msgsTo j).filter fun msg =>
      !(s.stopped && msg = .replication s.replication.own)
  receive _ i msg s := { s with toProcessor := s.toProcessor.dispatchMsg i msg }
  forgeable := Forgeable

instance (i : Fin n) : DecidablePred ((protocol n).forgeable i) :=
  inferInstanceAs (DecidablePred (Forgeable i))

/-- Runs from states of the correct processors, with no message on its way. -/
def network (faulty : Finset (Fin n)) (start : Fin n → Member n → Prop) :
    System (Network (Fin n) (Member n) Msg) (Network.Label (Fin n) (Action n) Msg) :=
  Network.system (protocol n) faulty fun net =>
    (∀ i, i ∉ faulty → start i (net.nodes i)) ∧ net.flight = []

/-- What a processor sends to another one comes from one of its modules. -/
theorem mem_emit {i j : Fin n} {s : Member n} {msg : Msg} (h : msg ∈ (protocol n).emit i s j) :
    j ≠ i ∧ (msg = .viewEstablishment s.viewEst.ownData (s.viewEst.aboutData j) ∨
      (msg = .replication s.replication.own ∧ s.stopped = false) ∨
      msg = .primaryMonitoring s.primMon.own ∨ msg = .failureDetector s.failDet.primSusp) := by
  simp only [protocol] at h
  split at h
  · exact absurd h List.not_mem_nil
  · rename_i hj
    refine ⟨hj, ?_⟩
    simp only [Processor.msgsTo, List.mem_filter, List.mem_cons, List.not_mem_nil, or_false,
      Bool.not_eq_true', Bool.and_eq_false_iff, decide_eq_false_iff_not] at h
    obtain ⟨rfl | rfl | rfl | rfl, hsent⟩ := h
    · exact Or.inl rfl
    · exact Or.inr (Or.inl ⟨rfl, hsent.resolve_right (not_not_intro rfl)⟩)
    · exact Or.inr (Or.inr (Or.inl rfl))
    · exact Or.inr (Or.inr (Or.inr rfl))

end Member

end BFTList
