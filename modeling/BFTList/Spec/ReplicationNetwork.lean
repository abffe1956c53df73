import BFTList.ForStd.Network
import BFTList.Native.ReplicationRun
import BFTList.Spec.ReplicationSteps

/-!
# The Replication modules of all processors

Every processor iterates, takes client requests and receives structures that
were sent before. Besides its module a processor has the answers of its other
modules, and a history of what it did: the client requests it was given, the
requests it numbered, the requests it accepted on its own account, and those it
handed to `commit()`.

The history is not part of the code; claims about whole runs speak about it.
-/

namespace BFTList

/-- One processor with its surroundings and its history. -/
structure Node (n : Nat) where
  module : ReplicationModule n
  resolver : Resolver n
  stopped : Bool
  injected : List ClientRequest
  created : List Request
  accepted : List Request
  executed : List Request

namespace Node

variable {n : Nat}

/-- A processor after construction. -/
def init (i : Fin n) (f k : Nat) (selfStab : Bool) (resolver : Resolver n) : Node n where
  module := ReplicationModule.init i f k selfStab
  resolver := resolver
  stopped := false
  injected := []
  created := []
  accepted := []
  executed := []

/-- Requests an iteration puts into the own queue before it commits anything:
    numbered as the primary, given `PRE_PREP` as a backup, or taken over in a
    view change. -/
def newlyAccepted (resolver : Resolver n) (order : SetOrder Int) (m : ReplicationModule n) :
    List Request :=
  match m.prepared resolver order with
  | .ok st => st.1.own.queued.filter fun r => r ∉ m.own.queued
  | .error _ => []

/-- One iteration of `run()`. A thread that raised does not iterate again. -/
def iterate (order : SetOrder Int) (s : Node n) : Option (Node n) :=
  if s.stopped then none
  else match s.module.run s.resolver order with
    | .error _ => none
    | .ok it => some { s with
        module := it.after
        stopped := it.raised.isSome
        created := s.created ++ it.created
        accepted := s.accepted ++ newlyAccepted s.resolver order s.module
        executed := s.executed ++ it.committed }

/-- A client request arrives. -/
def inject (req : ClientRequest) (s : Node n) : Node n :=
  { s with module := s.module.injectClientReq req, injected := s.injected ++ [req] }

/-- What happens at one processor. -/
inductive Action (n : Nat) where
  | iterate (order : SetOrder Int)
  | inject (req : ClientRequest)
  | surroundings (resolver : Resolver n)

/-- The protocol when the other modules only give answers that are admitted. A
    structure that is sent carries the sender's id. -/
def protocol (admitted : Resolver n → Prop) [DecidablePred admitted] :
    Protocol (Fin n) (Node n) (Action n) ReplicaStructure where
  act _ a s :=
    match a with
    | .iterate order => s.iterate order
    | .inject req => some (s.inject req)
    | .surroundings resolver =>
      if admitted resolver then some { s with resolver := resolver } else none
  emit i s j := if j = i ∨ s.stopped then [] else [s.module.own]
  receive _ i rs s := { s with module := s.module.receiveRepMsg s.resolver i rs }
  forgeable i rs := rs.id = i.val

instance (admitted : Resolver n → Prop) [DecidablePred admitted] (i : Fin n) :
    DecidablePred ((protocol admitted).forgeable i) :=
  fun rs => inferInstanceAs (Decidable (rs.id = i.val))

/-- Runs from the constructor's states. -/
def network (admitted : Resolver n → Prop) [DecidablePred admitted] (faulty : Finset (Fin n))
    (f k : Nat) (selfStab : Bool) :
    System (Network (Fin n) (Node n) ReplicaStructure)
      (Network.Label (Fin n) (Action n) ReplicaStructure) :=
  Network.system (protocol admitted) faulty fun net =>
    (∀ i, i ∉ faulty → ∃ resolver, admitted resolver ∧
      net.nodes i = init i f k selfStab resolver) ∧ net.flight = []

/-- The surroundings of a stable view with primary `p`. -/
def InView (p : Fin n) (resolver : Resolver n) : Prop :=
  resolver.allowService = true ∧ resolver.noViewChange = true ∧
    ∀ j, resolver.currentView j = p.val

instance (p : Fin n) : DecidablePred (InView p) :=
  fun _ => inferInstanceAs (Decidable (_ ∧ _))

variable {order : SetOrder Int} {s s' : Node n}

/-- Only a thread that has not raised iterates, and what it leaves joins the history. -/
theorem run_of_iterate (h : s.iterate order = some s') :
    s.stopped = false ∧ ∃ it, s.module.run s.resolver order = .ok it ∧ s' = { s with
      module := it.after
      stopped := it.raised.isSome
      created := s.created ++ it.created
      accepted := s.accepted ++ newlyAccepted s.resolver order s.module
      executed := s.executed ++ it.committed } := by
  unfold iterate at h
  split at h
  · cases h
  · rename_i hnot
    split at h
    · cases h
    · rename_i it hrun
      cases h
      exact ⟨Bool.eq_false_iff.mpr hnot, it, hrun, rfl⟩

/-- An iteration that takes place: what it prepared, and what it did then. -/
theorem iterate_cases (h : s.iterate order = some s') :
    ∃ m₁ created processing,
      s.module.prepared s.resolver order = .ok (m₁, created, processing) ∧
      s'.resolver = s.resolver ∧ s'.injected = s.injected ∧
      s'.created = s.created ++ created ∧
      s'.accepted = s.accepted ++ m₁.own.queued.filter (fun r => r ∉ s.module.own.queued) ∧
      ((processing = false ∧ s'.module = m₁ ∧ s'.executed = s.executed ∧ s'.stopped = false) ∨
        (processing = true ∧ ∃ committed raised,
          (s'.module, committed, raised) = ReplicationModule.executeReqs
            (m₁.commitReqs.supportedReqs {.prep, .commit}) m₁.commitReqs [] ∧
          s'.executed = s.executed ++ committed ∧ s'.stopped = raised.isSome)) := by
  obtain ⟨-, it, hrun, rfl⟩ := run_of_iterate h
  obtain ⟨m₁, created, processing, hprep, hcreated, hrest⟩ := ReplicationModule.run_cases hrun
  refine ⟨m₁, created, processing, hprep, rfl, rfl, by rw [hcreated], ?_, ?_⟩
  · simp only [newlyAccepted, hprep]
  · rcases hrest with ⟨hp, hafter, hcommitted, hraised⟩ | ⟨hp, hexec⟩
    · refine Or.inl ⟨hp, hafter, ?_, ?_⟩
      · simp only [hcommitted, List.append_nil]
      · simp only [hraised, Option.isSome_none]
    · exact Or.inr ⟨hp, it.committed, it.raised, hexec, rfl, rfl⟩

end Node

/-! ## Runs of six processors -/

/-- Moves of six processors. -/
abbrev SixMoves := List (Network.Move (Fin 6) (Node.Action 6) ReplicaStructure)

/-- Some processors are given a request. -/
def injecting (req : ClientRequest) (is : List (Fin 6)) : SixMoves :=
  is.map fun i => .act i (.inject req)

/-- Every one of the processors iterates. -/
def iterating (is : List (Fin 6)) : SixMoves := is.map fun i => .act i (.iterate .insertion)

/-- The current structures of some processors reach others. -/
def telling {α μ : Type} (js is : List (Fin 6)) : List (Network.Move (Fin 6) α μ) :=
  js.flatMap fun j => (is.filter (· ≠ j)).map fun i => .relay j i

/-- The faulty processor 5 tells some processors a structure. -/
def lying (rs : ReplicaStructure) (is : List (Fin 6)) : SixMoves := is.map fun i => .forge 5 i rs

/-- Processors 0 to 3 are given a request. The primary 0 numbers it, it goes through all its
    statuses, and processors 0 and 1 hand it to `commit()`. -/
def serving (req : ClientRequest) : SixMoves :=
  injecting req [0, 1, 2, 3] ++ telling [0, 1, 2, 3] [0, 1, 2, 3] ++
  iterating [0] ++ telling [0] [1, 2, 3] ++
  iterating [1, 2, 3] ++ telling [0, 1, 2, 3] [0, 1, 2, 3] ++
  iterating [1, 2, 3] ++ telling [0, 1, 2, 3] [0, 1, 2, 3] ++
  iterating [0, 1, 2, 3] ++ telling [0, 1, 2, 3] [0, 1] ++ iterating [0, 1]

end BFTList
