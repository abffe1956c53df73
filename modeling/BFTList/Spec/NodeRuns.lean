import BFTList.Spec.Containers
import BFTList.Spec.ReplicationNetwork

/-!
# A processor with all the calls of its other modules

Besides iterating and taking client requests, a processor gets calls of its View
Establishment module: flush the replica state, take back the demand for a flush.
It is considered together with others, as a network, and alone, where others
send whatever they like.

## Key results

- `Containers.Keeps.of_alone`: what the containers keep in every run of a processor alone
- `Containers.Keeps.of_together`: and in every run of correct processors
-/

namespace BFTList

namespace Node

variable {n : Nat}

/-- What happens at one processor, with the calls of its View Establishment module. -/
inductive Command (n : Nat) where
  | own (action : Action n)
  | replicaFlush
  | repRequestReset

/-- The processor after a command, if it is possible. -/
def perform (admitted : Resolver n → Prop) [DecidablePred admitted] (i : Fin n) (s : Node n) :
    Command n → Option (Node n)
  | .own action => (protocol admitted).act i action s
  | .replicaFlush => some { s with module := s.module.replicaFlush }
  | .repRequestReset => some { s with module := s.module.repRequestReset.2 }

/-! ## A processor alone -/

/-- A command, or a structure that another processor sent. -/
inductive Event (n : Nat) where
  | perform (command : Command n)
  | receive (j : Fin n) (rep : ReplicaStructure)

/-- The processor after an event. Nobody else sends in its own name. -/
def happens (admitted : Resolver n → Prop) [DecidablePred admitted] (i : Fin n) (s : Node n) :
    Event n → Option (Node n)
  | .perform command => s.perform admitted i command
  | .receive j rep =>
    if j ≠ i then some { s with module := s.module.receiveRepMsg s.resolver j rep } else none

/-- The runs of one processor, whatever it receives. -/
def alone (admitted : Resolver n → Prop) [DecidablePred admitted] (i : Fin n) (f k : Nat)
    (selfStab : Bool) : System (Node n) (Event n) where
  init s := ∃ resolver, admitted resolver ∧ s = init i f k selfStab resolver
  step s e s' := s.happens admitted i e = some s'

/-! ## Processors together -/

/-- The protocol with all commands. -/
def commandProtocol (admitted : Resolver n → Prop) [DecidablePred admitted] :
    Protocol (Fin n) (Node n) (Command n) ReplicaStructure where
  act i command s := s.perform admitted i command
  emit := (protocol admitted).emit
  receive := (protocol admitted).receive
  forgeable := (protocol admitted).forgeable

instance (admitted : Resolver n → Prop) [DecidablePred admitted] (i : Fin n) :
    DecidablePred ((commandProtocol admitted).forgeable i) :=
  inferInstanceAs (DecidablePred ((protocol admitted).forgeable i))

/-- Runs of correct processors from the constructor's states. -/
def together (admitted : Resolver n → Prop) [DecidablePred admitted] (f k : Nat)
    (selfStab : Bool) :
    System (Network (Fin n) (Node n) ReplicaStructure)
      (Network.Label (Fin n) (Command n) ReplicaStructure) :=
  Network.system (commandProtocol admitted) ∅ fun net =>
    (∀ i, ∃ resolver, admitted resolver ∧ net.nodes i = init i f k selfStab resolver) ∧
      net.flight = []

/-- What every correct processor keeps, given what the structures that it sends have. -/
theorem of_together {admitted : Resolver n → Prop} [DecidablePred admitted] {f k : Nat}
    {selfStab : Bool} {ok : Fin n → Node n → Command n → Prop}
    {net : Network (Fin n) (Node n) ReplicaStructure} {I : Fin n → Node n → Prop}
    {R : ReplicaStructure → Prop}
    (hinit : ∀ i resolver, admitted resolver → I i (init i f k selfStab resolver))
    (hperform : ∀ i command s s', I i s → ok i s command → s.perform admitted i command = some s' →
      I i s')
    (hsend : ∀ i s, I i s → R s.module.own)
    (hreceive : ∀ i s j rep, I i s → j ≠ i → R rep →
      I i { s with module := s.module.receiveRepMsg s.resolver j rep })
    (h : (together admitted f k selfStab).Run (Network.locally ok) net) (i : Fin n) :
    I i (net.nodes i) := by
  have hall := Network.Run.of_local (I := I) (M := fun i j rep => i ≠ j ∧ R rep) ?_ ?_ ?_ ?_ h
  · exact hall.nodes i (Finset.notMem_empty i)
  · rintro net ⟨hnodes, hflight⟩
    apply Network.Local.of_noFlight _ hflight
    intro i _
    obtain ⟨resolver, hresolver, heq⟩ := hnodes i
    rw [heq]
    exact hinit i resolver hresolver
  · exact fun i _ command s s' hs hok hstep => hperform i command s s' hs hok hstep
  -- a processor sends its own structure, and not to itself
  · intro i _ s j rep hs hmem
    simp only [commandProtocol, protocol] at hmem
    split at hmem
    · exact absurd hmem List.not_mem_nil
    · rename_i hnot
      rw [List.mem_singleton.mp hmem]
      exact ⟨fun heq => hnot (Or.inl heq.symm), hsend i s hs⟩
  · intro j _ s i rep hs hsent _
    obtain ⟨hne, hrep⟩ := hsent (Finset.notMem_empty i)
    exact hreceive j s i rep hs hne hrep

end Node

/-! ## What the containers keep -/

namespace Containers

open Node ReplicationModule

variable {n : Nat} {C : Containers n} {admitted : Resolver n → Prop} {i : Fin n} {f k : Nat}
  {selfStab : Bool} {s s' : Node n}

/-- A structure after construction. -/
theorem holds_init (hlast : C.lastReq (.list (List.replicate k .unset))) (j : Fin n) :
    C.Holds (ReplicaStructure.init j.val k) :=
  ⟨C.id_val j, C.rLog_nil, C.pendReqs_nil, C.reqQ_nil, hlast⟩

/-- A processor in admitted surroundings all of whose structures have the properties. -/
structure Keeps (C : Containers n) (admitted : Resolver n → Prop) (i : Fin n) (s : Node n) :
    Prop where
  table : C.Table s.module
  resolver : admitted s.resolver
  id : s.module.id = i

/-- What a command brings has the properties: the 6 clients of a flush, and the
    request of a client. -/
def Allows (C : Containers n) (s : Node n) : Command n → Prop
  | .own (.iterate order) => s.module.Flushes s.resolver order → C.clients 6
  | .own (.inject req) => C.client req
  | .own (.surroundings _) | .replicaFlush | .repRequestReset => True

/-- The same for the events of a processor alone. -/
def AllowsEvent (C : Containers n) (s : Node n) : Event n → Prop
  | .perform command => C.Allows s command
  | .receive _ rep => s.module.stores s.resolver = true → C.Holds rep

namespace Keeps

theorem init {resolver : Resolver n} (hresolver : admitted resolver)
    (hsettings : C.settings i f k selfStab)
    (hlast : C.lastReq (.list (List.replicate k .unset))) (hprim : C.prim 0)
    (hclients : C.clients k) : C.Keeps admitted i (Node.init i f k selfStab resolver) where
  table := ⟨hsettings, holds_init hlast, hprim, hclients⟩
  resolver := hresolver
  id := rfl

theorem iterate (h : C.Keeps admitted i s)
    (hview : ∀ resolver, admitted resolver → resolver.allowService = true →
      C.prim (resolver.currentView i)) {order : SetOrder Int}
    (hallow : s.module.Flushes s.resolver order → C.clients 6) (hit : s.iterate order = some s') :
    C.Keeps admitted i s' := by
  -- the views are those the processor itself is told
  have hid := h.id
  subst hid
  obtain ⟨-, it, hrun, rfl⟩ := Node.run_of_iterate hit
  have htable := h.table.run (hview _ h.resolver) hallow hrun
  exact ⟨htable, h.resolver, (Table.settings_run hrun).1⟩

/-- A command keeps what it is allowed to keep. -/
theorem perform [DecidablePred admitted] (h : C.Keeps admitted i s)
    (hview : ∀ resolver, admitted resolver → resolver.allowService = true →
      C.prim (resolver.currentView i)) {command : Command n} (hallow : C.Allows s command)
    (hstep : s.perform admitted i command = some s') : C.Keeps admitted i s' := by
  cases command with
  | own action =>
    cases action with
    | iterate order => exact h.iterate hview hallow hstep
    | inject req =>
      cases hstep
      exact ⟨h.table.injectClientReq hallow, h.resolver, h.id⟩
    | surroundings resolver =>
      simp only [Node.perform, protocol, Option.ite_none_right_eq_some, Option.some.injEq] at hstep
      obtain ⟨hadmitted, rfl⟩ := hstep
      exact ⟨h.table, hadmitted, h.id⟩
  | replicaFlush =>
    cases hstep
    exact ⟨{ h.table with }, h.resolver, h.id⟩
  | repRequestReset =>
    cases hstep
    rw [repRequestReset_eq]
    exact ⟨{ h.table with }, h.resolver, h.id⟩

theorem receive (h : C.Keeps admitted i s) {j : Fin n} (hne : j ≠ i) {rep : ReplicaStructure}
    (hrep : s.module.stores s.resolver = true → C.Holds rep) :
    C.Keeps admitted i { s with module := s.module.receiveRepMsg s.resolver j rep } where
  table := h.table.receiveRepMsg (h.id ▸ hne) hrep
  resolver := h.resolver
  id := by simpa using h.id

/-- A processor alone keeps it in every run whose events bring what is allowed. -/
theorem of_alone [DecidablePred admitted] {ok : Node n → Event n → Prop}
    (hview : ∀ resolver, admitted resolver → resolver.allowService = true →
      C.prim (resolver.currentView i)) (hsettings : C.settings i f k selfStab)
    (hlast : C.lastReq (.list (List.replicate k .unset))) (hprim : C.prim 0)
    (hclients : C.clients k) (hok : ∀ s e, ok s e → C.AllowsEvent s e)
    (h : (alone admitted i f k selfStab).Run ok s) : C.Keeps admitted i s := by
  refine h.invariant ?_ ?_
  -- construction
  · rintro s ⟨resolver, hresolver, rfl⟩
    exact init hresolver hsettings hlast hprim hclients
  -- each event is a command or a structure in the name of another processor
  · intro s e s' hs hallowed hstep
    have hallow := hok s e hallowed
    cases e with
    | perform command => exact hs.perform hview hallow hstep
    | receive j rep =>
      simp only [alone, happens, Option.ite_none_right_eq_some, Option.some.injEq] at hstep
      obtain ⟨hne, rfl⟩ := hstep
      exact hs.receive hne hallow

/-- Correct processors keep it in every run whose commands bring what is allowed. -/
theorem of_together [DecidablePred admitted] {ok : Fin n → Node n → Command n → Prop}
    {net : Network (Fin n) (Node n) ReplicaStructure}
    (hview : ∀ i resolver, admitted resolver → resolver.allowService = true →
      C.prim (resolver.currentView i)) (hsettings : ∀ i, C.settings i f k selfStab)
    (hlast : C.lastReq (.list (List.replicate k .unset))) (hprim : C.prim 0)
    (hclients : C.clients k) (hok : ∀ i s command, ok i s command → C.Allows s command)
    (h : (together admitted f k selfStab).Run (Network.locally ok) net) :
    ∀ i, C.Keeps admitted i (net.nodes i) := by
  apply Node.of_together (I := fun i s => C.Keeps admitted i s) (R := C.Holds) _ _ _ _ h
  · exact fun i resolver hresolver => init hresolver (hsettings i) hlast hprim hclients
  · exact fun i command s s' hs hallowed hstep =>
      hs.perform (hview i) (hok i s command hallowed) hstep
  · exact fun i s hs => hs.table.own.toHolds
  · exact fun i s j rep hs hne hrep => hs.receive hne fun _ => hrep

end Keeps

end Containers

end BFTList
