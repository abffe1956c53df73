import BFTList.Spec.Agreement
import BFTList.Spec.ProcessorStability
import BFTList.Spec.Validity

/-!
# Replication among the other modules

With view 0 established and the Replication modules as they were started, every one of them is
in place: it records the primary of the view and no view change. An iteration then asks the
other modules for nothing that the answers of a stable view do not tell, whatever faulty
processors report about their views. So the Replication modules of whole processors behave as
those in a stable view, and what was shown of these holds there.

## Key results

- `run_congr`: an iteration of a module in place depends on little of its surroundings
- `inPlace_network`: modules stay in place in undisturbed runs
- `network_of_members`: runs of whole processors are runs of their Replication modules
- `executed_consistent`: agreement and validity for whole processors
-/

namespace BFTList

/-! ## Iterations in place -/

namespace ReplicationModule

variable {n : Nat} {m m₀ : ReplicationModule n} {p : Fin n} {resolver resolver' : Resolver n}
  {order : SetOrder Int}

/-- The primary of the view is recorded, and no view change. -/
structure InPlace (p : Fin n) (m : ReplicationModule n) : Prop where
  flush : m.flush = false
  prim : m.own.prim = p.val
  viewChanged : m.own.viewChanged = false

/-- There is no view change to notice, and none to act on. -/
theorem InPlace.actOnViewChange_noticeView (h : m.InPlace p)
    (hview : resolver.currentView m.id = p.val) :
    (m.noticeView resolver).actOnViewChange resolver order = .ok m := by
  have hsame : m.noticeView resolver = m := by
    have hown : ({ m.own with viewChanged := false, prim := p.val } : ReplicaStructure) =
        m.own := by
      rw [← h.prim, ← h.viewChanged]
    simp only [noticeView, h.viewChanged, hview, h.prim, ne_eq, not_true_eq_false, decide_false,
      Bool.and_false, Bool.false_eq_true, if_false]
    rw [hown, setOwn_own]
  rw [hsame]
  simp only [actOnViewChange, h.viewChanged, Bool.false_eq_true, false_and, if_false]
  rfl

/-- Reconciling in place is consolidation and flush. -/
theorem InPlace.reconcile_eq (h : m.InPlace p) (hview : resolver.currentView m.id = p.val) :
    m.reconcile resolver order =
      if m.selfStab = true then m.consolidate >>= flushStep else .ok m := by
  rw [ReplicationModule.reconcile_eq, unflushed, h.actOnViewChange_noticeView hview]
  cases resolver.allowService with
  | false => rfl
  | true => rfl

/-- Without a flush a module stays in place. -/
theorem InPlace.reconcile (h : m.InPlace p) (hview : resolver.currentView m.id = p.val)
    (hrec : m.reconcile resolver order = .ok m₀) (hneed : m₀.needFlush = false) :
    m₀.InPlace p := by
  rw [h.reconcile_eq hview] at hrec
  split at hrec
  · obtain ⟨m₁, hcons, hflush⟩ := Py.of_bind hrec
    have hm₁ : m₁.InPlace p := by
      obtain ⟨x, -, rfl | rfl⟩ := consolidate_cases hcons
      · exact ⟨h.flush, by rw [own_setOwn]; exact h.prim, by rw [own_setOwn]; exact h.viewChanged⟩
      · exact ⟨h.flush, by rw [own_setOwn]; exact h.prim, by rw [own_setOwn]; exact h.viewChanged⟩
    cases flushStep_cases hm₁.flush hflush with
    | inl heq => exact heq ▸ hm₁
    | inr hflushed => exact absurd (hflushed.needFlush.symm.trans hneed) (by decide)
  · cases hrec
    exact h

theorem InPlace.run {it : Iteration n} (h : m.InPlace p)
    (hview : resolver.currentView m.id = p.val) (hprim : m.primId resolver = p.val)
    (hrun : m.run resolver order = .ok it)
    (hneed : (m.reconcile resolver order).Returns fun m₀ => m₀.needFlush = false) :
    it.after.InPlace p := by
  obtain ⟨m₀, rs, hrec, hafter, hsame⟩ := run_sameView hrun hprim
  have hm₀ := h.reconcile hview hrec (hneed m₀ hrec)
  rw [hafter]
  exact ⟨hm₀.flush, by rw [own_setOwn]; exact hsame.prim.trans hm₀.prim,
    by rw [own_setOwn]; exact hsame.viewChanged.trans hm₀.viewChanged⟩

/-- The answers that matter to a module in place. -/
structure Alike (p : Fin n) (m : ReplicationModule n) (resolver resolver' : Resolver n) :
    Prop where
  allowService : resolver.allowService = resolver'.allowService
  noViewChange : resolver.noViewChange = resolver'.noViewChange
  view : resolver.currentView m.id = p.val
  view' : resolver'.currentView m.id = p.val

theorem InPlace.reconcile_congr (h : m.InPlace p) (halike : m.Alike p resolver resolver')
    (order : SetOrder Int) : m.reconcile resolver order = m.reconcile resolver' order := by
  rw [h.reconcile_eq halike.view, h.reconcile_eq halike.view']

theorem Alike.mayProcess (halike : m.Alike p resolver resolver') (m₀ : ReplicationModule n) :
    m₀.mayProcess resolver = m₀.mayProcess resolver' := by
  simp only [ReplicationModule.mayProcess, halike.allowService, halike.noViewChange]

theorem Alike.primId (halike : m.Alike p resolver resolver')
    (hrec : m.reconcile resolver order = .ok m₀) :
    m₀.learnPendReqs.primId resolver = m₀.learnPendReqs.primId resolver' := by
  obtain ⟨hid, -⟩ := Containers.Table.settings_reconcile hrec
  simp only [ReplicationModule.primId, learnPendReqs, setOwn_id, hid, halike.view, halike.view']

/-- An iteration in place depends on no other answers. -/
theorem InPlace.run_congr (h : m.InPlace p) (halike : m.Alike p resolver resolver')
    (order : SetOrder Int) : m.run resolver order = m.run resolver' order := by
  unfold ReplicationModule.run
  rw [h.reconcile_congr halike order]
  cases hrec : m.reconcile resolver' order with
  | error e => rfl
  | ok m₀ =>
    have hprim := halike.primId ((h.reconcile_congr halike order).trans hrec)
    simp only [bind, Except.bind, halike.mayProcess, processReqs, hprim]

theorem InPlace.prepared_congr (h : m.InPlace p) (halike : m.Alike p resolver resolver')
    (order : SetOrder Int) : m.prepared resolver order = m.prepared resolver' order := by
  unfold prepared
  rw [h.reconcile_congr halike order]
  cases hrec : m.reconcile resolver' order with
  | error e => rfl
  | ok m₀ =>
    have hprim := halike.primId ((h.reconcile_congr halike order).trans hrec)
    simp only [bind, Except.bind, halike.mayProcess, hprim]

end ReplicationModule

/-! ## Runs in place -/

namespace Member

open ViewEstablishmentModule (Setting)

variable {n f k : Nat} {nodes : Int} {faulty : Finset (Fin n)} {p i : Fin n} {s s' : Member n}

/-- A processor in the view of `p`, with its Replication module in place. -/
structure Placed (f : Nat) (faulty : Finset (Fin n)) (p i : Fin n) (s : Member n) : Prop
    extends s.Steady f faulty p.val i where
  inPlace : s.replication.InPlace p

/-- The Replication module with the answers of a stable view. -/
def nodeInView (p : Fin n) (s : Member n) : Node n :=
  { s.node with resolver := ⟨true, true, fun _ => p.val⟩ }

theorem nodeInView_eq {s s' : Member n} (hmodule : s'.replication = s.replication)
    (hstopped : s'.stopped = s.stopped) (hinjected : s'.injected = s.injected)
    (hcreated : s'.created = s.created) (haccepted : s'.accepted = s.accepted)
    (hexecuted : s'.executed = s.executed) : s'.nodeInView p = s.nodeInView p := by
  simp only [nodeInView, node, hmodule, hstopped, hinjected, hcreated, haccepted, hexecuted]

namespace Placed

variable (h : s.Placed f faulty p i) (hs : Setting n f faulty p.val) (hi : i ∉ faulty)

include h hs hi

/-- The other modules answer the module in place as in a stable view. -/
theorem alike : s.replication.Alike p s.toProcessor.resolver ⟨true, true, fun _ => p.val⟩ where
  allowService := h.toSteady.allowService hs hi
  noViewChange := h.toSteady.noViewChange hi
  view := by
    show s.viewEst.getCurrentView s.replication.id = _
    rw [h.id]
    exact h.toSteady.getCurrentView hs hi
  view' := rfl

/-- An iteration of the module among the others is one in a stable view. -/
theorem iterate {order : SetOrder Int} (hact : s.replicate order = some s') :
    (s.nodeInView p).iterate order = some (s'.nodeInView p) := by
  have halike := h.alike hs hi
  have hrun := h.inPlace.run_congr halike order
  have hprep := h.inPlace.prepared_congr halike order
  unfold replicate Processor.runReplication at hact
  split at hact
  · cases hact
  rename_i hstopped
  cases hit : s.replication.run s.toProcessor.resolver order with
  | error e =>
    rw [hit] at hact
    cases hact
  | ok it =>
    rw [hit] at hact
    cases hact
    rw [hit] at hrun
    have hnot : (s.nodeInView p).stopped = false := Bool.eq_false_iff.mpr hstopped
    unfold Node.iterate
    rw [hnot, if_neg Bool.false_ne_true]
    simp only [nodeInView, node, ← hrun, Node.newlyAccepted, ← hprep]
    rfl

/-- What an iteration counts on does not depend on other answers either. -/
theorem acceptsOne {order : SetOrder Int} (hok : AcceptsOne p faulty s.node (.iterate order)) :
    AcceptsOne p faulty (s.nodeInView p) (.iterate order) := by
  have halike := h.alike hs hi
  intro m₀ hrec
  have hrec' : s.node.module.reconcile s.node.resolver order = .ok m₀ :=
    (h.inPlace.reconcile_congr halike order).trans hrec
  have hacceptable : acceptable p (s.nodeInView p) m₀.learnPendReqs =
      acceptable p s.node m₀.learnPendReqs := by
    simp only [acceptable, nodeInView, node, halike.mayProcess]
    rfl
  obtain ⟨hlisted, hbacked, hone, hlast⟩ := hok m₀ hrec'
  refine ⟨hlisted, hbacked, ?_, ?_⟩
  · rw [hacceptable]
    exact hone
  · rw [hacceptable]
    exact hlast

omit hs hi in
theorem inject (req : ClientRequest) :
    ({ s with
      toProcessor := s.toProcessor.injectClientReq req
      injected := s.injected ++ [req] } : Member n).Placed f faulty p i := by
  refine { h with inPlace := ⟨h.inPlace.flush, ?_, ?_⟩ }
  · show (s.replication.injectClientReq req).own.prim = _
    rw [ReplicationModule.injectClientReq, ReplicationModule.own_setOwn]
    exact h.inPlace.prim
  · show (s.replication.injectClientReq req).own.viewChanged = _
    rw [ReplicationModule.injectClientReq, ReplicationModule.own_setOwn]
    exact h.inPlace.viewChanged

/-- An iteration of the Replication module that does not flush leaves it in place. -/
theorem replicate {order : SetOrder Int} (hok : NoFlush s.node (.iterate order))
    (hact : s.replicate order = some s') : s'.replication.InPlace p := by
  have halike := h.alike hs hi
  unfold Member.replicate Processor.runReplication at hact
  split at hact
  · cases hact
  cases hit : s.replication.run s.toProcessor.resolver order with
  | error e =>
    rw [hit] at hact
    cases hact
  | ok it =>
    rw [hit] at hact
    cases hact
    exact h.inPlace.run halike.view (h.toSteady.primId hs hi p rfl h.id h.stab) hit hok

theorem act {a : Action n} (hok : s.Undisturbed faulty a) (hact : s.act a = some s') :
    s'.Placed f faulty p i := by
  have hsteady := h.toSteady.act hs hi hok hact
  refine { hsteady with inPlace := ?_ }
  cases a with
  | runViewEst =>
    cases hact
    exact h.toSteady.runViewEst_replication.symm ▸ h.inPlace
  | sendViewEst =>
    cases hact
    exact h.inPlace
  | runPrimMon order =>
    cases hact
    exact h.inPlace
  | runFailDet =>
    simp only [Member.act] at hact
    cases hrun : s.toProcessor.runFailDet with
    | error e =>
      rw [hrun] at hact
      cases hact
    | ok after =>
      rw [hrun] at hact
      cases hact
      obtain ⟨env, -, heq⟩ := Py.of_bind hrun
      cases heq
      exact h.inPlace
  | runReplication order => exact h.replicate hs hi hok hact
  | inject req =>
    cases hact
    exact (h.inject req).inPlace

omit hs hi in
/-- A message of another processor does not touch the own structure. -/
theorem receive {j : Fin n} (hj : j ≠ i) {msg : Msg}
    (hmsg : j ∉ faulty → Calming faulty p.val j i msg) :
    ({ s with toProcessor := s.toProcessor.dispatchMsg j msg } : Member n).Placed f faulty p i := by
  refine { h.toSteady.receive hmsg with inPlace := ?_ }
  cases msg with
  | replication rep =>
    have hne : j ≠ s.replication.id := h.id ▸ hj
    have hown : (s.replication.receiveRepMsg s.toProcessor.resolver j rep).own =
        s.replication.own := ReplicationModule.own_receiveRepMsg hne
    obtain ⟨copy, heq, -⟩ := ReplicationModule.receiveRepMsg_cases s.replication
      s.toProcessor.resolver j rep
    exact ⟨(congrArg ReplicationModule.flush heq).trans h.inPlace.flush,
      (congrArg ReplicaStructure.prim hown).trans h.inPlace.prim,
      (congrArg ReplicaStructure.viewChanged hown).trans h.inPlace.viewChanged⟩
  | viewEstablishment own about => exact h.inPlace
  | primaryMonitoring vcm => exact h.inPlace
  | failureDetector b => exact h.inPlace

end Placed

/-- Modules in place after construction record primary 0. -/
theorem Established.placed (h : s.Established f k nodes faulty p.val i) (hp : p.val = 0) :
    s.Placed f faulty p i := by
  refine { h.steady with inPlace := ?_ }
  rw [h.others]
  refine ⟨rfl, ?_, rfl⟩
  show (0 : Int) = p.val
  rw [hp]
  rfl

/-- What correct processors keep in every undisturbed run in view 0. -/
theorem placed_network (hs : Setting n f faulty p.val) (hp : p.val = 0)
    {net : Network (Fin n) (Member n) Msg}
    (h : (network faulty fun i s => s.Established f k nodes faulty p.val i).Run
      (Network.locally fun _ => Undisturbed faulty) net) :
    Network.Local (protocol n) faulty (fun i s => s.Placed f faulty p i)
      (fun i j msg => i ≠ j ∧ Calming faulty p.val i j msg) net := by
  refine Network.Run.of_local ?_ ?_ ?_ ?_ h
  · intro net hnet
    exact Network.Local.of_noFlight (fun i hi => (hnet.1 i hi).placed hp) hnet.2
  · intro i hi a s s' hplaced hok hact
    exact hplaced.act hs hi hok hact
  · intro i hi s j msg hplaced hmsg
    exact ⟨(mem_emit hmsg).1.symm, hplaced.toSteady.calming hi hmsg⟩
  · intro j hj s i msg hplaced hmsg _
    refine hplaced.receive ?_ fun hi => (hmsg hi).2
    by_cases hi : i ∈ faulty
    · exact fun heq => hj (heq ▸ hi)
    · exact (hmsg hi).1

/-! ## The Replication modules of whole processors -/

/-- A structure on its way. -/
def replicationOf : Fin n × Fin n × Msg → Option (Fin n × Fin n × ReplicaStructure)
  | (i, j, .replication rep) => some (i, j, rep)
  | _ => none

/-- The network of the Replication modules, in the view of `p`. -/
def replicationNet (p : Fin n) (net : Network (Fin n) (Member n) Msg) :
    Network (Fin n) (Node n) ReplicaStructure :=
  ⟨fun i => (net.nodes i).nodeInView p, net.flight.filterMap replicationOf⟩

theorem replicationNet_set (p : Fin n) (net : Network (Fin n) (Member n) Msg) (i : Fin n)
    (s : Member n) :
    replicationNet p (net.set i s) = (replicationNet p net).set i (s.nodeInView p) := by
  have hnodes : (fun j => ((net.set i s).nodes j).nodeInView p) =
      Function.update (fun j => (net.nodes j).nodeInView p) i (s.nodeInView p) := by
    funext j
    by_cases hj : j = i
    · subst hj
      rw [Network.set_nodes_self, Function.update_self]
    · rw [Network.set_nodes_of_ne _ _ hj, Function.update_of_ne hj]
  unfold replicationNet
  rw [hnodes]
  rfl

/-- A step that does not concern the Replication module is none of its network. -/
theorem replicationNet_set_of_eq {net : Network (Fin n) (Member n) Msg} {s : Member n}
    (h : s.nodeInView p = (net.nodes i).nodeInView p) :
    replicationNet p (net.set i s) = replicationNet p net := by
  have hsame : Function.update (fun j => (net.nodes j).nodeInView p) i
      ((net.nodes i).nodeInView p) = fun j => (net.nodes j).nodeInView p :=
    Function.update_eq_self ..
  rw [replicationNet_set, h]
  simp only [Network.set, replicationNet, hsame]

/-- What an iteration of the Replication module counts on. -/
def Orderly (p : Fin n) (faulty : Finset (Fin n)) (s : Member n) : Action n → Prop
  | .runReplication order =>
    AcceptsOne p faulty s.node (.iterate order) ∧ VouchedFor faulty s.node (.iterate order)
  | _ => True

instance (s : Member n) (a : Action n) : Decidable (s.Orderly p faulty a) :=
  match a with
  | .runReplication _ => inferInstanceAs (Decidable (_ ∧ _))
  | .runViewEst | .sendViewEst | .runPrimMon _ | .runFailDet | .inject _ => .isTrue trivial

/-- Runs of whole processors from the establishment of view 0 on. -/
abbrev OrderlyRun (f k : Nat) (nodes : Int) (p : Fin n) (faulty : Finset (Fin n))
    (net : Network (Fin n) (Member n) Msg) : Prop :=
  (network faulty fun i s => s.Established f k nodes faulty p.val i).Run
    (Network.locally fun _ s a => s.Undisturbed faulty a ∧ s.Orderly p faulty a) net

/-- The condition on an iteration in the network of the Replication modules. -/
abbrev Counts (p : Fin n) (faulty : Finset (Fin n)) (s : Node n) (a : Node.Action n) : Prop :=
  NoFlush s a ∧ AcceptsOne p faulty s a ∧ VouchedFor faulty s a

/-- What a processor does is nothing to the Replication modules, or an action of its own. -/
theorem Placed.simulates (h : s.Placed f faulty p i) (hs : Setting n f faulty p.val)
    (hi : i ∉ faulty) {a : Action n} (hok : s.Undisturbed faulty a ∧ s.Orderly p faulty a)
    (hact : s.act a = some s') : s'.nodeInView p = s.nodeInView p ∨
      ∃ b, Counts p faulty (s.nodeInView p) b ∧
        (Node.protocol (Node.InView p)).act i b (s.nodeInView p) = some (s'.nodeInView p) := by
  cases a with
  | runViewEst =>
    cases hact
    exact Or.inl (nodeInView_eq h.toSteady.runViewEst_replication rfl rfl rfl rfl rfl)
  | sendViewEst =>
    cases hact
    exact Or.inl rfl
  | runPrimMon order =>
    cases hact
    exact Or.inl rfl
  | runFailDet =>
    simp only [Member.act] at hact
    cases hrun : s.toProcessor.runFailDet with
    | error e =>
      rw [hrun] at hact
      cases hact
    | ok after =>
      rw [hrun] at hact
      cases hact
      obtain ⟨env, -, heq⟩ := Py.of_bind hrun
      cases heq
      exact Or.inl rfl
  | runReplication order =>
    have hcongr := h.inPlace.reconcile_congr (h.alike hs hi) order
    refine Or.inr ⟨.iterate order, ⟨?_, h.acceptsOne hs hi hok.2.1, ?_⟩, h.iterate hs hi hact⟩
    · exact fun m₀ hrec => hok.1 m₀ (hcongr.trans hrec)
    · exact fun m₀ hrec => hok.2.2 m₀ (hcongr.trans hrec)
  | inject req =>
    cases hact
    exact Or.inr ⟨.inject req, ⟨trivial, trivial, trivial⟩, rfl⟩

/-- So is what it does with a message. -/
theorem Placed.nodeInView_dispatchMsg (h : s.Placed f faulty p i) (hs : Setting n f faulty p.val)
    (hi : i ∉ faulty) (j : Fin n) (rep : ReplicaStructure) :
    ({ s with toProcessor := s.toProcessor.dispatchMsg j (.replication rep) } :
      Member n).nodeInView p =
        (Node.protocol (Node.InView p)).receive i j rep (s.nodeInView p) := by
  have halike := h.alike hs hi
  have hrep : s.replication.receiveRepMsg s.toProcessor.resolver j rep =
      s.replication.receiveRepMsg ⟨true, true, fun _ => p.val⟩ j rep := by
    simp only [ReplicationModule.receiveRepMsg, halike.allowService, halike.noViewChange]
  exact congrArg (fun m => ({ s.nodeInView p with module := m } : Node n)) hrep

/-- Runs of whole processors are runs of their Replication modules in a stable view. -/
theorem network_of_members (hs : Setting n f faulty p.val) (hp : p.val = 0)
    {net : Network (Fin n) (Member n) Msg} (h : OrderlyRun f k nodes p faulty net) :
    (Node.network (Node.InView p) faulty f k true).Run
      (Network.locally fun _ => Counts p faulty) (replicationNet p net) := by
  have hundisturbed : ∀ {net}, OrderlyRun f k nodes p faulty net →
      (network faulty fun i s => s.Established f k nodes faulty p.val i).Run
        (Network.locally fun _ => Undisturbed faulty) net := by
    intro net hrun
    refine hrun.mono fun net l hok => ?_
    cases l with
    | act i a => exact hok.1
    | send i j msg => trivial
    | deliver i j msg => trivial
    | forge i j msg => trivial
  refine h.refine (replicationNet p) ?_ ?_
  · intro net hnet
    refine ⟨fun i hi => ⟨⟨true, true, fun _ => p.val⟩, ⟨rfl, rfl, fun _ => rfl⟩, ?_⟩, ?_⟩
    · show (net.nodes i).nodeInView p = _
      rw [(hnet.1 i hi).others]
      rfl
    · show net.flight.filterMap replicationOf = []
      rw [hnet.2]
      rfl
  · intro net l net' hrun hok hstep
    have hlocal := placed_network hs hp (hundisturbed hrun)
    cases l with
    | act i a =>
      obtain ⟨hi, s, hact, rfl⟩ := hstep
      cases (hlocal.nodes i hi).simulates hs hi hok hact with
      | inl hsame => exact Or.inl (replicationNet_set_of_eq hsame)
      | inr hmatch =>
        obtain ⟨b, hcounts, hb⟩ := hmatch
        exact Or.inr ⟨.act i b, hcounts, hi, _, hb, replicationNet_set p net i s⟩
    | send i j msg =>
      obtain ⟨hi, hmsg, rfl⟩ := hstep
      cases msg with
      | replication rep =>
        obtain ⟨hj, hcase⟩ := mem_emit hmsg
        simp only [reduceCtorEq, Msg.replication.injEq, false_or, or_false] at hcase
        obtain ⟨rfl, hstopped⟩ := hcase
        refine Or.inr ⟨.send i j (net.nodes i).replication.own, trivial, hi, ?_, rfl⟩
        have hnot : ((replicationNet p net).nodes i).stopped = false := hstopped
        simp only [Node.protocol, hj, hnot, Bool.false_eq_true, or_self, if_false]
        exact List.mem_singleton_self _
      | viewEstablishment own about => exact Or.inl rfl
      | primaryMonitoring vcm => exact Or.inl rfl
      | failureDetector b => exact Or.inl rfl
    | deliver i j msg =>
      obtain ⟨hj, hmem, rfl⟩ := hstep
      cases msg with
      | replication rep =>
        refine Or.inr ⟨.deliver i j rep, trivial, hj, List.mem_filterMap.mpr ⟨_, hmem, rfl⟩, ?_⟩
        have hreceive := (hlocal.nodes j hj).nodeInView_dispatchMsg hs hj i rep
        exact (replicationNet_set p net j _).trans
          (congrArg ((replicationNet p net).set j) hreceive)
      | viewEstablishment own about => exact Or.inl (replicationNet_set_of_eq rfl)
      | primaryMonitoring vcm => exact Or.inl (replicationNet_set_of_eq rfl)
      | failureDetector b => exact Or.inl (replicationNet_set_of_eq rfl)
    | forge i j msg =>
      obtain ⟨hi, hj, hmsg, rfl⟩ := hstep
      cases msg with
      | replication rep =>
        refine Or.inr ⟨.forge i j rep, trivial, hi, hj, hmsg, ?_⟩
        have hreceive := (hlocal.nodes j hj).nodeInView_dispatchMsg hs hj i rep
        exact (replicationNet_set p net j _).trans
          (congrArg ((replicationNet p net).set j) hreceive)
      | viewEstablishment own about => exact Or.inl (replicationNet_set_of_eq rfl)
      | primaryMonitoring vcm => exact Or.inl (replicationNet_set_of_eq rfl)
      | failureDetector b => exact Or.inl (replicationNet_set_of_eq rfl)

/-- In every run of whole processors with at most `f` of `5f + 1` faulty, requests that correct
    processors execute with one sequence number carry one client request, and each of these is
    a dummy or was given to a correct processor. -/
theorem executed_consistent (hs : Setting n f faulty p.val) (hp : p.val = 0)
    {net : Network (Fin n) (Member n) Msg} (h : OrderlyRun f k nodes p faulty net) {i : Fin n}
    (hi : i ∉ faulty) {r : Request} (hr : r ∈ (net.nodes i).executed) :
    (∀ j, j ∉ faulty → ∀ r' ∈ (net.nodes j).executed, r.seqNum = r'.seqNum →
      r.clientRequest = r'.clientRequest) ∧
    (r.clientRequest.operation ≠ .noOp →
      ∃ j, j ∉ faulty ∧ r.clientRequest ∈ (net.nodes j).injected) := by
  have hrun := network_of_members hs hp h
  have hsize := hs.size
  have hfew := hs.few
  constructor
  · intro j hj r' hr'
    have hagree : agreeingNetwork p faulty f k (replicationNet p net) := by
      refine hrun.mono fun net l hok => ?_
      cases l with
      | act i a => exact ⟨hok.1, hok.2.1⟩
      | send i j msg => trivial
      | deliver i j msg => trivial
      | forge i j msg => trivial
    exact executed_agree hsize hfew hagree i j hi hj r r' hr hr'
  · refine executed_injected hsize hfew (hrun.mono fun net l hok => ?_) i hi r hr
    cases l with
    | act i a => exact hok.2.2
    | send i j msg => trivial
    | deliver i j msg => trivial
    | forge i j msg => trivial

/-! ## One request of six processors -/

/-- Some processors do the same. -/
def doing (a : Action 6) (is : List (Fin 6)) : List (Network.Move (Fin 6) (Action 6) Msg) :=
  is.map fun i => .act i a

/-- Processor 5 reports a rival request with the number that is given first, and suspects the
    primary. Processors 0 to 3 are given a request, which goes through all its statuses, while
    the other modules iterate too; processors 0 and 1 hand it to `commit()`. -/
def oneRequest : List (Network.Move (Fin 6) (Action 6) Msg) :=
  [0, 1, 2, 3].flatMap (fun i =>
    [.forge 5 i (.replication rivalOffer), .forge 5 i (.failureDetector true)]) ++
  doing (.inject ⟨0, some 1, .append 7⟩) [0, 1, 2, 3] ++ telling [0, 1, 2, 3] [0, 1, 2, 3] ++
  doing (.runReplication .insertion) [0] ++ telling [0] [1, 2, 3] ++
  doing (.runReplication .insertion) [1, 2, 3] ++ doing (.runPrimMon .insertion) [0, 1] ++
  telling [0, 1, 2, 3] [0, 1, 2, 3] ++
  doing (.runReplication .insertion) [1, 2, 3] ++ doing .runFailDet [0, 1] ++
  telling [0, 1, 2, 3] [0, 1, 2, 3] ++
  doing (.runReplication .insertion) [0, 1, 2, 3] ++ doing .runViewEst [0, 1] ++
  telling [0, 1, 2, 3] [0, 1] ++ doing (.runReplication .insertion) [0, 1]

/-- Processors 0 and 1 execute the request, and not the rival one. -/
theorem executed_consistent_six : ∃ net : Network (Fin 6) (Member 6) Msg,
    (net.nodes 0).executed = [⟨⟨0, some 1, .append 7⟩, 0, 0⟩] ∧
      (net.nodes 1).executed.length = 1 ∧
      (∀ r ∈ (net.nodes 1).executed, r.seqNum = 0 →
        r.clientRequest = ⟨0, some 1, .append 7⟩) ∧
      ∃ j, j ∉ ({5} : Finset (Fin 6)) ∧
        (⟨0, some 1, .append 7⟩ : ClientRequest) ∈ (net.nodes j).injected := by
  have hexec : (System.exec (Network.play (protocol 6) {5}
      (Network.locally fun _ s a => s.Undisturbed {5} a ∧ s.Orderly 0 {5} a)) sixInView
      oneRequest).any
      (fun net => (net.nodes 0).executed = [⟨⟨0, some 1, .append 7⟩, 0, 0⟩] ∧
        (net.nodes 1).executed.length = 1) = true := by
    decide +kernel
  obtain ⟨net, hrun, hp⟩ := Network.Run.of_play (.init sixInView_init) hexec
  obtain ⟨h₀, h₁⟩ := of_decide_eq_true hp
  have hs : Setting 6 1 {5} (0 : Fin 6).val := ⟨by decide, by decide, by decide, by decide⟩
  obtain ⟨hagree, hvalid⟩ := executed_consistent hs rfl hrun (i := 0) (by decide)
    (r := ⟨⟨0, some 1, .append 7⟩, 0, 0⟩) (by simp [h₀])
  exact ⟨net, h₀, h₁, fun r hr hseq => (hagree 1 (by decide) r hr hseq.symm).symm,
    hvalid (by decide)⟩

end Member

end BFTList
