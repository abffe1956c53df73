import BFTList.Spec.StableView

/-!
# Validity

Requests are executed that enough structures support. With at most `f` liars
among them, one supporter is correct, so a client request that reaches a correct
processor was injected at one, or is a dummy.

The code counts occurrences and not processors, and takes over logs and whole
structures without asking where their requests are from. So this holds in runs
in which second occurrences in one structure decide nothing and what is taken over
is known to a correct processor; a structure that lists one forged request four
times gets it executed.

## Key results

- `VouchedFor`: what an iteration counts on
- `vouched_iterate`: one iteration of a correct processor
- `executed_injected`: validity in runs of such iterations
- `executed_forged`: a request nobody has sent is executed
-/

namespace BFTList

open ReplicationModule

variable {n : Nat}

/-- All client requests in a structure. -/
def ReplicaStructure.clientRequests (rs : ReplicaStructure) : List ClientRequest :=
  rs.pendReqs ++ (rs.queued ++ rs.logged).map fun r => r.clientRequest

/-- An iteration in which nothing is supported or pending often enough by being listed twice in
    one structure, and that leaves reconciling with client requests from correct structures
    only. -/
def VouchedFor (faulty : Finset (Fin n)) (s : Node n) : Node.Action n → Prop
  | .iterate order => (s.module.reconcile s.resolver order).Returns fun m =>
      m.ListedGenuinely ∧ m.PendingGenuinely ∧
        ∀ c ∈ m.own.clientRequests, c.operation = .noOp ∨
          ∃ j, j ∉ faulty ∧ c ∈ (s.module.rep j).clientRequests
  | .inject _ => True
  | .surroundings _ => True

instance (faulty : Finset (Fin n)) (s : Node n) (a : Node.Action n) :
    Decidable (VouchedFor faulty s a) :=
  match a with
  | .iterate _ => inferInstanceAs (Decidable (Py.Returns _ _))
  | .inject _ => .isTrue trivial
  | .surroundings _ => .isTrue trivial

/-! ## Structures -/

/-- Every client request in the structure has the property. -/
structure Vouched (V : ClientRequest → Prop) (rs : ReplicaStructure) : Prop
    extends Keeps (fun r => V r.clientRequest) rs where
  pendReqs : ∀ c ∈ rs.pendReqs, V c

namespace Vouched

variable {V V' : ClientRequest → Prop} {rs : ReplicaStructure}

theorem mono (hV : ∀ c, V c → V' c) (h : Vouched V rs) : Vouched V' rs :=
  ⟨h.toKeeps.mono fun r hr => hV r.clientRequest hr, fun c hc => hV c (h.pendReqs c hc)⟩

theorem iff_clientRequests : Vouched V rs ↔ ∀ c ∈ rs.clientRequests, V c := by
  constructor
  · intro h c hc
    cases List.mem_append.mp hc with
    | inl hpend => exact h.pendReqs c hpend
    | inr hkept =>
      obtain ⟨r, hr, rfl⟩ := List.mem_map.mp hkept
      exact (List.mem_append.mp hr).elim (h.queued r) (h.logged r)
  · intro h
    refine ⟨⟨fun r hr => ?_, fun r hr => ?_⟩, fun c hc => h c (List.mem_append_left _ hc)⟩
    · exact h _ (List.mem_append_right _ (List.mem_map_of_mem (List.mem_append_left _ hr)))
    · exact h _ (List.mem_append_right _ (List.mem_map_of_mem (List.mem_append_right _ hr)))

theorem of_nil (hp : rs.pendReqs = []) (hq : rs.reqQ = []) (hl : rs.rLog = []) : Vouched V rs :=
  ⟨Keeps.of_nil hq hl, fun _ hc => absurd (hp ▸ hc) List.not_mem_nil⟩

theorem extendPendReqs (h : Vouched V rs) {reqs : List ClientRequest} (hreqs : ∀ c ∈ reqs, V c) :
    Vouched V (rs.extendPendReqs reqs) :=
  ⟨h.toKeeps.of_eq rfl rfl, fun c hc =>
    (ReplicaStructure.mem_pendReqs_extendPendReqs hc).elim (h.pendReqs c) (hreqs c)⟩

theorem committed (h : Vouched V rs) {r : Request} (hr : V r.clientRequest) :
    Vouched V (committedOwn rs r) := by
  refine ⟨h.toKeeps.committed hr, fun c hc => h.pendReqs c ?_⟩
  unfold committedOwn at hc
  split at hc
  · exact ReplicaStructure.mem_pendReqs_removeFromPendReqs hc
  · exact ReplicaStructure.mem_pendReqs_removeFromPendReqs hc

theorem executed (h : Vouched V rs) {r : Request} (hr : V r.clientRequest) (xSet : Finset Int)
    (lastReq : LastReqTable) : Vouched V (executedOwn rs r xSet lastReq) :=
  ⟨h.toKeeps.executed hr xSet lastReq, fun c hc => h.pendReqs c (List.mem_of_mem_erase hc)⟩

end Vouched

/-! ## One iteration -/

section Iteration

variable {m : ReplicationModule n} {faulty : Finset (Fin n)} {V : ClientRequest → Prop}

/-- What a correct structure lists is vouched for. -/
theorem vouched_of_listed {status : Status} {rs : ReplicaStructure} (h : Vouched V rs)
    {r : Request} (hr : r ∈ listed status rs) : V r.clientRequest :=
  (queued_or_logged_of_mem_listed hr).elim (h.queued r) (h.logged r)

/-- What is supported is vouched for, as a correct structure supports it. -/
theorem vouched_of_supported (hlisted : m.ListedGenuinely)
    (hfew : faulty.card + 2 * m.numberOfByzantine < n)
    (htable : ∀ j, j ∉ faulty → Vouched V (m.rep j)) {status : Status}
    (hstatus : status ∈ decisive) {r : Request} (hr : r ∈ m.supportedReqs status) :
    V r.clientRequest := by
  obtain ⟨j, hj, hlists⟩ := hlisted.exists_lister hfew hstatus hr
  exact vouched_of_listed (htable j hj) hlists

theorem vouched_of_known (hpending : m.PendingGenuinely)
    (hfew : faulty.card + 2 * m.numberOfByzantine < n)
    (htable : ∀ j, j ∉ faulty → Vouched V (m.rep j)) {c : ClientRequest}
    (hc : c ∈ m.knownPendReqs) : V c := by
  obtain ⟨j, hj, hpend⟩ := hpending.exists_pending hfew hc
  exact (htable j hj).pendReqs c hpend

theorem vouched_setOwn (htable : ∀ j, j ∉ faulty → Vouched V (m.rep j)) {rs : ReplicaStructure}
    (hrs : Vouched V rs) : ∀ j, j ∉ faulty → Vouched V ((m.setOwn rs).rep j) := by
  intro j hj
  by_cases hown : j = m.id
  · rw [hown, show (m.setOwn rs).rep m.id = rs from own_setOwn m rs]
    exact hrs
  · rw [rep_setOwn_of_ne hown]
    exact htable j hj

/-- Preparing puts nothing into the own structure that is not vouched for. -/
theorem vouched_prepared {p : Fin n} {created : List Request} {rs : ReplicaStructure}
    (hrs : Prepared p m created rs) (hpending : m.PendingGenuinely)
    (hfew : faulty.card + 2 * m.numberOfByzantine < n) (hid : m.id ∉ faulty)
    (htable : ∀ j, j ∉ faulty → Vouched V (m.rep j))
    (hnum : created = [] ∨ Numbering m created) : Vouched V rs := by
  have hown : Vouched V m.own := htable m.id hid
  refine ⟨⟨fun r hr => ?_, fun r hr => ?_⟩, fun c hc => ?_⟩
  · rcases hrs.queued r hr with hold | ⟨-, hcreated⟩ | ⟨-, hoffer⟩
    · exact hown.queued r hold
    · -- the primary numbers what is pending
      rcases hnum with rfl | ⟨⟨reqs, hreqs, hsub⟩, -, -⟩
      · exact absurd hcreated List.not_mem_nil
      · have hmem := hsub.subset
          (List.mem_map_of_mem (f := fun r : Request => r.clientRequest) hcreated)
        exact hown.pendReqs _ ((mem_filterPy hreqs).mp hmem).1
    · exact vouched_of_known hpending hfew htable (mem_offers hoffer).2
  · rw [ReplicaStructure.logged, hrs.rLog] at hr
    exact hown.logged r hr
  · rw [hrs.pendReqs] at hc
    exact hown.pendReqs c hc

/-- Committing and executing: everything handed to `commit()` is vouched for. -/
theorem vouched_finish {m' : ReplicationModule n} {committed : List Request}
    {raised : Option PyError} (hlisted : m.ListedGenuinely)
    (hfew : faulty.card + 2 * m.numberOfByzantine < n) (hid : m.id ∉ faulty)
    (htable : ∀ j, j ∉ faulty → Vouched V (m.rep j))
    (hexec : (m', committed, raised) =
      executeReqs (m.commitReqs.supportedReqs {.prep, .commit}) m.commitReqs []) :
    ∃ rs, m' = m.setOwn rs ∧ Vouched V rs ∧ ∀ r ∈ committed, V r.clientRequest := by
  exact hlisted.finish (htable m.id hid)
    (fun rs repState hrs => ⟨hrs.toKeeps.of_eq rfl rfl, hrs.pendReqs⟩)
    (fun rs hrs hlisted' status hstatus r hr =>
      vouched_of_supported hlisted' hfew (vouched_setOwn htable hrs) hstatus hr)
    (fun rs r hrs hr => hrs.committed hr)
    (fun rs r xSet lastReq hrs hr => hrs.executed hr xSet lastReq) hexec

end Iteration

/-- Dummies, and client requests with the property. -/
def DummyOr (g : ClientRequest → Prop) (c : ClientRequest) : Prop := c.operation = .noOp ∨ g c

/-- What a correct processor keeps when `g` are the client requests that were
    injected at correct processors. -/
structure Valid (p : Fin n) (faulty : Finset (Fin n)) (f : Nat) (g : ClientRequest → Prop)
    (i : Fin n) (s : Node n) : Prop extends Settings p f i s where
  copies : ∀ j, j ∉ faulty → Vouched (DummyOr g) (s.module.rep j)
  executed : ∀ r ∈ s.executed, DummyOr g r.clientRequest

section Iteration

variable {p i : Fin n} {faulty : Finset (Fin n)} {f : Nat} {g g' : ClientRequest → Prop}
  {s s' : Node n}

theorem Valid.mono (hle : ∀ c, g c → g' c) (h : Valid p faulty f g i s) :
    Valid p faulty f g' i s :=
  { h with
    copies := fun j hj => (h.copies j hj).mono fun c => Or.imp_right (hle c)
    executed := fun r hr => (h.executed r hr).imp_right (hle r.clientRequest) }

/-- One iteration of a correct processor: what it holds afterwards and what it
    executes is vouched for. -/
theorem vouched_iterate {order : SetOrder Int} (h : Valid p faulty f g i s) (hi : i ∉ faulty)
    (hfew : faulty.card + 2 * f < n) (hvouch : VouchedFor faulty s (.iterate order))
    (hiter : s.iterate order = some s') : Valid p faulty f g i s' := by
  obtain ⟨m₀, created, rs, hrec, hreconciled, hrs, -, hnum, -, -, -, hrest⟩ :=
    iterate_cases_inView h.toSettings hiter
  obtain ⟨hlisted, hpending, hbacked⟩ := hvouch m₀ hrec
  -- the table after reconciling
  have hown₀ : Vouched (DummyOr g) m₀.own := by
    apply Vouched.iff_clientRequests.mpr
    intro c hc
    rcases hbacked c hc with hdummy | ⟨j, hj, hmem⟩
    · exact Or.inl hdummy
    · exact Vouched.iff_clientRequests.mp (h.copies j hj) c hmem
  obtain ⟨hid₀, hbyz₀, htable₀⟩ : m₀.id = i ∧ m₀.numberOfByzantine = f ∧
      ∀ j, j ∉ faulty → Vouched (DummyOr g) (m₀.rep j) := by
    rcases hreconciled with ⟨rs₀, rfl, -⟩ | hflushed
    · rw [own_setOwn] at hown₀
      exact ⟨h.id, h.byzantine, vouched_setOwn h.copies hown₀⟩
    · exact ⟨hflushed.id.trans h.id, hflushed.numberOfByzantine.trans h.byzantine,
        fun j _ => Vouched.of_nil (hflushed.pendReqs j) (hflushed.reqQ j) (hflushed.rLog j)⟩
  have hfew₀ : faulty.card + 2 * m₀.numberOfByzantine < n := by rw [hbyz₀]; exact hfew
  have hcorrect₀ : m₀.id ∉ faulty := hid₀ ▸ hi
  -- learning and preparing
  have hlearn : ∀ j, j ∉ faulty → Vouched (DummyOr g) (m₀.learnPendReqs.rep j) :=
    vouched_setOwn htable₀ ((htable₀ m₀.id hcorrect₀).extendPendReqs
      fun c hc => vouched_of_known hpending hfew₀ htable₀ hc)
  have hvouched : Vouched (DummyOr g) rs :=
    vouched_prepared hrs hpending.learnPendReqs hfew₀ hcorrect₀ hlearn
      (hnum.imp_right fun hnum => hnum.2.2)
  have hnodup : rs.queued.Nodup := by
    apply hrs.nodup
    rw [learnPendReqs, own_setOwn]
    exact hlisted.own
  have htable₁ := vouched_setOwn htable₀ hvouched
  have hsettings := h.toSettings.iterate hiter
  rcases hrest with ⟨hafter, hexecuted, -⟩ | ⟨committed, raised, hexec, hexecuted, -⟩
  · refine { hsettings with copies := ?_, executed := ?_ }
    · rw [hafter]
      exact htable₁
    · rw [hexecuted]
      exact h.executed
  · obtain ⟨rs', hafter, hrs', hdone⟩ := vouched_finish (m := m₀.setOwn rs)
      (hlisted.setOwn hnodup) hfew₀ hcorrect₀ htable₁ hexec
    refine { hsettings with copies := ?_, executed := fun r hr => ?_ }
    · rw [hafter, setOwn_setOwn]
      exact vouched_setOwn htable₀ hrs'
    · rw [hexecuted] at hr
      exact (List.mem_append.mp hr).elim (h.executed r) (hdone r)

/-- A client request that counts as injected becomes pending. -/
theorem Valid.inject (h : Valid p faulty f g i s) (hi : i ∉ faulty) {req : ClientRequest}
    (hreq : g req) : Valid p faulty f g i (s.inject req) := by
  refine { h.toSettings.inject req with copies := ?_, executed := h.executed }
  refine vouched_setOwn h.copies ((h.copies s.module.id (h.id ▸ hi)).extendPendReqs ?_)
  intro c hc
  rw [List.mem_singleton.mp hc]
  exact Or.inr hreq

/-- A structure replaces a copy; what a faulty processor sends does not matter. -/
theorem Valid.receive (h : Valid p faulty f g i s) {j : Fin n} {rs : ReplicaStructure}
    (hrs : j ∉ faulty → Vouched (DummyOr g) rs) :
    Valid p faulty f g i { s with module := s.module.receiveRepMsg s.resolver j rs } := by
  refine { h.toSettings.receive j rs with copies := fun k hk => ?_, executed := h.executed }
  obtain ⟨copy, heq, hcopy⟩ := receiveRepMsg_cases s.module s.resolver j rs
  show Vouched (DummyOr g) ((s.module.receiveRepMsg s.resolver j rs).rep k)
  rw [heq]
  show Vouched (DummyOr g) (Function.update s.module.rep j copy k)
  by_cases hkj : k = j
  · subst hkj
    rw [Function.update_self]
    rcases hcopy with rfl | rfl | rfl
    · exact h.copies k hk
    · exact hrs hk
    · exact ⟨(h.copies k hk).toKeeps.of_eq rfl rfl, (h.copies k hk).pendReqs⟩
  · rw [Function.update_of_ne hkj]
    exact h.copies k hk

end Iteration

/-! ## Runs -/

/-- The client requests that were given to correct processors. -/
def injectedAt (faulty : Finset (Fin n)) (nodes : Fin n → Node n) (c : ClientRequest) : Prop :=
  ∃ j, j ∉ faulty ∧ c ∈ (nodes j).injected

theorem injectedAt_set {faulty : Finset (Fin n)} {net : Network (Fin n) (Node n) ReplicaStructure}
    {i : Fin n} {s : Node n} (h : s.injected = (net.nodes i).injected) :
    injectedAt faulty (net.set i s).nodes = injectedAt faulty net.nodes := by
  funext c
  simp only [injectedAt, Network.proj_set Node.injected h]

/-- What every correct processor keeps, and every message it has sent. -/
theorem valid_network {p : Fin n} {faulty : Finset (Fin n)} {f k : Nat}
    {net : Network (Fin n) (Node n) ReplicaStructure} (hfew : faulty.card + 2 * f < n)
    (h : (Node.network (Node.InView p) faulty f k true).Run
      (Network.locally fun _ s a => VouchedFor faulty s a) net) :
    Network.Local (Node.protocol (Node.InView p)) faulty
      (Valid p faulty f (injectedAt faulty net.nodes))
      (fun _ _ rs => Vouched (DummyOr (injectedAt faulty net.nodes)) rs) net := by
  refine Network.Run.of_shared (injectedAt faulty) (fun g g' => ∀ c, g c → g' c)
    (I := fun g => Valid p faulty f g) (M := fun g _ _ rs => Vouched (DummyOr g) rs)
    (fun _ _ _ _ hle hs => hs.mono hle)
    (fun _ _ _ _ _ hle hm => hm.mono fun c => Or.imp_right (hle c)) ?_ ?_ ?_ ?_ h
  · intro net hnet
    apply Network.Local.of_noFlight _ hnet.2
    intro i hi
    obtain ⟨resolver, hview, hinit⟩ := hnet.1 i hi
    rw [hinit]
    exact { Settings.init i f k hview with
      copies := fun j _ => Vouched.of_nil rfl rfl rfl
      executed := fun r hr => absurd hr List.not_mem_nil }
  · intro net i a s' hi hnet hok hact
    have hs := hnet.nodes i hi
    cases a with
    | iterate order =>
      have hinjected : s'.injected = (net.nodes i).injected := by
        obtain ⟨_, _, _, -, -, hinjected, -⟩ := Node.iterate_cases hact
        exact hinjected
      rw [injectedAt_set hinjected]
      exact ⟨fun _ hc => hc, vouched_iterate hs hi hfew hok hact⟩
    | inject req =>
      cases hact
      have hle : ∀ c, injectedAt faulty net.nodes c →
          injectedAt faulty (net.set i ((net.nodes i).inject req)).nodes c := by
        intro c hc
        obtain ⟨j, hj, hmem⟩ := hc
        refine ⟨j, hj, ?_⟩
        by_cases hji : j = i
        · subst hji
          rw [Network.set_nodes_self]
          exact List.mem_append_left _ hmem
        · rw [Network.set_nodes_of_ne _ _ hji]
          exact hmem
      refine ⟨hle, (hs.mono hle).inject hi ⟨i, hi, ?_⟩⟩
      rw [Network.set_nodes_self]
      exact List.mem_append_right _ (List.mem_singleton_self req)
    | surroundings resolver =>
      have hsettings := hs.toSettings.act hact
      simp only [Node.protocol, Option.ite_none_right_eq_some, Option.some.injEq] at hact
      obtain ⟨-, rfl⟩ := hact
      rw [injectedAt_set (by rfl)]
      exact ⟨fun _ hc => hc, { hsettings with copies := hs.copies, executed := hs.executed }⟩
  · intro g i s j rs hi hs hrs
    simp only [Node.protocol] at hrs
    split at hrs
    · exact absurd hrs List.not_mem_nil
    · rw [List.mem_singleton.mp hrs]
      exact hs.copies s.module.id (hs.id ▸ hi)
  · intro net j i rs _ hs hrs _
    exact ⟨injectedAt_set (by rfl), hs.receive hrs⟩

/-- With at most `f` of `5f + 1` processors faulty, every request a correct
    processor executes is a dummy or was injected at a correct processor, in runs
    in which nothing is decided by second occurrences and nothing is taken over from
    liars alone. -/
theorem executed_injected {p : Fin n} {faulty : Finset (Fin n)} {f k : Nat}
    {net : Network (Fin n) (Node n) ReplicaStructure} (hn : 5 * f + 1 ≤ n)
    (hfaulty : faulty.card ≤ f)
    (h : (Node.network (Node.InView p) faulty f k true).Run
      (Network.locally fun _ s a => VouchedFor faulty s a) net)
    (i : Fin n) (hi : i ∉ faulty) (r : Request) (hr : r ∈ (net.nodes i).executed)
    (hop : r.clientRequest.operation ≠ .noOp) :
    ∃ j, j ∉ faulty ∧ r.clientRequest ∈ (net.nodes j).injected := by
  have hs := (valid_network (by omega) h).nodes i hi
  exact (hs.executed r hr).resolve_left hop

/-- The faulty processor 5 tells processors 0 to 3 twice that a request nobody has sent is
    pending and committed. They execute the one that they were given. -/
theorem executed_injected_six :
    ∃ net : Network (Fin 6) (Node 6) ReplicaStructure,
      ((net.nodes 1).module.rep 5).pendReqs.length = 2 ∧
      (net.nodes 1).executed = [⟨⟨0, some 1, .append 7⟩, 0, 0⟩] ∧
      ∃ j, j ∉ ({5} : Finset (Fin 6)) ∧ ⟨0, some 1, .append 7⟩ ∈ (net.nodes j).injected := by
  have hexec : (System.exec (Network.play (Node.protocol (Node.InView (0 : Fin 6))) {5}
      (Network.locally fun _ s a => VouchedFor {5} s a)) (Node.start 0 1 1)
      (lying { ReplicaStructure.init 5 1 with
          pendReqs := List.replicate 2 ⟨3, some 3, .append 9⟩
          reqQ := List.replicate 2 ⟨⟨⟨3, some 3, .append 9⟩, 0, 0⟩, {.prePrep, .prep, .commit}⟩ }
          [0, 1, 2, 3] ++ serving ⟨0, some 1, .append 7⟩)).any
      (fun net => ((net.nodes 1).module.rep 5).pendReqs.length = 2 ∧
        (net.nodes 1).executed = [⟨⟨0, some 1, .append 7⟩, 0, 0⟩]) = true := by
    decide +kernel
  obtain ⟨net, hrun, hp⟩ := Network.Run.of_play (.init (Node.start_init 0 {5} 1 1)) hexec
  obtain ⟨hlie, hexecuted⟩ := of_decide_eq_true hp
  refine ⟨net, hlie, hexecuted, executed_injected (by decide) (by decide) hrun 1 (by decide)
    ⟨⟨0, some 1, .append 7⟩, 0, 0⟩ ?_ (by decide)⟩
  rw [hexecuted]
  exact List.mem_singleton_self _

/-- A request of no client. -/
def forgedRequest : Request := ⟨⟨0, some 1, .append 7⟩, 0, 0⟩

/-- A structure of processor 5 that lists the request four times. -/
def forgedStructure : ReplicaStructure :=
  { ReplicaStructure.init 5 1 with
    reqQ := List.replicate 4 ⟨forgedRequest, {.prePrep, .prep, .commit}⟩ }

/-- What a processor reports once it has committed the request. -/
def forgedVote (i : Int) : ReplicaStructure :=
  { ReplicaStructure.init i 1 with reqQ := [⟨forgedRequest, {.prePrep, .prep, .commit}⟩] }

/-- Processors 1, 2 and 3 receive the forged structure and commit its request;
    told of the other two, processor 1 finds four that committed. -/
def forgedExecution : List (Network.Label (Fin 6) (Node.Action 6) ReplicaStructure) :=
  [1, 2, 3].flatMap (fun i => [.forge 5 i forgedStructure, .act i (.iterate .insertion)]) ++
    [2, 3].flatMap (fun i => [.send i 1 (forgedVote i.val), .deliver i 1 (forgedVote i.val)]) ++
    [.act 1 (.iterate .insertion)]

/-- One faulty processor out of six gets a request executed that nobody has sent. -/
theorem executed_forged :
    ∃ net : Network (Fin 6) (Node 6) ReplicaStructure,
      (Node.network (Node.InView (0 : Fin 6)) {5} 1 1 true).Reachable net ∧
      forgedRequest ∈ (net.nodes 1).executed ∧
      forgedRequest.clientRequest.operation ≠ .noOp ∧
      ¬ ∃ j, j ∉ ({5} : Finset (Fin 6)) ∧ forgedRequest.clientRequest ∈ (net.nodes j).injected := by
  have hexec : (System.exec (Network.next (Node.protocol (Node.InView (0 : Fin 6))) {5})
      (Node.start 0 1 1) forgedExecution).any (fun net =>
        forgedRequest ∈ (net.nodes 1).executed ∧ ∀ j, (net.nodes j).injected = []) = true := by
    decide +kernel
  obtain ⟨net, hreach, hp⟩ := Network.Reachable.of_exec (.init (Node.start_init 0 {5} 1 1)) hexec
  obtain ⟨hmem, hnone⟩ := of_decide_eq_true hp
  refine ⟨net, hreach, hmem, by decide, ?_⟩
  rintro ⟨j, -, hj⟩
  rw [hnone j] at hj
  exact List.not_mem_nil hj

end BFTList
