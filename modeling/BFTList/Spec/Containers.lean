import BFTList.Spec.Reconcile

/-!
# What the containers of a structure keep

A processor moves requests from container to container: pending requests, the
queue, the log, the table of last requests. `Containers` says of a property of
each container what the steps of `run()` need to keep it. From that one table
invariant follows for whole iterations, whatever the other modules answer and
whether or not a view change, an adoption or a flush is part of the iteration.

## Key results

- `Table.reconcile`: view change, consolidation and flush keep the table invariant
- `Table.run`: so does a whole iteration
- `Table.receiveRepMsg`: so does a message whose containers have the properties
-/

namespace BFTList

open ReplicationModule

/-- Properties of the parts of a structure that survive every step of a
    processor. The own structure also keeps `prim` and its number of clients, and
    the module its id, `f`, `K` and whether it is self-stabilizing. A part that is
    not mentioned has no property. -/
structure Containers (n : Nat) where
  settings : Fin n → Nat → Nat → Bool → Prop := fun _ _ _ _ => True
  id : Int → Prop := fun _ => True
  client : ClientRequest → Prop := fun _ => True
  rLog : List LogEntry → Prop := fun _ => True
  pendReqs : List ClientRequest → Prop := fun _ => True
  reqQ : List ReqPair → Prop := fun _ => True
  lastReq : LastReqTable → Prop := fun _ => True
  prim : Int → Prop := fun _ => True
  clients : Nat → Prop := fun _ => True
  id_val : ∀ i : Fin n, id i.val := by intros; trivial
  client_dummy : client ⟨-1, none, .noOp⟩ := by trivial
  rLog_nil : rLog [] := by trivial
  rLog_prefix : ∀ {l l' : List LogEntry}, l' <+: l → rLog l → rLog l' := by intros; trivial
  rLog_client : ∀ {l : List LogEntry} {e}, rLog l → e ∈ l →
    client e.request.clientRequest := by intros; trivial
  rLog_commit : ∀ {c : Nat} {l : List LogEntry} {r : Request} {xSet : Finset Int}, clients c →
    rLog l → client r.clientRequest → r.seqNum = lastSeq l + 1 →
    rLog (ReplicaStructure.trimRLog c (l ++ [⟨r, some xSet⟩])) := by intros; trivial
  pendReqs_nil : pendReqs [] := by trivial
  pendReqs_sublist : ∀ {l l' : List ClientRequest}, l'.Sublist l → pendReqs l →
    pendReqs l' := by intros; trivial
  pendReqs_client : ∀ {l : List ClientRequest} {c}, pendReqs l → c ∈ l →
    client c := by intros; trivial
  pendReqs_extend : ∀ {rs : ReplicaStructure} {reqs : List ClientRequest},
    clients rs.numberOfClients → pendReqs rs.pendReqs → (∀ c ∈ reqs, client c) →
    pendReqs (rs.extendPendReqs reqs).pendReqs := by intros; trivial
  pendReqs_common : ∀ {ls : List (List ClientRequest)} {l : List ClientRequest},
    (∀ l' ∈ ls, pendReqs l') → l.Nodup →
    (∀ c ∈ l, c ∈ ls.flatten ∧ ls.flatten.count c = ls.length) →
    pendReqs l := by intros; trivial
  reqQ_nil : reqQ [] := by trivial
  reqQ_sublist : ∀ {l l' : List ReqPair}, l'.Sublist l → reqQ l → reqQ l' := by intros; trivial
  reqQ_client : ∀ {l : List ReqPair} {q}, reqQ l → q ∈ l →
    client q.request.clientRequest := by intros; trivial
  reqQ_congr : ∀ {l l' : List ReqPair},
    l'.map (·.request.clientRequest) = l.map (·.request.clientRequest) → reqQ l →
    reqQ l' := by intros; trivial
  reqQ_add : ∀ {rs : ReplicaStructure} {pair : ReqPair}, clients rs.numberOfClients →
    reqQ rs.reqQ → client pair.request.clientRequest →
    reqQ (rs.addToReqQ pair).reqQ := by intros; trivial
  lastReq_tee : lastReq (.dict []) := by trivial
  lastReq_update : ∀ {rs rs' : ReplicaStructure} {clientId : Int} {r : Request}
    {reply : List Value}, lastReq rs.lastReq → rs.updateLastReq clientId r reply = .ok rs' →
    lastReq rs'.lastReq := by intros; trivial
  prim_tee : prim (-1) := by trivial

namespace Containers

variable {n : Nat} {C : Containers n}

/-- The containers of a structure have their properties. -/
structure Holds (C : Containers n) (rs : ReplicaStructure) : Prop where
  id : C.id rs.id
  rLog : C.rLog rs.rLog
  pendReqs : C.pendReqs rs.pendReqs
  reqQ : C.reqQ rs.reqQ
  lastReq : C.lastReq rs.lastReq

/-- The same for an own structure. -/
structure Own (C : Containers n) (rs : ReplicaStructure) : Prop extends C.Holds rs where
  prim : C.prim rs.prim
  clients : C.clients rs.numberOfClients

/-- All structures of a table, and the own one among them. -/
structure Table (C : Containers n) (m : ReplicationModule n) : Prop where
  settings : C.settings m.id m.numberOfByzantine m.numberOfClients m.selfStab
  rep : ∀ j, C.Holds (m.rep j)
  prim : C.prim m.own.prim
  clients : C.clients m.own.numberOfClients

/-- The settings of a module, and no property of its containers. -/
def settled (m : ReplicationModule n) : Containers n where
  settings id f k selfStab := id = m.id ∧ f = m.numberOfByzantine ∧ k = m.numberOfClients ∧
    selfStab = m.selfStab

/-! ## Operations on the own structure -/

namespace Own

variable {rs : ReplicaStructure}

theorem setToTee (h : C.Own rs) : C.Own rs.setToTee where
  id := h.id
  rLog := C.rLog_nil
  pendReqs := C.pendReqs_nil
  reqQ := C.reqQ_nil
  lastReq := C.lastReq_tee
  prim := C.prim_tee
  clients := h.clients

theorem addToReqQ (h : C.Own rs) {pair : ReqPair} (hpair : C.client pair.request.clientRequest) :
    C.Own (rs.addToReqQ pair) :=
  { h with reqQ := C.reqQ_add h.clients h.reqQ hpair }

theorem extendPendReqs (h : C.Own rs) {reqs : List ClientRequest}
    (hreqs : ∀ c ∈ reqs, C.client c) : C.Own (rs.extendPendReqs reqs) :=
  { h with pendReqs := C.pendReqs_extend h.clients h.pendReqs hreqs }

theorem upgrade (h : C.Own rs) (r : Request) (old : Status) (new : ReplicationEnums) :
    C.Own (rs.upgrade r old new) := by
  -- only statuses change, so the client requests stay what they are
  have hsame : (rs.upgrade r old new).reqQ.map (·.request.clientRequest) =
      rs.reqQ.map (·.request.clientRequest) := by
    have hqueued := congrArg (List.map Request.clientRequest)
      (ReplicaStructure.queued_upgrade rs r old new)
    rwa [ReplicaStructure.queued, ReplicaStructure.queued, List.map_map, List.map_map] at hqueued
  exact { h with reqQ := C.reqQ_congr hsame h.reqQ }

theorem committed (h : C.Own rs) {r : Request} (hr : C.client r.clientRequest) :
    C.Own (committedOwn rs r) := by
  unfold committedOwn
  split
  · have hup := h.upgrade r {.prePrep, .prep} .commit
    exact { hup with pendReqs := C.pendReqs_sublist List.erase_sublist hup.pendReqs }
  -- a request that was not queued yet joins the queue
  · have hadd : C.Own (rs.addToReqQ ⟨r, {.prePrep, .prep, .commit}⟩) := h.addToReqQ hr
    exact { hadd with pendReqs := C.pendReqs_sublist List.erase_sublist hadd.pendReqs }

/-- Executing the next request moves it from the queue to the log. -/
theorem executed (h : C.Own rs) {r : Request} {xSet : Finset Int} {lastReq : LastReqTable}
    (hr : C.client r.clientRequest) (hnext : r.seqNum = lastSeq rs.rLog + 1)
    (hlast : C.lastReq lastReq) : C.Own (executedOwn rs r xSet lastReq) where
  id := h.id
  rLog := C.rLog_commit h.clients h.rLog hr hnext
  pendReqs := C.pendReqs_sublist List.erase_sublist h.pendReqs
  reqQ := C.reqQ_sublist List.filter_sublist h.reqQ
  lastReq := hlast
  prim := h.prim
  clients := h.clients

end Own

/-! ## Tables -/

namespace Table

variable {m m' : ReplicationModule n} {resolver : Resolver n} {order : SetOrder Int}

theorem own (h : C.Table m) : C.Own m.own :=
  { h.rep m.id with prim := h.prim, clients := h.clients }

theorem setOwn (h : C.Table m) {rs : ReplicaStructure} (hrs : C.Own rs) :
    C.Table (m.setOwn rs) where
  settings := h.settings
  rep := rep_setOwn h.rep hrs.toHolds
  prim := by
    rw [own_setOwn]
    exact hrs.prim
  clients := by
    rw [own_setOwn]
    exact hrs.clients

/-- A log of the table, or the beginning of one, has the property. -/
theorem logOfTable (h : C.Table m) {l : List LogEntry} (hl : LogOfTable m l) : C.rLog l := by
  rcases hl with rfl | ⟨j, hj⟩
  · exact C.rLog_nil
  · exact C.rLog_prefix hj (h.rep j).rLog

/-- Whatever is supported somewhere carries a client request of the table. -/
theorem client_of_supported (h : C.Table m) {status : Status} {r : Request}
    (hr : r ∈ m.supportedReqs status) : C.client r.clientRequest := by
  obtain ⟨⟨j, hj⟩, -⟩ := mem_supportedReqs.mp hr
  cases queued_or_logged_of_mem_listed hj with
  | inl hq =>
    obtain ⟨q, hmem, rfl⟩ := ReplicaStructure.mem_queued.mp hq
    exact C.reqQ_client (h.rep j).reqQ hmem
  | inr hl =>
    obtain ⟨e, hmem, rfl⟩ := ReplicaStructure.mem_logged.mp hl
    exact C.rLog_client (h.rep j).rLog hmem

theorem client_of_known (h : C.Table m) {c : ClientRequest} (hc : c ∈ m.knownPendReqs) :
    C.client c := by
  rw [knownPendReqs, Counter.mem_keysAtLeast, List.mem_flatMap] at hc
  obtain ⟨⟨j, -, hj⟩, -⟩ := hc
  exact C.pendReqs_client (h.rep j).pendReqs hj

/-! ## The view change -/

theorem noticeView (h : C.Table m) (hview : C.prim (resolver.currentView m.id)) :
    C.Table (m.noticeView resolver) :=
  h.setOwn { h.own with prim := hview }

/-- What is pending at all reporting processors is pending in structures of the table. -/
theorem commonPendReqs (h : C.Table m) {processorsSet : List Int} {pend : List ClientRequest}
    (hpend : m.commonPendReqs order processorsSet = .ok pend) : C.pendReqs pend := by
  have hnodup := nodup_commonPendReqs hpend
  simp only [ReplicationModule.commonPendReqs] at hpend
  obtain ⟨structures, hstructures, hpend⟩ := Py.of_bind hpend
  cases hpend
  -- one structure is looked up for every processor of the set
  have hlength : (structures.map (·.pendReqs)).length = processorsSet.length := by
    have hmap := congrArg List.length (map_eq_of_mapM hstructures)
    rw [List.length_map, List.length_map, (order.perm processorsSet).length_eq] at hmap
    rw [List.length_map, hmap]
  -- every list comes from a structure of the table
  have hlists : ∀ l ∈ structures.map (·.pendReqs), C.pendReqs l := by
    intro l hl
    obtain ⟨rs, hrs, rfl⟩ := List.mem_map.mp hl
    obtain ⟨id, -, hid⟩ := mem_mapM hstructures hrs
    obtain ⟨j, rfl⟩ := exists_of_repAt hid
    exact (h.rep j).pendReqs
  apply C.pendReqs_common hlists hnodup
  intro c hc
  obtain ⟨entry, hentry, hsome⟩ := List.mem_filterMap.mp hc
  split at hsome
  · rename_i hcount
    cases hsome
    obtain ⟨hmem, hk⟩ := Counter.mem_counts.mp (show (entry.1, entry.2) ∈ _ from hentry)
    -- the count asked for is the number of lists
    rw [List.flatMap_def] at hmem hk
    exact ⟨hmem, by rw [hlength, ← hcount, hk]⟩
  · cases hsome

theorem renewReqs (h : C.Table m) {processorsSet : List Int}
    (hrenew : m.renewReqs order processorsSet = .ok m') : C.Table m' := by
  simp only [ReplicationModule.renewReqs, own_setOwn, setOwn_setOwn] at hrenew
  obtain ⟨pend, hpend, hrenew⟩ := Py.of_bind hrenew
  obtain ⟨need, hneed, hrenew⟩ := Py.of_bind hrenew
  simp only [pure, Except.pure, Except.ok.injEq] at hrenew
  subst hrenew
  exact h.setOwn { h.own with
    pendReqs := h.commonPendReqs hpend
    reqQ := C.reqQ_congr (clients_renumber ..) h.own.reqQ }

theorem fillGaps (h : C.Table m) (count : Nat) :
    ∀ lastSeqNum, C.Table (m.fillGaps count lastSeqNum) := by
  induction count generalizing m with
  | zero => exact fun _ => h
  | succ count ih =>
    intro lastSeqNum
    -- a number without a request gets a dummy one
    rw [ReplicationModule.fillGaps]
    split
    · exact ih h _
    · exact ih (h.setOwn (h.own.addToReqQ C.client_dummy)) _

theorem actAsPrim (h : C.Table m) (hact : m.actAsPrimWhenViewChanged resolver order = .ok m') :
    C.Table m' := by
  simp only [actAsPrimWhenViewChanged] at hact
  obtain ⟨_, -, hact⟩ := Py.of_bind hact
  split at hact
  -- new sequence number, gaps filled, requests renewed, state taken over
  · have hseq : C.Table (m.setOwn { m.own with seqNum := m.newSeq }) := h.setOwn { h.own with }
    have hfill := hseq.fillGaps (m.newSeq - m.lastExec).toNat m.lastExec
    obtain ⟨renewed, hrenew, hact⟩ := Py.of_bind hact
    have hrenewed := hfill.renewReqs hrenew
    obtain ⟨p, hp, hact⟩ := Py.of_bind hact
    obtain ⟨x, hx, hact⟩ := Py.of_bind hact
    simp only [pure, Except.pure, Except.ok.injEq, adoptConsState] at hact
    split at hact
    · rw [← hact]
      exact hrenewed.setOwn hrenewed.own.setToTee
    · rw [← hact]
      exact hrenewed.setOwn
        { hrenewed.own with rLog := hrenewed.logOfTable (logOfTable_findConsState hp hx) }
  · cases hact
    exact h

theorem actOnViewChange (h : C.Table m) (hact : m.actOnViewChange resolver order = .ok m') :
    C.Table m' := by
  simp only [ReplicationModule.actOnViewChange, actAsNonprimWhenViewChanged, bind,
    Except.bind] at hact
  split at hact
  · exact h.actAsPrim hact
  split at hact
  · split at hact
    · cases hact
    rename_i rp hrp
    obtain ⟨j, rfl⟩ := exists_of_repAt hrp
    split at hact
    · rename_i hprim
      split at hact
      · split at hact
        · cases hact
        split at hact
        · -- a backup takes over the primary's containers
          cases hact
          exact h.setOwn
            { h.rep j with
              id := h.own.id
              prim := hprim.2 ▸ h.own.prim
              clients := h.own.clients }
        · cases hact
          exact h
      · cases hact
        exact h
    · cases hact
      exact h
  · cases hact
    exact h

/-! ## Consolidation and flush -/

theorem consolidate (h : C.Table m) (hcons : m.consolidate = .ok m') : C.Table m' := by
  obtain ⟨x, hx, rfl | rfl⟩ := consolidate_cases hcons
  · exact h.setOwn { h.own with }
  · exact h.setOwn { h.own with rLog := h.logOfTable (logOfTable_consolidated hx) }

/-- A flush re-creates the structures with 6 clients. -/
theorem flushLocal (h : C.Table m) (hsix : C.clients 6) : C.Table m.flushLocal where
  settings := h.settings
  rep j := ⟨C.id_val j, C.rLog_nil, C.pendReqs_nil, C.reqQ_nil, C.lastReq_tee⟩
  prim := C.prim_tee
  clients := hsix

theorem flushStep (h : C.Table m) (hsix : m.flushes → C.clients 6)
    (hflush : m.flushStep = .ok m') : C.Table m' := by
  rcases flushStep_spec hflush with ⟨-, rfl⟩ | ⟨hflushes, needFlush, -, rfl⟩
  · exact h
  · exact { h.flushLocal (hsix hflushes) with }

/-- View change, consolidation and flush keep the table invariant, provided that
    6 clients are admitted if there is a flush. -/
theorem reconcile (h : C.Table m)
    (hview : resolver.allowService = true → C.prim (resolver.currentView m.id))
    (hsix : m.Flushes resolver order → C.clients 6)
    (hrec : m.reconcile resolver order = .ok m') : C.Table m' := by
  rw [reconcile_eq] at hrec
  split at hrec
  · rename_i hstab
    obtain ⟨m₁, hm₁, hrec⟩ := Py.of_bind hrec
    -- whatever comes before the flush, it is the same step
    refine Table.flushStep ?_ (fun hflushes => hsix ⟨hstab, m₁, hm₁, hflushes⟩) hrec
    unfold unflushed at hm₁
    split at hm₁
    · rename_i hservice
      obtain ⟨m₂, hm₂, hm₁⟩ := Py.of_bind hm₁
      exact ((h.noticeView (hview hservice)).actOnViewChange hm₂).consolidate hm₁
    · exact h.consolidate hm₁
  · cases hrec
    exact h

/-! ## Requests -/

theorem learnPendReqs (h : C.Table m) : C.Table m.learnPendReqs :=
  h.setOwn (h.own.extendPendReqs fun _ hc => h.client_of_known hc)

theorem assignSeqNums (h : C.Table m) {primId : Int} {created : List Request}
    (hassign : m.assignSeqNums primId = .ok (m', created)) : C.Table m' := by
  obtain ⟨rs, rfl, hrs⟩ := assignSeqNums_invariant (P := fun rs _ => C.Own rs) hassign h.own (by
    intro rs created req hreq hrs _
    have hnumbered : C.Own { rs with seqNum := rs.seqNum + 1 } := { hrs with }
    exact hnumbered.addToReqQ (C.pendReqs_client h.own.pendReqs hreq))
  exact h.setOwn hrs

theorem prePrepReq (h : C.Table m) {primId : Int} {req : ClientRequest}
    (hstep : ReplicationModule.prePrepReq primId m req = .ok m') : C.Table m' := by
  simp only [ReplicationModule.prePrepReq, bind, Except.bind] at hstep
  split at hstep
  · cases hstep
  split at hstep
  · split at hstep
    · cases hstep
    rename_i rp hrp
    obtain ⟨j, rfl⟩ := exists_of_repAt hrp
    split at hstep
    · rename_i r hoffer
      cases hstep
      -- the request comes from the queue of the primary
      simp only [offeredReq, Option.map_eq_some_iff] at hoffer
      obtain ⟨q, hq, rfl⟩ := hoffer
      have hclient := C.reqQ_client (h.rep j).reqQ (List.mem_of_find?_eq_some hq)
      exact h.setOwn (h.own.addToReqQ hclient)
    · cases hstep
      exact h
  · cases hstep
    exact h

theorem prepReqs (h : C.Table m) : C.Table m.prepReqs := by
  obtain ⟨rs, heq, hrs⟩ := prepReqs_invariant (P := C.Own) h.own
    fun rs r hrs _ => hrs.upgrade r {.prePrep} .prep
  exact heq ▸ h.setOwn hrs

theorem prepareReqs (h : C.Table m) {primId : Int} {created : List Request}
    (hprep : m.prepareReqs primId = .ok (m', created)) : C.Table m' := by
  rcases prepareReqs_cases hprep with ⟨-, hassign⟩ | ⟨-, -, m₁, hpre, rfl⟩
  · exact h.assignSeqNums hassign
  -- a backup accepts requests one after the other
  · have hm₁ := List.foldlM_invariant (P := C.Table) hpre h fun _ _ _ _ hm hstep =>
      hm.prePrepReq hstep
    exact hm₁.prepReqs

theorem commitReqs (h : C.Table m) : C.Table m.commitReqs := by
  obtain ⟨rs, heq, hrs⟩ := commitReqs_invariant (P := C.Own) h.own
    fun rs r hrs hr => hrs.committed (h.client_of_supported hr)
  exact heq ▸ h.setOwn hrs

theorem commit (h : C.Table m) {r : Request} {xSet : Finset Int} {raised : Option PyError}
    (hr : C.client r.clientRequest) (hnext : r.seqNum = m.lastExec + 1)
    (hcommit : m.commit r xSet = (m', raised)) : C.Table m' := by
  cases raised with
  | none =>
    obtain ⟨-, lastReq, ⟨rs, hrs, rfl⟩, rfl⟩ := commit_lastReq hcommit
    -- the log grows by the executed request, the queue loses it
    have hlast : C.lastReq rs.lastReq := by
      apply C.lastReq_update _ hrs
      exact h.own.lastReq
    exact h.setOwn (h.own.executed hr hnext hlast)
  | some e =>
    -- at most the state was set
    rcases commit_raised hcommit with rfl | ⟨-, rfl⟩
    · exact h
    · exact h.setOwn { h.own with }

theorem executeReqs {reqs : List Request} (hreqs : ∀ r ∈ reqs, C.client r.clientRequest) :
    ∀ {m : ReplicationModule n}, C.Table m → ∀ committed,
      C.Table (ReplicationModule.executeReqs reqs m committed).1 := by
  induction reqs with
  | nil => exact fun h _ => h
  | cons r reqs ih =>
    intro m h committed
    have hrest : ∀ r ∈ reqs, C.client r.clientRequest :=
      fun r hr => hreqs r (List.mem_cons_of_mem _ hr)
    unfold ReplicationModule.executeReqs
    split
    · exact h
    · split
      · rename_i hnext
        have hr := hreqs r List.mem_cons_self
        split
        · rename_i m₁ e hcommit
          exact h.commit hr hnext.2 hcommit
        · rename_i m₁ hcommit
          exact ih hrest (h.commit hr hnext.2 hcommit) _
      · exact ih hrest h _

/-- What reconciling leaves the rest of the iteration keeps. -/
theorem processed {m₀ : ReplicationModule n} (h : C.Table m₀)
    (hrec : m.reconcile resolver order = .ok m₀) {it : Iteration n}
    (hrun : m.run resolver order = .ok it) : C.Table it.after := by
  obtain ⟨m₁, created, processing, hprep, -, hrest⟩ := run_cases hrun
  -- before requests are committed: pending requests learned, prepared
  have hm₁ : C.Table m₁ := by
    obtain ⟨m₀', hrec', hcase⟩ := prepared_cases hprep
    cases hrec.symm.trans hrec'
    rcases hcase with ⟨-, rfl, -⟩ | ⟨-, -, hprepare⟩
    · exact h.learnPendReqs
    · exact h.learnPendReqs.prepareReqs hprepare
  rcases hrest with ⟨-, hafter, -⟩ | ⟨-, hexec⟩
  · exact hafter ▸ hm₁
  · have hreqs : ∀ r ∈ m₁.commitReqs.supportedReqs {.prep, .commit}, C.client r.clientRequest :=
      fun r hr => hm₁.commitReqs.client_of_supported hr
    have hall := executeReqs hreqs hm₁.commitReqs []
    rw [← hexec] at hall
    exact hall

/-- A whole iteration keeps the table invariant. -/
theorem run (h : C.Table m)
    (hview : resolver.allowService = true → C.prim (resolver.currentView m.id))
    (hsix : m.Flushes resolver order → C.clients 6) {it : Iteration n}
    (hrun : m.run resolver order = .ok it) : C.Table it.after := by
  obtain ⟨m₀, hrec, -⟩ := Py.of_bind hrun
  exact (h.reconcile hview hsix hrec).processed hrec hrun

/-- The table invariant with no property but the settings. -/
theorem of_settled (m : ReplicationModule n) : (Containers.settled m).Table m :=
  ⟨⟨rfl, rfl, rfl, rfl⟩, fun _ => ⟨trivial, trivial, trivial, trivial, trivial⟩, trivial, trivial⟩

/-- The identity and the parameters of a module never change. -/
theorem settings_reconcile (hrec : m.reconcile resolver order = .ok m') :
    m'.id = m.id ∧ m'.numberOfByzantine = m.numberOfByzantine ∧
      m'.numberOfClients = m.numberOfClients ∧ m'.selfStab = m.selfStab :=
  ((of_settled m).reconcile (fun _ => trivial) (fun _ => trivial) hrec).settings

theorem settings_run {it : Iteration n} (hrun : m.run resolver order = .ok it) :
    it.after.id = m.id ∧ it.after.numberOfByzantine = m.numberOfByzantine ∧
      it.after.numberOfClients = m.numberOfClients ∧ it.after.selfStab = m.selfStab :=
  ((of_settled m).run (fun _ => trivial) (fun _ => trivial) hrun).settings

/-! ## Messages and clients -/

/-- A message brings its containers only if it is stored as a whole. -/
theorem receiveRepMsg (h : C.Table m) {j : Fin n} (hne : j ≠ m.id) {rs : ReplicaStructure}
    (hrs : m.stores resolver = true → C.Holds rs) : C.Table (m.receiveRepMsg resolver j rs) := by
  have hown : (m.receiveRepMsg resolver j rs).own = m.own := own_receiveRepMsg hne
  have hrep : ∀ i, C.Holds ((m.receiveRepMsg resolver j rs).rep i) := by
    cases hstores : m.stores resolver with
    | true =>
      exact rep_receiveRepMsg h.rep (hrs hstores) (fun rs _ hrs => { hrs with }) resolver
    -- only the state of the slot is replaced, which is in no container
    | false =>
      have hstate : C.Holds { m.rep j with repState := rs.repState } := { h.rep j with }
      rw [receiveRepMsg_of_not_stores hstores]
      exact rep_receiveRepMsg h.rep hstate (fun rs _ hrs => { hrs with }) resolver
  refine ⟨by simpa using h.settings, hrep, ?_, ?_⟩
  · rw [hown]
    exact h.prim
  · rw [hown]
    exact h.clients

theorem injectClientReq (h : C.Table m) {req : ClientRequest} (hreq : C.client req) :
    C.Table (m.injectClientReq req) :=
  h.setOwn (h.own.extendPendReqs fun _ hc => List.mem_singleton.mp hc ▸ hreq)

end Table

end Containers

end BFTList
