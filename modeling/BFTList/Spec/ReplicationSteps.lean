import BFTList.ForStd.Quorum
import BFTList.Native.ReplicationRun
import BFTList.Spec.ReplicaStructure

/-!
# What one iteration can do

The steps of `run()` that process requests write to the processor's own
structure only. Each lemma here says what a step writes: a property of the own
structure that survives every possible write of the step survives the step.
What a write was based on (a pending request, an entry of the primary's queue,
support in the table) comes with it, in terms of the table the step started from.

## Key results

- `assignSeqNums_invariant`, `prePrepReqs_invariant`, `prepReqs_invariant`,
  `commitReqs_invariant`, `executeReqs_invariant`: one rule for each step
- `finish_invariant`: one rule for committing and executing
- `prepareReqs_spec`: preparing as a whole
- `run_cases`: an iteration prepares, and then commits and executes or stops
- `Keeps`: every request in queue and log has a property
-/

namespace BFTList.ReplicationModule

variable {n : Nat} {m m' : ReplicationModule n}

/-! ## The own structure -/

@[simp] theorem own_setOwn (m : ReplicationModule n) (rs : ReplicaStructure) :
    (m.setOwn rs).own = rs := Function.update_self ..

@[simp] theorem setOwn_own (m : ReplicationModule n) : m.setOwn m.own = m := by
  simp only [setOwn, own, Function.update_eq_self]

@[simp] theorem setOwn_setOwn (m : ReplicationModule n) (rs rs' : ReplicaStructure) :
    (m.setOwn rs).setOwn rs' = m.setOwn rs' := by
  simp only [setOwn, Function.update_idem]

theorem rep_setOwn_of_ne {rs : ReplicaStructure} {j : Fin n} (h : j ≠ m.id) :
    (m.setOwn rs).rep j = m.rep j := Function.update_of_ne h ..

@[simp] theorem setOwn_id (m : ReplicationModule n) (rs : ReplicaStructure) :
    (m.setOwn rs).id = m.id := rfl

@[simp] theorem setOwn_numberOfByzantine (m : ReplicationModule n) (rs : ReplicaStructure) :
    (m.setOwn rs).numberOfByzantine = m.numberOfByzantine := rfl

@[simp] theorem setOwn_numberOfClients (m : ReplicationModule n) (rs : ReplicaStructure) :
    (m.setOwn rs).numberOfClients = m.numberOfClients := rfl

@[simp] theorem setOwn_selfStab (m : ReplicationModule n) (rs : ReplicaStructure) :
    (m.setOwn rs).selfStab = m.selfStab := rfl

theorem lastExec_eq (m : ReplicationModule n) : m.lastExec = lastSeq m.own.rLog := rfl

@[simp] theorem repAt_val (m : ReplicationModule n) (j : Fin n) :
    m.repAt j.val = .ok (m.rep j) := by
  simp only [repAt, pyIndex_val, Except.map]

/-- A lookup by index finds a structure of the table. -/
theorem exists_of_repAt {id : Int} {rs : ReplicaStructure} (h : m.repAt id = .ok rs) :
    ∃ j, rs = m.rep j := by
  rw [repAt] at h
  cases hindex : pyIndex n id with
  | error e =>
    rw [hindex] at h
    cases h
  | ok j =>
    rw [hindex] at h
    cases h
    exact ⟨j, rfl⟩

/-- A message from another processor leaves the own structure alone. -/
theorem own_receiveRepMsg {resolver : Resolver n} {i : Fin n} {rs : ReplicaStructure}
    (h : i ≠ m.id) : (m.receiveRepMsg resolver i rs).own = m.own := by
  unfold receiveRepMsg
  split
  · split
    · exact Function.update_of_ne h.symm ..
    · exact Function.update_of_ne h.symm ..
  · rfl

/-- A message replaces one copy, or the state of one copy. -/
theorem receiveRepMsg_cases (m : ReplicationModule n) (resolver : Resolver n) (i : Fin n)
    (rs : ReplicaStructure) : ∃ copy, m.receiveRepMsg resolver i rs =
      { m with rep := Function.update m.rep i copy } ∧
      (copy = m.rep i ∨ copy = rs ∨ copy = { m.rep i with repState := rs.repState }) := by
  unfold receiveRepMsg
  split
  · split
    · exact ⟨rs, rfl, Or.inr (Or.inl rfl)⟩
    · exact ⟨_, rfl, Or.inr (Or.inr rfl)⟩
  · exact ⟨m.rep i, by rw [Function.update_eq_self], Or.inl rfl⟩

/-- A message leaves identity and parameters alone. -/
@[simp] theorem receiveRepMsg_id (m : ReplicationModule n) (resolver : Resolver n) (i : Fin n)
    (rs : ReplicaStructure) : (m.receiveRepMsg resolver i rs).id = m.id := by
  obtain ⟨copy, heq, -⟩ := receiveRepMsg_cases m resolver i rs
  rw [heq]

@[simp] theorem receiveRepMsg_numberOfByzantine (m : ReplicationModule n) (resolver : Resolver n)
    (i : Fin n) (rs : ReplicaStructure) :
    (m.receiveRepMsg resolver i rs).numberOfByzantine = m.numberOfByzantine := by
  obtain ⟨copy, heq, -⟩ := receiveRepMsg_cases m resolver i rs
  rw [heq]

@[simp] theorem receiveRepMsg_numberOfClients (m : ReplicationModule n) (resolver : Resolver n)
    (i : Fin n) (rs : ReplicaStructure) :
    (m.receiveRepMsg resolver i rs).numberOfClients = m.numberOfClients := by
  obtain ⟨copy, heq, -⟩ := receiveRepMsg_cases m resolver i rs
  rw [heq]

@[simp] theorem receiveRepMsg_selfStab (m : ReplicationModule n) (resolver : Resolver n)
    (i : Fin n) (rs : ReplicaStructure) :
    (m.receiveRepMsg resolver i rs).selfStab = m.selfStab := by
  obtain ⟨copy, heq, -⟩ := receiveRepMsg_cases m resolver i rs
  rw [heq]

/-- A demand for a flush that is taken back is only a flag. -/
theorem repRequestReset_eq (m : ReplicationModule n) :
    m.repRequestReset.2 = { m with needFlush := false } := by
  unfold repRequestReset
  split
  · rfl
  · rename_i hnot
    have hflag : m.needFlush = false := Bool.eq_false_iff.mpr hnot
    show m = { m with needFlush := false }
    rw [← hflag]

/-- A message is stored as a whole, and not only its state. -/
def stores (m : ReplicationModule n) (resolver : Resolver n) : Bool :=
  (!m.selfStab || resolver.allowService) && resolver.noViewChange

/-- Of a message that is not stored as a whole only the state matters. -/
theorem receiveRepMsg_of_not_stores {resolver : Resolver n} (h : m.stores resolver = false)
    (j : Fin n) (rs : ReplicaStructure) :
    m.receiveRepMsg resolver j rs =
      m.receiveRepMsg resolver j { m.rep j with repState := rs.repState } := by
  unfold receiveRepMsg
  split
  · rename_i hservice
    rw [stores, hservice, Bool.true_and] at h
    simp only [h, Bool.false_eq_true, if_false]
  · rfl

/-! ## Preparing as the primary -/

/-- The structure after `req` got the next sequence number. -/
def assigned (rs : ReplicaStructure) (req : ClientRequest) (primId : Int) : ReplicaStructure :=
  ReplicaStructure.addToReqQ { rs with seqNum := rs.seqNum + 1 }
    ⟨⟨req, primId, rs.seqNum + 1⟩, {.prePrep, .prep}⟩

theorem assignSeqNum_setOwn (m : ReplicationModule n) (rs : ReplicaStructure)
    (created : List Request) (req : ClientRequest) (primId : Int) :
    assignSeqNum primId (m.setOwn rs, created) req =
      if rs.seqNum < lastSeq rs.rLog + SIGMA * m.numberOfClients then
        (m.setOwn (assigned rs req primId), created ++ [⟨req, primId, rs.seqNum + 1⟩])
      else (m.setOwn rs, created) := by
  simp only [assignSeqNum, own_setOwn, setOwn_setOwn, lastExec_eq, setOwn_numberOfClients, assigned]

/-- The primary numbers pending requests while the window has room. -/
theorem assignSeqNums_invariant {primId : Int} {created : List Request}
    {P : ReplicaStructure → List Request → Prop}
    (h : m.assignSeqNums primId = .ok (m', created)) (hP : P m.own [])
    (hstep : ∀ rs created req, req ∈ m.own.pendReqs → P rs created →
      rs.seqNum < lastSeq rs.rLog + SIGMA * m.numberOfClients →
      P (assigned rs req primId) (created ++ [⟨req, primId, rs.seqNum + 1⟩])) :
    ∃ rs, m' = m.setOwn rs ∧ P rs created := by
  simp only [assignSeqNums] at h
  obtain ⟨reqs, hreqs, h⟩ := Py.of_bind h
  simp only [pure, Except.pure, Except.ok.injEq] at h
  have hinv := List.foldl_invariant
    (P := fun st : ReplicationModule n × List Request => ∃ rs, st.1 = m.setOwn rs ∧ P rs st.2)
    (f := assignSeqNum primId) reqs (m, []) ⟨m.own, (setOwn_own m).symm, hP⟩ (by
      intro st req hreq hst
      obtain ⟨m₁, created₁⟩ := st
      obtain ⟨rs, rfl, hrs⟩ := hst
      rw [assignSeqNum_setOwn]
      split
      · rename_i hroom
        exact ⟨_, rfl, hstep rs created₁ req ((mem_filterPy hreqs).mp hreq).1 hrs hroom⟩
      · exact ⟨rs, rfl, hrs⟩)
  rw [h] at hinv
  exact hinv

/-! ## Preparing as a backup -/

/-- The requests of the primary's queue a backup may take over, one for each
    client request that many know. -/
def offers (m : ReplicationModule n) (p : Fin n) : List Request :=
  m.knownPendReqs.filterMap (m.offeredReq p.val (m.rep p).reqQ)

/-- What is offered is queued at the primary and carries a known client request. -/
theorem mem_offers {p : Fin n} {r : Request} (h : r ∈ m.offers p) :
    r ∈ (m.rep p).queued ∧ r.clientRequest ∈ m.knownPendReqs := by
  obtain ⟨c, hc, hoffer⟩ := List.mem_filterMap.mp h
  simp only [offeredReq, Option.map_eq_some_iff] at hoffer
  obtain ⟨q, hq, rfl⟩ := hoffer
  have hmatch := List.find?_some hq
  simp only [decide_eq_true_eq] at hmatch
  refine ⟨ReplicaStructure.mem_queued.mpr ⟨q, List.mem_of_find?_eq_some hq, rfl⟩, ?_⟩
  rw [hmatch.1]
  exact hc

theorem prePrepReq_cases {p : Fin n} {req : ClientRequest} (h : prePrepReq p.val m req = .ok m') :
    m' = m ∨ ∃ r, m.offeredReq p.val (m.rep p).reqQ req = some r ∧
      m' = m.setOwn (m.own.addToReqQ ⟨r, {.prePrep}⟩) := by
  obtain ⟨accepted, -, h⟩ := Py.of_bind h
  cases accepted with
  | false =>
    simp only [Bool.false_eq_true, if_false, pure, Except.pure, Except.ok.injEq] at h
    exact Or.inl h.symm
  | true =>
    simp only [if_true, repAt_val, bind, Except.bind] at h
    cases hoffer : m.offeredReq p.val (m.rep p).reqQ req with
    | none =>
      simp only [hoffer, pure, Except.pure, Except.ok.injEq] at h
      exact Or.inl h.symm
    | some r =>
      simp only [hoffer, pure, Except.pure, Except.ok.injEq] at h
      exact Or.inr ⟨r, rfl, h.symm⟩

/-- A backup takes over entries of the primary's queue. -/
theorem prePrepReqs_invariant {p : Fin n} (hp : p ≠ m.id) {P : ReplicaStructure → Prop}
    (h : m.prePrepReqs p.val = .ok m') (hP : P m.own)
    (hstep : ∀ rs r, P rs → r ∈ m.offers p → P (rs.addToReqQ ⟨r, {.prePrep}⟩)) :
    ∃ rs, m' = m.setOwn rs ∧ P rs := by
  -- the log stays, and with it the window
  have hkept := List.foldlM_invariant
    (P := fun m' => ∃ rs, m' = m.setOwn rs ∧ rs.rLog = m.own.rLog ∧ P rs) h
    ⟨m.own, (setOwn_own m).symm, rfl, hP⟩ (by
      intro m₁ m₂ req hreq hm₁ hstep₁
      obtain ⟨rs, rfl, hlog, hrs⟩ := hm₁
      cases prePrepReq_cases hstep₁ with
      | inl heq => exact ⟨rs, heq, hlog, hrs⟩
      | inr hnew =>
        obtain ⟨r, hoffer, rfl⟩ := hnew
        have hwindow : (m.setOwn rs).offeredReq p.val ((m.setOwn rs).rep p).reqQ req =
            m.offeredReq p.val (m.rep p).reqQ req := by
          simp only [offeredReq, inWindow, lastExec_eq, own_setOwn, hlog, setOwn_numberOfClients,
            rep_setOwn_of_ne hp]
          rfl
        rw [hwindow] at hoffer
        rw [own_setOwn, setOwn_setOwn]
        exact ⟨_, rfl, hlog, hstep rs r hrs (List.mem_filterMap.mpr ⟨req, hreq, hoffer⟩)⟩)
  obtain ⟨rs, hm', -, hrs⟩ := hkept
  exact ⟨rs, hm', hrs⟩

/-- `PREP` is given to supported requests. -/
theorem prepReqs_invariant {P : ReplicaStructure → Prop} (hP : P m.own)
    (hstep : ∀ rs r, P rs → r ∈ m.supportedReqs {.prePrep} → P (rs.upgrade r {.prePrep} .prep)) :
    ∃ rs, m.prepReqs = m.setOwn rs ∧ P rs := by
  refine List.foldl_invariant (P := fun m' => ∃ rs, m' = m.setOwn rs ∧ P rs) _ m
    ⟨m.own, (setOwn_own m).symm, hP⟩ ?_
  intro m₁ r hr hm₁
  obtain ⟨rs, rfl, hrs⟩ := hm₁
  exact ⟨_, by simp only [own_setOwn, setOwn_setOwn], hstep rs r hrs hr⟩

/-! ## Preparing -/

private theorem assignSeqNums_clients {primId : Int} {created : List Request}
    (h : m.assignSeqNums primId = .ok (m', created)) :
    ∃ reqs, m.unassignedReqs = .ok reqs ∧
      (created.map fun r => r.clientRequest).Sublist reqs := by
  obtain ⟨reqs, hreqs, h⟩ := Py.of_bind h
  simp only [pure, Except.pure, Except.ok.injEq] at h
  refine ⟨reqs, hreqs, ?_⟩
  -- whatever was created before, each request adds itself or nothing
  have hgen : ∀ (reqs : List ClientRequest) (st : ReplicationModule n × List Request),
      ∃ l : List ClientRequest, l.Sublist reqs ∧
        ((reqs.foldl (assignSeqNum primId) st).2.map fun r => r.clientRequest) =
          (st.2.map fun r => r.clientRequest) ++ l := by
    intro reqs
    induction reqs with
    | nil => exact fun st => ⟨[], List.Sublist.refl _, (List.append_nil _).symm⟩
    | cons req reqs ih =>
      intro st
      obtain ⟨l, hl, heq⟩ := ih (assignSeqNum primId st req)
      rw [List.foldl_cons, heq]
      simp only [assignSeqNum]
      split
      · refine ⟨req :: l, hl.cons_cons req, ?_⟩
        simp only [List.map_append, List.map_cons, List.map_nil, List.append_assoc,
          List.singleton_append]
      · exact ⟨l, hl.cons req, rfl⟩
  obtain ⟨l, hl, heq⟩ := hgen reqs (m, [])
  rw [h] at heq
  rw [heq]
  exact hl

/-- The requests the primary numbers carry unassigned client requests in their
    order, and continue after its sequence number. -/
structure Numbering (m : ReplicationModule n) (created : List Request) : Prop where
  clients : ∃ reqs, m.unassignedReqs = .ok reqs ∧
    (created.map fun r => r.clientRequest).Sublist reqs
  ascending : created.Pairwise fun r r' => r.seqNum < r'.seqNum
  later : ∀ r ∈ created, m.own.seqNum < r.seqNum

theorem assignSeqNums_spec {primId : Int} {created : List Request}
    (h : m.assignSeqNums primId = .ok (m', created)) : Numbering m created := by
  obtain ⟨rs, -, hasc, hbounds, -⟩ := assignSeqNums_invariant
    (P := fun rs created => created.Pairwise (fun r r' => r.seqNum < r'.seqNum) ∧
      (∀ r ∈ created, m.own.seqNum < r.seqNum ∧ r.seqNum ≤ rs.seqNum) ∧ m.own.seqNum ≤ rs.seqNum)
    h ⟨List.Pairwise.nil, fun r hr => absurd hr List.not_mem_nil, Int.le_refl _⟩ (by
      intro rs created req _ hrs _
      obtain ⟨hasc, hbounds, hle⟩ := hrs
      have hnum : (assigned rs req primId).seqNum = rs.seqNum + 1 := rfl
      refine ⟨List.pairwise_append.mpr ⟨hasc, List.pairwise_singleton _ _, fun r hr r' hr' => ?_⟩,
        fun r hr => ?_, by omega⟩
      · rw [List.mem_singleton.mp hr']
        have hr := hbounds r hr
        show r.seqNum < rs.seqNum + 1
        omega
      · cases List.mem_append.mp hr with
        | inl hold =>
          have hr := hbounds r hold
          omega
        | inr hnew =>
          rw [List.mem_singleton.mp hnew, hnum]
          show m.own.seqNum < rs.seqNum + 1 ∧ rs.seqNum + 1 ≤ rs.seqNum + 1
          omega)
  exact ⟨assignSeqNums_clients h, hasc, fun r hr => (hbounds r hr).1⟩

/-- An own structure that preparing requests may leave when `p` is the primary. -/
structure Prepared (p : Fin n) (m : ReplicationModule n) (created : List Request)
    (rs : ReplicaStructure) : Prop where
  rLog : rs.rLog = m.own.rLog
  pendReqs : rs.pendReqs = m.own.pendReqs
  clients : rs.numberOfClients = m.own.numberOfClients
  queued : ∀ r ∈ rs.queued, r ∈ m.own.queued ∨ (p = m.id ∧ r ∈ created) ∨
    (p ≠ m.id ∧ r ∈ m.offers p)
  nodup : m.own.queued.Nodup → rs.queued.Nodup
  noClients : m.own.numberOfClients = 0 → ∀ r ∈ rs.queued, r ∈ m.own.queued
  commit : ∀ q ∈ rs.reqQ, .commit ∈ q.status → q ∈ m.own.reqQ

/-! ## Committing -/

/-- The own structure after one request was committed. -/
def committedOwn (rs : ReplicaStructure) (r : Request) : ReplicaStructure :=
  (if rs.reqAlreadyExist r then rs.upgrade r {.prePrep, .prep} .commit
    else rs.addToReqQ ⟨r, {.prePrep, .prep, .commit}⟩).removeFromPendReqs r.clientRequest

@[simp] theorem committedOwn_seqNum (rs : ReplicaStructure) (r : Request) :
    (committedOwn rs r).seqNum = rs.seqNum := by
  unfold committedOwn
  split
  · rfl
  · rfl

@[simp] theorem committedOwn_rLog (rs : ReplicaStructure) (r : Request) :
    (committedOwn rs r).rLog = rs.rLog := by
  unfold committedOwn
  split
  · rfl
  · rfl

theorem commitReq_eq (m : ReplicationModule n) (r : Request) :
    m.commitReq r = m.setOwn (committedOwn m.own r) := rfl

/-- `COMMIT` is given to supported requests, and they enter the queue if need be. -/
theorem commitReqs_invariant {P : ReplicaStructure → Prop} (hP : P m.own)
    (hstep : ∀ rs r, P rs → r ∈ m.supportedReqs {.prep} → P (committedOwn rs r)) :
    ∃ rs, m.commitReqs = m.setOwn rs ∧ P rs := by
  refine List.foldl_invariant (P := fun m' => ∃ rs, m' = m.setOwn rs ∧ P rs) _ m
    ⟨m.own, (setOwn_own m).symm, hP⟩ ?_
  intro m₁ r hr hm₁
  obtain ⟨rs, rfl, hrs⟩ := hm₁
  refine ⟨_, ?_, hstep rs r hrs hr⟩
  rw [commitReq_eq, own_setOwn, setOwn_setOwn]

/-! ## Executing -/

/-- The own structure after `commit()`, for some table of last requests. -/
def executedOwn (rs : ReplicaStructure) (r : Request) (xSet : Finset Int)
    (lastReq : LastReqTable) : ReplicaStructure :=
  { rs with
    repState := r.clientRequest.operation.execute rs.repState
    lastReq := lastReq
    rLog := ReplicaStructure.trimRLog rs.numberOfClients (rs.rLog ++ [⟨r, some xSet⟩])
    pendReqs := rs.pendReqs.erase r.clientRequest
    reqQ := rs.reqQ.filter fun q => q.request ≠ r }

/-- The table of last requests is `lastReq` once `r` has been executed. -/
def LastReqAfter (rs : ReplicaStructure) (r : Request) (lastReq : LastReqTable) : Prop :=
  ∃ rs', ReplicaStructure.updateLastReq
    { rs with repState := r.clientRequest.operation.execute rs.repState }
    r.clientRequest.clientId r (r.clientRequest.operation.execute rs.repState) = .ok rs' ∧
    rs'.lastReq = lastReq

/-- Where `commit()` returns, the table of last requests was updated. -/
theorem commit_lastReq {r : Request} {xSet : Finset Int} (h : m.commit r xSet = (m', none)) :
    r.clientRequest.operation.Executable ∧ ∃ lastReq, LastReqAfter m.own r lastReq ∧
      m' = m.setOwn (executedOwn m.own r xSet lastReq) := by
  by_cases hop : r.clientRequest.operation.Executable
  swap
  · simp only [commit, Operation.callExecute, if_neg hop, Prod.mk.injEq, reduceCtorEq,
      and_false] at h
  simp only [commit, Operation.callExecute, if_pos hop, own_setOwn, setOwn_setOwn] at h
  refine ⟨hop, ?_⟩
  split at h
  · simp only [Prod.mk.injEq, reduceCtorEq, and_false] at h
  · rename_i rs hrs
    refine ⟨rs.lastReq, ⟨rs, hrs, rfl⟩, ?_⟩
    obtain ⟨lastReq, rfl⟩ := ReplicaStructure.updateLastReq_spec hrs
    simp only [ReplicaStructure.addToRLog, Option.isNone_some, Bool.false_eq_true, if_false,
      Prod.mk.injEq, and_true] at h
    exact h.symm

theorem commit_spec {r : Request} {xSet : Finset Int} (h : m.commit r xSet = (m', none)) :
    ∃ lastReq, m' = m.setOwn (executedOwn m.own r xSet lastReq) := by
  obtain ⟨-, lastReq, -, hm'⟩ := commit_lastReq h
  exact ⟨lastReq, hm'⟩

/-- Where `commit()` raises, it has executed the operation on the state or done nothing. -/
theorem commit_raised {r : Request} {xSet : Finset Int} {e : PyError}
    (h : m.commit r xSet = (m', some e)) :
    m' = m ∨ (ReplicaStructure.updateLastReq
        { m.own with repState := r.clientRequest.operation.execute m.own.repState }
        r.clientRequest.clientId r (r.clientRequest.operation.execute m.own.repState) = .error e ∧
      m' = m.setOwn
        { m.own with repState := r.clientRequest.operation.execute m.own.repState }) := by
  by_cases hop : r.clientRequest.operation.Executable
  swap
  · simp only [commit, Operation.callExecute, if_neg hop, Prod.mk.injEq] at h
    exact Or.inl h.1.symm
  simp only [commit, Operation.callExecute, if_pos hop, own_setOwn, setOwn_setOwn] at h
  split at h
  · rename_i e' he'
    simp only [Prod.mk.injEq, Option.some.injEq] at h
    exact Or.inr ⟨h.2 ▸ he', h.1.symm⟩
  · -- an entry with its set of processors is accepted
    simp only [ReplicaStructure.addToRLog, Option.isNone_some, Bool.false_eq_true, if_false,
      Prod.mk.injEq, reduceCtorEq, and_false] at h

/-- Requests are executed one after the other, each the next in sequence. After
    an exception the last request handed to `commit()` may be executed in part. -/
theorem executeReqs_cases {P : ReplicaStructure → List Request → Prop}
    (reqs : List Request) (hP : P m.own [])
    (hstep : ∀ rs committed r xSet lastReq, r ∈ reqs → P rs committed →
      (n : Int) - 2 * m.numberOfByzantine ≤ xSet.card → r.seqNum = lastSeq rs.rLog + 1 →
      LastReqAfter rs r lastReq → P (executedOwn rs r xSet lastReq) (committed ++ [r])) :
    ∃ rs committed, P rs committed ∧
      (((executeReqs reqs m []).1 = m.setOwn rs ∧ (executeReqs reqs m []).2.1 = committed) ∨
        ∃ r ∈ reqs, (executeReqs reqs m []).2.1 = committed ++ [r] ∧
          r.seqNum = lastSeq rs.rLog + 1 ∧ ∃ xSet e, (executeReqs reqs m []).2.2 = some e ∧
            (m.setOwn rs).commit r xSet = ((executeReqs reqs m []).1, some e)) := by
  suffices hgen : ∀ (l : List Request) (rs : ReplicaStructure) (done : List Request),
      (∀ r ∈ l, r ∈ reqs) → P rs done →
      ∃ rs' committed, P rs' committed ∧
        (((executeReqs l (m.setOwn rs) done).1 = m.setOwn rs' ∧
            (executeReqs l (m.setOwn rs) done).2.1 = committed) ∨
          ∃ r ∈ reqs, (executeReqs l (m.setOwn rs) done).2.1 = committed ++ [r] ∧
            r.seqNum = lastSeq rs'.rLog + 1 ∧
            ∃ xSet e, (executeReqs l (m.setOwn rs) done).2.2 = some e ∧
              (m.setOwn rs').commit r xSet = ((executeReqs l (m.setOwn rs) done).1, some e)) by
    have hall := hgen reqs m.own [] (fun r hr => hr) hP
    rwa [setOwn_own] at hall
  intro l
  induction l with
  | nil => exact fun rs done _ hrs => ⟨rs, done, hrs, Or.inl ⟨rfl, rfl⟩⟩
  | cons r l ih =>
    intro rs done hsub hrs
    have hr := hsub r List.mem_cons_self
    have hl : ∀ r ∈ l, r ∈ reqs := fun r hr => hsub r (List.mem_cons_of_mem _ hr)
    unfold executeReqs
    split
    · exact ⟨rs, done, hrs, Or.inl ⟨rfl, rfl⟩⟩
    · rename_i xSet hxSet
      split
      · rename_i hnext
        obtain ⟨hcard, hseq⟩ := hnext
        rw [lastExec_eq, own_setOwn] at hseq
        split
        · -- `commit()` raised
          rename_i m₁ e hcommit
          exact ⟨rs, done, hrs, Or.inr ⟨r, hr, rfl, hseq, xSet, e, rfl, hcommit⟩⟩
        · rename_i m₁ hcommit
          obtain ⟨-, lastReq, hlast, rfl⟩ := commit_lastReq hcommit
          rw [own_setOwn] at hlast
          rw [own_setOwn, setOwn_setOwn]
          exact ih _ _ hl (hstep rs done r xSet lastReq hr hrs hcard hseq hlast)
      · exact ih rs done hl hrs

/-- The same for what does not depend on the replica state. -/
theorem executeReqs_invariant {P : ReplicaStructure → List Request → Prop}
    (reqs : List Request) (hP : P m.own [])
    (hstate : ∀ rs committed repState, P rs committed →
      P { rs with repState := repState } committed)
    (hstep : ∀ rs committed r xSet lastReq, r ∈ reqs → P rs committed →
      (n : Int) - 2 * m.numberOfByzantine ≤ xSet.card → r.seqNum = lastSeq rs.rLog + 1 →
      P (executedOwn rs r xSet lastReq) (committed ++ [r])) :
    ∃ rs committed, (executeReqs reqs m []).1 = m.setOwn rs ∧ P rs committed ∧
      ((executeReqs reqs m []).2.1 = committed ∨
        ∃ r ∈ reqs, (executeReqs reqs m []).2.1 = committed ++ [r] ∧
          r.seqNum = lastSeq rs.rLog + 1 ∧ (executeReqs reqs m []).2.2.isSome) := by
  obtain ⟨rs, committed, hrs, hcase⟩ := executeReqs_cases reqs hP
    fun rs committed r xSet lastReq hr hrs hcard hseq _ =>
      hstep rs committed r xSet lastReq hr hrs hcard hseq
  rcases hcase with ⟨hafter, hlist⟩ | ⟨r, hr, hlist, hseq, xSet, e, hraised, hcommit⟩
  · exact ⟨rs, committed, hafter, hrs, Or.inl hlist⟩
  · have hsome : (executeReqs reqs m []).2.2.isSome := by rw [hraised, Option.isSome_some]
    rcases commit_raised hcommit with hafter | ⟨-, hafter⟩
    · exact ⟨rs, committed, hafter, hrs, Or.inr ⟨r, hr, hlist, hseq, hsome⟩⟩
    · rw [own_setOwn, setOwn_setOwn] at hafter
      exact ⟨_, committed, hafter, hstate rs committed _ hrs,
        Or.inr ⟨r, hr, hlist, hseq, hsome⟩⟩

/-- Committing and executing. Requests are executed that are supported after
    committing, and a property of what was executed so far survives each of them. -/
theorem finish_cases {P : ReplicaStructure → List Request → Prop} {committed : List Request}
    {raised : Option PyError}
    (hexec : (m', committed, raised) =
      executeReqs (m.commitReqs.supportedReqs {.prep, .commit}) m.commitReqs [])
    (hP : P m.own [])
    (hcommit : ∀ rs r, P rs [] → r ∈ m.supportedReqs {.prep} → P (committedOwn rs r) [])
    (hexecute : ∀ rs₁, P rs₁ [] → ∀ rs done r xSet lastReq, P rs done →
      r ∈ (m.setOwn rs₁).supportedReqs {.prep, .commit} → r.seqNum = lastSeq rs.rLog + 1 →
      LastReqAfter rs r lastReq → P (executedOwn rs r xSet lastReq) (done ++ [r])) :
    ∃ rs₁ rs done, P rs₁ [] ∧ P rs done ∧
      ((m' = m.setOwn rs ∧ committed = done) ∨
        ∃ r ∈ (m.setOwn rs₁).supportedReqs {.prep, .commit}, committed = done ++ [r] ∧
          r.seqNum = lastSeq rs.rLog + 1 ∧
          ∃ xSet e, raised = some e ∧ (m.setOwn rs).commit r xSet = (m', some e)) := by
  obtain ⟨rs₁, hcommitted, hrs₁⟩ :=
    commitReqs_invariant (m := m) (P := fun rs => P rs []) hP hcommit
  rw [hcommitted] at hexec
  obtain ⟨rs, done, hrs, hcase⟩ := executeReqs_cases (m := m.setOwn rs₁) (P := P)
    ((m.setOwn rs₁).supportedReqs {.prep, .commit})
    (by
      rw [own_setOwn]
      exact hrs₁)
    (by
      intro rs done r xSet lastReq hr hrs _ hnext hlast
      exact hexecute rs₁ hrs₁ rs done r xSet lastReq hrs hr hnext hlast)
  rw [← hexec, setOwn_setOwn] at hcase
  exact ⟨rs₁, rs, done, hrs₁, hrs, hcase⟩

/-- The same for what does not depend on the replica state. -/
theorem finish_invariant {P : ReplicaStructure → List Request → Prop} {committed : List Request}
    {raised : Option PyError}
    (hexec : (m', committed, raised) =
      executeReqs (m.commitReqs.supportedReqs {.prep, .commit}) m.commitReqs [])
    (hP : P m.own [])
    (hstate : ∀ rs committed repState, P rs committed →
      P { rs with repState := repState } committed)
    (hcommit : ∀ rs r, P rs [] → r ∈ m.supportedReqs {.prep} → P (committedOwn rs r) [])
    (hexecute : ∀ rs₁, P rs₁ [] → ∀ rs done r xSet lastReq, P rs done →
      r ∈ (m.setOwn rs₁).supportedReqs {.prep, .commit} → r.seqNum = lastSeq rs.rLog + 1 →
      P (executedOwn rs r xSet lastReq) (done ++ [r])) :
    ∃ rs₁ rs done, P rs₁ [] ∧ m' = m.setOwn rs ∧ P rs done ∧
      (committed = done ∨ ∃ r ∈ (m.setOwn rs₁).supportedReqs {.prep, .commit},
        committed = done ++ [r] ∧ r.seqNum = lastSeq rs.rLog + 1 ∧ raised.isSome = true) := by
  obtain ⟨rs₁, rs, done, hrs₁, hrs, hcase⟩ := finish_cases hexec hP hcommit
    fun rs₁ hrs₁ rs done r xSet lastReq hrs hr hnext _ =>
      hexecute rs₁ hrs₁ rs done r xSet lastReq hrs hr hnext
  rcases hcase with ⟨hafter, hlist⟩ | ⟨r, hr, hlist, hseq, xSet, e, rfl, hraised⟩
  · exact ⟨rs₁, rs, done, hrs₁, hafter, hrs, Or.inl hlist⟩
  · rcases commit_raised hraised with hafter | ⟨-, hafter⟩
    · exact ⟨rs₁, rs, done, hrs₁, hafter, hrs, Or.inr ⟨r, hr, hlist, hseq, rfl⟩⟩
    · rw [own_setOwn, setOwn_setOwn] at hafter
      exact ⟨rs₁, _, done, hrs₁, hafter, hstate rs done _ hrs, Or.inr ⟨r, hr, hlist, hseq, rfl⟩⟩

/-! ## The iteration -/

/-- The first part of an iteration: reconcile, learn and prepare, and whether
    requests are processed. -/
def prepared (resolver : Resolver n) (order : SetOrder Int) (m : ReplicationModule n) :
    Py (ReplicationModule n × List Request × Bool) := do
  let m := (← m.reconcile resolver order).learnPendReqs
  if m.mayProcess resolver then
    let (m, created) ← m.prepareReqs (m.primId resolver)
    return (m, created, true)
  else return (m, [], false)

/-- Requests are prepared as the primary or as a backup. -/
theorem prepareReqs_cases {primId : Int} {created : List Request}
    (h : m.prepareReqs primId = .ok (m', created)) :
    (primId = m.id.val ∧ m.assignSeqNums primId = .ok (m', created)) ∨
      (primId ≠ m.id.val ∧ created = [] ∧
        ∃ m₁, m.prePrepReqs primId = .ok m₁ ∧ m' = m₁.prepReqs) := by
  unfold prepareReqs at h
  split at h
  · rename_i hprim
    exact Or.inl ⟨hprim, h⟩
  · rename_i hprim
    obtain ⟨m₁, hpre, h⟩ := Py.of_bind h
    simp only [pure, Except.pure, Except.ok.injEq, Prod.mk.injEq] at h
    exact Or.inr ⟨hprim, h.2.symm, m₁, hpre, h.1.symm⟩

/-- Preparing may leave the own structure as it is. -/
theorem Prepared.refl (p : Fin n) (m : ReplicationModule n) (created : List Request) :
    Prepared p m created m.own :=
  ⟨rfl, rfl, rfl, fun _ hr => Or.inl hr, fun hn => hn, fun _ _ hr => hr, fun _ hq _ => hq⟩

/-- Preparing adds what the primary numbers or offers, and commits nothing. -/
theorem prepareReqs_spec {p : Fin n} {created : List Request}
    (h : m.prepareReqs p.val = .ok (m', created)) :
    ∃ rs, m' = m.setOwn rs ∧ Prepared p m created rs := by
  rcases prepareReqs_cases h with ⟨hid, hassign⟩ | ⟨hid, rfl, m₁, hpre, rfl⟩
  · -- the primary numbers requests
    have hp : p = m.id := Fin.ext (by omega)
    refine assignSeqNums_invariant (P := fun rs created => Prepared p m created rs) hassign
      (Prepared.refl p m []) ?_
    intro rs created req _ hrs _
    refine ⟨hrs.rLog, hrs.pendReqs, hrs.clients, fun r hr => ?_, fun hn => ?_, fun hk r hr => ?_,
      fun q hq hc => ?_⟩
    · cases ReplicaStructure.mem_queued_addToReqQ hr with
      | inl hold =>
        rcases hrs.queued r hold with hown | ⟨-, hmem⟩ | hoffer
        · exact Or.inl hown
        · exact Or.inr (Or.inl ⟨hp, List.mem_append_left _ hmem⟩)
        · exact absurd hp hoffer.1
      | inr hnew =>
        refine Or.inr (Or.inl ⟨hp, List.mem_append_right _ ?_⟩)
        rw [hnew]
        exact List.mem_singleton_self _
    · exact ReplicaStructure.nodup_queued_addToReqQ (hrs.nodup hn) _
    · -- without clients there is no room in the queue
      obtain ⟨q, hq, -⟩ := ReplicaStructure.mem_queued.mp hr
      have hnil : (assigned rs req p.val).reqQ = [] :=
        ReplicaStructure.reqQ_addToReqQ_of_noClients (hrs.clients.trans hk) _
      rw [hnil] at hq
      exact absurd hq List.not_mem_nil
    · cases ReplicaStructure.mem_reqQ_addToReqQ hq with
      | inl hold => exact hrs.commit q hold hc
      | inr hnew =>
        rw [hnew] at hc
        have hc' : ReplicationEnums.commit ∈ ({.prePrep, .prep} : Status) := hc
        exact absurd hc' (by decide)
  · -- a backup follows the primary
    have hp : p ≠ m.id := fun heq => hid (by rw [heq])
    obtain ⟨rs₁, rfl, hrs₁⟩ := prePrepReqs_invariant hp hpre
      (P := fun rs => Prepared p m [] rs) (Prepared.refl p m []) (by
        intro rs r hrs hr
        refine ⟨hrs.rLog, hrs.pendReqs, hrs.clients, fun r' hr' => ?_,
          fun hn => ReplicaStructure.nodup_queued_addToReqQ (hrs.nodup hn) _, fun hk r' hr' => ?_,
          fun q hq hc => ?_⟩
        · cases ReplicaStructure.mem_queued_addToReqQ hr' with
          | inl hold => exact hrs.queued r' hold
          | inr hnew =>
            rw [hnew]
            exact Or.inr (Or.inr ⟨hp, hr⟩)
        · obtain ⟨q, hq, -⟩ := ReplicaStructure.mem_queued.mp hr'
          rw [ReplicaStructure.reqQ_addToReqQ_of_noClients (hrs.clients.trans hk)] at hq
          exact absurd hq List.not_mem_nil
        · cases ReplicaStructure.mem_reqQ_addToReqQ hq with
          | inl hold => exact hrs.commit q hold hc
          | inr hnew =>
            rw [hnew] at hc
            have hc' : ReplicationEnums.commit ∈ ({.prePrep} : Status) := hc
            exact absurd hc' (by decide))
    obtain ⟨rs₂, hrs₂, hprep⟩ := prepReqs_invariant (m := m.setOwn rs₁)
      (P := fun rs => Prepared p m [] rs) (by rwa [own_setOwn]) (by
        intro rs r hrs _
        refine ⟨hrs.rLog, hrs.pendReqs, hrs.clients, ?_, ?_, ?_, fun q hq hc => ?_⟩
        · rw [ReplicaStructure.queued_upgrade]
          exact hrs.queued
        · rw [ReplicaStructure.queued_upgrade]
          exact hrs.nodup
        · rw [ReplicaStructure.queued_upgrade]
          exact hrs.noClients
        · rcases ReplicaStructure.mem_reqQ_upgrade hq with hold | ⟨-, hstatus, -⟩
          · exact hrs.commit q hold hc
          · rw [hstatus] at hc
            exact absurd hc (by decide))
    rw [setOwn_setOwn] at hrs₂
    exact ⟨rs₂, hrs₂, hprep⟩

/-- The first part reconciles and learns, and prepares if requests are processed. -/
theorem prepared_cases {resolver : Resolver n} {order : SetOrder Int} {created : List Request}
    {processing : Bool} (h : m.prepared resolver order = .ok (m', created, processing)) :
    ∃ m₀, m.reconcile resolver order = .ok m₀ ∧
      ((processing = false ∧ m' = m₀.learnPendReqs ∧ created = []) ∨
        (processing = true ∧ m₀.learnPendReqs.mayProcess resolver = true ∧
          m₀.learnPendReqs.prepareReqs (m₀.learnPendReqs.primId resolver) =
            .ok (m', created))) := by
  obtain ⟨m₀, hrec, h⟩ := Py.of_bind h
  refine ⟨m₀, hrec, ?_⟩
  dsimp only at h
  split at h
  · rename_i hmay
    obtain ⟨st, hprep, h⟩ := Py.of_bind h
    simp only [pure, Except.pure, Except.ok.injEq, Prod.mk.injEq] at h
    obtain ⟨rfl, rfl, rfl⟩ := h
    exact Or.inr ⟨rfl, hmay, hprep⟩
  · simp only [pure, Except.pure, Except.ok.injEq, Prod.mk.injEq] at h
    obtain ⟨rfl, rfl, rfl⟩ := h
    exact Or.inl ⟨rfl, rfl, rfl⟩

/-- An iteration prepares, and then commits and executes or stops. -/
theorem run_cases {resolver : Resolver n} {order : SetOrder Int} {it : Iteration n}
    (h : m.run resolver order = .ok it) :
    ∃ m₁ created processing, m.prepared resolver order = .ok (m₁, created, processing) ∧
      it.created = created ∧
      ((processing = false ∧ it.after = m₁ ∧ it.committed = [] ∧ it.raised = none) ∨
        (processing = true ∧ (it.after, it.committed, it.raised) =
          executeReqs (m₁.commitReqs.supportedReqs {.prep, .commit}) m₁.commitReqs [])) := by
  simp only [run, prepared, bind, Except.bind] at h ⊢
  cases hrec : m.reconcile resolver order with
  | error e => simp only [hrec, reduceCtorEq] at h
  | ok m₁ =>
    simp only [hrec] at h ⊢
    split at h
    · rename_i hmay
      rw [if_pos hmay]
      simp only [processReqs, bind, Except.bind] at h
      cases hprep : m₁.learnPendReqs.prepareReqs (m₁.learnPendReqs.primId resolver) with
      | error e => simp only [hprep, reduceCtorEq] at h
      | ok st =>
        simp only [hprep, pure, Except.pure, Except.ok.injEq] at h
        subst h
        exact ⟨st.1, st.2, true, rfl, rfl, Or.inr ⟨rfl, rfl⟩⟩
    · rename_i hmay
      rw [if_neg hmay]
      simp only [pure, Except.pure, Except.ok.injEq] at h
      subst h
      exact ⟨_, [], false, rfl, rfl, Or.inl ⟨rfl, rfl, rfl, rfl⟩⟩

/-! ## Support -/

theorem mem_listed {status : Status} {rs : ReplicaStructure} {r : Request} :
    r ∈ listed status rs ↔ (∃ q ∈ rs.reqQ, status ⊆ q.status ∧ q.request = r) ∨ r ∈ rs.logged := by
  simp only [listed, List.mem_append, List.mem_map, List.mem_filter, decide_eq_true_eq, and_assoc,
    ReplicaStructure.logged]

/-- A listed request is in the queue or in the log. -/
theorem queued_or_logged_of_mem_listed {status : Status} {rs : ReplicaStructure} {r : Request}
    (h : r ∈ listed status rs) : r ∈ rs.queued ∨ r ∈ rs.logged := by
  rcases mem_listed.mp h with ⟨q, hq, -, rfl⟩ | hlog
  · exact Or.inl (ReplicaStructure.mem_queued.mpr ⟨q, hq, rfl⟩)
  · exact Or.inr hlog

/-- A supported request is listed `n - 2f` times and not in the own log. -/
theorem mem_supportedReqs {status : Status} {r : Request} :
    r ∈ m.supportedReqs status ↔
      (∃ j, r ∈ listed status (m.rep j)) ∧
      (n : Int) - 2 * m.numberOfByzantine ≤
        ((List.finRange n).flatMap fun j => listed status (m.rep j)).count r ∧
      r ∉ m.own.logged := by
  simp only [supportedReqs, List.mem_filter, decide_eq_true_eq, Counter.mem_keysAtLeast,
    List.mem_flatMap, List.mem_finRange, true_and, and_assoc, ReplicaStructure.logged]

theorem mem_knownPendReqs {c : ClientRequest} :
    c ∈ m.knownPendReqs ↔ (∃ j, c ∈ (m.rep j).pendReqs) ∧
      (n : Int) - 2 * m.numberOfByzantine ≤
        ((List.finRange n).flatMap fun j => (m.rep j).pendReqs).count c := by
  simp only [knownPendReqs, Counter.mem_keysAtLeast, List.mem_flatMap, List.mem_finRange, true_and]

/-! ## Requests a structure keeps -/

/-- Every request in queue and log has the property. -/
structure Keeps (P : Request → Prop) (rs : ReplicaStructure) : Prop where
  queued : ∀ r ∈ rs.queued, P r
  logged : ∀ r ∈ rs.logged, P r

namespace Keeps

variable {P Q : Request → Prop} {rs : ReplicaStructure}

theorem mono (hPQ : ∀ r, P r → Q r) (h : Keeps P rs) : Keeps Q rs :=
  ⟨fun r hr => hPQ r (h.queued r hr), fun r hr => hPQ r (h.logged r hr)⟩

theorem of_nil (hq : rs.reqQ = []) (hl : rs.rLog = []) : Keeps P rs := by
  refine ⟨fun r hr => ?_, fun r hr => ?_⟩
  · rw [ReplicaStructure.queued, hq] at hr
    exact absurd hr List.not_mem_nil
  · rw [ReplicaStructure.logged, hl] at hr
    exact absurd hr List.not_mem_nil

/-- Only queue and log matter. -/
theorem of_eq (h : Keeps P rs) {rs' : ReplicaStructure} (hq : rs'.reqQ = rs.reqQ)
    (hl : rs'.rLog = rs.rLog) : Keeps P rs' := by
  refine ⟨fun r hr => ?_, fun r hr => ?_⟩
  · rw [ReplicaStructure.queued, hq] at hr
    exact h.queued r hr
  · rw [ReplicaStructure.logged, hl] at hr
    exact h.logged r hr

theorem addToReqQ (h : Keeps P rs) {pair : ReqPair} (hpair : P pair.request) :
    Keeps P (rs.addToReqQ pair) := by
  refine ⟨fun r hr => ?_, h.logged⟩
  cases ReplicaStructure.mem_queued_addToReqQ hr with
  | inl hold => exact h.queued r hold
  | inr hnew => exact hnew ▸ hpair

theorem upgrade (h : Keeps P rs) (r : Request) (old : Status) (new : ReplicationEnums) :
    Keeps P (rs.upgrade r old new) :=
  ⟨by rw [ReplicaStructure.queued_upgrade]; exact h.queued, h.logged⟩

theorem committed (h : Keeps P rs) {r : Request} (hr : P r) : Keeps P (committedOwn rs r) := by
  unfold committedOwn
  split
  · exact (h.upgrade r {.prePrep, .prep} .commit).of_eq rfl rfl
  · have hadd : Keeps P (rs.addToReqQ ⟨r, {.prePrep, .prep, .commit}⟩) := h.addToReqQ hr
    exact hadd.of_eq rfl rfl

/-- Executing moves a request from the queue to the log. -/
theorem executed (h : Keeps P rs) {r : Request} (hr : P r) (xSet : Finset Int)
    (lastReq : LastReqTable) : Keeps P (executedOwn rs r xSet lastReq) := by
  refine ⟨fun r' hr' => ?_, fun r' hr' => ?_⟩
  · obtain ⟨q, hq, rfl⟩ := ReplicaStructure.mem_queued.mp hr'
    exact h.queued _ (ReplicaStructure.mem_queued.mpr ⟨q, (List.mem_filter.mp hq).1, rfl⟩)
  · obtain ⟨e, he, rfl⟩ := ReplicaStructure.mem_logged.mp hr'
    have hmem := (ReplicaStructure.trimRLog_sublist _ _).subset he
    cases List.mem_append.mp hmem with
    | inl hold => exact h.logged _ (ReplicaStructure.mem_logged.mpr ⟨e, hold, rfl⟩)
    | inr hnew =>
      rw [List.mem_singleton.mp hnew]
      exact hr

end Keeps

/-! ## Ascending logs -/

/-- The executed request becomes the end of an ascending log. -/
theorem lastSeq_executed {rs : ReplicaStructure} (h : Ascending rs.rLog)
    (hk : 0 < rs.numberOfClients) {r : Request} (hnext : r.seqNum = lastSeq rs.rLog + 1)
    (xSet : Finset Int) (lastReq : LastReqTable) :
    lastSeq (executedOwn rs r xSet lastReq).rLog = r.seqNum := by
  have hasc : Ascending (rs.rLog ++ [⟨r, some xSet⟩]) := h.concat hnext
  show lastSeq (ReplicaStructure.trimRLog rs.numberOfClients _) = r.seqNum
  rw [ReplicaStructure.lastSeq_trimRLog hk hasc, lastSeq_append]

theorem ascending_executed {rs : ReplicaStructure} (h : Ascending rs.rLog) {r : Request}
    (hnext : r.seqNum = lastSeq rs.rLog + 1) (xSet : Finset Int) (lastReq : LastReqTable) :
    Ascending (executedOwn rs r xSet lastReq).rLog := by
  have hasc : Ascending (rs.rLog ++ [⟨r, some xSet⟩]) := h.concat hnext
  exact hasc.sublist (ReplicaStructure.trimRLog_sublist _ _)

/-! ## The table -/

/-- What all structures of a table have and the new own structure has. -/
theorem rep_setOwn {P : ReplicaStructure → Prop} (h : ∀ j, P (m.rep j)) {rs : ReplicaStructure}
    (hrs : P rs) (j : Fin n) : P ((m.setOwn rs).rep j) := by
  by_cases hj : j = m.id
  · rw [hj, show (m.setOwn rs).rep m.id = rs from own_setOwn m rs]
    exact hrs
  · rw [rep_setOwn_of_ne hj]
    exact h j

/-- What all structures of a table have and a message has, if it does not
    depend on the replica state. -/
theorem rep_receiveRepMsg {P : ReplicaStructure → Prop} (h : ∀ j, P (m.rep j)) {i : Fin n}
    {rs : ReplicaStructure} (hrs : P rs)
    (hstate : ∀ rs repState, P rs → P { rs with repState := repState }) (resolver : Resolver n)
    (j : Fin n) : P ((m.receiveRepMsg resolver i rs).rep j) := by
  obtain ⟨copy, heq, hcopy⟩ := receiveRepMsg_cases m resolver i rs
  rw [heq]
  by_cases hj : j = i
  · subst hj
    show P (Function.update m.rep j copy j)
    rw [Function.update_self]
    rcases hcopy with rfl | rfl | rfl
    · exact h j
    · exact hrs
    · exact hstate _ _ (h j)
  · show P (Function.update m.rep i copy j)
    rw [Function.update_of_ne hj]
    exact h j

/-- What is supported is kept in some structure of the table. -/
theorem keeps_of_supported {P : Request → Prop} (h : ∀ j, Keeps P (m.rep j)) {status : Status}
    {r : Request} (hr : r ∈ m.supportedReqs status) : P r := by
  obtain ⟨⟨j, hj⟩, -⟩ := mem_supportedReqs.mp hr
  cases queued_or_logged_of_mem_listed hj with
  | inl hq => exact (h j).queued r hq
  | inr hl => exact (h j).logged r hl

end BFTList.ReplicationModule
