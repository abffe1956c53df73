import BFTList.Spec.NewView
import BFTList.Spec.NodeRuns
import BFTList.Spec.SenderSlots

/-!
# Iterations that do not raise

The macros look structures up by stored ids, read the set of processors of every
log entry, execute the operations of requests and keep the last request of every
client. None of this is checked when a structure is received, and whatever one
iteration raises on ends the thread with the lock taken. With ids that are indices,
log entries with a set, client requests that carry an `Operation` and client ids that
fit the table of last requests, no function of an iteration raises.

## Key results

- `readable`: what received structures need to have, as properties of the containers
- `comPrefStates_completes`, `reconcile_completes`, `prepareReqs_completes`,
  `executeReqs_completes`: the parts of an iteration
- `run_completes`: in every run that receives such structures, iterations complete
- `run_raises`: with one id out of range they do not
-/

namespace BFTList

open ReplicationModule

/-- A position that may be looked up in a table of `n` structures. -/
def IsIndex (n : Nat) (i : Int) : Prop := -(n : Int) ≤ i ∧ i < n

instance (n : Nat) (i : Int) : Decidable (IsIndex n i) := inferInstanceAs (Decidable (_ ∧ _))

/-- A client that has a place among the last requests of `k` clients, with an operation that
    can be executed. -/
def IsClient (k : Nat) (c : ClientRequest) : Prop := HasPlace k c ∧ c.operation.Executable

instance (k : Nat) (c : ClientRequest) : Decidable (IsClient k c) :=
  inferInstanceAs (Decidable (_ ∧ _))

theorem IsClient.askable {k : Nat} {c : ClientRequest} (h : IsClient k c) : c.Askable :=
  fun hdummy => (hdummy.2.2 ▸ h.2 : Operation.Executable .other)

/-- What nothing raises on in a system of `n` processors with `k` clients. -/
def readable (n k : Nat) (hn : 0 < n) (hk : 0 < k) : Containers n where
  settings _ f _ _ := 3 * f < n
  id := IsIndex n
  client := IsClient k
  rLog l := ∀ e ∈ l, e.xSet.isSome = true ∧ IsClient k e.request.clientRequest
  pendReqs l := ∀ c ∈ l, IsClient k c
  reqQ l := ∀ q ∈ l, IsClient k q.request.clientRequest
  lastReq := HasPlaces k
  prim := IsIndex n
  id_val i := ⟨by omega, by omega⟩
  client_dummy := by
    refine ⟨?_, by decide⟩
    show -(k : Int) ≤ -1
    omega
  rLog_nil := List.forall_mem_nil _
  rLog_prefix hpre h e he := h e (hpre.subset he)
  rLog_client h he := (h _ he).2
  rLog_commit := by
    intro c l r xSet _ h hr _ e he
    have hmem := (ReplicaStructure.trimRLog_sublist _ _).subset he
    cases List.mem_append.mp hmem with
    | inl hold => exact h e hold
    | inr hnew =>
      rw [List.mem_singleton.mp hnew]
      exact ⟨rfl, hr⟩
  pendReqs_nil := List.forall_mem_nil _
  pendReqs_sublist hsub h c hc := h c (hsub.subset hc)
  pendReqs_client h hc := h _ hc
  pendReqs_extend := by
    intro rs reqs _ h hreqs c hc
    cases ReplicaStructure.mem_pendReqs_extendPendReqs hc with
    | inl hold => exact h c hold
    | inr hnew => exact hreqs c hnew
  pendReqs_common := by
    intro ls l hls _ hcommon c hc
    obtain ⟨l', hl', hmem⟩ := List.mem_flatten.mp (hcommon c hc).1
    exact hls l' hl' c hmem
  reqQ_nil := List.forall_mem_nil _
  reqQ_sublist hsub h q hq := h q (hsub.subset hq)
  reqQ_client h hq := h _ hq
  -- the client requests of the queue are those of a readable one
  reqQ_congr := by
    intro l l' hsame h q hq
    have hmem : q.request.clientRequest ∈ l'.map (·.request.clientRequest) :=
      List.mem_map_of_mem hq
    rw [hsame] at hmem
    obtain ⟨q', hq', heq⟩ := List.mem_map.mp hmem
    rw [← heq]
    exact h q' hq'
  reqQ_add := by
    intro rs pair _ h hpair q hq
    cases ReplicaStructure.mem_reqQ_addToReqQ hq with
    | inl hold => exact h q hold
    | inr hnew => exact hnew ▸ hpair
  lastReq_tee := trivial
  lastReq_update h hupdate := h.updated hupdate
  -- `TEE` is -1, which Python reads as the last position
  prim_tee := by
    show -(n : Int) ≤ -1 ∧ (-1 : Int) < n
    omega

namespace ReplicationModule

variable {n k : Nat} {hn : 0 < n} {hk : 0 < k} {m m' : ReplicationModule n}

/-! ## Lookups -/

theorem isIndex_id (h : (readable n k hn hk).Table m) (j : Fin n) : IsIndex n (m.rep j).id :=
  (h.rep j).id

/-- The logs of a readable table hold operations only. -/
theorem operational_rLog (h : (readable n k hn hk).Table m) (j : Fin n) :
    Operational (m.rep j).rLog := fun e he => ((h.rep j).rLog e he).2.2

theorem existsPreprepMsg_completes {prim : Int} (hprim : IsIndex n prim) (c : ClientRequest) :
    (m.existsPreprepMsg c prim).Completes := by
  apply Py.Completes.bind
  · exact msg_completes.mpr hprim
  · exact fun reqs _ => ⟨_, rfl⟩

theorem acceptReqPreprep_completes {prim : Int} (hprim : IsIndex n prim) (c : ClientRequest) :
    (m.acceptReqPreprep c prim).Completes := by
  apply Py.Completes.bind
  · exact repAt_completes.mpr hprim
  · intro rp _
    apply Py.Completes.bind
    · exact existsPreprepMsg_completes hprim c
    · exact fun found _ => ⟨_, rfl⟩

theorem arePrefixes_completes {a b : Int} (ha : IsIndex n a) (hb : IsIndex n b) :
    (m.arePrefixes a b).Completes := by
  apply Py.Completes.bind
  · exact repAt_completes.mpr ha
  · intro ra _
    apply Py.Completes.bind
    · exact repAt_completes.mpr hb
    · intro rb _
      split
      · exact ⟨_, rfl⟩
      · split
        · exact ⟨_, rfl⟩
        · exact ⟨_, rfl⟩

theorem checkNewXPrefix_completes {id : Int} (hid : IsIndex n id) (xRep : List Value)
    (isDefaultPrefix : Bool) : (m.checkNewXPrefix id xRep isDefaultPrefix).Completes := by
  apply Py.Completes.bind
  · exact repAt_completes.mpr hid
  · intro rs _
    split
    · exact ⟨_, rfl⟩
    · split
      · exact ⟨_, rfl⟩
      · exact ⟨_, rfl⟩

/-! ## Common states -/

/-- The keys of the dictionary are stored ids. -/
theorem exists_of_mem_replicaStates {id : Int} (h : id ∈ m.replicaStates.map Prod.fst) :
    ∃ j, id = (m.rep j).id := by
  -- a key is assigned when the slot that carries it is visited
  refine List.foldl_invariant (P := fun d : List (Int × List Value × List LogEntry) =>
    ∀ id ∈ d.map Prod.fst, ∃ j, id = (m.rep j).id) (List.finRange n) []
    (fun id hid => absurd hid List.not_mem_nil) ?_ id h
  intro d j _ hd id hid
  cases mem_keys_dictSet.mp hid with
  | inl heq => exact ⟨j, heq⟩
  | inr hold => exact hd id hold

/-- The loop over candidates ends with one of them, or with nothing. -/
theorem longestPrefix_mem {candidates : List (List Int)} {processors : List Int}
    (h : m.longestPrefix candidates = .ok processors) :
    processors = [] ∨ processors ∈ candidates := by
  simp only [longestPrefix, bind, Except.bind] at h
  split at h
  · cases h
  rename_i best hbest
  cases h
  refine List.foldlM_invariant (P := fun best : Int × List Int =>
    best.2 = [] ∨ best.2 ∈ candidates) hbest (Or.inl rfl) ?_
  intro best best' processors hprocessors hmem hstep
  split at hstep
  · cases hstep
  split at hstep
  · cases hstep
  simp only [pure, Except.pure, Except.ok.injEq] at hstep
  rw [← hstep]
  split
  · split
    · exact Or.inr hprocessors
    · exact hmem
  · split
    · exact Or.inr hprocessors
    · exact hmem

theorem longestPrefix_completes {candidates : List (List Int)}
    (h : ∀ c ∈ candidates, c ≠ [] ∧ ∀ id ∈ c, id ∈ m.replicaStates.map Prod.fst) :
    (m.longestPrefix candidates).Completes := by
  apply Py.Completes.bind
  · apply foldlM_completes_of_forall
    intro best c hc
    obtain ⟨hne, hkeys⟩ := h c hc
    obtain ⟨states, hstates⟩ := mapM_completes fun id hid => dictGet_completes (hkeys id hid)
    -- as many states as processors, so there is a first one
    have hlength := congrArg List.length (map_eq_of_mapM hstates)
    rw [List.length_map, List.length_map] at hlength
    obtain ⟨pre, hpre⟩ : ∃ pre, findPrefix (states.map Prod.fst) = .ok pre := by
      cases states with
      | nil => exact absurd (List.length_eq_zero_iff.mp hlength) hne
      | cons s states => exact findPrefix_cons _ _
    simp only [hstates, hpre, bind, Except.bind]
    exact ⟨_, rfl⟩
  · exact fun best _ => ⟨_, rfl⟩

theorem comPrefStates_completes (h : (readable n k hn hk).Table m) {required : Int}
    (hpos : 0 < required) : (m.comPrefStates required).Completes := by
  -- whatever is looked up later is a key, and keys are stored ids
  have hkeys : ∀ id ∈ m.replicaStates.map Prod.fst, IsIndex n id := by
    intro id hid
    obtain ⟨j, rfl⟩ := exists_of_mem_replicaStates hid
    exact isIndex_id h j
  have hsub : ∀ c ∈ (m.replicaStates.map Prod.fst).combinations required.toNat,
      c ≠ [] ∧ ∀ id ∈ c, id ∈ m.replicaStates.map Prod.fst := by
    intro c hc
    obtain ⟨hsub, hlength⟩ := List.mem_combinations.mp hc
    refine ⟨?_, fun id hid => hsub.subset hid⟩
    rintro rfl
    rw [List.length_nil] at hlength
    omega
  -- no test of a combination raises, so neither does their filter
  have htests : ∀ c ∈ (m.replicaStates.map Prod.fst).combinations required.toNat,
      (m.allPrefixes c).Completes := by
    intro c hc
    apply allM_completes
    intro pair hpair
    obtain ⟨hfst, hsnd⟩ := List.mem_of_mem_pairs hpair
    exact arePrefixes_completes (hkeys _ ((hsub c hc).2 _ hfst)) (hkeys _ ((hsub c hc).2 _ hsnd))
  unfold comPrefStates
  rw [if_neg (by omega)]
  apply (filterPy_completes htests).bind
  intro candidates hcandidates
  have hchosen : ∀ c ∈ candidates, c ≠ [] ∧ ∀ id ∈ c, id ∈ m.replicaStates.map Prod.fst :=
    fun c hc => hsub c ((mem_filterPy hcandidates).mp hc).1
  apply (longestPrefix_completes hchosen).bind
  intro processors hprocessors
  -- an empty choice looks up nothing
  have hids : ∀ id ∈ processors, id ∈ m.replicaStates.map Prod.fst := by
    rcases longestPrefix_mem hprocessors with rfl | hmem
    · exact List.forall_mem_nil _
    · exact (hchosen processors hmem).2
  apply Py.Completes.bind
  · exact mapM_completes fun id hid => repAt_completes.mpr (hkeys id (hids id hid))
  · intro structures _
    apply Py.Completes.bind
    · exact mapM_completes fun id hid => dictGet_completes (hids id hid)
    · exact fun found _ => ⟨_, rfl⟩

theorem findConsState_completes (h : (readable n k hn hk).Table m) {required : Int}
    {p : PrefStates} (hp : m.comPrefStates required = .ok p) : (findConsState p).Completes := by
  -- the logs that are searched are logs of the table
  have hops : ∀ l ∈ p.rLogs, Operational l := by
    intro l hl
    obtain ⟨j, rfl⟩ := comPrefStates_rLogs hp hl
    exact operational_rLog h j
  unfold findConsState
  split
  · exact ⟨_, rfl⟩
  · rename_i hne
    obtain ⟨pre, hpre⟩ : ∃ pre, findPrefix p.states = .ok pre := by
      cases hstates : p.states with
      | nil => exact absurd hstates hne
      | cons s states => exact findPrefix_cons _ _
    simp only [hpre, getCorrespondingRLog_of_operational hops, bind, Except.bind]
    split
    · exact ⟨_, rfl⟩
    · split
      · exact ⟨_, rfl⟩
      · exact ⟨_, rfl⟩

theorem getDsState_completes (h : (readable n k hn hk).Table m) : m.getDsState.Completes := by
  have hfew := h.settings
  change 3 * m.numberOfByzantine < n at hfew
  unfold getDsState
  apply (comPrefStates_completes h (by omega)).bind
  intro p hp
  apply (findConsState_completes h hp).bind
  intro x _
  split
  · exact ⟨_, rfl⟩
  · rename_i xRep _
    apply Py.Completes.bind
    · -- every slot is compared with the prefix, under its stored id
      apply foldlM_completes_of_forall
      intro count j _
      split
      · exact ⟨_, rfl⟩
      · apply (checkNewXPrefix_completes (isIndex_id h j) xRep x.isDefaultPrefix).bind
        exact fun ok _ => ⟨_, rfl⟩
    · intro count _
      split
      · exact ⟨_, rfl⟩
      · exact ⟨_, rfl⟩

/-! ## Consolidation and flush -/

theorem lastCommonExec_completes (h : (readable n k hn hk).Table m) :
    m.lastCommonExec.Completes := by
  apply foldlM_completes_of_forall
  intro best j _
  split
  · exact ⟨best, rfl⟩
  -- the last entry of a log has its set of processors
  · rename_i e he
    have hset := ((h.rep j).rLog e (List.mem_of_getLast? he)).1
    split
    · rename_i hnone
      rw [hnone] at hset
      cases hset
    · split
      · exact ⟨_, rfl⟩
      · exact ⟨_, rfl⟩

theorem mustAdopt_completes (h : (readable n k hn hk).Table m) (x : ConsState) :
    (m.mustAdopt x).Completes := by
  unfold mustAdopt
  split
  · exact ⟨_, rfl⟩
  · apply Py.Completes.bind
    · apply checkNewXPrefix_completes
      exact (readable n k hn hk).id_val m.id
    · intro isPrefix _
      split
      · exact ⟨_, rfl⟩
      · apply (lastCommonExec_completes h).bind
        exact fun common _ => ⟨_, rfl⟩

theorem consolidate_completes (h : (readable n k hn hk).Table m) : m.consolidate.Completes := by
  have hfew := h.settings
  change 3 * m.numberOfByzantine < n at hfew
  -- two or three quorums of states are tried, none of them empty
  have hcons : m.consolidated.Completes := by
    apply (comPrefStates_completes h (by omega)).bind
    intro p hp
    apply (findConsState_completes h hp).bind
    intro x _
    apply (getDsState_completes h).bind
    exact fun y _ => ⟨_, rfl⟩
  unfold consolidate
  apply hcons.bind
  intro x _
  have hown : (readable n k hn hk).Own { m.own with conFlag := x.repState.isNone } :=
    { h.own with }
  have hflag := h.setOwn hown
  apply (mustAdopt_completes hflag x).bind
  intro adopt _
  split
  · exact ⟨_, rfl⟩
  · exact ⟨_, rfl⟩

theorem staleRep_completes (h : (readable n k hn hk).Table m) : m.staleRep.Completes := by
  unfold staleRep
  apply Py.Completes.bind
  · apply foldlM_completes_of_forall
    intro less e he
    have hset := (h.own.rLog e he).1
    split
    · rename_i hnone
      rw [hnone] at hset
      cases hset
    · exact ⟨_, rfl⟩
  · exact fun less _ => ⟨_, rfl⟩

theorem flushStep_completes (h : (readable n k hn hk).Table m) : m.flushStep.Completes := by
  unfold flushStep
  apply (staleRep_completes h).bind
  exact fun stale _ => ⟨_, rfl⟩

/-! ## The view change -/

theorem viewChangedProcessors_completes (h : (readable n k hn hk).Table m)
    (resolver : Resolver n) : (m.viewChangedProcessors resolver).Completes := by
  apply foldlM_completes_of_forall
  intro ids j _
  -- the view is asked for under the stored id
  have hview : (resolver.getCurrentView (m.rep j).id).Completes :=
    (pyIndex_completes.mpr (isIndex_id h j)).map resolver.currentView
  apply hview.bind
  exact fun view _ => ⟨_, rfl⟩

theorem renewReqs_completes {order : SetOrder Int} {ids : List Int}
    (hids : ∀ id ∈ ids, IsIndex n id) : (m.renewReqs order ids).Completes := by
  have hpend : (m.commonPendReqs order ids).Completes := by
    apply Py.Completes.bind
    · exact mapM_completes fun id hid => repAt_completes.mpr (hids id (order.mem_iter.mp hid))
    · exact fun structures _ => ⟨_, rfl⟩
  unfold renewReqs
  apply hpend.bind
  intro pend _
  apply Py.Completes.bind
  · apply foldlM_completes_of_forall
    intro need id hid
    apply Py.Completes.bind
    · exact repAt_completes.mpr (hids id (order.mem_iter.mp hid))
    · exact fun rj _ => ⟨_, rfl⟩
  · exact fun need _ => ⟨_, rfl⟩

theorem actAsPrim_completes (h : (readable n k hn hk).Table m) (resolver : Resolver n)
    (order : SetOrder Int) : (m.actAsPrimWhenViewChanged resolver order).Completes := by
  have hfew := h.settings
  change 3 * m.numberOfByzantine < n at hfew
  unfold actAsPrimWhenViewChanged
  apply (viewChangedProcessors_completes h resolver).bind
  intro ids hids
  have hindices : ∀ id ∈ ids, IsIndex n id :=
    fun id hid => pyIndex_completes.mp (pyIndex_completes_viewChanged hids id hid)
  split
  · have hown : (readable n k hn hk).Own { m.own with seqNum := m.newSeq } := { h.own with }
    -- the table is still readable after gaps are filled and requests renewed
    have hfill := (h.setOwn hown).fillGaps (m.newSeq - m.lastExec).toNat m.lastExec
    apply (renewReqs_completes hindices).bind
    intro renewed hrenew
    have hrenewed := hfill.renewReqs hrenew
    have hfew' := hrenewed.settings
    change 3 * renewed.numberOfByzantine < n at hfew'
    apply (comPrefStates_completes hrenewed (by omega)).bind
    intro p hp
    apply (findConsState_completes hrenewed hp).bind
    exact fun x _ => ⟨_, rfl⟩
  · exact ⟨_, rfl⟩

theorem checkNewVState_completes (h : (readable n k hn hk).Table m) {prim : Int}
    (hprim : IsIndex n prim) : (m.checkNewVState prim).Completes := by
  unfold checkNewVState
  apply (repAt_completes.mpr hprim).bind
  intro rp hrp
  obtain ⟨p, rfl⟩ := exists_of_repAt hrp
  apply Py.Completes.bind
  · apply allM_completes
    intro q hq
    have hclient : IsClient k q.request.clientRequest := (h.rep p).reqQ q hq
    unfold checkNewReq
    dsimp only
    split
    -- only a request of the new view is checked against the others
    · rw [ClientRequest.callIsDummy_of_askable hclient.askable]
      dsimp only [bind, Except.bind]
      split
      · exact ⟨_, rfl⟩
      · split
        · exact acceptReqPreprep_completes hprim _
        · exact ⟨_, rfl⟩
    · exact ⟨_, rfl⟩
  · intro reqsOk _
    dsimp only
    split
    · exact ⟨_, rfl⟩
    · split
      · simp only [checkNewStateAndRLog, hrp,
          executeRLog_of_operational (operational_rLog h p), bind, Except.bind]
        split
        · exact ⟨_, rfl⟩
        · exact ⟨_, rfl⟩
      · exact ⟨_, rfl⟩

theorem actOnViewChange_completes (h : (readable n k hn hk).Table m) (resolver : Resolver n)
    (order : SetOrder Int) : (m.actOnViewChange resolver order).Completes := by
  -- the primary was noticed as the current view, which is an index
  have hprim : IsIndex n m.own.prim := h.prim
  unfold actOnViewChange
  dsimp only
  split
  · exact actAsPrim_completes h resolver order
  · split
    · apply (repAt_completes.mpr hprim).bind
      intro rp hrp
      split
      · unfold actAsNonprimWhenViewChanged
        dsimp only
        split
        · apply (checkNewVState_completes h hprim).bind
          intro accepted _
          split
          · simp only [hrp, bind, Except.bind]
            exact ⟨_, rfl⟩
          · exact ⟨_, rfl⟩
        · exact ⟨_, rfl⟩
      · exact ⟨_, rfl⟩
    · exact ⟨_, rfl⟩

/-- View change, consolidation and flush complete. -/
theorem reconcile_completes (h : (readable n k hn hk).Table m) {resolver : Resolver n}
    (hview : IsIndex n (resolver.currentView m.id)) (order : SetOrder Int) :
    (m.reconcile resolver order).Completes := by
  rw [reconcile_eq]
  split
  · have hnotice : (readable n k hn hk).Table (m.noticeView resolver) := h.noticeView hview
    -- view change and consolidation, before the flush
    have hfirst : (m.unflushed resolver order).Completes := by
      unfold unflushed
      split
      · apply (actOnViewChange_completes hnotice resolver order).bind
        exact fun m₁ hm₁ => consolidate_completes (hnotice.actOnViewChange hm₁)
      · exact consolidate_completes h
    apply hfirst.bind
    intro m₂ hm₂
    have hm₂' : (readable n k hn hk).Table m₂ := by
      unfold unflushed at hm₂
      split at hm₂
      · obtain ⟨m₁, hm₁, hm₂⟩ := Py.of_bind hm₂
        exact (hnotice.actOnViewChange hm₁).consolidate hm₂
      · exact h.consolidate hm₂
    exact flushStep_completes hm₂'
  · exact ⟨m, rfl⟩

/-! ## Requests -/

theorem prepareReqs_completes (h : (readable n k hn hk).Table m) {primId : Int}
    (hprim : IsIndex n primId) : (m.prepareReqs primId).Completes := by
  unfold prepareReqs
  split
  · apply Py.Completes.bind
    · apply filterPy_completes
      intro c _
      apply (existsPreprepMsg_completes h.prim c).bind
      exact fun found _ => ⟨_, rfl⟩
    · exact fun reqs _ => ⟨_, rfl⟩
  · apply Py.Completes.bind
    -- every accepted request leaves the table readable for the next one
    · apply foldlM_completes (P := (readable n k hn hk).Table) h
      intro m₁ hm₁ c _
      have hstep : (prePrepReq primId m₁ c).Completes := by
        unfold prePrepReq
        apply (acceptReqPreprep_completes hprim c).bind
        intro accepted _
        split
        · apply (repAt_completes.mpr hprim).bind
          intro rp _
          split
          · exact ⟨_, rfl⟩
          · exact ⟨_, rfl⟩
        · exact ⟨_, rfl⟩
      obtain ⟨m₂, hm₂⟩ := hstep
      exact ⟨m₂, hm₂, hm₁.prePrepReq hm₂⟩
    · exact fun m₁ _ => ⟨_, rfl⟩

theorem commit_completes (h : (readable n k hn hk).Table m) {r : Request} {xSet : Finset Int}
    (hr : IsClient k r.clientRequest) : ∃ m', m.commit r xSet = (m', none) := by
  have hplaces : HasPlaces k m.own.lastReq := h.own.lastReq
  obtain ⟨rs, hrs⟩ := @HasPlaces.completes k { m.own with
    repState := r.clientRequest.operation.execute m.own.repState } hplaces _ hr.1 r
    (r.clientRequest.operation.execute m.own.repState)
  simp only [commit, Operation.callExecute, if_pos hr.2, own_setOwn, hrs]
  exact ⟨_, rfl⟩

/-- The loop that executes requests ends without an exception. -/
theorem executeReqs_completes {reqs : List Request}
    (hreqs : ∀ r ∈ reqs, IsClient k r.clientRequest) :
    ∀ {m : ReplicationModule n}, (readable n k hn hk).Table m → ∀ committed,
      (executeReqs reqs m committed).2.2 = none := by
  induction reqs with
  | nil => exact fun _ _ => rfl
  | cons r reqs ih =>
    intro m h committed
    have hr := hreqs r List.mem_cons_self
    have hrest : ∀ r ∈ reqs, IsClient k r.clientRequest :=
      fun r hr => hreqs r (List.mem_cons_of_mem _ hr)
    -- ids do not change while requests are executed
    have hset : (m.committedSet r).Completes := committedSet_completes.mpr (isIndex_id h)
    unfold executeReqs
    split
    · rename_i e he
      obtain ⟨xSet, hxSet⟩ := hset
      rw [hxSet] at he
      cases he
    · rename_i xSet _
      split
      · rename_i hnext
        obtain ⟨m₁, hm₁⟩ := (commit_completes h hr : ∃ m₁, m.commit r xSet = (m₁, none))
        rw [hm₁]
        exact ih hrest (h.commit hr hnext.2 hm₁) _
      · exact ih hrest h _

/-! ## Iterations -/

/-- An iteration completes on a table that nothing raises on. -/
theorem run_completes_of_table (h : (readable n k hn hk).Table m) {resolver : Resolver n}
    (hview : ∀ j, IsIndex n (resolver.currentView j)) (order : SetOrder Int) :
    ∃ it, m.run resolver order = .ok it ∧ it.raised = none := by
  obtain ⟨m₁, hrec⟩ := reconcile_completes h (hview m.id) order
  have hm₁ := h.reconcile (fun _ => hview m.id) (fun _ => trivial) hrec
  have hlearn := hm₁.learnPendReqs
  -- without self-stabilization processor 0 is the primary
  have hprim : IsIndex n (m₁.learnPendReqs.primId resolver) := by
    unfold primId
    split
    · exact hview _
    · exact (readable n k hn hk).id_val ⟨0, hn⟩
  obtain ⟨st, hprep⟩ := prepareReqs_completes hlearn hprim
  simp only [run, hrec, bind, Except.bind]
  split
  · simp only [processReqs, hprep, bind, Except.bind, pure, Except.pure]
    -- what is supported is listed somewhere, by clients that have a place
    have hcommit := (hlearn.prepareReqs hprep).commitReqs
    refine ⟨_, rfl, ?_⟩
    apply executeReqs_completes _ hcommit
    intro r hr
    exact hcommit.client_of_supported hr
  · exact ⟨_, rfl, rfl⟩

end ReplicationModule

/-! ## Runs -/

/-- The View Establishment module answers processors, or TEE. -/
def AnswersViews {n : Nat} (resolver : Resolver n) : Prop :=
  ∀ j, -1 ≤ resolver.currentView j ∧ resolver.currentView j < n

instance {n : Nat} : DecidablePred (AnswersViews (n := n)) :=
  fun _ => inferInstanceAs (Decidable (∀ _, _ ∧ _))

/-- Stored ids are indices, log entries have a set of processors, client requests carry
    an operation of a client that has a place among the last requests, and the table of
    those has enough places. -/
structure Readable (n k : Nat) (rs : ReplicaStructure) : Prop where
  id : IsIndex n rs.id
  rLog : ∀ e ∈ rs.rLog, e.xSet.isSome = true ∧ IsClient k e.request.clientRequest
  pendReqs : ∀ c ∈ rs.pendReqs, IsClient k c
  reqQ : ∀ q ∈ rs.reqQ, IsClient k q.request.clientRequest
  lastReq : HasPlaces k rs.lastReq

/-- A structure that is stored as a whole is readable, and injected requests carry
    operations of clients that have a place. -/
def BringsReadable {n : Nat} (k : Nat) (s : Node n) : Node.Event n → Prop
  | .receive _ rep => s.module.stores s.resolver = true → Readable n k rep
  | .perform (.own (.inject req)) => IsClient k req
  | .perform (.own (.iterate _)) | .perform (.own (.surroundings _))
  | .perform .replicaFlush | .perform .repRequestReset => True

/-- In every state of a run that brings only readable structures, an iteration
    completes: neither the lookups and loops before the execution raise, nor does
    the execution of requests. -/
theorem run_completes {n f k : Nat} {i : Fin n} {selfStab : Bool} (hf : 3 * f < n) (hk : 0 < k)
    {s : Node n} (h : (Node.alone AnswersViews i f k selfStab).Run (BringsReadable k) s)
    (order : SetOrder Int) :
    ∃ it, s.module.run s.resolver order = .ok it ∧ it.raised = none := by
  have hn : 0 < n := by omega
  -- the containers stay readable, and so the table does in every state
  have hkeeps := Containers.Keeps.of_alone (C := readable n k hn hk)
    (fun resolver hresolver _ => ⟨by have := hresolver i; omega, (hresolver i).2⟩) hf
    (Nat.le_of_eq List.length_replicate.symm) ((readable n k hn hk).id_val ⟨0, hn⟩) trivial ?_ h
  · apply run_completes_of_table hkeeps.table
    intro j
    have hview := hkeeps.resolver j
    exact ⟨by omega, hview.2⟩
  · intro s e hbrings
    cases e with
    | perform command =>
      cases command with
      | own action =>
        cases action with
        | iterate order => exact fun _ => trivial
        | inject req => exact hbrings
        | surroundings resolver => trivial
      | replicaFlush => trivial
      | repRequestReset => trivial
    | receive j rep =>
      intro hstores
      have hrep := hbrings hstores
      exact ⟨hrep.id, hrep.rLog, hrep.pendReqs, hrep.reqQ, hrep.lastReq⟩

/-! ## A structure of processor 5 -/

/-- Processor 0 of six after it has received a structure from processor 5. -/
def told (rep : ReplicaStructure) : Node 6 :=
  let s := Node.init 0 1 1 true ⟨true, true, fun _ => 0⟩
  { s with module := s.module.receiveRepMsg s.resolver 5 rep }

/-- A structure that has executed one request, under some id. -/
def executedOne (id : Int) : ReplicaStructure :=
  { ReplicaStructure.init id 1 with
    repState := [7]
    rLog := [⟨⟨⟨0, some 1, .append 7⟩, 0, 0⟩, some {0, 1, 2, 3}⟩] }

theorem readable_executedOne : Readable 6 1 (executedOne 5) where
  id := by decide
  rLog := by decide
  pendReqs := List.forall_mem_nil _
  reqQ := List.forall_mem_nil _
  lastReq := Nat.le_refl 1

theorem run_completes_six : ∃ it,
    (told (executedOne 5)).module.run (told (executedOne 5)).resolver .insertion = .ok it ∧
      it.raised = none := by
  have hstart : (Node.alone AnswersViews (0 : Fin 6) 1 1 true).init
      (Node.init 0 1 1 true ⟨true, true, fun _ => 0⟩) := ⟨_, by decide, rfl⟩
  have hreceived : (Node.alone AnswersViews (0 : Fin 6) 1 1 true).Run (BringsReadable 1)
      (told (executedOne 5)) :=
    .step (a := .receive 5 (executedOne 5)) (.init hstart) (fun _ => readable_executedOne) rfl
  exact run_completes (by decide) (by decide) hreceived .insertion

/-- With id 99 the same structure makes the next iteration raise. -/
theorem run_raises : ∃ s : Node 6, (Node.alone AnswersViews (0 : Fin 6) 1 1 true).Reachable s ∧
    ¬ ∃ it, s.module.run s.resolver .insertion = .ok it ∧ it.raised = none := by
  have hstart : (Node.alone AnswersViews (0 : Fin 6) 1 1 true).init
      (Node.init 0 1 1 true ⟨true, true, fun _ => 0⟩) := ⟨_, by decide, rfl⟩
  refine ⟨told (executedOne 99), ?_, by decide⟩
  exact .step (a := .receive 5 (executedOne 99)) (.init hstart) trivial rfl

end BFTList
