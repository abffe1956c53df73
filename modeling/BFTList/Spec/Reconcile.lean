import BFTList.Spec.ReplicationSteps

/-!
# Where a reconciled structure comes from

The part of an iteration before requests are processed may replace the own log
by a consolidated one, take over the structure of a new primary, start over as
the new primary, or flush everything. Without a flush it writes to the own
structure only, the log it leaves is the beginning of some log in the table,
and the queue is the own one, an empty one or the primary's, unless the new
primary renumbers requests or fills gaps.

## Key results

- `getCorrespondingRLog_eq`: a search among logs that does not raise
- `comPrefStates_rLogs`, `findConsState_rLog`: consolidated logs come from the table
- `Settled`: the new primary has nothing to renumber and no gap to fill
- `reconcile_cases`: reconciling writes such an own structure, or flushes
- `prepared_cases_inView`: what requests are then prepared
-/

namespace BFTList.ReplicationModule

variable {n : Nat} {m m' : ReplicationModule n}

/-! ## Consolidated logs -/

/-- A log of the table, or the beginning of one. -/
def LogOfTable (m : ReplicationModule n) (rLog : List LogEntry) : Prop :=
  rLog = [] ∨ ∃ j, rLog <+: (m.rep j).rLog

theorem LogOfTable.mem {rLog : List LogEntry} (h : LogOfTable m rLog) {e : LogEntry}
    (he : e ∈ rLog) : ∃ j, e ∈ (m.rep j).rLog := by
  rcases h with rfl | ⟨j, hj⟩
  · exact absurd he List.not_mem_nil
  · exact ⟨j, hj.subset he⟩

theorem LogOfTable.ascending {rLog : List LogEntry} (h : LogOfTable m rLog)
    (hasc : ∀ j, Ascending (m.rep j).rLog) : Ascending rLog := by
  rcases h with rfl | ⟨j, hj⟩
  · exact List.Pairwise.nil
  · exact (hasc j).sublist hj.sublist

/-- Replacing the own structure by one with a log of the table adds no logs. -/
theorem LogOfTable.of_setOwn {rs : ReplicaStructure} (hrs : LogOfTable m rs.rLog)
    {rLog : List LogEntry} (h : LogOfTable (m.setOwn rs) rLog) : LogOfTable m rLog := by
  rcases h with rfl | ⟨j, hj⟩
  · exact Or.inl rfl
  · by_cases hown : j = m.id
    · rw [hown, show (m.setOwn rs).rep m.id = rs from own_setOwn m rs] at hj
      rcases hrs with hnil | ⟨l, hl⟩
      · rw [hnil] at hj
        exact Or.inl (List.prefix_nil.mp hj)
      · exact Or.inr ⟨l, hj.trans hl⟩
    · rw [rep_setOwn_of_ne hown] at hj
      exact Or.inr ⟨j, hj⟩

/-- The values of the dictionary are states and logs of structures. -/
theorem dictGet_replicaStates {id : Int} {v : List Value × List LogEntry}
    (h : dictGet m.replicaStates id = .ok v) :
    ∃ j, v = ((m.rep j).repState, (m.rep j).rLog) := by
  have hall : ∀ e ∈ m.replicaStates, ∃ j, e.2 = ((m.rep j).repState, (m.rep j).rLog) := by
    refine List.foldl_invariant (P := fun dct : List (Int × List Value × List LogEntry) =>
      ∀ e ∈ dct, ∃ j, e.2 = ((m.rep j).repState, (m.rep j).rLog)) _ []
      (fun e he => absurd he List.not_mem_nil) ?_
    intro dct j _ hdct e he
    cases mem_of_mem_dictSet he with
    | inl heq => exact ⟨j, congrArg Prod.snd heq⟩
    | inr hold => exact hdct e hold
  exact hall (id, v) (dictGet_eq_ok h)

theorem comPrefStates_rLogs {required : Int} {p : PrefStates}
    (h : m.comPrefStates required = .ok p) {rLog : List LogEntry} (hl : rLog ∈ p.rLogs) :
    ∃ j, rLog = (m.rep j).rLog := by
  simp only [comPrefStates] at h
  split at h
  · cases h
  obtain ⟨candidates, -, h⟩ := Py.of_bind h
  obtain ⟨processors, -, h⟩ := Py.of_bind h
  obtain ⟨structures, -, h⟩ := Py.of_bind h
  obtain ⟨found, hfound, h⟩ := Py.of_bind h
  simp only [pure, Except.pure, Except.ok.injEq] at h
  rw [← h] at hl
  obtain ⟨v, hv, rfl⟩ := List.mem_map.mp hl
  obtain ⟨id, -, hget⟩ := mem_mapM hfound hv
  obtain ⟨j, rfl⟩ := dictGet_replicaStates hget
  exact ⟨j, rfl⟩

/-- The part of a log that fits the end of a state, from the first log that has one. -/
def fittingPart (rLogs : List (List LogEntry)) (state : List Value) : List LogEntry :=
  (rLogs.findSome? (matchingPart state)).getD []

/-- Entries of a log carry operations that can be executed. -/
def Operational (rLog : List LogEntry) : Prop :=
  ∀ e ∈ rLog, e.request.clientRequest.operation.Executable

theorem matchingPart_prefix {state : List Value} {rLog part : List LogEntry}
    (h : matchingPart state rLog = some part) : part <+: rLog :=
  (List.mem_inits _ _).mp (List.mem_of_mem_tail (List.mem_of_find?_eq_some h))

/-- A search that does not raise finds the part that fits. -/
theorem getCorrespondingRLog_eq {rLogs : List (List LogEntry)} {state : List Value}
    {rLog : List LogEntry} (h : getCorrespondingRLog rLogs state = .ok rLog) :
    rLog = fittingPart rLogs state := by
  induction rLogs with
  | nil => exact (Except.ok.inj h).symm
  | cons l ls ih =>
    rw [getCorrespondingRLog, searchRLog] at h
    rw [fittingPart, List.findSome?_cons]
    split at h
    · cases hpart : matchingPart state l with
      | none =>
        rw [hpart] at h
        exact ih h
      | some part =>
        rw [hpart] at h
        exact (Except.ok.inj h).symm
    · cases h

/-- Among logs that can be executed no search raises. -/
theorem getCorrespondingRLog_of_operational {rLogs : List (List LogEntry)}
    (h : ∀ l ∈ rLogs, Operational l) (state : List Value) :
    getCorrespondingRLog rLogs state = .ok (fittingPart rLogs state) := by
  induction rLogs with
  | nil => rfl
  | cons l ls ih =>
    have hl := h l List.mem_cons_self
    have hpart : ((matchingPart state l).getD l).find?
        (fun e => ¬ e.request.clientRequest.operation.Executable) = none := by
      refine List.find?_eq_none.mpr fun e he => ?_
      have hmem : e ∈ l := by
        cases hpart : matchingPart state l with
        | none =>
          rw [hpart] at he
          exact he
        | some part =>
          rw [hpart] at he
          exact List.IsPrefix.subset ( matchingPart_prefix hpart) he
      simpa only [decide_not, Bool.not_eq_true', decide_eq_false_iff_not, not_not] using hl e hmem
    have hsearch : searchRLog state l = .ok (matchingPart state l) := by
      simp only [searchRLog, hpart]
    rw [getCorrespondingRLog, hsearch, fittingPart, List.findSome?_cons]
    cases matchingPart state l with
    | none => exact ih fun l' hl' => h l' (List.mem_cons_of_mem l hl')
    | some part => rfl

/-- The log for a prefix is the beginning of one of the logs. -/
theorem fittingPart_prefix (rLogs : List (List LogEntry)) (state : List Value) :
    fittingPart rLogs state = [] ∨ ∃ rLog ∈ rLogs, fittingPart rLogs state <+: rLog := by
  unfold fittingPart
  cases hfind : rLogs.findSome? (matchingPart state) with
  | none => exact Or.inl rfl
  | some part =>
    obtain ⟨rLog, hrLog, hpart⟩ := List.exists_of_findSome?_eq_some hfind
    exact Or.inr ⟨rLog, hrLog, matchingPart_prefix hpart⟩

/-- A consolidated pair is the common prefix with the part that fits it; without a state, a
    prefix or such a part there is none. -/
theorem findConsState_cases {p : PrefStates} {x : ConsState} (h : findConsState p = .ok x) :
    (x = .failure ∧ (p.states = [] ∨ findPrefix p.states = .ok none)) ∨
      ∃ s, p.states ≠ [] ∧ findPrefix p.states = .ok (some s) ∧
        ((x = .failure ∧ fittingPart p.rLogs s = [] ∧ s ≠ []) ∨
          (x = ⟨some s, fittingPart p.rLogs s, p.isDefaultPrefix⟩ ∧
            (fittingPart p.rLogs s = [] → s = []))) := by
  unfold findConsState at h
  split at h
  · rename_i hstates
    cases h
    exact Or.inl ⟨rfl, Or.inl hstates⟩
  · rename_i hstates
    obtain ⟨found, hfound, h⟩ := Py.of_bind h
    split at h
    · cases h
      exact Or.inl ⟨rfl, Or.inr hfound⟩
    · rename_i s
      obtain ⟨rLog, hget, h⟩ := Py.of_bind h
      rw [getCorrespondingRLog_eq hget] at h
      refine Or.inr ⟨s, hstates, hfound, ?_⟩
      split at h
      · rename_i hnone
        cases h
        exact Or.inl ⟨rfl, hnone⟩
      · rename_i hsome
        cases h
        exact Or.inr ⟨rfl, fun hnil => by_contra fun hne => hsome ⟨hnil, hne⟩⟩

theorem findConsState_rLog {p : PrefStates} {x : ConsState} (h : findConsState p = .ok x) :
    x.rLog = [] ∨ ∃ rLog ∈ p.rLogs, x.rLog <+: rLog := by
  rcases findConsState_cases h with ⟨rfl, -⟩ | ⟨s, -, -, ⟨rfl, -⟩ | ⟨rfl, -⟩⟩
  · exact Or.inl rfl
  · exact Or.inl rfl
  · exact fittingPart_prefix _ _

/-- Without a state there is no log. -/
theorem findConsState_none {p : PrefStates} {x : ConsState} (h : findConsState p = .ok x)
    (hnone : x.repState = none) : x.rLog = [] := by
  rcases findConsState_cases h with ⟨rfl, -⟩ | ⟨s, -, -, ⟨rfl, -⟩ | ⟨rfl, -⟩⟩
  · rfl
  · rfl
  · cases hnone

/-- A consolidated state comes with a log of the table. -/
theorem logOfTable_findConsState {required : Int} {p : PrefStates} {x : ConsState}
    (hp : m.comPrefStates required = .ok p) (hx : findConsState p = .ok x) :
    LogOfTable m x.rLog := by
  rcases findConsState_rLog hx with hnil | ⟨rLog, hmem, hpre⟩
  · exact Or.inl hnil
  · obtain ⟨j, rfl⟩ := comPrefStates_rLogs hp hmem
    exact Or.inr ⟨j, hpre⟩

theorem logOfTable_getDsState {x : ConsState} (h : m.getDsState = .ok x) :
    LogOfTable m x.rLog := by
  obtain ⟨p, hp, h⟩ := Py.of_bind h
  obtain ⟨y, hy, h⟩ := Py.of_bind h
  have hlog := logOfTable_findConsState hp hy
  split at h
  · cases h
    exact hlog
  · obtain ⟨count, -, h⟩ := Py.of_bind h
    split at h
    · cases h
      exact hlog
    · cases h
      exact Or.inl rfl

theorem logOfTable_consolidated {x : ConsState} (h : m.consolidated = .ok x) :
    LogOfTable m x.rLog := by
  simp only [consolidated] at h
  obtain ⟨p, hp, h⟩ := Py.of_bind h
  obtain ⟨y, hy, h⟩ := Py.of_bind h
  obtain ⟨z, hz, h⟩ := Py.of_bind h
  cases h
  split
  · exact logOfTable_getDsState hz
  · exact logOfTable_findConsState hp hy

/-! ## Adopting a consolidated state -/

/-- Consolidation flags a conflict, and may adopt the consolidated state and log. -/
theorem consolidate_cases (h : m.consolidate = .ok m') :
    ∃ x, m.consolidated = .ok x ∧
      (m' = m.setOwn { m.own with conFlag := x.repState.isNone } ∨
        m' = m.setOwn { m.own with
          conFlag := x.repState.isNone, repState := x.repState.getD [], rLog := x.rLog }) := by
  simp only [consolidate, bind, Except.bind] at h
  split at h
  · cases h
  · rename_i x hx
    refine ⟨x, hx, ?_⟩
    split at h
    · cases h
    · split at h
      · cases h
        right
        rw [own_setOwn, setOwn_setOwn]
      · cases h
        exact Or.inl rfl

/-! ## The new primary -/

/-- The own queue has no entry with nothing but `PRE_PREP`, and no gap up to the
    sequence number the new primary continues from. -/
def Settled (m : ReplicationModule n) : Prop :=
  (∀ q ∈ m.own.reqQ, q.status ≠ {.prePrep}) ∧
    ∀ i < (m.newSeq - m.lastExec).toNat, m.reqWithSeqNumInReqQ (m.lastExec + 1 + i) = true

instance (m : ReplicationModule n) : Decidable m.Settled := inferInstanceAs (Decidable (_ ∧ _))

/-- Filling gaps writes dummies with missing numbers into the own queue. -/
theorem fillGaps_invariant {P : ReplicaStructure → Prop} (bound : Int)
    (hstep : ∀ rs seqNum, seqNum ≤ bound → (∀ q ∈ rs.reqQ, q.request.seqNum ≠ seqNum) → P rs →
      P (rs.addToReqQ (m.produceDummyReq seqNum)))
    (count : Nat) : ∀ (lastSeqNum : Int) (rs : ReplicaStructure), lastSeqNum + count ≤ bound →
      P rs → ∃ rs', fillGaps count lastSeqNum (m.setOwn rs) = m.setOwn rs' ∧ P rs' := by
  induction count with
  | zero => exact fun _ rs _ hrs => ⟨rs, rfl, hrs⟩
  | succ count ih =>
    intro lastSeqNum rs hbound hrs
    rw [Nat.cast_succ] at hbound
    rw [fillGaps]
    split
    · exact ih _ rs (by omega) hrs
    · rename_i hfree
      rw [own_setOwn, setOwn_setOwn]
      refine ih _ _ (by omega) (hstep rs _ (by omega) (fun q hq heq => hfree ?_) hrs)
      rw [reqWithSeqNumInReqQ, own_setOwn]
      exact List.any_eq_true.mpr ⟨q, hq, decide_eq_true heq⟩

/-- Without gaps no dummy is written. -/
theorem fillGaps_of_full (count : Nat) (lastSeqNum : Int)
    (h : ∀ i < count, m.reqWithSeqNumInReqQ (lastSeqNum + 1 + i) = true) :
    fillGaps count lastSeqNum m = m := by
  induction count generalizing lastSeqNum with
  | zero => rfl
  | succ count ih =>
    have hfirst := h 0 (Nat.succ_pos count)
    rw [Nat.cast_zero, Int.add_zero] at hfirst
    rw [fillGaps, if_pos hfirst]
    apply ih
    intro i hi
    have hnext := h (i + 1) (Nat.succ_lt_succ hi)
    rwa [Nat.cast_succ, Int.add_comm (i : Int) 1, ← Int.add_assoc] at hnext

/-- With nothing to renumber the queue stays. -/
theorem renumber_nil (view seqNum : Int) (reqQ : List ReqPair) :
    renumber view [] seqNum reqQ = (seqNum, reqQ) := by
  induction reqQ with
  | nil => rfl
  | cons q reqQ ih =>
    rw [renumber, if_neg List.not_mem_nil, ih]

/-- Renumbering gives client requests other numbers, and keeps them in place. -/
theorem clients_renumber (view : Int) (need : List ReqPair) (l : List ReqPair) :
    ∀ seqNum, (renumber view need seqNum l).2.map (·.request.clientRequest) =
      l.map (·.request.clientRequest) := by
  induction l with
  | nil => exact fun _ => rfl
  | cons q l ih =>
    intro seqNum
    rw [renumber]
    split
    · rw [List.map_cons, List.map_cons, ih]
    · rw [List.map_cons, List.map_cons, ih]

/-- Only entries with nothing but `PRE_PREP` are renumbered. -/
theorem mem_reqsNeedPrePrep {order : SetOrder Int} {processorsSet : List Int} {need : List ReqPair}
    (h : m.reqsNeedPrePrep order processorsSet = .ok need) {q : ReqPair} (hq : q ∈ need) :
    q ∈ m.own.reqQ ∧ q.status = {.prePrep} := by
  have hall := List.foldlM_invariant
    (P := fun need : List ReqPair => ∀ q ∈ need, q ∈ m.own.reqQ ∧ q.status = {.prePrep}) h
    (fun q hq => by simpa using List.mem_filter.mp hq)
    (by
      intro need need' j _ hneed hstep
      obtain ⟨rj, -, hstep⟩ := Py.of_bind hstep
      cases hstep
      exact fun q hq => hneed q (List.mem_filter.mp hq).1)
  exact hall q hq

/-- Client requests pending at several processors are distinct. -/
theorem nodup_commonPendReqs {order : SetOrder Int} {processorsSet : List Int}
    {pend : List ClientRequest} (h : m.commonPendReqs order processorsSet = .ok pend) :
    pend.Nodup := by
  obtain ⟨structures, -, h⟩ := Py.of_bind h
  cases h
  have hkeys := Counter.nodup_keys_counts (structures.flatMap (·.pendReqs))
  have hsub : ((Counter.counts (structures.flatMap (·.pendReqs))).filterMap fun p =>
      if p.2 = processorsSet.length then some p.1 else none).Sublist
      ((Counter.counts (structures.flatMap (·.pendReqs))).map Prod.fst) := by
    generalize Counter.counts (structures.flatMap (·.pendReqs)) = d
    induction d with
    | nil => exact List.Sublist.refl _
    | cons e d ih =>
      rw [List.filterMap_cons, List.map_cons]
      split
      · exact ih.cons _
      · rename_i c hc
        split at hc
        · cases hc
          exact ih.cons_cons _
        · cases hc
  exact hkeys.sublist hsub

/-- The new primary adopts a log of the table, and with nothing to renumber and
    no gap to fill it keeps its queue or empties it. -/
theorem actAsPrim_cases {resolver : Resolver n} {order : SetOrder Int}
    (h : m.actAsPrimWhenViewChanged resolver order = .ok m') :
    m' = m ∨ ∃ rs, m' = m.setOwn rs ∧ LogOfTable m rs.rLog ∧
      rs.numberOfClients = m.own.numberOfClients ∧ rs.pendReqs.Nodup ∧
      (m.Settled → rs.reqQ = m.own.reqQ ∨ rs.reqQ = []) := by
  simp only [actAsPrimWhenViewChanged] at h
  obtain ⟨_, -, h⟩ := Py.of_bind h
  split at h
  · -- enough processors report the view change
    have hgaps := fillGaps_invariant (m := m)
      (P := fun rs => rs.rLog = m.own.rLog ∧ rs.numberOfClients = m.own.numberOfClients)
      (m.lastExec + (m.newSeq - m.lastExec).toNat) (fun rs seqNum _ _ hrs => hrs)
      (m.newSeq - m.lastExec).toNat m.lastExec { m.own with seqNum := m.newSeq }
      (Int.le_refl _) ⟨rfl, rfl⟩
    obtain ⟨rs, hfill, hrLog, hclients⟩ := hgaps
    have hfull : m.Settled → rs.reqQ = m.own.reqQ := by
      intro hset
      have hsame := fillGaps_of_full (m := m.setOwn { m.own with seqNum := m.newSeq })
        (m.newSeq - m.lastExec).toNat m.lastExec (by
          intro i hi
          rw [reqWithSeqNumInReqQ, own_setOwn]
          exact hset.2 i hi)
      rw [hsame] at hfill
      have hown := congrArg own hfill
      rw [own_setOwn, own_setOwn] at hown
      rw [← hown]
    rw [hfill] at h
    obtain ⟨m₁, hrenew, h⟩ := Py.of_bind h
    simp only [renewReqs, own_setOwn, setOwn_setOwn] at hrenew
    obtain ⟨pend, hpend, hrenew⟩ := Py.of_bind hrenew
    obtain ⟨need, hneed, hrenew⟩ := Py.of_bind hrenew
    simp only [pure, Except.pure, Except.ok.injEq] at hrenew
    subst hrenew
    obtain ⟨p, hp, h⟩ := Py.of_bind h
    obtain ⟨x, hx, h⟩ := Py.of_bind h
    simp only [pure, Except.pure, Except.ok.injEq] at h
    -- the logs of the table are the old ones, since the own log is still the old one
    have hlog : LogOfTable m x.rLog := LogOfTable.of_setOwn
      (Or.inr ⟨m.id, hrLog ▸ List.prefix_rfl⟩) (logOfTable_findConsState hp hx)
    have hpendNodup := nodup_commonPendReqs hpend
    right
    subst h
    unfold adoptConsState
    split
    · simp only [own_setOwn, setOwn_setOwn]
      exact ⟨_, rfl, Or.inl rfl, hclients, List.nodup_nil, fun _ => Or.inr rfl⟩
    · simp only [own_setOwn, setOwn_setOwn]
      refine ⟨_, rfl, hlog, hclients, hpendNodup, fun hset => Or.inl ?_⟩
      -- an entry to renumber would have nothing but `PRE_PREP`
      have hnone : need = [] := by
        apply List.eq_nil_iff_forall_not_mem.mpr
        intro q hq
        obtain ⟨hmem, hstatus⟩ := mem_reqsNeedPrePrep hneed hq
        rw [own_setOwn] at hmem
        exact hset.1 q (hfull hset ▸ hmem) hstatus
      rw [hnone]
      simp only [renumber_nil]
      exact hfull hset
  · cases h
    exact Or.inl rfl

/-! ## The backups -/

/-- What a backup makes of the primary's structure. -/
def takenOver (own rp : ReplicaStructure) : ReplicaStructure :=
  { own.setReplicaStructure rp with viewChanged := false }

/-- A backup keeps its structure, or takes over the one it has checked. -/
theorem actAsNonprim_cases {resolver : Resolver n} {p : Fin n}
    (h : m.actAsNonprimWhenViewChanged resolver p.val = .ok m') :
    m' = m ∨ (m.checkNewVState p.val = .ok true ∧
      m' = m.setOwn (takenOver m.own (m.rep p))) := by
  simp only [actAsNonprimWhenViewChanged, bind, Except.bind, repAt_val] at h
  split at h
  · split at h
    · cases h
    · rename_i hcheck
      split at h
      · rename_i htrue
        cases h
        exact Or.inr ⟨by rw [hcheck, htrue], rfl⟩
      · cases h
        exact Or.inl rfl
  · cases h
    exact Or.inl rfl

/-- A view change is acted on as the new primary or as a backup. -/
theorem actOnViewChange_cases {resolver : Resolver n} {order : SetOrder Int} {p : Fin n}
    (hprim : m.own.prim = p.val) (h : m.actOnViewChange resolver order = .ok m') :
    m' = m ∨
      (p = m.id ∧ m.own.viewChanged = true ∧
        m.actAsPrimWhenViewChanged resolver order = .ok m') ∨
      (p ≠ m.id ∧ m.own.viewChanged = true ∧ m.checkNewVState p.val = .ok true ∧
        m' = m.setOwn (takenOver m.own (m.rep p))) := by
  simp only [actOnViewChange, hprim, repAt_val, bind, Except.bind] at h
  split at h
  · rename_i hnew
    exact Or.inr (Or.inl ⟨Fin.ext (by have := hnew.2; omega), hnew.1, h⟩)
  · rename_i hnot
    split at h
    · rename_i hchanged
      split at h
      · cases actAsNonprim_cases h with
        | inl hsame => exact Or.inl hsame
        | inr htake =>
          refine Or.inr (Or.inr ⟨?_, hchanged, htake⟩)
          intro heq
          exact hnot ⟨hchanged, by rw [heq]⟩
      · cases h
        exact Or.inl rfl
    · cases h
      exact Or.inl rfl

/-! ## The flush -/

/-- The own structure is stale, most processors flag a conflict, or the flag asks
    for a flush. -/
def flushes (m : ReplicationModule n) : Prop :=
  m.staleRep = .ok true ∨ m.conflict = true ∨ m.flush = true

instance (m : ReplicationModule n) : Decidable m.flushes := inferInstanceAs (Decidable (_ ∨ _))

/-- View change and consolidation, the parts before the flush. -/
def unflushed (resolver : Resolver n) (order : SetOrder Int) (m : ReplicationModule n) :
    Py (ReplicationModule n) := do
  let m ←
    if resolver.allowService then (m.noticeView resolver).actOnViewChange resolver order
    else pure m
  m.consolidate

theorem reconcile_eq (m : ReplicationModule n) (resolver : Resolver n) (order : SetOrder Int) :
    m.reconcile resolver order =
      if m.selfStab = true then m.unflushed resolver order >>= flushStep else .ok m := by
  rw [reconcile, unflushed]
  cases m.selfStab with
  | false => rfl
  | true =>
    cases resolver.allowService with
    | false => rfl
    | true => exact (LawfulMonad.bind_assoc (m := Except PyError) _ _ _).symm

/-- The iteration flushes. -/
def Flushes (resolver : Resolver n) (order : SetOrder Int) (m : ReplicationModule n) : Prop :=
  m.selfStab = true ∧ ∃ m₁, m.unflushed resolver order = .ok m₁ ∧ m₁.flushes

instance (resolver : Resolver n) (order : SetOrder Int) (m : ReplicationModule n) :
    Decidable (m.Flushes resolver order) := inferInstanceAs (Decidable (_ ∧ _))

/-- Everything is reset, and no request is processed from now on. -/
structure Flushed (m m' : ReplicationModule n) : Prop where
  needFlush : m'.needFlush = true
  flush : m'.flush = false
  id : m'.id = m.id
  numberOfByzantine : m'.numberOfByzantine = m.numberOfByzantine
  selfStab : m'.selfStab = m.selfStab
  pendReqs : ∀ j, (m'.rep j).pendReqs = []
  reqQ : ∀ j, (m'.rep j).reqQ = []
  rLog : ∀ j, (m'.rep j).rLog = []

/-- The table stays, or all of it is reset and the flag is taken back. -/
theorem flushStep_spec (h : m.flushStep = .ok m') :
    (¬ m.flushes ∧ m' = m) ∨ (m.flushes ∧ ∃ needFlush,
      (m.flush = false → needFlush = true) ∧
        m' = { m.flushLocal with flush := false, needFlush := needFlush }) := by
  simp only [flushStep] at h
  obtain ⟨stale, hstale, h⟩ := Py.of_bind h
  simp only [pure, Except.pure, Except.ok.injEq] at h
  -- the own structure is among those that have been reset
  have htee : m.flushLocal.setOwn m.flushLocal.own.setToTee = m.flushLocal :=
    setOwn_own m.flushLocal
  rw [htee] at h
  by_cases hfirst : (stale || m.conflict) = true
  · have hflushes : m.flushes := by
      cases Bool.or_eq_true_iff.mp hfirst with
      | inl htrue => exact Or.inl (htrue ▸ hstale)
      | inr hconflict => exact Or.inr (Or.inl hconflict)
    rw [if_pos hfirst] at h
    refine Or.inr ⟨hflushes, true, fun _ => rfl, ?_⟩
    rw [← h]
    split
    · rfl
    · rename_i hflag
      have hflag' : m.flush = false := Bool.eq_false_iff.mpr hflag
      rw [flushLocal, hflag']
  · rw [if_neg hfirst] at h
    split at h
    · rename_i hflag
      refine Or.inr ⟨Or.inr (Or.inr hflag), m.needFlush, fun hnot => ?_, h.symm⟩
      rw [hnot] at hflag
      cases hflag
    · rename_i hflag
      refine Or.inl ⟨?_, h.symm⟩
      rintro (hstale' | hconflict | hflag')
      · cases hstale.symm.trans hstale'
        exact hfirst rfl
      · exact hfirst (by rw [hconflict, Bool.or_true])
      · exact hflag hflag'

theorem flushStep_cases (hflush : m.flush = false) (h : m.flushStep = .ok m') :
    m' = m ∨ Flushed m m' := by
  rcases flushStep_spec h with ⟨-, heq⟩ | ⟨-, needFlush, hneed, rfl⟩
  · exact Or.inl heq
  · exact Or.inr ⟨hneed hflush, rfl, rfl, rfl, rfl, fun _ => rfl, fun _ => rfl, fun _ => rfl⟩

/-! ## All of it -/

/-- An own structure that reconciling may leave, in a stable view of `p`. -/
structure Reconciled (p : Fin n) (m : ReplicationModule n) (rs : ReplicaStructure) : Prop where
  rLog : LogOfTable m rs.rLog
  clients : rs.numberOfClients = m.own.numberOfClients
  pendReqs : p = m.id → m.own.pendReqs.Nodup → rs.pendReqs.Nodup
  reqQ : (p = m.id → m.own.viewChanged = true ∨ m.own.prim ≠ p.val → m.Settled) →
    ∀ q ∈ rs.reqQ, q ∈ m.own.reqQ ∨ (p ≠ m.id ∧ q ∈ (m.rep p).reqQ)

theorem settled_setOwn {rs : ReplicaStructure} (hq : rs.reqQ = m.own.reqQ)
    (hl : rs.rLog = m.own.rLog) : (m.setOwn rs).Settled ↔ m.Settled := by
  simp only [Settled, newSeq, lastExec_eq, reqWithSeqNumInReqQ, own_setOwn, hq, hl]
  exact Iff.rfl

/-- Reconciling in a stable view writes to the own structure, or flushes. -/
theorem reconcile_cases {resolver : Resolver n} {order : SetOrder Int} {p : Fin n}
    (hservice : resolver.allowService = true) (hview : ∀ j, resolver.currentView j = p.val)
    (hstab : m.selfStab = true) (hflush : m.flush = false)
    (h : m.reconcile resolver order = .ok m') :
    (∃ rs, m' = m.setOwn rs ∧ Reconciled p m rs) ∨ Flushed m m' := by
  simp only [reconcile, hstab, hservice, Bool.not_true, Bool.false_eq_true, if_false, if_true,
    bind, Except.bind] at h
  split at h
  · cases h
  rename_i m₁ hact
  split at h
  · cases h
  rename_i m₂ hcons
  -- the view change
  obtain ⟨vc, hnotice, hvc⟩ : ∃ vc, m.noticeView resolver =
      m.setOwn { m.own with viewChanged := vc, prim := p.val } ∧
      (vc = true → m.own.viewChanged = true ∨ m.own.prim ≠ p.val) := by
    refine ⟨_, by rw [noticeView, hview], fun h => ?_⟩
    split at h
    · rename_i hold
      exact Or.inl hold
    · rw [Bool.and_eq_true, decide_eq_true_eq] at h
      exact Or.inr (Ne.symm h.2)
  rw [hnotice] at hact
  have hfirst : ∃ rs, m₁ = m.setOwn rs ∧ Reconciled p m rs := by
    have hkept : Reconciled p m { m.own with viewChanged := vc, prim := p.val } :=
      ⟨Or.inr ⟨m.id, List.prefix_rfl⟩, rfl, fun _ hn => hn, fun _ q hq => Or.inl hq⟩
    rcases actOnViewChange_cases (by rw [own_setOwn]) hact with
      rfl | ⟨hp, hchanged, hprim⟩ | ⟨hp, -, -, rfl⟩
    · exact ⟨_, rfl, hkept⟩
    · rw [own_setOwn] at hchanged
      rcases actAsPrim_cases hprim with rfl | ⟨rs, rfl, hlog, hclients, hpend, hqueue⟩
      · exact ⟨_, rfl, hkept⟩
      · rw [own_setOwn] at hclients hqueue
        refine ⟨rs, setOwn_setOwn .., LogOfTable.of_setOwn hkept.rLog hlog, hclients,
          fun _ _ => hpend, fun hset q hq => Or.inl ?_⟩
        have hsettled : (m.setOwn { m.own with viewChanged := vc, prim := p.val }).Settled := by
          apply (settled_setOwn _ _).mpr (hset hp (hvc hchanged))
          · rfl
          · rfl
        cases hqueue hsettled with
        | inl hsame => exact hsame ▸ hq
        | inr hnil =>
          rw [hnil] at hq
          exact absurd hq List.not_mem_nil
    · rw [setOwn_id] at hp
      rw [own_setOwn, setOwn_setOwn, rep_setOwn_of_ne hp]
      exact ⟨_, rfl, Or.inr ⟨p, List.prefix_rfl⟩, rfl, fun heq => absurd heq hp,
        fun _ q hq => Or.inr ⟨hp, hq⟩⟩
  obtain ⟨rs₁, rfl, hrs₁⟩ := hfirst
  -- the consolidation
  have hsecond : ∃ rs, m₂ = m.setOwn rs ∧ Reconciled p m rs := by
    obtain ⟨x, hx, hcase⟩ := consolidate_cases hcons
    simp only [own_setOwn, setOwn_setOwn] at hcase
    cases hcase with
    | inl heq => exact ⟨_, heq, hrs₁.rLog, hrs₁.clients, hrs₁.pendReqs, hrs₁.reqQ⟩
    | inr heq =>
      exact ⟨_, heq, LogOfTable.of_setOwn hrs₁.rLog (logOfTable_consolidated hx), hrs₁.clients,
        hrs₁.pendReqs, hrs₁.reqQ⟩
  obtain ⟨rs₂, rfl, hrs₂⟩ := hsecond
  -- the flush
  cases flushStep_cases (m := m.setOwn rs₂) hflush h with
  | inl heq => exact Or.inl ⟨rs₂, heq, hrs₂⟩
  | inr hflushed =>
    exact Or.inr ⟨hflushed.needFlush, hflushed.flush, hflushed.id, hflushed.numberOfByzantine,
      hflushed.selfStab, hflushed.pendReqs, hflushed.reqQ, hflushed.rLog⟩

/-- In a stable view of `p`, requests are prepared for `p` once the own structure
    is reconciled. The primary numbers unassigned requests in their order. -/
theorem prepared_cases_inView {resolver : Resolver n} {order : SetOrder Int} {p : Fin n}
    {created : List Request} {processing : Bool}
    (hservice : resolver.allowService = true) (hview : ∀ j, resolver.currentView j = p.val)
    (hstab : m.selfStab = true) (hflush : m.flush = false)
    (h : m.prepared resolver order = .ok (m', created, processing)) :
    ∃ m₀ rs, m.reconcile resolver order = .ok m₀ ∧ m' = m₀.setOwn rs ∧
      Prepared p m₀.learnPendReqs created rs ∧
      (rs = m₀.learnPendReqs.own ∨ m₀.learnPendReqs.mayProcess resolver = true) ∧
      (created = [] ∨ (p = m₀.id ∧ m₀.learnPendReqs.mayProcess resolver = true ∧
        Numbering m₀.learnPendReqs created)) := by
  obtain ⟨m₀, hrec, hrest⟩ := prepared_cases h
  have hstab₀ : m₀.selfStab = true := by
    rcases reconcile_cases hservice hview hstab hflush hrec with ⟨rs, rfl, -⟩ | hflushed
    · exact hstab
    · exact hflushed.selfStab.trans hstab
  rcases hrest with ⟨-, rfl, rfl⟩ | ⟨-, hmay, hprep⟩
  · refine ⟨m₀, m₀.learnPendReqs.own, hrec, ?_, Prepared.refl p _ [], Or.inl rfl, Or.inl rfl⟩
    rw [learnPendReqs, own_setOwn]
  · have hprim : m₀.learnPendReqs.primId resolver = p.val := by
      simp only [primId, learnPendReqs, setOwn_selfStab, hstab₀, if_true, hview]
    rw [hprim] at hprep
    obtain ⟨rs, rfl, hrs⟩ := prepareReqs_spec hprep
    refine ⟨m₀, rs, hrec, by rw [learnPendReqs, setOwn_setOwn], hrs, Or.inr hmay, ?_⟩
    rcases prepareReqs_cases hprep with ⟨hid, hassign⟩ | ⟨-, hnil, -⟩
    · have hp : (p.val : Int) = m₀.id.val := hid
      rw [hid] at hassign
      exact Or.inr ⟨Fin.ext (by omega), hmay, assignSeqNums_spec hassign⟩
    · exact Or.inl hnil

end BFTList.ReplicationModule
