import BFTList.Spec.CommonState
import BFTList.Spec.Reconcile

/-!
# A new primary's proposal and the backups' check

What `act_as_prim_when_view_changed` leaves in the own structure, against what
`check_new_v_state` asks of it. Requests the new primary renumbers are listed
with nothing but `PRE_PREP` by all processors that report the view change, and
pending requests it keeps are pending at all of them, so the check finds enough
support for both. It need not accept a log that was cut, and requests left over
from an earlier term.

## Key results

- `proposal_of_actAsPrim`: what the new primary proposes
- `checkNewVState_iff`: what the check asks
- `proposal_accepted_iff`: the proposal is accepted iff logs reach back and
  left-over requests are backed
- `proposal_rejected`: after 16 executed requests it is rejected
-/

namespace BFTList.ReplicationModule

variable {n : Nat} {m m' : ReplicationModule n}

/-! ## Processors that report the view change -/

/-- Processors that report a view change to the own view. -/
def reporters (m : ReplicationModule n) (resolver : Resolver n) : Finset (Fin n) :=
  Finset.univ.filter fun j =>
    (m.rep j).viewChanged = true ∧ resolver.currentView j = m.id.val

theorem viewChangedProcessors_eq (resolver : Resolver n) (hids : ∀ j, (m.rep j).id = j.val) :
    ∃ chosen : List (Fin n), chosen.Nodup ∧ chosen.toFinset = m.reporters resolver ∧
      m.viewChangedProcessors resolver = .ok (chosen.map fun j => (j.val : Int)) := by
  refine ⟨(List.finRange n).filter fun j =>
    (m.rep j).viewChanged = true ∧ resolver.currentView j = m.id.val,
    (List.nodup_finRange n).filter _, ?_, ?_⟩
  · rw [List.toFinset_filter, List.toFinset_finRange, reporters]
    simp only [decide_eq_true_eq]
  · have hloop := foldlM_eq_foldl (l := List.finRange n)
      (fun ids j => if (m.rep j).viewChanged = true ∧ resolver.currentView j = m.id.val
        then setAdd ids j else ids)
      (fun j : Fin n => j) (fun ids : List (Fin n) => ids.map fun j => (j.val : Int))
      (f := fun ids j => do
        let jPrim ← resolver.getCurrentView (m.rep j).id
        return if (m.rep j).viewChanged ∧ jPrim = m.id.val then setAdd ids (m.rep j).id
          else ids)
      (by
        intro ids j _
        rw [hids, Resolver.getCurrentView, pyIndex_val]
        simp only [bind, Except.bind, Except.map, pure, Except.pure]
        split
        · rw [setAdd_map (fun i j hij => Fin.ext (by simpa using hij))]
        · rfl)
      []
    rw [List.map_id', foldl_setAdd (List.nodup_finRange n)] at hloop
    exact hloop

/-- Reported ids have been looked up. -/
theorem pyIndex_completes_viewChanged {resolver : Resolver n} {ids : List Int}
    (h : m.viewChangedProcessors resolver = .ok ids) : ∀ id ∈ ids, (pyIndex n id).Completes := by
  refine List.foldlM_invariant (P := fun ids : List Int => ∀ id ∈ ids, (pyIndex n id).Completes) h
    (List.forall_mem_nil _) ?_
  intro ids ids' j _ hall hstep
  simp only [Resolver.getCurrentView, bind, Except.bind] at hstep
  cases hindex : pyIndex n (m.rep j).id with
  | error e =>
    rw [hindex] at hstep
    cases hstep
  | ok i =>
    simp only [hindex, Except.map, pure, Except.pure, Except.ok.injEq] at hstep
    rw [← hstep]
    split
    · intro id hid
      cases mem_setAdd.mp hid with
      | inl hold => exact hall id hold
      | inr hnew => exact ⟨i, hnew ▸ hindex⟩
    · exact hall

/-- Structures looked up in any order of the set are those in the positions its ids name. -/
theorem mapM_repAt_perm {order : SetOrder Int} {ids : List Int} {slots : List (Fin n)}
    (hslots : ids.map (pyIndex n) = slots.map .ok) {structures : List ReplicaStructure}
    (h : (order.iter ids).mapM m.repAt = .ok structures) :
    structures.Perm (slots.map m.rep) := by
  have hinj : Function.Injective (Except.ok : ReplicaStructure → Py ReplicaStructure) :=
    fun _ _ => Except.ok.inj
  apply (List.map_perm_map_iff hinj).mp
  rw [← map_eq_of_mapM h, List.map_map]
  -- a lookup is the lookup of a position
  have hrep : ids.map m.repAt = slots.map (Except.ok ∘ m.rep) := by
    have hmap := congrArg (List.map fun x : Py (Fin n) => x.map m.rep) hslots
    rwa [List.map_map, List.map_map] at hmap
  rw [← hrep]
  exact (order.perm ids).map m.repAt

/-! ## Pending requests and renumbered requests -/

/-- A client request stays pending iff the processors of the set list it as often as
    they are many. -/
theorem mem_commonPendReqs_iff {order : SetOrder Int} {ids : List Int} {slots : List (Fin n)}
    (hslots : ids.map (pyIndex n) = slots.map .ok) {pend : List ClientRequest}
    (h : m.commonPendReqs order ids = .ok pend) {c : ClientRequest} :
    c ∈ pend ↔ (∃ j ∈ slots, c ∈ (m.rep j).pendReqs) ∧
      (slots.map fun j => (m.rep j).pendReqs.count c).sum = slots.length := by
  simp only [commonPendReqs] at h
  obtain ⟨structures, hstructures, h⟩ := Py.of_bind h
  cases h
  have hperm := (mapM_repAt_perm hslots hstructures).flatMap_right (·.pendReqs)
  have hmem : c ∈ structures.flatMap (·.pendReqs) ↔ ∃ j ∈ slots, c ∈ (m.rep j).pendReqs := by
    simp only [hperm.mem_iff, List.mem_flatMap, List.mem_map, exists_exists_and_eq_and]
  have hcount : (structures.flatMap (·.pendReqs)).count c =
      (slots.map fun j => (m.rep j).pendReqs.count c).sum := by
    rw [hperm.count_eq, List.count_flatMap, List.map_map]
    rfl
  have hlength : ids.length = slots.length := by
    have hsame := congrArg List.length hslots
    rwa [List.length_map, List.length_map] at hsame
  rw [← hmem, ← hcount, ← hlength, List.mem_filterMap]
  constructor
  · rintro ⟨entry, hentry, hsome⟩
    split at hsome
    · rename_i hall
      cases hsome
      obtain ⟨hlisted, hk⟩ := Counter.mem_counts.mp (show (entry.1, entry.2) ∈ _ from hentry)
      exact ⟨hlisted, by rw [← hk, hall]⟩
    · cases hsome
  · rintro ⟨hlisted, hall⟩
    exact ⟨(c, (structures.flatMap (·.pendReqs)).count c),
      Counter.mem_counts.mpr ⟨hlisted, rfl⟩, if_pos hall⟩

theorem map_pyIndex_val (chosen : List (Fin n)) :
    (chosen.map fun j => (j.val : Int)).map (pyIndex n) = chosen.map .ok := by
  rw [List.map_map]
  exact List.map_congr_left fun j _ => pyIndex_val j

/-- The structure that an id of the set names lists the entries that need a new number. -/
theorem mem_reqQ_of_mem_reqsNeedPrePrep {order : SetOrder Int} {processorsSet : List Int}
    {need : List ReqPair} (h : m.reqsNeedPrePrep order processorsSet = .ok need) {q : ReqPair}
    (hq : q ∈ need) {id : Int} (hid : id ∈ processorsSet) {j : Fin n}
    (hindex : pyIndex n id = .ok j) : q ∈ (m.rep j).reqQ := by
  rw [← order.mem_iter] at hid
  obtain ⟨before, after, hsplit⟩ := List.append_of_mem hid
  have hrep : m.repAt id = .ok (m.rep j) := by rw [repAt, hindex, Except.map]
  simp only [reqsNeedPrePrep, hsplit, List.foldlM_append, List.foldlM_cons, hrep, bind,
    Except.bind, pure, Except.pure] at h
  split at h
  · cases h
  · -- the step of `j` keeps what `j` lists, and later steps only drop entries
    have hall := List.foldlM_invariant
      (P := fun need : List ReqPair => ∀ q ∈ need, q ∈ (m.rep j).reqQ) h
      (by
        intro q hq
        have hkept := of_decide_eq_true (List.mem_filter.mp hq).2
        exact (List.mem_filter.mp hkept).1)
      (by
        intro need need' i _ hneed hstep
        split at hstep
        · cases hstep
        · cases hstep
          exact fun q hq => hneed q (List.mem_filter.mp hq).1)
    exact hall q hq

/-- An entry needs a new number iff it has nothing but `PRE_PREP` and the structures in
    all positions that the ids name list it. -/
theorem mem_reqsNeedPrePrep_iff {order : SetOrder Int} {ids : List Int} {slots : List (Fin n)}
    (hslots : ids.map (pyIndex n) = slots.map .ok) {need : List ReqPair}
    (h : m.reqsNeedPrePrep order ids = .ok need) {q : ReqPair} :
    q ∈ need ↔ q ∈ m.own.reqQ ∧ q.status = {.prePrep} ∧ ∀ j ∈ slots, q ∈ (m.rep j).reqQ := by
  constructor
  · intro hq
    obtain ⟨hmem, hstatus⟩ := mem_reqsNeedPrePrep h hq
    refine ⟨hmem, hstatus, fun j hj => ?_⟩
    have hnamed : Except.ok j ∈ ids.map (pyIndex n) := hslots ▸ List.mem_map_of_mem hj
    obtain ⟨id, hid, hindex⟩ := List.mem_map.mp hnamed
    exact mem_reqQ_of_mem_reqsNeedPrePrep h hq hid hindex
  · rintro ⟨hmem, hstatus, hall⟩
    refine List.foldlM_invariant (P := fun need : List ReqPair => q ∈ need) h ?_ ?_
    · exact List.mem_filter.mpr ⟨hmem, decide_eq_true hstatus⟩
    · intro need need' id hid hneed hstep
      have hnamed : pyIndex n id ∈ slots.map Except.ok :=
        hslots ▸ List.mem_map_of_mem (order.mem_iter.mp hid)
      obtain ⟨j, hj, hindex⟩ := List.mem_map.mp hnamed
      have hrep : m.repAt id = .ok (m.rep j) := by rw [repAt, ← hindex, Except.map]
      simp only [hrep, bind, Except.bind, pure, Except.pure, Except.ok.injEq] at hstep
      rw [← hstep]
      refine List.mem_filter.mpr ⟨hneed, decide_eq_true ?_⟩
      exact List.mem_filter.mpr ⟨hall j hj, decide_eq_true ⟨hstatus, hneed⟩⟩

/-- Renumbered entries get ascending numbers after the one to start from; the
    other entries stay. -/
theorem renumber_spec (view : Int) (need : List ReqPair) (reqQ : List ReqPair) :
    ∀ seqNum, ∃ fresh : List ReqPair,
      fresh.Pairwise (fun q q' => q.request.seqNum < q'.request.seqNum) ∧
      (∀ q ∈ fresh, seqNum < q.request.seqNum ∧ q.request.view = view ∧
        ∃ q₀ ∈ need, q.request.clientRequest = q₀.request.clientRequest) ∧
      ∀ q, q ∈ (renumber view need seqNum reqQ).2 ↔ q ∈ fresh ∨ (q ∈ reqQ ∧ q ∉ need) := by
  induction reqQ with
  | nil => exact fun seqNum => ⟨[], List.Pairwise.nil, by simp, fun q => by simp [renumber]⟩
  | cons q reqQ ih =>
    intro seqNum
    rw [renumber]
    split
    · rename_i hneed
      obtain ⟨fresh, hpair, hfresh, hmem⟩ := ih (seqNum + 1)
      refine ⟨⟨{ q.request with view := view, seqNum := seqNum + 1 }, insert .prep q.status⟩ ::
        fresh, ?_, ?_, ?_⟩
      · exact List.pairwise_cons.mpr ⟨fun q' hq' => (hfresh q' hq').1, hpair⟩
      · intro q' hq'
        rcases List.mem_cons.mp hq' with rfl | hq'
        · exact ⟨by show seqNum < seqNum + 1; omega, rfl, q, hneed, rfl⟩
        · obtain ⟨hlt, hexists⟩ := hfresh q' hq'
          exact ⟨by omega, hexists⟩
      · intro q'
        rw [List.mem_cons, List.mem_cons, List.mem_cons, hmem q', or_assoc]
        refine or_congr_right (or_congr_right ⟨fun h => ⟨Or.inr h.1, h.2⟩, ?_⟩)
        rintro ⟨rfl | hold, hnot⟩
        · exact absurd hneed hnot
        · exact ⟨hold, hnot⟩
    · rename_i hkeep
      obtain ⟨fresh, hpair, hfresh, hmem⟩ := ih seqNum
      refine ⟨fresh, hpair, hfresh, ?_⟩
      intro q'
      rw [List.mem_cons, List.mem_cons, hmem q', or_left_comm]
      refine or_congr_right ⟨?_, ?_⟩
      · rintro (rfl | hold)
        · exact ⟨Or.inl rfl, hkeep⟩
        · exact ⟨Or.inr hold.1, hold.2⟩
      · rintro ⟨rfl | hold, hnot⟩
        · exact Or.inl rfl
        · exact Or.inr ⟨hold, hnot⟩

/-! ## The proposal -/

theorem logsReachBack_congr (hbyz : m'.numberOfByzantine = m.numberOfByzantine)
    (hstate : ∀ j, (m'.rep j).repState = (m.rep j).repState)
    (hlog : ∀ j, (m'.rep j).rLog = (m.rep j).rLog) : m'.LogsReachBack ↔ m.LogsReachBack := by
  simp only [LogsReachBack, MostCommon, IsCommon, hbyz, hstate, hlog]

/-- A dummy for a number that no client request of the queue has. -/
def FillsGap (m : ReplicationModule n) (reqQ : List ReqPair) (q : ReqPair) : Prop :=
  ∃ s ≤ m.newSeq, q = m.produceDummyReq s ∧
    ∀ r ∈ reqQ, r.request.clientRequest.isDummy = false → r.request.seqNum ≠ s

/-- The own structure of a new primary that has filled the gaps in its queue. -/
structure Filled (m : ReplicationModule n) (rs : ReplicaStructure) : Prop where
  id_eq : rs.id = m.own.id
  repState_eq : rs.repState = m.own.repState
  rLog_eq : rs.rLog = m.own.rLog
  pendReqs_eq : rs.pendReqs = m.own.pendReqs
  seqNum_eq : rs.seqNum = m.newSeq
  reqQ : ∀ q ∈ rs.reqQ, q ∈ m.own.reqQ ∨ m.FillsGap rs.reqQ q

theorem isDummy_produceDummyReq (m : ReplicationModule n) (s : Int) :
    (m.produceDummyReq s).request.clientRequest.isDummy = true := rfl

/-- All dummies are one client request. -/
theorem eq_of_isDummy {c c' : ClientRequest} (h : c.isDummy = true) (h' : c'.isDummy = true) :
    c = c' := by
  rw [ClientRequest.isDummy, decide_eq_true_iff] at h h'
  cases c
  cases c'
  simp_all

/-- A dummy takes no number of a client request. -/
theorem Filled.fill {rs : ReplicaStructure} (h : m.Filled rs) {s : Int} (hle : s ≤ m.newSeq)
    (hfree : ∀ q ∈ rs.reqQ, q.request.seqNum ≠ s) :
    m.Filled (rs.addToReqQ (m.produceDummyReq s)) := by
  refine ⟨h.id_eq, h.repState_eq, h.rLog_eq, h.pendReqs_eq, h.seqNum_eq, fun q hq => ?_⟩
  -- the client requests of the new queue were in the old one
  have hclient : ∀ r ∈ (rs.addToReqQ (m.produceDummyReq s)).reqQ,
      r.request.clientRequest.isDummy = false → r ∈ rs.reqQ := by
    intro r hr hnot
    cases ReplicaStructure.mem_reqQ_addToReqQ hr with
    | inl hold => exact hold
    | inr heq =>
      rw [heq, isDummy_produceDummyReq] at hnot
      cases hnot
  cases ReplicaStructure.mem_reqQ_addToReqQ hq with
  | inl hold =>
    refine (h.reqQ q hold).imp_right fun hfills => ?_
    obtain ⟨t, ht, heq, hapart⟩ := hfills
    exact ⟨t, ht, heq, fun r hr hnot => hapart r (hclient r hr hnot) hnot⟩
  | inr heq => exact Or.inr ⟨s, hle, heq, fun r hr hnot => hfree r (hclient r hr hnot)⟩

theorem filled_fillGaps (m : ReplicationModule n) :
    ∃ rs, fillGaps (m.newSeq - m.lastExec).toNat m.lastExec
      (m.setOwn { m.own with seqNum := m.newSeq }) = m.setOwn rs ∧ m.Filled rs := by
  have hle : m.lastExec ≤ m.newSeq := le_max_left _ _
  apply fillGaps_invariant (P := m.Filled) m.newSeq
  · intro rs seqNum hseq hfree hrs
    exact hrs.fill hseq hfree
  · omega
  · exact ⟨rfl, rfl, rfl, rfl, rfl, fun q hq => Or.inl hq⟩

/-- The structures of a table with a new own structure, field by field. -/
theorem field_setOwn {β : Type*} (g : ReplicaStructure → β) {rs : ReplicaStructure}
    (h : g rs = g m.own) (j : Fin n) : g ((m.setOwn rs).rep j) = g (m.rep j) := by
  by_cases hown : j = m.id
  · subst hown
    exact (congrArg g (own_setOwn m rs)).trans h
  · rw [rep_setOwn_of_ne hown]

/-- The new primary with dummies for the sequence numbers its queue misses. -/
def gapsFilled (m : ReplicationModule n) : ReplicationModule n :=
  fillGaps (m.newSeq - m.lastExec).toNat m.lastExec (m.setOwn { m.own with seqNum := m.newSeq })

/-- The consolidated state that the new primary takes over. -/
def takenState (m : ReplicationModule n) (resolver : Resolver n) (order : SetOrder Int) :
    Py ConsState := do
  let processorIds ← m.viewChangedProcessors resolver
  let renewed ← m.gapsFilled.renewReqs order processorIds
  findConsState (← renewed.comPrefStates (n - 2 * m.numberOfByzantine))

/-- Entries the new primary gives a new number: those with nothing but `PRE_PREP`
    that all other processors which report the view change list as well. -/
def Renewable (m : ReplicationModule n) (resolver : Resolver n) (q : ReqPair) : Prop :=
  q.status = {.prePrep} ∧ ∀ j ∈ m.reporters resolver, j ≠ m.id → q ∈ (m.rep j).reqQ

instance (m : ReplicationModule n) (resolver : Resolver n) (q : ReqPair) :
    Decidable (m.Renewable resolver q) := inferInstanceAs (Decidable (_ ∧ _))

/-- The processors that report the view change list the client request as often as they are
    many. -/
def PendingAtAll (m : ReplicationModule n) (resolver : Resolver n) (c : ClientRequest) : Prop :=
  (∃ j ∈ m.reporters resolver, c ∈ (m.rep j).pendReqs) ∧
    ∑ j ∈ m.reporters resolver, (m.rep j).pendReqs.count c = (m.reporters resolver).card

/-- Requests as a new primary renews them: it keeps what is pending at all processors that
    report the view change, gives entries new numbers, and fills gaps. -/
structure Renews (m : ReplicationModule n) (resolver : Resolver n) (pend : List ClientRequest)
    (reqQ : List ReqPair) : Prop where
  nodup : pend.Nodup
  pending : ∀ c ∈ pend, m.PendingAtAll resolver c
  queue : ∃ fresh : List ReqPair,
    fresh.Pairwise (fun q q' => q.request.seqNum < q'.request.seqNum) ∧
    (∀ q ∈ fresh, m.newSeq < q.request.seqNum ∧ ∃ q₀, m.Renewable resolver q₀ ∧
      (q₀ ∈ m.own.reqQ ∨ q₀.request.clientRequest.isDummy = true) ∧
      q.request.clientRequest = q₀.request.clientRequest) ∧
    ∀ q ∈ reqQ, q ∈ fresh ∨ (q ∈ m.own.reqQ ∧ ¬ m.Renewable resolver q) ∨ m.FillsGap reqQ q

theorem Renews.nil (m : ReplicationModule n) (resolver : Resolver n) : Renews m resolver [] [] :=
  ⟨List.nodup_nil, List.forall_mem_nil _, [], List.Pairwise.nil, List.forall_mem_nil _,
    List.forall_mem_nil _⟩

/-- What is renewed, with the gaps filled. -/
theorem mem_need_iff {rs : ReplicaStructure} {resolver : Resolver n} {order : SetOrder Int}
    {chosen : List (Fin n)} (hchosen : chosen.toFinset = m.reporters resolver)
    {need : List ReqPair}
    (hneed : (m.setOwn rs).reqsNeedPrePrep order (chosen.map fun j => (j.val : Int)) = .ok need)
    {q : ReqPair} : q ∈ need ↔ q ∈ rs.reqQ ∧ m.Renewable resolver q := by
  rw [mem_reqsNeedPrePrep_iff (map_pyIndex_val chosen) hneed, own_setOwn, Renewable]
  constructor
  · intro h
    obtain ⟨hq, hstatus, hall⟩ := h
    refine ⟨hq, hstatus, fun j hj hne => ?_⟩
    rw [← hchosen, List.mem_toFinset] at hj
    have hlisted := hall j hj
    rwa [rep_setOwn_of_ne hne] at hlisted
  · intro h
    obtain ⟨hq, hstatus, hall⟩ := h
    refine ⟨hq, hstatus, fun j hj => ?_⟩
    by_cases hself : j = m.id
    · subst hself
      show q ∈ (own _).reqQ
      rw [own_setOwn]
      exact hq
    · rw [rep_setOwn_of_ne hself]
      exact hall j (hchosen ▸ List.mem_toFinset.mpr hj) hself

theorem renews_of_filled {rs : ReplicaStructure} (hrs : m.Filled rs) {resolver : Resolver n}
    {order : SetOrder Int} {chosen : List (Fin n)} (hnodup : chosen.Nodup)
    (hchosen : chosen.toFinset = m.reporters resolver) {m₁ : ReplicationModule n}
    (h : (m.setOwn rs).renewReqs order (chosen.map fun j => (j.val : Int)) = .ok m₁) :
    ∃ rs', m₁ = m.setOwn rs' ∧ rs'.id = m.own.id ∧ rs'.repState = m.own.repState ∧
      rs'.rLog = m.own.rLog ∧ Renews m resolver rs'.pendReqs rs'.reqQ ∧
      ∀ c, m.PendingAtAll resolver c → c ∈ rs'.pendReqs := by
  simp only [renewReqs, own_setOwn, setOwn_setOwn] at h
  obtain ⟨pend, hpend, h⟩ := Py.of_bind h
  obtain ⟨need, hneed, h⟩ := Py.of_bind h
  simp only [pure, Except.pure, Except.ok.injEq, setOwn_id] at h
  obtain ⟨fresh, hpair, hfresh, hmem⟩ := renumber_spec m.id.val need rs.reqQ rs.seqNum
  have hall : ∀ c, c ∈ pend ↔ m.PendingAtAll resolver c := by
    intro c
    rw [mem_commonPendReqs_iff (map_pyIndex_val chosen) hpend, PendingAtAll, ← hchosen,
      List.sum_toFinset _ hnodup, List.toFinset_card_of_nodup hnodup]
    simp only [field_setOwn (·.pendReqs) hrs.pendReqs_eq, List.mem_toFinset]
  have hnumber : ∀ q ∈ fresh, m.newSeq < q.request.seqNum := by
    intro q hq
    rw [← hrs.seqNum_eq]
    exact (hfresh q hq).1
  refine ⟨_, h.symm, hrs.id_eq, hrs.repState_eq, hrs.rLog_eq,
    ⟨nodup_commonPendReqs hpend, fun c hc => (hall c).mp hc, fresh, hpair, fun q hq => ?_,
      fun q hq => ?_⟩, fun c hc => (hall c).mpr hc⟩
  · obtain ⟨q₀, hq₀, hsame⟩ := (hfresh q hq).2.2
    obtain ⟨hqueued, hrenewable⟩ := (mem_need_iff hchosen hneed).mp hq₀
    refine ⟨hnumber q hq, q₀, hrenewable, (hrs.reqQ q₀ hqueued).imp_right fun hfills => ?_, hsame⟩
    obtain ⟨s, -, heq, -⟩ := hfills
    rw [heq]
    exact isDummy_produceDummyReq m s
  · cases (hmem q).mp hq with
    | inl hnew => exact Or.inl hnew
    | inr hold =>
      have hkept : ¬ m.Renewable resolver q := fun hren =>
        hold.2 ((mem_need_iff hchosen hneed).mpr ⟨hold.1, hren⟩)
      refine Or.inr ((hrs.reqQ q hold.1).imp (fun hown => ⟨hown, hkept⟩) fun hfills => ?_)
      obtain ⟨s, hs, heq, hfree⟩ := hfills
      refine ⟨s, hs, heq, fun r hr hnot => ?_⟩
      -- new numbers are above, and the other requests were there when the gap was filled
      cases (hmem r).mp hr with
      | inl hnew =>
        have hnum := hnumber r hnew
        omega
      | inr hrest => exact hfree r hrest.1 hnot

/-- There is room in the logs, and `n - 2f` states begin with one that is not empty. -/
def HasCommonState (m : ReplicationModule n) : Prop :=
  m.numberOfClients ≠ 0 ∧ ∃ l, m.MostCommon l ∧ (m.rep l).repState ≠ []

instance (m : ReplicationModule n) : Decidable m.HasCommonState :=
  inferInstanceAs (Decidable (_ ∧ _))

/-- What a new primary proposes. -/
structure Proposal (m m' : ReplicationModule n) (resolver : Resolver n) : Prop where
  eq_setOwn : m' = m.setOwn m'.own
  many : (n : Int) - m.numberOfByzantine ≤ (m.reporters resolver).card
  renews : Renews m resolver m'.own.pendReqs m'.own.reqQ
  pending : m.HasCommonState → ∀ c, m.PendingAtAll resolver c → c ∈ m'.own.pendReqs
  common : m.IsCommon m'.own.repState
  operational : Operational m'.own.rLog
  replay_iff : replay m'.own.rLog = m'.own.repState ↔ m.LogsReachBack

/-- A new primary that completes proposes such a structure. -/
theorem proposal_of_actAsPrim {history : List Request} {resolver : Resolver n}
    {order : SetOrder Int} (hhonest : m.Honest history)
    (hpos : (0 : Int) < n - 2 * m.numberOfByzantine) (hchanged : m.own.viewChanged = true)
    (h : m.actAsPrimWhenViewChanged resolver order = .ok m')
    (hdone : m'.own.viewChanged = false) : Proposal m m' resolver := by
  obtain ⟨chosen, hnodup, hchosen, hids⟩ := viewChangedProcessors_eq resolver
    hhonest.ids
  obtain ⟨rs, hfill, hfilled⟩ := filled_fillGaps m
  simp only [actAsPrimWhenViewChanged, hids, bind, Except.bind, hfill] at h
  split at h
  · rename_i hmany
    rw [List.length_map, ← List.toFinset_card_of_nodup hnodup, hchosen] at hmany
    split at h
    · cases h
    rename_i m₁ hrenew
    obtain ⟨rs', rfl, hid, hstate, hlog, hrenews, hpending⟩ :=
      renews_of_filled hfilled hnodup hchosen hrenew
    split at h
    · cases h
    rename_i p hp
    split at h
    · cases h
    rename_i x hx
    simp only [pure, Except.pure, Except.ok.injEq] at h
    -- the common state is looked for in a table with the same states and logs
    have hstates := field_setOwn (m := m) (·.repState) hstate
    have hlogs := field_setOwn (m := m) (·.rLog) hlog
    have htable := hhonest.setOwn hid hstate hlog
    have hadopted := htable.replay_findConsState_iff hpos hp hx
    have hback : (m.setOwn rs').LogsReachBack ↔ m.LogsReachBack :=
      logsReachBack_congr rfl hstates hlogs
    rw [hback] at hadopted
    simp only [IsCommon, setOwn_numberOfByzantine, hstates] at hadopted
    rw [adoptConsState] at h
    split at h
    · -- no common state: everything is forgotten
      rename_i hnone
      rw [own_setOwn, setOwn_setOwn] at h
      subst h
      rw [hnone, findConsState_none hx hnone] at hadopted
      simp only [Option.getD_none] at hadopted
      refine ⟨by rw [own_setOwn], hmany, ?_, ?_, ?_, ?_, ?_⟩
      · rw [own_setOwn]
        exact Renews.nil m resolver
      · intro hcommon
        obtain ⟨hclients, l, hl, hne⟩ := hcommon
        have hl' : (m.setOwn rs').MostHeld (n - 2 * m.numberOfByzantine) l := by
          simp only [MostHeld, HeldBy, hstates]
          exact hl
        rcases htable.adopted_common hpos hl' (by rw [hstates]; exact hne) hp hx with
          ⟨hzero, -, -⟩ | ⟨hsome, -⟩
        · exact absurd hzero hclients
        · rw [hnone] at hsome
          cases hsome
      · rw [own_setOwn]
        exact hadopted.1
      · rw [own_setOwn]
        exact List.forall_mem_nil _
      · rw [own_setOwn]
        exact hadopted.2
    · rename_i repState hsome
      rw [own_setOwn, setOwn_setOwn] at h
      subst h
      rw [hsome] at hadopted
      simp only [Option.getD_some] at hadopted
      refine ⟨by rw [own_setOwn], hmany, ?_, ?_, ?_, ?_, ?_⟩
      · rw [own_setOwn]
        exact hrenews
      · rw [own_setOwn]
        exact fun _ => hpending
      · rw [own_setOwn]
        exact hadopted.1
      · rw [own_setOwn]
        exact htable.operational_of_logOfTable (logOfTable_findConsState hp hx)
      · rw [own_setOwn]
        exact hadopted.2
  · -- too few reporters: nothing changes
    cases h
    rw [hchanged] at hdone
    cases hdone

/-! ## What the check asks -/

/-- What one entry of the new primary's queue has to satisfy. -/
def Backed (m : ReplicationModule n) (p : Fin n) (reqQ : List ReqPair) (q : ReqPair) : Prop :=
  if q.request.clientRequest.isDummy then
    ∀ r ∈ reqQ, r.request.clientRequest ≠ q.request.clientRequest →
      r.request.seqNum ≠ q.request.seqNum
  else q.request.clientRequest.Askable ∧
    ((n : Int) - 2 * m.numberOfByzantine ≤ m.prePrepCount q.request.clientRequest ∨
      m.acceptReqPreprep q.request.clientRequest p.val = .ok true)

theorem checkNewReq_iff (hpos : (0 : Int) < n - 2 * m.numberOfByzantine) {p : Fin n}
    {reqQ : List ReqPair} {q : ReqPair} :
    m.checkNewReq p.val reqQ q = .ok true ↔ q.request.view = p.val → m.Backed p reqQ q := by
  simp only [checkNewReq, Backed]
  by_cases hview : q.request.view = p.val
  · rw [if_pos hview]
    by_cases hdummy : q.request.clientRequest.isDummy = true
    · rw [ClientRequest.callIsDummy_of_askable (ClientRequest.askable_of_isDummy hdummy)]
      simp only [hview, hdummy, if_true, bind, Except.bind, pure, Except.pure, Except.ok.injEq,
        List.all_eq_true, decide_eq_true_eq, not_and, forall_const]
    · by_cases hask : q.request.clientRequest.Askable
      · rw [ClientRequest.callIsDummy_of_askable hask]
        simp only [hview, hdummy, hask, Bool.false_eq_true, if_false, forall_const, true_and,
          bind, Except.bind, pure, Except.pure]
        split
        · rename_i hfew
          have hnot : ¬ (n : Int) - 2 * m.numberOfByzantine ≤
              m.prePrepCount q.request.clientRequest := by omega
          exact (or_iff_right hnot).symm
        · rename_i hmany
          have hle : (n : Int) - 2 * m.numberOfByzantine ≤
              m.prePrepCount q.request.clientRequest := by omega
          exact iff_of_true rfl (Or.inl hle)
      · -- the call raises
        rw [ClientRequest.callIsDummy_of_not_askable hask, if_neg hdummy]
        simp only [hview, hask, false_and, forall_const, iff_false]
        exact fun heq => by cases heq
  · rw [if_neg hview]
    exact iff_of_true rfl fun h => absurd h hview

/-- Executing a log of operations does not raise. -/
theorem executeRLog_of_operational {rLog : List LogEntry} (h : Operational rLog) :
    executeRLog rLog = .ok (replay rLog) := by
  have hloop := foldlM_eq_foldl (l := rLog)
    (f := fun state (e : LogEntry) => e.request.clientRequest.operation.callExecute state)
    (fun state e => e.request.clientRequest.operation.execute state) (fun e => e)
    (fun state => state)
    (fun state e he => by rw [Operation.callExecute, if_pos (h e he)]) []
  rw [List.map_id'] at hloop
  exact hloop

/-- A log that was executed holds operations, and replays to the result. -/
theorem replay_of_executeRLog {rLog : List LogEntry} {s : List Value}
    (h : executeRLog rLog = .ok s) : Operational rLog ∧ replay rLog = s := by
  have hops : Operational rLog := by
    intro e he
    by_contra hop
    obtain ⟨c, c', hstep⟩ := exists_of_foldlM h he
    rw [Operation.callExecute, if_neg hop] at hstep
    cases hstep
  rw [executeRLog_of_operational hops] at h
  exact ⟨hops, Except.ok.inj h⟩

/-- The check of a proposal, part by part. -/
theorem checkNewVState_iff (hpos : (0 : Int) < n - 2 * m.numberOfByzantine) {p : Fin n} :
    m.checkNewVState p.val = .ok true ↔
      (∀ q ∈ (m.rep p).reqQ, q.request.view = p.val → m.Backed p (m.rep p).reqQ q) ∧
      (∀ c ∈ (m.rep p).pendReqs, (n : Int) - 2 * m.numberOfByzantine ≤
        ((List.finRange n).flatMap fun j => (m.rep j).pendReqs).count c) ∧
      m.IsCommon (m.rep p).repState ∧ executeRLog (m.rep p).rLog = .ok (m.rep p).repState := by
  have hreqs : (m.rep p).reqQ.allM (m.checkNewReq p.val (m.rep p).reqQ) = .ok true ↔
      ∀ q ∈ (m.rep p).reqQ, q.request.view = p.val → m.Backed p (m.rep p).reqQ q := by
    rw [allM_eq_true]
    exact forall₂_congr fun q _ => checkNewReq_iff hpos
  rw [← hreqs]
  simp only [checkNewVState, repAt_val, bind, Except.bind]
  cases (m.rep p).reqQ.allM (m.checkNewReq p.val (m.rep p).reqQ) with
  | error e => simp
  | ok b =>
    cases b with
    | false => simp [pure, Except.pure]
    | true =>
      simp only [Bool.not_true, Bool.false_eq_true, if_false, true_and]
      have hpend : (((m.rep p).pendReqs.all fun req =>
            decide (req ∈ (List.finRange n).flatMap (fun j => (m.rep j).pendReqs) ∧
              (n : Int) - 2 * m.numberOfByzantine ≤
                ((List.finRange n).flatMap fun j => (m.rep j).pendReqs).count req)) = true) ↔
          ∀ c ∈ (m.rep p).pendReqs, (n : Int) - 2 * m.numberOfByzantine ≤
            ((List.finRange n).flatMap fun j => (m.rep j).pendReqs).count c := by
        rw [List.all_eq_true]
        refine forall₂_congr fun c _ => ?_
        rw [decide_eq_true_iff]
        refine ⟨And.right, fun hle => ⟨?_, hle⟩⟩
        exact List.count_pos_iff.mp (by omega)
      rw [← hpend]
      split
      · rename_i hall
        rw [checkNewStateAndRLog, repAt_val]
        simp only [bind, Except.bind, IsCommon, pure, Except.pure, hall, true_and]
        split
        · rename_i hfew
          simp only [Except.ok.injEq, Bool.false_eq_true, false_iff, not_and]
          omega
        · rename_i hmany
          have hle := Int.not_lt.mp hmany
          cases executeRLog (m.rep p).rLog with
          | error e => simp only [reduceCtorEq, and_false]
          | ok s => simp only [Except.ok.injEq, decide_eq_true_eq, hle, true_and]
      · rename_i hnot
        simp only [pure, Except.pure, Except.ok.injEq, Bool.false_eq_true, hnot, false_and]

/-! ## The proposal at the backups -/

/-- The table of backup `i`: the same, with the new structure of the primary. -/
def seenBy (m' : ReplicationModule n) (i : Fin n) : ReplicationModule n := { m' with id := i }

/-- How often the other structures list the client request as pending. -/
def pendingElsewhere (m : ReplicationModule n) (c : ClientRequest) : Nat :=
  ∑ j ∈ Finset.univ.erase m.id, (m.rep j).pendReqs.count c

/-- How often the other structures list the client request with nothing but `PRE_PREP`. -/
def prePrepElsewhere (m : ReplicationModule n) (c : ClientRequest) : Nat :=
  ∑ j ∈ Finset.univ.erase m.id,
    (m.rep j).reqQ.countP fun q => q.status = {.prePrep} ∧ q.request.clientRequest = c

/-- What is pending at all that report the view change is pending often enough when the
    primary lists it once. -/
def PendingBacked (m : ReplicationModule n) (resolver : Resolver n) : Prop :=
  ∀ j ∈ m.reporters resolver, ∀ c ∈ (m.rep j).pendReqs,
    ∑ j ∈ m.reporters resolver, (m.rep j).pendReqs.count c = (m.reporters resolver).card →
      (n : Int) - 2 * m.numberOfByzantine ≤ 1 + m.pendingElsewhere c

instance (m : ReplicationModule n) (resolver : Resolver n) :
    Decidable (m.PendingBacked resolver) :=
  inferInstanceAs (Decidable (∀ j ∈ m.reporters resolver, ∀ c ∈ (m.rep j).pendReqs, _))

theorem pendingBacked_iff {resolver : Resolver n} : m.PendingBacked resolver ↔
    ∀ c, m.PendingAtAll resolver c →
      (n : Int) - 2 * m.numberOfByzantine ≤ 1 + m.pendingElsewhere c := by
  constructor
  · intro h c hc
    obtain ⟨⟨j, hj, hlisted⟩, hsum⟩ := hc
    exact h j hj c hlisted hsum
  · exact fun h j hj c hlisted hsum => h c ⟨⟨j, hj, hlisted⟩, hsum⟩

/-- Backup `i` knows the client request of the entry from the other structures, and may still
    accept the entry. -/
def AcceptableAt (m : ReplicationModule n) (i : Fin n) (q : ReqPair) : Prop :=
  (n : Int) - 2 * m.numberOfByzantine ≤ m.pendingElsewhere q.request.clientRequest ∧
    .prePrep ∈ q.status ∧ (m.seenBy i).inWindow q.request.seqNum = true ∧
    (m.seenBy i).requestAlreadyExists q.request = false

instance (m : ReplicationModule n) (i : Fin n) (q : ReqPair) : Decidable (m.AcceptableAt i q) :=
  inferInstanceAs (Decidable (_ ∧ _))

/-- What an entry of the primary's queue needs: one of the own view, or one that is renewed, has a
    client request that `is_dummy()` can be asked of; a client request left over from an earlier
    term of the primary has enough `PRE_PREP`s elsewhere, or every backup may accept it. -/
def LeftoverBacked (m : ReplicationModule n) (resolver : Resolver n) (q : ReqPair) : Prop :=
  (q.request.view = m.id.val ∨ m.Renewable resolver q → q.request.clientRequest.Askable) ∧
    (q.request.view = m.id.val → ¬ m.Renewable resolver q →
      q.request.clientRequest.isDummy = false →
      (n : Int) - 2 * m.numberOfByzantine ≤ m.prePrepElsewhere q.request.clientRequest ∨
        ∀ i, i ≠ m.id → m.AcceptableAt i q)

instance (m : ReplicationModule n) (resolver : Resolver n) (q : ReqPair) :
    Decidable (m.LeftoverBacked resolver q) := inferInstanceAs (Decidable (_ ∧ _))

/-- The other client requests of the queue keep away from a dummy that is left over from an
    earlier term, and from the new numbers if some dummy is renewed. -/
def DummiesApart (m : ReplicationModule n) (resolver : Resolver n) : Prop :=
  (∀ d ∈ m.own.reqQ, d.request.view = m.id.val → d.request.clientRequest.isDummy = true →
    ∀ r ∈ m.own.reqQ, r.request.clientRequest.isDummy = false →
      if m.Renewable resolver r then d.request.seqNum ≤ m.newSeq
      else r.request.seqNum ≠ d.request.seqNum) ∧
  ∀ j, j ≠ m.id → ∀ d ∈ (m.rep j).reqQ, d.request.clientRequest.isDummy = true →
    m.Renewable resolver d → ∀ r ∈ m.own.reqQ, r.request.clientRequest.isDummy = false →
      ¬ m.Renewable resolver r → r.request.seqNum ≤ m.newSeq

instance (m : ReplicationModule n) (resolver : Resolver n) :
    Decidable (m.DummiesApart resolver) := inferInstanceAs (Decidable (_ ∧ _))

namespace Proposal

variable {resolver : Resolver n} (h : Proposal m m' resolver)
include h

theorem id_eq : m'.id = m.id := by
  rw [h.eq_setOwn]
  rfl

theorem numberOfByzantine_eq : m'.numberOfByzantine = m.numberOfByzantine := by
  rw [h.eq_setOwn]
  rfl

theorem rep_self : m'.rep m.id = m'.own := by
  rw [own, h.id_eq]

theorem rep_of_ne {j : Fin n} (hj : j ≠ m.id) : m'.rep j = m.rep j := by
  rw [h.eq_setOwn, rep_setOwn_of_ne hj]

/-- A sum over the new table is the primary's part and the old sum over the others. -/
theorem sum_rep (g : ReplicaStructure → Nat) :
    ∑ j, g (m'.rep j) = g m'.own + ∑ j ∈ Finset.univ.erase m.id, g (m.rep j) := by
  rw [← Finset.add_sum_erase Finset.univ (fun j => g (m'.rep j)) (Finset.mem_univ m.id),
    h.rep_self]
  congr 1
  exact Finset.sum_congr rfl fun j hj => by rw [h.rep_of_ne (Finset.mem_erase.mp hj).1]

theorem count_pendReqs (c : ClientRequest) :
    ((List.finRange n).flatMap fun j => (m'.rep j).pendReqs).count c =
      m'.own.pendReqs.count c + m.pendingElsewhere c := by
  rw [List.count_flatMap, ← Fin.sum_univ_def]
  exact h.sum_rep fun rs => rs.pendReqs.count c

theorem prePrepElsewhere_le (i : Fin n) (c : ClientRequest) :
    m.prePrepElsewhere c ≤ (m'.seenBy i).prePrepCount c := by
  have hsum := h.sum_rep fun rs =>
    rs.reqQ.countP fun q => q.status = {.prePrep} ∧ q.request.clientRequest = c
  have hall : (m'.seenBy i).prePrepCount c = ∑ j, (m'.rep j).reqQ.countP fun q =>
      q.status = {.prePrep} ∧ q.request.clientRequest = c := by
    rw [prePrepCount, List.countP_flatMap, ← Fin.sum_univ_def]
    rfl
  rw [hall, hsum, prePrepElsewhere]
  omega

/-- The primary lists what is pending once. -/
theorem pending_iff {c : ClientRequest} (hc : c ∈ m'.own.pendReqs) :
    (n : Int) - 2 * m.numberOfByzantine ≤
        ((List.finRange n).flatMap fun j => (m'.rep j).pendReqs).count c ↔
      (n : Int) - 2 * m.numberOfByzantine ≤ 1 + m.pendingElsewhere c := by
  rw [h.count_pendReqs, List.count_eq_one_of_mem h.renews.nodup hc]
  omega

/-- Enough processors other than the primary report the view change. -/
theorem many_others (hf : 1 ≤ m.numberOfByzantine) :
    (n : Int) - 2 * m.numberOfByzantine ≤ ((m.reporters resolver).erase m.id).card := by
  have hmany := h.many
  have hle := Finset.pred_card_le_card_erase (s := m.reporters resolver) (a := m.id)
  omega

/-- A renewed entry has the `PRE_PREP`s of the other reporting processors. -/
theorem le_prePrepElsewhere (hf : 1 ≤ m.numberOfByzantine) {q : ReqPair}
    (hq : m.Renewable resolver q) :
    (n : Int) - 2 * m.numberOfByzantine ≤ m.prePrepElsewhere q.request.clientRequest := by
  have hothers := h.many_others hf
  have hcard : ((m.reporters resolver).erase m.id).card ≤
      m.prePrepElsewhere q.request.clientRequest := by
    rw [Finset.card_eq_sum_ones]
    refine le_trans (Finset.sum_le_sum fun j hj => ?_) (Finset.sum_le_sum_of_subset
      (Finset.erase_subset_erase m.id (Finset.subset_univ (m.reporters resolver))))
    obtain ⟨hne, hmem⟩ := Finset.mem_erase.mp hj
    exact List.countP_pos_iff.mpr ⟨q, hq.2 j hmem hne, decide_eq_true ⟨hq.1, rfl⟩⟩
  omega

/-- Some other processor lists a renewed entry. -/
theorem exists_lister (hpos : (0 : Int) < n - 2 * m.numberOfByzantine)
    (hf : 1 ≤ m.numberOfByzantine) {q : ReqPair} (hq : m.Renewable resolver q) :
    ∃ j, j ≠ m.id ∧ q ∈ (m.rep j).reqQ := by
  have hothers := h.many_others hf
  obtain ⟨j, hj⟩ := Finset.card_pos.mp (show 0 < ((m.reporters resolver).erase m.id).card by omega)
  obtain ⟨hne, hmem⟩ := Finset.mem_erase.mp hj
  exact ⟨j, hne, hq.2 j hmem hne⟩

theorem isCommon_own : m'.IsCommon m'.own.repState := by
  have hcommon := h.common
  rw [IsCommon] at hcommon ⊢
  rw [h.numberOfByzantine_eq]
  have hle := List.countP_mono_left (l := List.finRange n)
    (p := fun j => isPrefixOf m'.own.repState (m.rep j).repState)
    (q := fun j => isPrefixOf m'.own.repState (m'.rep j).repState) (by
      intro j _ hj
      by_cases hself : j = m.id
      · rw [hself, h.rep_self]
        exact isPrefixOf_iff.mpr List.prefix_rfl
      · rw [h.rep_of_ne hself]
        exact hj)
  omega

/-- A backup may accept an entry of the new queue that it could accept before. -/
theorem accepted_of_acceptable {i : Fin n} (hi : i ≠ m.id) {q : ReqPair} (hq : q ∈ m'.own.reqQ)
    (hview : q.request.view = m.id.val) (hpos : (0 : Int) < n - 2 * m.numberOfByzantine)
    (hacceptable : m.AcceptableAt i q) :
    (m'.seenBy i).acceptReqPreprep q.request.clientRequest m.id.val = .ok true := by
  obtain ⟨hknown, hstatus, hwindow, hexists⟩ := hacceptable
  -- the backup's own structure is the old one
  have hown : (m'.seenBy i).own = (m.seenBy i).own := h.rep_of_ne hi
  have hclients : m'.numberOfClients = m.numberOfClients := by
    rw [h.eq_setOwn]
    rfl
  have hwindow' : (m'.seenBy i).inWindow q.request.seqNum = true := by
    simp only [inWindow, lastExec, hown] at hwindow ⊢
    rw [show (m'.seenBy i).numberOfClients = m.numberOfClients from hclients]
    exact hwindow
  have hexists' : (m'.seenBy i).requestAlreadyExists q.request = false := by
    rw [requestAlreadyExists, hown]
    exact hexists
  -- what the others list as pending is enough, whatever the primary keeps
  have hpend : q.request.clientRequest ∈ (m'.seenBy i).knownPendReqs := by
    have hcount := h.count_pendReqs q.request.clientRequest
    have hle : (n : Int) - 2 * (m'.seenBy i).numberOfByzantine ≤
        ((List.finRange n).flatMap fun j => (m'.rep j).pendReqs).count
          q.request.clientRequest := by
      show (n : Int) - 2 * m'.numberOfByzantine ≤ _
      rw [h.numberOfByzantine_eq]
      omega
    refine mem_knownPendReqs.mpr ⟨?_, hle⟩
    have hpositive : 0 < ((List.finRange n).flatMap fun j => (m'.rep j).pendReqs).count
        q.request.clientRequest := by omega
    obtain ⟨j, -, hj⟩ := List.mem_flatMap.mp (List.count_pos_iff.mp hpositive)
    exact ⟨j, hj⟩
  rw [acceptReqPreprep, existsPreprepMsg, msg, repAt_val,
    show (m'.seenBy i).rep m.id = m'.own from h.rep_self]
  simp only [bind, Except.bind, pure, Except.pure, Except.ok.injEq, Bool.or_eq_true,
    Bool.and_eq_true, decide_eq_true_eq, hpend, true_and]
  refine Or.inl ⟨List.any_eq_true.mpr ⟨q.request, ?_, decide_eq_true rfl⟩,
    List.any_eq_true.mpr ⟨q, hq, ?_⟩⟩
  · refine List.mem_map.mpr ⟨q, List.mem_filter.mpr ⟨hq, decide_eq_true ?_⟩, rfl⟩
    exact Finset.singleton_subset_iff.mpr hstatus
  · simp only [hview, hwindow', hexists', Bool.not_false, and_self, decide_true]

/-- The dummies of the new queue share no number with other client requests. -/
theorem apart (hpos : (0 : Int) < n - 2 * m.numberOfByzantine) (hf : 1 ≤ m.numberOfByzantine)
    (hapart : m.DummiesApart resolver) {d r : ReqPair} (hd : d ∈ m'.own.reqQ)
    (hr : r ∈ m'.own.reqQ) (hview : d.request.view = m.id.val)
    (hdummy : d.request.clientRequest.isDummy = true)
    (hne : r.request.clientRequest ≠ d.request.clientRequest) :
    r.request.seqNum ≠ d.request.seqNum := by
  obtain ⟨fresh, hpair, hfresh, hmem⟩ := h.renews.queue
  have hrdummy : r.request.clientRequest.isDummy = false :=
    Bool.eq_false_iff.mpr fun hr => hne (eq_of_isDummy hr hdummy)
  rcases hmem d hd with hdnew | ⟨hdold, hdkept⟩ | ⟨s, hs, hdfill, hfree⟩
  · -- a renewed dummy has a new number
    obtain ⟨hdnum, d₀, hren, -, hsame⟩ := hfresh d hdnew
    rcases hmem r hr with hrnew | ⟨hrold, hrkept⟩ | ⟨t, -, hrfill, -⟩
    · have hsymm : Std.Symm fun q q' : ReqPair => q.request.seqNum ≠ q'.request.seqNum :=
        ⟨fun _ _ hne => hne.symm⟩
      have hnum : fresh.Pairwise fun q q' => q.request.seqNum ≠ q'.request.seqNum :=
        hpair.imp fun hlt => Int.ne_of_lt hlt
      exact hnum.forall hrnew hdnew fun heq => hne (by rw [heq])
    · -- who lists the dummy is another processor, of which the condition speaks
      obtain ⟨j, hj, hlisted⟩ := h.exists_lister hpos hf hren
      have hle := hapart.2 j hj d₀ hlisted (hsame ▸ hdummy) hren r hrold hrdummy hrkept
      omega
    · rw [hrfill, isDummy_produceDummyReq] at hrdummy
      cases hrdummy
  · -- a left-over dummy keeps its number
    have hold := hapart.1 d hdold hview hdummy
    rcases hmem r hr with hrnew | ⟨hrold, hrkept⟩ | ⟨t, -, hrfill, -⟩
    · obtain ⟨hrnum, r₀, hren, hr₀, hsame⟩ := hfresh r hrnew
      rw [hsame] at hrdummy
      have hqueued : r₀ ∈ m.own.reqQ := hr₀.resolve_right (Bool.eq_false_iff.mp hrdummy)
      have hle := hold r₀ hqueued hrdummy
      rw [if_pos hren] at hle
      omega
    · have hapart' := hold r hrold hrdummy
      rwa [if_neg hrkept] at hapart'
    · rw [hrfill, isDummy_produceDummyReq] at hrdummy
      cases hrdummy
  · -- a dummy fills a gap
    rw [hdfill]
    exact hfree r hr hrdummy

/-- Every entry of the own view is backed. -/
theorem backed (hpos : (0 : Int) < n - 2 * m.numberOfByzantine) (hf : 1 ≤ m.numberOfByzantine)
    (hleft : ∀ q ∈ m.own.reqQ, m.LeftoverBacked resolver q) (hapart : m.DummiesApart resolver)
    {i : Fin n} (hi : i ≠ m.id) {q : ReqPair} (hq : q ∈ m'.own.reqQ)
    (hview : q.request.view = m.id.val) : (m'.seenBy i).Backed m.id m'.own.reqQ q := by
  have hbyz : (m'.seenBy i).numberOfByzantine = m.numberOfByzantine := h.numberOfByzantine_eq
  rw [Backed]
  split
  · rename_i hdummy
    exact fun r hr hne => h.apart hpos hf hapart hq hr hview hdummy hne
  · rename_i hnot
    rw [hbyz]
    have hcount := h.prePrepElsewhere_le i q.request.clientRequest
    obtain ⟨fresh, -, hfresh, hmem⟩ := h.renews.queue
    rcases hmem q hq with hnew | ⟨hold, hkept⟩ | ⟨s, -, hfill, -⟩
    · -- a renewed request
      obtain ⟨-, q₀, hren, hq₀, hsame⟩ := hfresh q hnew
      have hmany := h.le_prePrepElsewhere hf hren
      rw [hsame] at hnot hcount ⊢
      have hqueued : q₀ ∈ m.own.reqQ := hq₀.resolve_right hnot
      exact ⟨(hleft q₀ hqueued).1 (Or.inr hren), Or.inl (by omega)⟩
    · -- a request left over from an earlier term
      obtain ⟨hask, hback⟩ := hleft q hold
      refine ⟨hask (Or.inl hview), ?_⟩
      cases hback hview hkept (Bool.eq_false_iff.mpr hnot) with
      | inl hmany => exact Or.inl (by omega)
      | inr haccept => exact Or.inr (h.accepted_of_acceptable hi hq hview hpos (haccept i hi))
    · rw [hfill] at hnot
      exact absurd (isDummy_produceDummyReq m s) hnot

end Proposal

/-- `APPEND` requests of one client with consecutive sequence numbers. -/
def appends (count : Nat) : List Request :=
  (List.range count).map fun i : Nat => ⟨⟨0, some i, .append i⟩, 1, i⟩

theorem appends_numbered (count : Nat) (i : Nat) (r : Request)
    (hr : (appends count)[i]? = some r) : r.seqNum = i := by
  obtain ⟨hlt, rfl⟩ := List.getElem?_eq_some_iff.mp hr
  simp [appends]

theorem appends_operations (count : Nat) :
    ∀ r ∈ appends count, r.clientRequest.operation.Executable := by
  intro r hr
  obtain ⟨i, -, rfl⟩ := List.mem_map.mp hr
  trivial

/-- Six replicas that executed these requests and report a change to view 0. -/
def viewChangeTable (count : Nat) (pend : List ClientRequest) (reqQ : List ReqPair) :
    ReplicationModule 6 :=
  { init 0 1 1 true with
    rep := fun j =>
      { (appends count).foldl (fun rs r => executedOwn rs r {0, 1, 2, 3} (.list [.unset]))
          (ReplicaStructure.init j.val 1) with
        id := j.val
        pendReqs := pend
        reqQ := reqQ
        viewChanged := true } }

theorem honest_viewChangeTable (count : Nat) (pend : List ClientRequest) (reqQ : List ReqPair) :
    (viewChangeTable count pend reqQ).Honest (appends count) := by
  refine ⟨appends_numbered count, appends_operations count, fun j => rfl,
    fun j => ⟨(appends count).length, ?_⟩⟩
  obtain ⟨hexec, -⟩ := Executed.of_foldl (k := 1) (appends_numbered count) j.val {0, 1, 2, 3}
    (.list [.unset]) (Nat.le_refl _)
  rw [List.take_length] at hexec
  exact ⟨hexec.le, hexec.state, hexec.logged⟩

/-- Two executed requests, request 3 prepared, request 4 accepted, request 2 missing. -/
def renewTable : ReplicationModule 6 :=
  viewChangeTable 2 [⟨0, some 9, .append 9⟩]
    [⟨⟨⟨0, some 8, .append 8⟩, 1, 3⟩, {.prePrep, .prep}⟩,
      ⟨⟨⟨0, some 9, .append 9⟩, 1, 4⟩, {.prePrep}⟩]

end BFTList.ReplicationModule
