import BFTList.Spec.AdoptedLog
import BFTList.Spec.QueueBounds
import BFTList.Spec.RenewedQueue

/-!
# The primary's counter

The primary counts the numbers it gives out. Queue and log also grow without the
counter: a new primary keeps entries of its queue, consolidation replaces the log, and
committing brings in requests that others support. As long as none of these brings a
number above the counter, what the primary numbers is fresh. A flush sets the counter
back, but not the logs of others, and the log that is adopted then is above it.

## Key results

- `mem_created_iff`: the requests that an iteration creates, with the state they are created in
- `Counting.run`: the counter stays above queue and log of a primary
- `created_fresh`: numbers in runs whose iterations bring in no number above the counter
- `created_again`: a primary that was flushed numbers a request like an executed one
-/

namespace BFTList

namespace ReplicationModule

variable {n : Nat} {m m' : ReplicationModule n} {resolver : Resolver n} {order : SetOrder Int}

/-! ## Counters -/

/-- No number in queue and log is above the counter. -/
structure Counted (rs : ReplicaStructure) : Prop where
  start : -1 ≤ rs.seqNum
  numbers : Keeps (fun r => r.seqNum ≤ rs.seqNum) rs

namespace Counted

variable {rs : ReplicaStructure}

theorem of_empty (hq : rs.reqQ = []) (hl : rs.rLog = []) (hs : rs.seqNum = -1) : Counted rs :=
  ⟨by omega, Keeps.of_nil hq hl⟩

theorem of_eq (h : Counted rs) {rs' : ReplicaStructure} (hq : rs'.reqQ = rs.reqQ)
    (hl : rs'.rLog = rs.rLog) (hs : rs'.seqNum = rs.seqNum) : Counted rs' := by
  refine ⟨hs ▸ h.start, ?_⟩
  rw [hs]
  exact h.numbers.of_eq hq hl

theorem lastSeq_le (h : Counted rs) : lastSeq rs.rLog ≤ rs.seqNum := by
  rw [lastSeq]
  split
  · rename_i e he
    exact h.numbers.logged _ (ReplicaStructure.mem_logged.mpr ⟨e, List.mem_of_getLast? he, rfl⟩)
  · exact h.start

/-- The next number is counted. -/
theorem assigned (h : Counted rs) (req : ClientRequest) (primId : Int) :
    Counted (assigned rs req primId) := by
  have hstart := h.start
  refine ⟨?_, ?_⟩
  · show -1 ≤ rs.seqNum + 1
    omega
  · have hnext : Keeps (fun r => r.seqNum ≤ rs.seqNum + 1) { rs with seqNum := rs.seqNum + 1 } :=
      (h.numbers.mono fun r hr => by omega).of_eq rfl rfl
    exact hnext.addToReqQ (Int.le_refl _)

theorem committed (h : Counted rs) {r : Request} (hr : r.seqNum ≤ rs.seqNum) :
    Counted (committedOwn rs r) := by
  refine ⟨by simpa using h.start, ?_⟩
  rw [committedOwn_seqNum]
  exact h.numbers.committed hr

theorem executed (h : Counted rs) {r : Request} (hr : r.seqNum ≤ rs.seqNum) (xSet : Finset Int)
    (lastReq : LastReqTable) : Counted (executedOwn rs r xSet lastReq) :=
  ⟨h.start, h.numbers.executed hr xSet lastReq⟩

end Counted

/-! ## Fresh numbers -/

/-- The number comes after the last executed one, and no request in queue or log has it. -/
def Fresh (m : ReplicationModule n) (r : Request) : Prop :=
  m.lastExec < r.seqNum ∧ ∀ r' ∈ m.own.queued ++ m.own.logged, r'.seqNum ≠ r.seqNum

/-- The iteration creates the request in its assignment loop, when the module is `before`. -/
def CreatesAt (m : ReplicationModule n) (resolver : Resolver n) (order : SetOrder Int)
    (before : ReplicationModule n) (r : Request) : Prop :=
  ∃ m₀ reqs req rest created, m.reconcile resolver order = .ok m₀ ∧
    m₀.learnPendReqs.mayProcess resolver = true ∧
    m₀.learnPendReqs.primId resolver = m₀.learnPendReqs.id.val ∧
    m₀.learnPendReqs.unassignedReqs = .ok (reqs ++ req :: rest) ∧
    reqs.foldl (assignSeqNum (m₀.learnPendReqs.primId resolver)) (m₀.learnPendReqs, []) =
      (before, created) ∧
    (assignSeqNum (m₀.learnPendReqs.primId resolver) (before, created) req).2 = created ++ [r]

/-- What the loop has created was created for one of the client requests. -/
theorem mem_foldl_assignSeqNum {primId : Int} {reqs : List ClientRequest} {r : Request} :
    r ∈ (reqs.foldl (assignSeqNum primId) (m, [])).2 ↔ ∃ reqs₁ req reqs₂,
      reqs = reqs₁ ++ req :: reqs₂ ∧
      (assignSeqNum primId (reqs₁.foldl (assignSeqNum primId) (m, [])) req).2 =
        (reqs₁.foldl (assignSeqNum primId) (m, [])).2 ++ [r] := by
  induction reqs using List.reverseRecOn with
  | nil => simp
  | append_singleton reqs last ih =>
    rw [List.foldl_append, List.foldl_cons, List.foldl_nil]
    generalize hst : reqs.foldl (assignSeqNum primId) (m, []) = st at ih
    -- the last client request adds one request or none
    have hlast : (assignSeqNum primId st last).2 = st.2 ∨
        ∃ r', (assignSeqNum primId st last).2 = st.2 ++ [r'] := by
      rw [assignSeqNum]
      split
      · exact Or.inr ⟨_, rfl⟩
      · exact Or.inl rfl
    constructor
    · intro hr
      have hold : r ∈ st.2 → ∃ reqs₁ req reqs₂, reqs ++ [last] = reqs₁ ++ req :: reqs₂ ∧
          (assignSeqNum primId (reqs₁.foldl (assignSeqNum primId) (m, [])) req).2 =
            (reqs₁.foldl (assignSeqNum primId) (m, [])).2 ++ [r] := by
        intro hmem
        obtain ⟨reqs₁, req, reqs₂, heq, hcreate⟩ := ih.mp hmem
        exact ⟨reqs₁, req, reqs₂ ++ [last], by simp [heq], hcreate⟩
      rcases hlast with hsame | ⟨r', hnew⟩
      · exact hold (hsame ▸ hr)
      · rw [hnew, List.mem_append, List.mem_singleton] at hr
        rcases hr with hmem | rfl
        · exact hold hmem
        · exact ⟨reqs, last, [], rfl, by rw [hst, hnew]⟩
    · rintro ⟨reqs₁, req, reqs₂, heq, hcreate⟩
      rcases List.eq_nil_or_concat reqs₂ with rfl | ⟨reqs₂, last', rfl⟩
      · obtain ⟨rfl, hreq⟩ := List.append_inj' heq rfl
        cases hreq
        rw [← hst, hcreate]
        exact List.mem_append_right _ (List.mem_singleton_self r)
      · have heq' : reqs ++ [last] = (reqs₁ ++ req :: reqs₂) ++ [last'] := by simpa using heq
        have hmem := ih.mpr ⟨reqs₁, req, reqs₂, (List.append_inj' heq' rfl).1, hcreate⟩
        rcases hlast with hsame | ⟨r', hnew⟩
        · exact hsame ▸ hmem
        · rw [hnew]
          exact List.mem_append_left _ hmem

/-- These are the requests that the iteration creates. -/
theorem mem_created_iff {it : Iteration n} (hrun : m.run resolver order = .ok it) {r : Request} :
    r ∈ it.created ↔ ∃ before, m.CreatesAt resolver order before r := by
  obtain ⟨m₁, created, processing, hprep, rfl, -⟩ := run_cases hrun
  obtain ⟨m₀, hrec, hcase⟩ := prepared_cases hprep
  have hloop : ∀ {reqs}, m₀.learnPendReqs.unassignedReqs = .ok reqs →
      m₀.learnPendReqs.assignSeqNums (m₀.learnPendReqs.primId resolver) =
        .ok (reqs.foldl (assignSeqNum (m₀.learnPendReqs.primId resolver))
          (m₀.learnPendReqs, [])) := by
    intro reqs hreqs
    rw [assignSeqNums, hreqs]
    rfl
  constructor
  · intro hr
    rcases hcase with ⟨-, -, hnil⟩ | ⟨-, hmay, hprepare⟩
    · rw [hnil] at hr
      exact absurd hr List.not_mem_nil
    rcases prepareReqs_cases hprepare with ⟨hprim, hassign⟩ | ⟨-, hnil, -⟩
    · obtain ⟨reqs, hreqs, -⟩ := Py.of_bind hassign
      have hcreated := congrArg (fun x => x.toOption.map Prod.snd)
        ((hloop hreqs).symm.trans hassign)
      simp only [Except.toOption, Option.map_some, Option.some.injEq] at hcreated
      rw [← hcreated] at hr
      obtain ⟨reqs₁, req, reqs₂, rfl, hcreate⟩ := mem_foldl_assignSeqNum.mp hr
      exact ⟨_, m₀, reqs₁, req, reqs₂, _, hrec, hmay, hprim, hreqs, rfl, hcreate⟩
    · rw [hnil] at hr
      exact absurd hr List.not_mem_nil
  · rintro ⟨before, m₀', reqs₁, req, reqs₂, created', hrec', hmay, hprim, hreqs, hbefore, hcreate⟩
    cases hrec.symm.trans hrec'
    -- the iteration prepares by this loop
    simp only [prepared, hrec, bind, Except.bind, hmay, if_true, prepareReqs, if_pos hprim,
      hloop hreqs, pure, Except.pure, Except.ok.injEq, Prod.mk.injEq] at hprep
    rw [← hprep.2.1]
    apply mem_foldl_assignSeqNum.mpr
    exact ⟨reqs₁, req, reqs₂, rfl, by rw [hbefore, hcreate]⟩

/-- The loop has one client request, creates the request for it, and starts in a state that
    passes the test. -/
def createsOne (m : ReplicationModule n) (resolver : Resolver n) (order : SetOrder Int)
    (r : Request) (test : ReplicationModule n → Bool) : Bool :=
  (m.reconcile resolver order).toOption.any fun m₀ =>
    m₀.learnPendReqs.mayProcess resolver = true ∧
    m₀.learnPendReqs.primId resolver = m₀.learnPendReqs.id.val ∧
    m₀.learnPendReqs.unassignedReqs = .ok [r.clientRequest] ∧
    (assignSeqNum (m₀.learnPendReqs.primId resolver) (m₀.learnPendReqs, []) r.clientRequest).2 =
      [r] ∧ test m₀.learnPendReqs = true

theorem exists_createsAt {r : Request} {test : ReplicationModule n → Bool}
    (h : m.createsOne resolver order r test = true) :
    ∃ before, m.CreatesAt resolver order before r ∧ test before = true := by
  obtain ⟨m₀, hrec, hp⟩ := Py.exists_of_any h
  obtain ⟨hmay, hprim, hreqs, hcreate, htest⟩ := of_decide_eq_true hp
  exact ⟨_, ⟨m₀, [], r.clientRequest, [], [], hrec, hmay, hprim, hreqs, rfl, hcreate⟩, htest⟩

/-- A number after the counter is fresh. -/
theorem Counted.fresh (h : Counted m.own) {r : Request} (hr : m.own.seqNum < r.seqNum) :
    m.Fresh r := by
  have hlast := h.lastSeq_le
  refine ⟨by rw [lastExec_eq]; omega, fun r' hr' => ?_⟩
  cases List.mem_append.mp hr' with
  | inl hq =>
    have hle := h.numbers.queued r' hq
    omega
  | inr hl =>
    have hle := h.numbers.logged r' hl
    omega

/-- The assignment loop keeps the counter above what it numbers. -/
theorem Counted.assigning (h : Counted m.own) (primId : Int) (reqs : List ClientRequest) :
    ∃ rs, (reqs.foldl (assignSeqNum primId) (m, [])).1 = m.setOwn rs ∧ Counted rs := by
  refine List.foldl_invariant
    (P := fun st : ReplicationModule n × List Request => ∃ rs, st.1 = m.setOwn rs ∧ Counted rs)
    reqs (m, []) ⟨m.own, (setOwn_own m).symm, h⟩ ?_
  rintro ⟨m₁, created⟩ req - ⟨rs, rfl, hrs⟩
  rw [assignSeqNum_setOwn]
  split
  · exact ⟨_, rfl, hrs.assigned req primId⟩
  · exact ⟨rs, rfl, hrs⟩

theorem Counted.assignSeqNums (h : Counted m.own) {primId : Int} {created : List Request}
    (hassign : m.assignSeqNums primId = .ok (m', created)) : Counted m'.own := by
  obtain ⟨reqs, -, hloop⟩ := Py.of_bind hassign
  simp only [pure, Except.pure, Except.ok.injEq] at hloop
  obtain ⟨rs, heq, hrs⟩ := h.assigning primId reqs
  rw [hloop] at heq
  rw [show m' = m.setOwn rs from heq, own_setOwn]
  exact hrs

/-- What is created while the counter is above queue and log is fresh. -/
theorem CreatesAt.fresh {before : ReplicationModule n} {r : Request}
    (h : m.CreatesAt resolver order before r)
    (hcounted : ∀ m₀, m.reconcile resolver order = .ok m₀ →
      m₀.learnPendReqs.mayProcess resolver = true →
      m₀.learnPendReqs.primId resolver = m₀.learnPendReqs.id.val → Counted m₀.learnPendReqs.own) :
    before.Fresh r := by
  obtain ⟨m₀, reqs, req, rest, created, hrec, hmay, hprim, -, hloop, hcreate⟩ := h
  obtain ⟨rs, hbefore, hrs⟩ := (hcounted m₀ hrec hmay hprim).assigning
    (m₀.learnPendReqs.primId resolver) reqs
  rw [hloop] at hbefore
  rw [show before = m₀.learnPendReqs.setOwn rs from hbefore] at hcreate ⊢
  rw [assignSeqNum_setOwn] at hcreate
  split at hcreate
  · have hr := List.singleton_inj.mp (List.append_cancel_left hcreate)
    apply Counted.fresh
    · rw [own_setOwn]
      exact hrs
    · rw [own_setOwn, ← hr]
      show rs.seqNum < rs.seqNum + 1
      omega
  · simp at hcreate

/-! ## Committing and executing -/

/-- What is listed with a status is listed with less. -/
theorem listed_sublist {status status' : Status} (h : status ⊆ status') (rs : ReplicaStructure) :
    (listed status' rs).Sublist (listed status rs) := by
  apply List.Sublist.append _ (List.Sublist.refl _)
  apply List.Sublist.map
  apply List.monotone_filter_right
  intro q hq
  simp only [decide_eq_true_eq] at hq ⊢
  exact h.trans hq

/-- What is supported after the commits was supported before, or is in the own queue. -/
theorem supportedReqs_commitReqs {r : Request}
    (h : r ∈ m.commitReqs.supportedReqs {.prep, .commit}) :
    r ∈ m.commitReqs.own.queued ∨ r ∈ m.supportedReqs {.prep} := by
  obtain ⟨rs, heq, hlog⟩ := commitReqs_invariant (m := m) (P := fun rs => rs.rLog = m.own.rLog) rfl
    fun rs r hrs _ => by rw [committedOwn_rLog, hrs]
  rw [heq] at h ⊢
  rw [own_setOwn]
  by_cases hq : r ∈ rs.queued
  · exact Or.inl hq
  right
  rw [mem_supportedReqs, own_setOwn, ReplicaStructure.logged, hlog] at h
  obtain ⟨⟨j, hj⟩, hcount, hnot⟩ := h
  -- the own structure does not list it, and the others list it as before
  have hown : r ∉ listed {.prep, .commit} ((m.setOwn rs).rep m.id) := by
    rw [show (m.setOwn rs).rep m.id = rs from own_setOwn m rs]
    intro hmem
    rcases queued_or_logged_of_mem_listed hmem with hqueued | hlogged
    · exact hq hqueued
    · rw [ReplicaStructure.logged, hlog] at hlogged
      exact hnot hlogged
  have hle : ∀ i, (listed {.prep, .commit} ((m.setOwn rs).rep i)).count r ≤
      (listed {.prep} (m.rep i)).count r := by
    intro i
    by_cases hi : i = m.id
    · rw [hi, List.count_eq_zero_of_not_mem hown]
      exact Nat.zero_le _
    · rw [rep_setOwn_of_ne hi]
      exact (listed_sublist (by decide) _).count_le r
  have hj' : 0 < (listed {.prep} (m.rep j)).count r :=
    Nat.lt_of_lt_of_le (List.count_pos_iff.mpr hj) (hle j)
  have hall := Counter.count_flatMap_mono hle
  rw [setOwn_numberOfByzantine] at hcount
  exact mem_supportedReqs.mpr ⟨⟨j, List.count_pos_iff.mp hj'⟩, by omega, hnot⟩

/-- Committing and executing keep the counter above what is supported. -/
theorem Counted.finish (h : Counted m.own)
    (hsupported : ∀ r ∈ m.supportedReqs {.prep}, r.seqNum ≤ m.own.seqNum) :
    Counted (executeReqs (m.commitReqs.supportedReqs {.prep, .commit}) m.commitReqs []).1.own := by
  obtain ⟨rs, heq, hrs, hseq⟩ := commitReqs_invariant (m := m)
    (P := fun rs => Counted rs ∧ rs.seqNum = m.own.seqNum) ⟨h, rfl⟩ (by
      rintro rs r ⟨hrs, hseq⟩ hr
      refine ⟨hrs.committed ?_, by rw [committedOwn_seqNum, hseq]⟩
      rw [hseq]
      exact hsupported r hr)
  have hreqs : ∀ r ∈ m.commitReqs.supportedReqs {.prep, .commit}, r.seqNum ≤ m.own.seqNum := by
    intro r hr
    cases supportedReqs_commitReqs hr with
    | inl hq =>
      rw [heq, own_setOwn] at hq
      exact hseq ▸ hrs.numbers.queued r hq
    | inr hs => exact hsupported r hs
  obtain ⟨rs', -, hafter, ⟨hrs', -⟩, -⟩ := executeReqs_invariant (m := m.commitReqs)
    (P := fun rs _ => Counted rs ∧ rs.seqNum = m.own.seqNum)
    (m.commitReqs.supportedReqs {.prep, .commit})
    (by
      rw [heq, own_setOwn]
      exact ⟨hrs, hseq⟩)
    (fun _ _ _ hrs => ⟨⟨hrs.1.start, hrs.1.numbers.of_eq rfl rfl⟩, hrs.2⟩)
    (by
      rintro rs committed r xSet lastReq hr ⟨hrs, hseq⟩ - -
      exact ⟨hrs.executed (by rw [hseq]; exact hreqs r hr) xSet lastReq, hseq⟩)
  rw [hafter, own_setOwn]
  exact hrs'

/-! ## What an iteration brings in -/

/-- The primary of the own structure; without self-stabilization it is 0. -/
def ownPrim (m : ReplicationModule n) : Int := if m.selfStab then m.own.prim else 0

/-- No view change is under way, and the processor is the primary of its own structure or
    of the view that it is told. -/
def Leads (m : ReplicationModule n) (resolver : Resolver n) : Prop :=
  m.own.viewChanged = false ∧ (m.ownPrim = m.id.val ∨
    ((!m.selfStab || resolver.allowService) = true ∧ m.primId resolver = m.id.val))

instance (m : ReplicationModule n) (resolver : Resolver n) : Decidable (m.Leads resolver) :=
  inferInstanceAs (Decidable (_ ∧ _))

/-- The counter of a new primary after it has renewed its queue. -/
def renewedSeqNum (m : ReplicationModule n) (slots : List (Fin n)) : Int :=
  m.newSeq + m.gapsFilled.own.reqQ.countP fun q => m.Renewed slots q

/-- A new primary that takes over a state keeps no entry and takes no log entry with a number
    above its counter. -/
def RenewsCounted (m : ReplicationModule n) (resolver : Resolver n) (order : SetOrder Int) : Prop :=
  m.own.viewChanged = true → m.own.prim = m.id.val →
    (m.reportingSlots resolver).Returns fun slots =>
      (n : Int) - m.numberOfByzantine ≤ slots.length →
        (m.takenState resolver order).Returns fun x => x.repState.isSome = true →
          (∀ q ∈ m.gapsFilled.own.reqQ, ¬ m.Renewed slots q →
            q.request.seqNum ≤ m.renewedSeqNum slots) ∧
          ∀ e ∈ x.rLog, e.request.seqNum ≤ m.renewedSeqNum slots

instance (m : ReplicationModule n) (resolver : Resolver n) (order : SetOrder Int) :
    Decidable (m.RenewsCounted resolver order) := inferInstanceAs (Decidable (_ → _))

/-- The module when it consolidates. -/
def viewed (m : ReplicationModule n) (resolver : Resolver n) (order : SetOrder Int) :
    Py (ReplicationModule n) :=
  if resolver.allowService then (m.noticeView resolver).actOnViewChange resolver order else pure m

theorem unflushed_eq (m : ReplicationModule n) (resolver : Resolver n) (order : SetOrder Int) :
    m.unflushed resolver order = m.viewed resolver order >>= consolidate := by
  rw [unflushed, viewed]
  cases resolver.allowService with
  | false => rfl
  | true => rfl

/-- A primary adopts no log with a number above its counter. -/
def AdoptsCounted (m : ReplicationModule n) (resolver : Resolver n) : Prop :=
  m.Leads resolver → m.Adopts →
    m.consolidated.Returns fun x => ∀ e ∈ x.rLog, e.request.seqNum ≤ m.own.seqNum

instance (m : ReplicationModule n) (resolver : Resolver n) :
    Decidable (m.AdoptsCounted resolver) := inferInstanceAs (Decidable (_ → _))

/-- A primary that commits finds no request supported that has a number above its counter. -/
def CommitsCounted (m : ReplicationModule n) (resolver : Resolver n) (order : SetOrder Int) :
    Prop :=
  m.primId resolver = m.id.val → (m.prepared resolver order).Returns fun st =>
    st.2.2 = true → ∀ r ∈ st.1.supportedReqs {.prep}, r.seqNum ≤ st.1.own.seqNum

instance (m : ReplicationModule n) (resolver : Resolver n) (order : SetOrder Int) :
    Decidable (m.CommitsCounted resolver order) := inferInstanceAs (Decidable (_ → _))

/-- What an iteration brings into queue and log of a primary is not above its counter,
    unless it is flushed at once. -/
def BringsCounted (m : ReplicationModule n) (resolver : Resolver n) (order : SetOrder Int) : Prop :=
  (m.selfStab = true → ¬ m.Flushes resolver order →
    (resolver.allowService = true → (m.noticeView resolver).RenewsCounted resolver order) ∧
      (m.viewed resolver order).Returns fun m₁ => m₁.AdoptsCounted resolver) ∧
  m.CommitsCounted resolver order

instance (m : ReplicationModule n) (resolver : Resolver n) (order : SetOrder Int) :
    Decidable (m.BringsCounted resolver order) := inferInstanceAs (Decidable (_ ∧ _))

/-! ## View change, consolidation and flush -/

/-- The settings of a module, and as its primary the one that it is told, or none after TEE. -/
def toldView (m : ReplicationModule n) (view : Int) : Containers n :=
  { Containers.settled m with
    prim := fun p => p = view ∨ p = -1
    prim_tee := Or.inr rfl }

theorem toldView_viewed (hservice : resolver.allowService = true)
    (h : m.viewed resolver order = .ok m') :
    (toldView m (resolver.currentView m.id)).Table m' := by
  rw [viewed, if_pos hservice] at h
  have hnotice : (toldView m (resolver.currentView m.id)).Table (m.noticeView resolver) :=
    ⟨⟨rfl, rfl, rfl, rfl⟩, fun _ => ⟨trivial, trivial, trivial, trivial, trivial⟩,
      Or.inl (by rw [noticeView, own_setOwn]), trivial⟩
  exact hnotice.actOnViewChange h

/-- The processor acts on a view change to itself as the new primary. -/
theorem actOnViewChange_prim (hprim : m.own.prim = m.id.val)
    (h : m.actOnViewChange resolver order = .ok m') :
    (m.own.viewChanged = false ∧ m' = m) ∨
      (m.own.viewChanged = true ∧ m.actAsPrimWhenViewChanged resolver order = .ok m') := by
  cases hview : m.own.viewChanged with
  | false =>
    simp only [actOnViewChange, hview, Bool.false_eq_true, false_and, if_false, pure, Except.pure,
      Except.ok.injEq] at h
    exact Or.inl ⟨rfl, h.symm⟩
  | true =>
    simp only [actOnViewChange, hview, hprim, true_and, if_true] at h
    exact Or.inr ⟨rfl, h⟩

/-- A new primary that completes has a counter above queue and log. -/
theorem Counted.actAsPrim (hview : m.own.viewChanged = true) (hprim : m.own.prim = m.id.val)
    (hrenews : m.RenewsCounted resolver order)
    (h : m.actAsPrimWhenViewChanged resolver order = .ok m') (hdone : m'.own.viewChanged = false) :
    Counted m'.own := by
  obtain ⟨slots, hslots, hcase⟩ := actAsPrim_result h
  rcases hcase with ⟨-, rfl⟩ | ⟨hmany, x, hx, hcase⟩
  · simp [hview] at hdone
  rcases hcase with ⟨-, rs, rfl⟩ | ⟨hsome, need, hneed, hlog, hseq, hqueue⟩
  · rw [own_setOwn]
    exact Counted.of_empty rfl rfl rfl
  obtain ⟨hkept, htaken⟩ := hrenews hview hprim slots hslots hmany x hx hsome
  -- the counter moves on by the number of entries that are renewed
  have hcount : m'.own.seqNum = m.renewedSeqNum slots := by
    rw [hseq, renumber_fst, renewedSeqNum]
    congr 2
    apply List.countP_congr
    intro q hq
    simp [hneed, hq]
  have hstart : -1 ≤ m.newSeq := by
    apply le_max_of_le_right
    apply List.foldl_invariant (P := fun seq : Int => -1 ≤ seq) _ _ (Int.le_refl _)
    exact fun seq q _ hseq => le_max_of_le_left hseq
  refine ⟨?_, fun r hr => ?_, fun r hr => ?_⟩
  · rw [hcount, renewedSeqNum]
    omega
  · obtain ⟨q, hq, rfl⟩ := ReplicaStructure.mem_queued.mp hr
    have hmem : q.request.seqNum ∈ seqNums m'.own.reqQ := List.mem_map_of_mem hq
    rw [hqueue, mem_seqNums_renumber] at hmem
    rcases hmem with ⟨q', hq', hnot, heq⟩ | ⟨-, hle⟩
    · rw [hcount, ← heq]
      exact hkept q' hq' fun hren => hnot ((hneed q').mpr ⟨hq', hren⟩)
    · rwa [hseq, renumber_fst]
  · rw [ReplicaStructure.logged, hlog] at hr
    obtain ⟨e, he, rfl⟩ := List.mem_map.mp hr
    rw [hcount]
    exact htaken e he

/-- Between iterations: the counter of a primary is above its queue and log. -/
def Counting (m : ReplicationModule n) : Prop :=
  m.own.viewChanged = false → m.ownPrim = m.id.val → Counted m.own

/-- A new view is noticed by a processor that is not TEE, if it is another one. -/
theorem noticeView_viewChanged (h : (m.noticeView resolver).own.viewChanged = false) :
    m.own.viewChanged = false ∧ (m.own.isTee = true ∨ resolver.currentView m.id = m.own.prim) := by
  simp only [noticeView, own_setOwn] at h
  split at h
  · cases h
  · rename_i hnot
    refine ⟨Bool.eq_false_iff.mpr hnot, ?_⟩
    by_contra hother
    rw [not_or] at hother
    simp [hother.1, hother.2] at h

/-- A processor that leads after the view change has a counter above queue and log. -/
theorem Counting.viewed (h : m.Counting) (hstab : m.selfStab = true)
    (hrenews : resolver.allowService = true →
      (m.noticeView resolver).RenewsCounted resolver order)
    (hview : m.viewed resolver order = .ok m') (hleads : m'.Leads resolver) : Counted m'.own := by
  obtain ⟨hdone, hlead⟩ := hleads
  cases hservice : resolver.allowService with
  | false =>
    rw [ReplicationModule.viewed, hservice] at hview
    cases hview
    simp only [hstab, hservice, Bool.not_true, Bool.or_self, Bool.false_eq_true, false_and,
      or_false] at hlead
    exact h hdone hlead
  | true =>
    have htold := toldView_viewed hservice hview
    obtain ⟨hid, -, -, hstab'⟩ := htold.settings
    -- the view is the own one
    have hself : resolver.currentView m.id = m.id.val := by
      rw [ownPrim, primId, hstab', hstab, if_pos rfl, if_pos rfl, hid] at hlead
      rcases hlead with hprim | ⟨-, hprim⟩
      · rcases htold.prim with heq | hnone
        · rw [← heq, hprim]
        · omega
      · exact hprim
    have hprim : (m.noticeView resolver).own.prim = (m.noticeView resolver).id.val := by
      rw [noticeView, own_setOwn]
      exact hself
    rw [ReplicationModule.viewed, if_pos hservice] at hview
    rcases actOnViewChange_prim hprim hview with ⟨hnone, rfl⟩ | ⟨hchanged, hact⟩
    · obtain ⟨hold, htee | hsame⟩ := noticeView_viewChanged hnone
      · rw [ReplicaStructure.isTee, decide_eq_true_iff] at htee
        rw [noticeView, own_setOwn]
        exact Counted.of_empty htee.2.2.2.1 htee.2.1 htee.2.2.2.2.2.1
      · have hown : m.ownPrim = m.id.val := by rw [ownPrim, if_pos hstab, ← hsame, hself]
        have hcounted := h hold hown
        rw [noticeView, own_setOwn]
        exact hcounted.of_eq rfl rfl rfl
    · exact Counted.actAsPrim hchanged hprim (hrenews hservice) hact hdone

/-- Consolidation leaves the counter of a processor that leads above queue and log. -/
theorem Counted.consolidate (hcounted : m.Leads resolver → Counted m.own)
    (hadopts : m.AdoptsCounted resolver) (h : m.consolidate = .ok m') (hleads : m'.Leads resolver) :
    Counted m'.own := by
  obtain ⟨x, hx, hcase⟩ := consolidate_adopts h
  rcases hcase with ⟨-, rfl⟩ | ⟨hadopt, -, rfl⟩
  · have hleads' : m.Leads resolver := by
      rw [Leads, ownPrim, own_setOwn] at hleads
      exact hleads
    rw [own_setOwn]
    exact (hcounted hleads').of_eq rfl rfl rfl
  · have hleads' : m.Leads resolver := by
      rw [Leads, ownPrim, own_setOwn] at hleads
      exact hleads
    have hold := hcounted hleads'
    have hlog := hadopts hleads' hadopt x hx
    rw [own_setOwn]
    refine ⟨hold.start, hold.numbers.queued, fun r hr => ?_⟩
    obtain ⟨e, he, rfl⟩ := ReplicaStructure.mem_logged.mp hr
    exact hlog e he

/-- Reconciling leaves the counter of a processor that leads above queue and log. -/
theorem Counting.reconcile (h : m.Counting) (hbrings : m.BringsCounted resolver order)
    (hrec : m.reconcile resolver order = .ok m') (hleads : m'.Leads resolver) :
    Counted m'.own := by
  rw [reconcile_eq] at hrec
  cases hstab : m.selfStab with
  | false =>
    -- without self-stabilization the primary is 0
    rw [hstab, if_neg Bool.false_ne_true] at hrec
    cases hrec
    obtain ⟨hdone, hlead⟩ := hleads
    apply h hdone
    rcases hlead with hprim | ⟨-, hprim⟩
    · exact hprim
    · rw [primId, hstab] at hprim
      rw [ownPrim, hstab]
      exact hprim
  | true =>
    rw [if_pos hstab] at hrec
    obtain ⟨m₂, hm₂, hrec⟩ := Py.of_bind hrec
    rcases flushStep_spec hrec with ⟨hstays, rfl⟩ | ⟨hflushes, needFlush, -, rfl⟩
    · have hnot : ¬ m.Flushes resolver order := by
        rintro ⟨-, m₂', hm₂', hflushes⟩
        cases hm₂.symm.trans hm₂'
        exact hstays hflushes
      obtain ⟨hrenews, hadopts⟩ := hbrings.1 hstab hnot
      rw [unflushed_eq] at hm₂
      obtain ⟨m₁, hm₁, hcons⟩ := Py.of_bind hm₂
      exact Counted.consolidate (h.viewed hstab hrenews hm₁) (hadopts m₁ hm₁) hcons hleads
    · exact Counted.of_empty rfl rfl rfl

/-! ## Iterations -/

/-- A primary that may process requests has a counter above queue and log. -/
theorem Counting.learned (h : m.Counting) (hbrings : m.BringsCounted resolver order)
    {m₀ : ReplicationModule n} (hrec : m.reconcile resolver order = .ok m₀)
    (hmay : m₀.learnPendReqs.mayProcess resolver = true)
    (hprim : m₀.learnPendReqs.primId resolver = m₀.learnPendReqs.id.val) :
    Counted m₀.learnPendReqs.own := by
  simp only [mayProcess, Bool.and_eq_true, Bool.not_eq_true', learnPendReqs, own_setOwn] at hmay
  obtain ⟨⟨⟨hservice, -⟩, -⟩, hdone⟩ := hmay
  have hleads : m₀.Leads resolver := ⟨hdone, Or.inr ⟨hservice, hprim⟩⟩
  rw [learnPendReqs, own_setOwn]
  exact (h.reconcile hbrings hrec hleads).of_eq rfl rfl rfl

/-- A processor that ends an iteration as the primary of its structure was told so. -/
theorem primId_of_ownPrim (hservice : (!m.selfStab || resolver.allowService) = true)
    {it : Iteration n} (hrun : m.run resolver order = .ok it)
    (hprim : it.after.ownPrim = it.after.id.val) : m.primId resolver = m.id.val := by
  obtain ⟨hid, -, -, hstab'⟩ := Containers.Table.settings_run hrun
  rw [ownPrim, hstab', hid] at hprim
  cases hstab : m.selfStab with
  | false =>
    rw [hstab] at hprim
    rw [primId, hstab]
    exact hprim
  | true =>
    rw [hstab, if_pos rfl] at hprim
    rw [hstab, Bool.not_true, Bool.false_or] at hservice
    obtain ⟨m₀, hrec, -⟩ := Py.of_bind hrun
    have hrec' := hrec
    rw [reconcile_eq, if_pos hstab, unflushed_eq] at hrec'
    obtain ⟨m₂, hm₂, hflush⟩ := Py.of_bind hrec'
    obtain ⟨m₁, hm₁, hcons⟩ := Py.of_bind hm₂
    have htold :=
      ((toldView_viewed hservice hm₁).consolidate hcons).flushStep (fun _ => trivial) hflush
    rw [primId, hstab, if_pos rfl]
    rcases (htold.processed hrec hrun).prim with heq | hnone
    · rw [← heq, hprim]
    · omega

/-- An iteration that brings in no number above the counter keeps the counter above queue
    and log. -/
theorem Counting.run (h : m.Counting) (hbrings : m.BringsCounted resolver order)
    {it : Iteration n} (hrun : m.run resolver order = .ok it) : it.after.Counting := by
  intro hdone hprim
  obtain ⟨m₁, created, processing, hprep, -, hrest⟩ := run_cases hrun
  obtain ⟨m₀, hrec, hcase⟩ := prepared_cases hprep
  rcases hcase with ⟨rfl, rfl, -⟩ | ⟨rfl, hmay, hprepare⟩
  · -- no request is processed
    obtain ⟨-, hafter, -⟩ := hrest.resolve_right (by simp)
    rw [hafter, ownPrim, learnPendReqs, own_setOwn] at hprim
    rw [hafter, learnPendReqs, own_setOwn] at hdone ⊢
    have hleads : m₀.Leads resolver := ⟨hdone, Or.inl hprim⟩
    exact (h.reconcile hbrings hrec hleads).of_eq rfl rfl rfl
  · obtain ⟨-, hexec⟩ := hrest.resolve_left (by simp)
    obtain ⟨hid, -, -, hstab⟩ := Containers.Table.settings_reconcile hrec
    have hview : m₀.learnPendReqs.primId resolver = m.primId resolver := by
      simp only [primId, learnPendReqs, setOwn_selfStab, setOwn_id, hid, hstab]
    -- it is the primary that processes requests
    have hself : m.primId resolver = m.id.val := by
      refine primId_of_ownPrim ?_ hrun hprim
      simp only [mayProcess, Bool.and_eq_true, learnPendReqs, setOwn_selfStab, hstab] at hmay
      exact hmay.1.1.1
    have hself₀ : m₀.learnPendReqs.primId resolver = m₀.learnPendReqs.id.val := by
      rw [hview, hself, learnPendReqs, setOwn_id, hid]
    have hassign := ((prepareReqs_cases hprepare).resolve_right fun hnot => hnot.1 hself₀).2
    have hcounted := (h.learned hbrings hrec hmay hself₀).assignSeqNums hassign
    have hfinish := hcounted.finish (hbrings.2 hself _ hprep rfl)
    rw [← hexec] at hfinish
    exact hfinish

end ReplicationModule

open ReplicationModule

/-! ## Runs -/

/-- An iteration brings nothing into queue and log of a primary that is above its counter. -/
def StaysCounted {n : Nat} (s : Node n) : Node.Command n → Prop
  | .own (.iterate order) => s.module.BringsCounted s.resolver order
  | .own (.inject _) | .own (.surroundings _) | .replicaFlush | .repRequestReset => True

instance {n : Nat} (s : Node n) (command : Node.Command n) : Decidable (StaysCounted s command) :=
  match command with
  | .own (.iterate order) => inferInstanceAs (Decidable (s.module.BringsCounted s.resolver order))
  | .own (.inject _) | .own (.surroundings _) | .replicaFlush | .repRequestReset => .isTrue trivial

/-- Between iterations the counter of every processor that is the primary is above its queue
    and log. -/
structure CountsAt {n : Nat} (i : Fin n) (s : Node n) : Prop where
  id : s.module.id = i
  counting : s.module.Counting

namespace CountsAt

variable {n : Nat} {i : Fin n} {s s' : Node n}

theorem init (i : Fin n) (f k : Nat) (selfStab : Bool) (resolver : Resolver n) :
    CountsAt i (Node.init i f k selfStab resolver) :=
  ⟨rfl, fun _ _ => Counted.of_empty rfl rfl rfl⟩

theorem perform (h : CountsAt i s) {command : Node.Command n} (hcounted : StaysCounted s command)
    (hstep : s.perform AnyView i command = some s') : CountsAt i s' := by
  cases command with
  | own action =>
    cases action with
    | iterate order =>
      obtain ⟨-, it, hrun, rfl⟩ := Node.run_of_iterate hstep
      exact ⟨(Containers.Table.settings_run hrun).1.trans h.id, h.counting.run hcounted hrun⟩
    | inject req =>
      cases hstep
      refine ⟨h.id, fun hdone hprim => ?_⟩
      simp only [Node.inject, injectClientReq, own_setOwn, ownPrim, setOwn_selfStab]
        at hdone hprim ⊢
      exact (h.counting hdone hprim).of_eq rfl rfl rfl
    | surroundings resolver =>
      simp only [Node.perform, Node.protocol, Option.ite_none_right_eq_some,
        Option.some.injEq] at hstep
      obtain ⟨-, rfl⟩ := hstep
      exact ⟨h.id, h.counting⟩
  | replicaFlush =>
    cases hstep
    exact ⟨h.id, h.counting⟩
  | repRequestReset =>
    cases hstep
    rw [repRequestReset_eq]
    exact ⟨h.id, h.counting⟩

/-- A structure of another processor leaves the own one alone. -/
theorem receive (h : CountsAt i s) {j : Fin n} (hne : j ≠ i) (rep : ReplicaStructure) :
    CountsAt i { s with module := s.module.receiveRepMsg s.resolver j rep } := by
  have hown : (s.module.receiveRepMsg s.resolver j rep).own = s.module.own :=
    own_receiveRepMsg (h.id ▸ hne)
  refine ⟨by simpa using h.id, ?_⟩
  simp only [Counting, ownPrim, hown, receiveRepMsg_id, receiveRepMsg_selfStab]
  exact h.counting

end CountsAt

/-- In every run of correct processors whose iterations bring nothing into queue and log of
    a primary that is above its counter, an iteration that does not either creates only
    requests with fresh numbers. -/
theorem created_fresh {n f k : Nat} {selfStab : Bool}
    {net : Network (Fin n) (Node n) ReplicaStructure}
    (h : (Node.together AnyView f k selfStab).Run
      (Network.locally fun _ s command => StaysCounted s command) net) {i : Fin n}
    {order : SetOrder Int} (hnext : StaysCounted (net.nodes i) (.own (.iterate order)))
    {before : ReplicationModule n} {r : Request}
    (hcreates : (net.nodes i).module.CreatesAt (net.nodes i).resolver order before r) :
    before.Fresh r := by
  have hcounts : CountsAt i (net.nodes i) := by
    apply Node.of_together (I := CountsAt) (R := fun _ => True) _ _ _ _ h
    · exact fun i resolver _ => CountsAt.init i f k selfStab resolver
    · exact fun i command s s' hs hcounted hstep => hs.perform hcounted hstep
    · exact fun _ _ _ => trivial
    · exact fun i s j rep hs hne _ => hs.receive hne rep
  exact hcreates.fresh fun m₀ hrec hmay hprim => hcounts.counting.learned hnext hrec hmay hprim

/-- The second request that processor 0 numbers has number 1. -/
theorem created_fresh_second :
    ∃ (net : Network (Fin 6) (Node 6) ReplicaStructure) (before : ReplicationModule 6),
      (net.nodes 0).module.CreatesAt (net.nodes 0).resolver .insertion before
        ⟨⟨0, some 2, .append 8⟩, 0, 1⟩ ∧
      before.Fresh ⟨⟨0, some 2, .append 8⟩, 0, 1⟩ := by
  have hexec : (System.exec (Network.nextIf (Node.commandProtocol AnyView) ∅
      (Network.locally fun _ s command => StaysCounted s command)) (sixStarted 1)
      [.act 0 (.own (.inject ⟨0, some 1, .append 7⟩)), .act 0 (.own (.iterate .insertion)),
        .act 0 (.own (.inject ⟨0, some 2, .append 8⟩))]).any (fun net =>
      StaysCounted (net.nodes 0) (.own (.iterate .insertion)) ∧
      (net.nodes 0).module.createsOne (net.nodes 0).resolver .insertion
        ⟨⟨0, some 2, .append 8⟩, 0, 1⟩ (fun _ => true) = true) = true := by
    decide +kernel
  obtain ⟨net, hrun, hp⟩ := Network.Run.of_exec (.init (sixStarted_init 1)) hexec
  obtain ⟨hnext, hany⟩ := of_decide_eq_true hp
  obtain ⟨before, hcreates, -⟩ := exists_createsAt hany
  exact ⟨net, before, hcreates, created_fresh hrun hnext hcreates⟩

/-! ## A flushed primary -/

/-- Moves whose actions are commands. -/
def commanding (moves : SixMoves) : List (Network.Move (Fin 6) (Node.Command 6) ReplicaStructure) :=
  moves.map fun
    | .act i action => .act i (.own action)
    | .relay i j => .relay i j
    | .forge i j rs => .forge i j rs

/-- Processors 1 to 4 execute the request that the primary 0 numbered. Processor 0 is flushed
    before it does, adopts their log, and is given the next request. -/
def flushedRun : List (Network.Move (Fin 6) (Node.Command 6) ReplicaStructure) :=
  commanding
    ([0, 1, 2, 3, 4].map (fun i => .act i (.inject ⟨0, some 1, .append 7⟩)) ++
      telling [1, 2, 3, 4] [1, 2, 3, 4] ++ iterating [0] ++ telling [0] [1, 2, 3, 4] ++
      iterating [1, 2, 3, 4] ++ telling [1, 2, 3, 4] [1, 2, 3, 4] ++
      iterating [1, 2, 3, 4] ++ telling [1, 2, 3, 4] [1, 2, 3, 4] ++
      iterating [1, 2, 3, 4] ++ telling [1, 2, 3, 4] [1, 2, 3, 4] ++ iterating [1, 2, 3, 4]) ++
  [.act 0 .replicaFlush] ++
  commanding (iterating [0] ++ telling [1, 2, 3, 4] [0] ++ iterating [0] ++
    [.act 0 (.inject ⟨0, some 2, .append 8⟩)])

/-- The primary numbers the next request like the one that is executed. -/
theorem created_again :
    ∃ (net : Network (Fin 6) (Node 6) ReplicaStructure) (before : ReplicationModule 6),
      (Node.together AnyView 1 1 true).Reachable net ∧
      (net.nodes 0).module.CreatesAt (net.nodes 0).resolver .insertion before
        ⟨⟨0, some 2, .append 8⟩, 0, 0⟩ ∧
      before.lastExec = 0 ∧ ⟨⟨0, some 1, .append 7⟩, 0, 0⟩ ∈ before.own.logged := by
  have hexec : (System.exec (Network.play (Node.commandProtocol AnyView) ∅ fun _ _ => True)
      (sixStarted 1) flushedRun).any (fun net =>
      (net.nodes 0).module.createsOne (net.nodes 0).resolver .insertion
        ⟨⟨0, some 2, .append 8⟩, 0, 0⟩ (fun before =>
          before.lastExec = 0 ∧ ⟨⟨0, some 1, .append 7⟩, 0, 0⟩ ∈ before.own.logged)) = true := by
    decide +kernel
  obtain ⟨net, hreach, hany⟩ := Network.Reachable.of_play (.init (sixStarted_init 1)) hexec
  obtain ⟨before, hcreates, htest⟩ := exists_createsAt hany
  exact ⟨net, before, hreach, hcreates, of_decide_eq_true htest⟩

end BFTList
