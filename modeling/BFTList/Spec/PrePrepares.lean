import BFTList.Spec.StableView

/-!
# What a backup pre-prepares

A backup asks in one function whether it accepts a known client request from the
primary, and looks up in a second loop which request of the primary's queue it
inserts. The first looks at the primary's queue and log, and passes over requests
that the backup has; the second takes the first match of the queue.

## Key results

- `acceptReqPreprep_iff`: what acceptance asks for
- `accepted_inserted_iff`: when an accepted client request is inserted
- `accepted_not_inserted`: a client request in the primary's log is accepted and not inserted
- `onePerSlot_iff`: when a backup pre-prepares one client request for each slot
- `reused_slot`: a primary that reuses a number makes it pre-prepare two
-/

namespace BFTList.ReplicationModule

variable {n : Nat} {m m' : ReplicationModule n} {p : Fin n} {c : ClientRequest}

/-! ## Acceptance -/

/-- The own queue or log has the very same request. -/
theorem requestAlreadyExists_iff {r : Request} :
    m.requestAlreadyExists r = true ↔ r ∈ m.own.queued ∨ r ∈ m.own.logged := by
  have hsame : ∀ r' : Request, (r'.clientRequest = r.clientRequest ∧ r'.seqNum = r.seqNum ∧
      r'.view = r.view) ↔ r' = r := by
    intro r'
    cases r
    cases r'
    simp only [Request.mk.injEq]
    tauto
  simp only [requestAlreadyExists, hsame, Bool.or_eq_true, List.any_eq_true, decide_eq_true_eq,
    ReplicaStructure.mem_queued, ReplicaStructure.mem_logged]

/-- The request carries the client request, the view of `p` and a number in the window. -/
def Matches (m : ReplicationModule n) (p : Fin n) (c : ClientRequest) (r : Request) : Prop :=
  r.clientRequest = c ∧ r.view = p.val ∧ m.inWindow r.seqNum = true

instance (m : ReplicationModule n) (p : Fin n) (c : ClientRequest) :
    DecidablePred (m.Matches p c) := fun _ => inferInstanceAs (Decidable (_ ∧ _))

/-- The primary has a `PRE_PREP` for the client request. -/
def HasPrePrep (m : ReplicationModule n) (p : Fin n) (c : ClientRequest) : Prop :=
  ∃ q ∈ (m.rep p).reqQ, {.prePrep} ⊆ q.status ∧ q.request.clientRequest = c

instance (m : ReplicationModule n) (p : Fin n) (c : ClientRequest) :
    Decidable (m.HasPrePrep p c) := inferInstanceAs (Decidable (∃ q ∈ _, _))

/-- A match among the requests that the own queue and log do not have. -/
def NewMatch (m : ReplicationModule n) (p : Fin n) (c : ClientRequest) (reqs : List Request) :
    Prop :=
  ∃ r ∈ reqs, m.Matches p c r ∧ r ∉ m.own.queued ∧ r ∉ m.own.logged

instance (m : ReplicationModule n) (p : Fin n) (c : ClientRequest) (reqs : List Request) :
    Decidable (m.NewMatch p c reqs) := inferInstanceAs (Decidable (∃ r ∈ _, _))

/-- A backup accepts a known client request with a `PRE_PREP` of the primary when a match
    of the primary's queue is new, and any client request with a new match in its log. -/
theorem acceptReqPreprep_iff :
    m.acceptReqPreprep c p.val = .ok true ↔
      (c ∈ m.knownPendReqs ∧ m.HasPrePrep p c ∧ m.NewMatch p c (m.rep p).queued) ∨
        m.NewMatch p c (m.rep p).logged := by
  have hnew : ∀ r, (!m.requestAlreadyExists r) = true ↔ r ∉ m.own.queued ∧ r ∉ m.own.logged := by
    intro r
    rw [Bool.not_eq_true', Bool.eq_false_iff, Ne, requestAlreadyExists_iff, not_or]
  simp only [acceptReqPreprep, existsPreprepMsg, msg, repAt_val, bind, Except.bind, pure,
    Except.pure, Except.ok.injEq, Bool.or_eq_true, Bool.and_eq_true, decide_eq_true_eq,
    List.any_map, List.any_filter, List.any_eq_true, Function.comp_apply, hnew, Matches, HasPrePrep,
    NewMatch, ReplicaStructure.queued, ReplicaStructure.logged, List.mem_map,
    exists_exists_and_eq_and, and_assoc]

theorem acceptReqPreprep_total (m : ReplicationModule n) (p : Fin n) (c : ClientRequest) :
    ∃ b, m.acceptReqPreprep c p.val = .ok b := by
  simp only [acceptReqPreprep, existsPreprepMsg, msg, repAt_val, bind, Except.bind, pure,
    Except.pure]
  exact ⟨_, rfl⟩

/-! ## Insertion -/

/-- What is inserted is the first match of the primary's queue. -/
theorem offeredReq_eq :
    m.offeredReq p.val (m.rep p).reqQ c = (m.rep p).queued.find? (m.Matches p c ·) := by
  rw [ReplicaStructure.queued, List.find?_map]
  rfl

theorem offeredReq_spec {r : Request} (h : m.offeredReq p.val (m.rep p).reqQ c = some r) :
    r ∈ (m.rep p).queued ∧ m.Matches p c r := by
  rw [offeredReq_eq] at h
  have hmatch := List.find?_some h
  exact ⟨List.mem_of_find?_eq_some h, of_decide_eq_true hmatch⟩

/-- The step for one client request. -/
theorem prePrepReq_eq (m : ReplicationModule n) (p : Fin n) (c : ClientRequest) :
    prePrepReq p.val m c = .ok (if m.acceptReqPreprep c p.val = .ok true then
        match m.offeredReq p.val (m.rep p).reqQ c with
        | some r => m.setOwn (m.own.addToReqQ ⟨r, {.prePrep}⟩)
        | none => m
      else m) := by
  obtain ⟨b, hb⟩ := acceptReqPreprep_total m p c
  cases b with
  | false => simp [prePrepReq, hb, bind, Except.bind, pure, Except.pure]
  | true =>
    simp only [prePrepReq, hb, repAt_val, bind, Except.bind, if_true]
    cases m.offeredReq p.val (m.rep p).reqQ c with
    | none => rfl
    | some r => rfl

/-- If the primary offers anything new for the client request, in the queue or in the log,
    then the first match of its queue is not in the own queue. -/
def OffersNew (m : ReplicationModule n) (p : Fin n) (c : ClientRequest) : Prop :=
  (m.HasPrePrep p c ∧ m.NewMatch p c (m.rep p).queued) ∨ m.NewMatch p c (m.rep p).logged →
    ∃ r, (m.rep p).queued.find? (m.Matches p c ·) = some r ∧ r ∉ m.own.queued

instance (m : ReplicationModule n) (p : Fin n) (c : ClientRequest) :
    Decidable (m.OffersNew p c) :=
  inferInstanceAs (Decidable (_ → ∃ r, (m.rep p).queued.find? _ = some r ∧ _))

/-- A known client request, with room in the own queue: if it is accepted, it is queued
    under the view of the primary and a new number of the window, and if not, the queue
    stays, iff the first match of the primary's queue is new whenever the primary offers
    something new. -/
theorem accepted_inserted_iff (hroom : m.own.reqQ.length < SIGMA * m.own.numberOfClients)
    (hc : c ∈ m.knownPendReqs) (p : Fin n) :
    ∃ b m', m.acceptReqPreprep c p.val = .ok b ∧ prePrepReq p.val m c = .ok m' ∧
      (((b = true → ∃ r ∈ m'.own.queued, r ∉ m.own.queued ∧ r.clientRequest = c ∧
            r.view = p.val ∧ m.lastExec < r.seqNum ∧
            r.seqNum ≤ m.lastExec + SIGMA * m.numberOfClients) ∧
          (b = false → m'.own.reqQ = m.own.reqQ)) ↔ m.OffersNew p c) := by
  obtain ⟨b, hb⟩ := acceptReqPreprep_total m p c
  refine ⟨b, _, hb, prePrepReq_eq m p c, ?_⟩
  have haccept : (m.HasPrePrep p c ∧ m.NewMatch p c (m.rep p).queued) ∨
      m.NewMatch p c (m.rep p).logged ↔ b = true := by
    have hiff := acceptReqPreprep_iff (m := m) (p := p) (c := c)
    simpa only [hb, hc, true_and, Except.ok.injEq] using hiff.symm
  rw [OffersNew, haccept, ← offeredReq_eq, hb]
  cases b with
  | false => simp
  | true =>
    simp only [if_true, forall_true_left, Bool.true_eq_false, false_imp_iff, and_true]
    cases hoffer : m.offeredReq p.val (m.rep p).reqQ c with
    | none =>
      -- nothing is inserted
      simp only [reduceCtorEq, false_and, exists_false, iff_false]
      rintro ⟨r, hr, hnew, -⟩
      exact hnew hr
    | some r =>
      simp only [own_setOwn, Option.some.injEq, exists_eq_left']
      constructor
      · rintro ⟨r', hr', hnew, -⟩ hold
        rw [ReplicaStructure.queued,
          ReplicaStructure.reqQ_addToReqQ_of_mem (Nat.le_of_lt hroom) hold] at hr'
        exact hnew hr'
      · intro hnew
        obtain ⟨-, hclient, hview, hwindow⟩ := offeredReq_spec hoffer
        simp only [inWindow, decide_eq_true_eq] at hwindow
        refine ⟨r, ?_, hnew, hclient, hview, hwindow⟩
        rw [ReplicaStructure.queued, ReplicaStructure.reqQ_addToReqQ_of_not_mem hroom hnew]
        simp

/-- The first request of processor 1 as the primary. -/
def offered : Request := ⟨⟨0, some 1, .append 1⟩, 1, 0⟩

/-- Six processors that know a client request; primary 1 has this queue and log. -/
def offerTable (reqQ : List ReqPair) (rLog : List LogEntry) : ReplicationModule 6 :=
  { init 0 1 1 true with
    rep := fun j =>
      { ReplicaStructure.init j.val 1 with
        prim := 1
        pendReqs := [offered.clientRequest]
        reqQ := if j = 1 then reqQ else []
        rLog := if j = 1 then rLog else [] } }

/-- What the primary has in its queue is inserted. -/
theorem accepted_inserted_queued :
    let m := offerTable [⟨offered, {.prePrep, .prep}⟩] []
    ∃ m', prePrepReq 1 m offered.clientRequest = .ok m' ∧ ∃ r ∈ m'.own.queued,
      r ∉ m.own.queued ∧ r.clientRequest = offered.clientRequest := by
  intro m
  have hc : offered.clientRequest ∈ m.knownPendReqs := by decide
  obtain ⟨b, m', hb, hstep, hiff⟩ := accepted_inserted_iff (by decide) hc 1
  obtain ⟨haccepted, -⟩ := hiff.mpr (by decide)
  have htrue : m.acceptReqPreprep offered.clientRequest 1 = .ok true := by decide
  cases hb.symm.trans htrue
  obtain ⟨r, hr, hnew, hclient, -⟩ := haccepted rfl
  exact ⟨m', hstep, r, hr, hnew, hclient⟩

/-- What it has executed already is accepted, and nothing is inserted. -/
theorem accepted_not_inserted :
    let m := offerTable [] [⟨offered, some {1, 2, 3, 4}⟩]
    m.own.reqQ.length < SIGMA * m.own.numberOfClients ∧
      offered.clientRequest ∈ m.knownPendReqs ∧
      m.acceptReqPreprep offered.clientRequest 1 = .ok true ∧
      (prePrepReq 1 m offered.clientRequest).map (fun m' => m'.own.reqQ) = .ok [] := by
  decide

/-! ## Slots -/

/-- One client request for each view and sequence number. -/
def OnePerSlot (reqs : List Request) : Prop :=
  ∀ r ∈ reqs, ∀ r' ∈ reqs, r.view = r'.view → r.seqNum = r'.seqNum →
    r.clientRequest = r'.clientRequest

instance (reqs : List Request) : Decidable (OnePerSlot reqs) :=
  inferInstanceAs (Decidable (∀ r ∈ reqs, ∀ r' ∈ reqs, _))

/-- None of the requests has the slot of another client request, be it one of them or one
    that the own queue or log has. -/
def Apart (m : ReplicationModule n) (reqs : List Request) : Prop :=
  ∀ r ∈ reqs, ∀ r' ∈ reqs ++ (m.own.queued ++ m.own.logged), r'.view = r.view →
    r'.seqNum = r.seqNum → r'.clientRequest = r.clientRequest

instance (m : ReplicationModule n) (reqs : List Request) : Decidable (m.Apart reqs) :=
  inferInstanceAs (Decidable (∀ r ∈ reqs, ∀ r' ∈ _, _))

theorem onePerSlot_iff_apart (hslots : OnePerSlot (m.own.queued ++ m.own.logged))
    {reqs : List Request} :
    OnePerSlot (reqs ++ (m.own.queued ++ m.own.logged)) ↔ m.Apart reqs := by
  constructor
  · intro h r hr r' hr' hview hseq
    exact h r' hr' r (List.mem_append_left _ hr) hview hseq
  · intro h r hr r' hr' hview hseq
    cases List.mem_append.mp hr' with
    | inl hnew => exact h r' hnew r hr hview hseq
    | inr hold' =>
      cases List.mem_append.mp hr with
      | inl hnew => exact (h r hnew r' hr' hview.symm hseq.symm).symm
      | inr hold => exact hslots r hold r' hold' hview hseq

/-- What the backup takes over for a client request. -/
def acceptedOffer (m : ReplicationModule n) (p : Fin n) (c : ClientRequest) : Option Request :=
  if m.acceptReqPreprep c p.val = .ok true then (m.rep p).queued.find? (m.Matches p c ·) else none

/-- What the backup takes over for all known client requests. -/
def acceptedOffers (m : ReplicationModule n) (p : Fin n) : List Request :=
  m.knownPendReqs.filterMap (m.acceptedOffer p)

theorem acceptedOffer_spec {r : Request} (h : m.acceptedOffer p c = some r) :
    r.clientRequest = c := by
  rw [acceptedOffer] at h
  split at h
  · have hmatch := List.find?_some h
    exact (of_decide_eq_true hmatch).1
  · cases h

theorem prePrepReq_acceptedOffer (m : ReplicationModule n) (p : Fin n) (c : ClientRequest) :
    prePrepReq p.val m c = .ok (match m.acceptedOffer p c with
      | some r => m.setOwn (m.own.addToReqQ ⟨r, {.prePrep}⟩)
      | none => m) := by
  rw [prePrepReq_eq, offeredReq_eq, acceptedOffer]
  split
  · rfl
  · rfl

/-- What is taken over for a client request does not depend on what the own queue has
    for others. -/
theorem acceptedOffer_setOwn (hp : p ≠ m.id) {rs : ReplicaStructure} (hlog : rs.rLog = m.own.rLog)
    (hpend : rs.pendReqs = m.own.pendReqs)
    (hqueued : ∀ r, r.clientRequest = c → (r ∈ rs.queued ↔ r ∈ m.own.queued)) :
    (m.setOwn rs).acceptedOffer p c = m.acceptedOffer p c := by
  have hmatches : (m.setOwn rs).Matches p c = m.Matches p c := by
    funext r
    simp only [Matches, inWindow, lastExec_eq, own_setOwn, hlog]
    rfl
  have hrep : (m.setOwn rs).rep p = m.rep p := rep_setOwn_of_ne hp
  have hknown : (m.setOwn rs).knownPendReqs = m.knownPendReqs := by
    have hsame : ∀ j, ((m.setOwn rs).rep j).pendReqs = (m.rep j).pendReqs := by
      intro j
      by_cases hj : j = m.id
      · subst hj
        exact (congrArg ReplicaStructure.pendReqs (own_setOwn m rs)).trans hpend
      · rw [rep_setOwn_of_ne hj]
    simp only [knownPendReqs, hsame]
    rfl
  have hnew : ∀ reqs, (m.setOwn rs).NewMatch p c reqs ↔ m.NewMatch p c reqs := by
    intro reqs
    simp only [NewMatch, hmatches, own_setOwn, ReplicaStructure.logged, hlog]
    apply exists_congr
    intro r
    by_cases hc : r.clientRequest = c
    · rw [hqueued r hc]
    · simp only [Matches, hc, false_and, and_false]
  have haccept : (m.setOwn rs).acceptReqPreprep c p.val = .ok true ↔
      m.acceptReqPreprep c p.val = .ok true := by
    simp only [acceptReqPreprep_iff, hknown, HasPrePrep, hrep, hnew]
  simp only [acceptedOffer, haccept, hrep, hmatches]

/-- The loop over client requests, with room for all it takes over. -/
theorem foldlM_prePrepReq (hp : p ≠ m.id) {cs : List ClientRequest} (hcs : cs.Nodup)
    (rs : ReplicaStructure) (hlog : rs.rLog = m.own.rLog) (hpend : rs.pendReqs = m.own.pendReqs)
    (hqueued : ∀ r, r.clientRequest ∈ cs → (r ∈ rs.queued ↔ r ∈ m.own.queued))
    (hroom : rs.reqQ.length + (cs.filterMap (m.acceptedOffer p)).length ≤
      SIGMA * rs.numberOfClients) :
    ∃ rs', cs.foldlM (prePrepReq p.val) (m.setOwn rs) = .ok (m.setOwn rs') ∧
      rs'.rLog = m.own.rLog ∧
      ∀ r, r ∈ rs'.queued ↔ r ∈ cs.filterMap (m.acceptedOffer p) ∨ r ∈ rs.queued := by
  induction cs generalizing rs with
  | nil => exact ⟨rs, rfl, hlog, fun r => by simp⟩
  | cons c cs ih =>
    obtain ⟨hc, hcs⟩ := List.nodup_cons.mp hcs
    -- for a client request that is still to come the queue is as before the loop
    have hsame : (m.setOwn rs).acceptedOffer p c = m.acceptedOffer p c := by
      apply acceptedOffer_setOwn hp hlog hpend
      intro r hr
      exact hqueued r (hr ▸ List.mem_cons_self)
    rw [List.foldlM_cons, prePrepReq_acceptedOffer, hsame]
    cases hoffer : m.acceptedOffer p c with
    | none =>
      rw [List.filterMap_cons_none hoffer] at hroom ⊢
      exact ih hcs rs hlog hpend (fun r hr => hqueued r (List.mem_cons_of_mem c hr)) hroom
    | some r₀ =>
      rw [List.filterMap_cons_some hoffer] at hroom ⊢
      simp only [List.length_cons] at hroom
      have hadded : ∀ r, r ∈ (rs.addToReqQ ⟨r₀, {.prePrep}⟩).queued ↔ r ∈ rs.queued ∨ r = r₀ := by
        intro r
        apply ReplicaStructure.mem_queued_addToReqQ_iff
        omega
      have hlength := ReplicaStructure.length_reqQ_addToReqQ_le rs ⟨r₀, {.prePrep}⟩
      obtain ⟨rs', hrun, hlog', hmem⟩ := ih hcs (rs.addToReqQ ⟨r₀, {.prePrep}⟩) hlog hpend
        (by
          -- the other client requests are not concerned
          intro r hr
          have hne : r ≠ r₀ := by
            rintro rfl
            exact hc (acceptedOffer_spec hoffer ▸ hr)
          rw [hadded, ← hqueued r (List.mem_cons_of_mem c hr)]
          exact or_iff_left hne)
        (by
          show _ ≤ SIGMA * rs.numberOfClients
          omega)
      refine ⟨rs', ?_, hlog', fun r => ?_⟩
      · simp only [bind, Except.bind, own_setOwn, setOwn_setOwn]
        exact hrun
      · rw [hmem, hadded, List.mem_cons]
        tauto

/-- A backup whose queue and log have one client request for each slot: with room for what
    it takes over, it pre-prepares one for each slot iff what it takes over is apart, and
    in any case if everything the primary offers is. -/
theorem onePerSlot_iff (hp : p ≠ m.id) (hslots : OnePerSlot (m.own.queued ++ m.own.logged)) :
    ∃ m', m.prePrepReqs p.val = .ok m' ∧
      (m.own.reqQ.length + (m.acceptedOffers p).length ≤ SIGMA * m.own.numberOfClients →
        (OnePerSlot (m'.own.queued ++ m'.own.logged) ↔ m.Apart (m.acceptedOffers p))) ∧
      (m.Apart (m.offers p) → OnePerSlot (m'.own.queued ++ m'.own.logged)) := by
  obtain ⟨m', hrun⟩ : (m.prePrepReqs p.val).Completes := by
    apply foldlM_completes_of_forall
    intro m₁ c _
    exact ⟨_, prePrepReq_acceptedOffer m₁ p c⟩
  refine ⟨m', hrun, fun hroom => ?_, fun hapart => ?_⟩
  · have hnodup : m.knownPendReqs.Nodup := Counter.nodup_keysAtLeast _ _
    obtain ⟨rs, hrs, hlog, hmem⟩ := foldlM_prePrepReq hp hnodup m.own rfl rfl
      (fun r _ => Iff.rfl) hroom
    rw [setOwn_own] at hrs
    cases hrun.symm.trans hrs
    rw [← onePerSlot_iff_apart hslots, own_setOwn]
    have hsame : ∀ r, r ∈ rs.queued ++ rs.logged ↔
        r ∈ m.acceptedOffers p ++ (m.own.queued ++ m.own.logged) := by
      intro r
      simp only [List.mem_append, hmem, ReplicaStructure.logged, hlog, acceptedOffers, or_assoc]
    simp only [OnePerSlot, hsame]
  · obtain ⟨rs, rfl, hlog, hqueued⟩ := prePrepReqs_invariant hp
      (P := fun rs => rs.rLog = m.own.rLog ∧ ∀ r ∈ rs.queued, r ∈ m.offers p ++ m.own.queued) hrun
      ⟨rfl, fun r hr => List.mem_append_right _ hr⟩
      (by
        intro rs r hrs hr
        refine ⟨hrs.1, fun r' hr' => ?_⟩
        cases ReplicaStructure.mem_queued_addToReqQ hr' with
        | inl hold => exact hrs.2 r' hold
        | inr hnew => exact hnew ▸ List.mem_append_left _ hr)
    have hmem : ∀ r ∈ rs.queued ++ rs.logged,
        r ∈ m.offers p ++ (m.own.queued ++ m.own.logged) := by
      intro r hr
      rw [← List.append_assoc]
      cases List.mem_append.mp hr with
      | inl hnew => exact List.mem_append_left _ (hqueued r hnew)
      | inr hold =>
        rw [ReplicaStructure.logged, hlog] at hold
        exact List.mem_append_right _ hold
    rw [own_setOwn]
    intro r hr r' hr' hview hseq
    exact (onePerSlot_iff_apart hslots).mpr hapart r (hmem r hr) r' (hmem r' hr') hview hseq

/-- A second client request of the same client. -/
def otherClientReq : ClientRequest := ⟨0, some 2, .append 2⟩

/-- Six processors that know two client requests, to which primary 1 gave these numbers. -/
def numberedTable (first second : Int) : ReplicationModule 6 :=
  { init 0 1 1 true with
    rep := fun j =>
      { ReplicaStructure.init j.val 1 with
        prim := 1
        pendReqs := [offered.clientRequest, otherClientReq]
        reqQ := if j = 1 then [⟨⟨offered.clientRequest, 1, first⟩, {.prePrep, .prep}⟩,
          ⟨⟨otherClientReq, 1, second⟩, {.prePrep, .prep}⟩] else [] } }

/-- The backup's queue is full of requests of view 0. -/
def crowdedTable : ReplicationModule 6 :=
  (numberedTable 3 4).setOwn { (numberedTable 3 4).own with
    reqQ := (List.range 5).map fun i : Nat => ⟨⟨⟨0, some 9, .append i⟩, 0, i⟩, {.prePrep}⟩ }

/-- With two numbers a backup pre-prepares both, be there room or not. -/
theorem onePerSlot_numbered :
    (∃ m', (numberedTable 0 1).prePrepReqs 1 = .ok m' ∧ m'.own.queued.length = 2 ∧
      OnePerSlot (m'.own.queued ++ m'.own.logged)) ∧
    ∃ m', crowdedTable.prePrepReqs 1 = .ok m' ∧
      m'.own.queued.map (·.seqNum) = [2, 3, 4, 3, 4] ∧
      OnePerSlot (m'.own.queued ++ m'.own.logged) := by
  constructor
  · obtain ⟨m', hrun, hlength⟩ := Py.exists_of_any (x := (numberedTable 0 1).prePrepReqs 1)
      (p := fun m' => m'.own.queued.length = 2) (by decide)
    obtain ⟨m₁, hrun₁, hiff, -⟩ := onePerSlot_iff (m := numberedTable 0 1) (p := 1)
      (by decide) (by decide)
    cases hrun.symm.trans hrun₁
    exact ⟨m', hrun, of_decide_eq_true hlength, (hiff (by decide)).mpr (by decide)⟩
  · obtain ⟨m', hrun, hnums⟩ := Py.exists_of_any (x := crowdedTable.prePrepReqs 1)
      (p := fun m' => m'.own.queued.map (·.seqNum) = [2, 3, 4, 3, 4]) (by decide)
    obtain ⟨m₁, hrun₁, -, hall⟩ := onePerSlot_iff (m := crowdedTable) (p := 1)
      (by decide) (by decide)
    cases hrun.symm.trans hrun₁
    exact ⟨m', hrun, of_decide_eq_true hnums, hall (by decide)⟩

/-- With the same number for both it pre-prepares both as well. -/
theorem reused_slot :
    OnePerSlot ((numberedTable 0 0).own.queued ++ (numberedTable 0 0).own.logged) ∧
      ((numberedTable 0 0).prePrepReqs 1).map (fun m' => m'.own.queued) =
        .ok [⟨offered.clientRequest, 1, 0⟩, ⟨otherClientReq, 1, 0⟩] ∧
      ¬ OnePerSlot [⟨offered.clientRequest, 1, 0⟩, ⟨otherClientReq, 1, 0⟩] := by
  decide

end BFTList.ReplicationModule
