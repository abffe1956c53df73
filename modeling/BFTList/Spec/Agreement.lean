import BFTList.Spec.StableView

/-!
# Agreement

A request is certified when `n - 2f` processors are faulty or accepted it on
their own account: numbered it, gave it `PRE_PREP`, or took it over. Everything
a correct processor commits or executes is certified, since that takes the
support of `n - 2f` structures, and what a correct structure lists without
having accepted it was certified before. Two certified requests share a correct
acceptor, so they agree if nobody accepts two client requests for one number.

`request_already_exists` does not see to that: it compares client request,
number and view together, where its caller's comment asks for either number or
client request. Support is counted by occurrences, and logs and structures are
taken over unseen. So the runs here meet conditions on all three.

## Key results

- `AcceptsOne`: what an iteration counts on
- `certified_iterate`: one iteration of a correct processor
- `executed_agree`: agreement in runs of such iterations
- `executed_differently`: two processors execute different requests as the first
-/

namespace BFTList

open ReplicationModule

variable {n : Nat}

/-- One client request for each sequence number. -/
def OnePerNumber (reqs : List Request) : Prop :=
  ∀ r ∈ reqs, ∀ r' ∈ reqs, r.seqNum = r'.seqNum → r.clientRequest = r'.clientRequest

instance (reqs : List Request) : Decidable (OnePerNumber reqs) :=
  inferInstanceAs (Decidable (∀ r ∈ reqs, ∀ r' ∈ reqs, _))

/-- What reconciling put into the queue, and what a backup may take from the
    primary's queue next. -/
def acceptable (p : Fin n) (s : Node n) (m : ReplicationModule n) : List Request :=
  (m.own.queued ++ if p ≠ m.id ∧ m.mayProcess s.resolver = true then m.offers p else []).filter
    fun r => r ∉ s.module.own.queued

/-- An iteration in which nothing reaches the support of `n - 2f` structures by being listed
    twice in one, that takes over no log entry which no correct structure has in its log, and that
    accepts no second client request for a sequence number; the primary's own numbers are not
    behind what it has accepted. -/
def AcceptsOne (p : Fin n) (faulty : Finset (Fin n)) (s : Node n) : Node.Action n → Prop
  | .iterate order => (s.module.reconcile s.resolver order).Returns fun m =>
      m.ListedGenuinely ∧
      (∀ r ∈ m.own.logged, ∃ j, j ∉ faulty ∧ r ∈ (s.module.rep j).logged) ∧
      OnePerNumber (s.accepted ++ acceptable p s m.learnPendReqs) ∧
      (p = m.id → ∀ r ∈ s.accepted ++ acceptable p s m.learnPendReqs, r.seqNum ≤ m.own.seqNum)
  | .inject _ => True
  | .surroundings _ => True

instance (p : Fin n) (faulty : Finset (Fin n)) (s : Node n) (a : Node.Action n) :
    Decidable (AcceptsOne p faulty s a) :=
  match a with
  | .iterate _ => inferInstanceAs (Decidable (Py.Returns _ _))
  | .inject _ => .isTrue trivial
  | .surroundings _ => .isTrue trivial

/-! ## Certified requests -/

/-- Enough processors are faulty or accepted the request. -/
def Certified (faulty : Finset (Fin n)) (f : Nat) (g : Fin n → List Request) (r : Request) : Prop :=
  n ≤ (Finset.univ.filter fun j => j ∈ faulty ∨ r ∈ g j).card + 2 * f

theorem Certified.mono {faulty : Finset (Fin n)} {f : Nat} {g g' : Fin n → List Request}
    (hle : ∀ j, ∀ r ∈ g j, r ∈ g' j) {r : Request} (h : Certified faulty f g r) :
    Certified faulty f g' r := by
  have hcard : (Finset.univ.filter fun j => j ∈ faulty ∨ r ∈ g j).card ≤
      (Finset.univ.filter fun j => j ∈ faulty ∨ r ∈ g' j).card := by
    apply Finset.card_le_card
    intro j hj
    have hj := (Finset.mem_filter.mp hj).2
    exact Finset.mem_filter.mpr ⟨Finset.mem_univ j, hj.imp_right (hle j r)⟩
  unfold Certified at h ⊢
  omega

/-- Certified requests with one number agree, if no correct processor accepted
    two client requests for it. -/
theorem Certified.agree {faulty : Finset (Fin n)} {f : Nat} {g : Fin n → List Request}
    (hn : 5 * f + 1 ≤ n) (hfaulty : faulty.card ≤ f) (hone : ∀ j, j ∉ faulty → OnePerNumber (g j))
    {r r' : Request} (hr : Certified faulty f g r) (hr' : Certified faulty f g r')
    (hseq : r.seqNum = r'.seqNum) : r.clientRequest = r'.clientRequest := by
  unfold Certified at hr hr'
  refine Quorum.agree_of_unique (A := Finset.univ.filter fun j => j ∈ faulty ∨ r ∈ g j)
    (B := Finset.univ.filter fun j => j ∈ faulty ∨ r' ∈ g j)
    (fun j c => ∃ q ∈ g j, q.seqNum = r.seqNum ∧ q.clientRequest = c)
    (fun j hj (hcorrect : j ∉ faulty) => ?_) ?_ ?_ ?_
  · exact ⟨r, (Finset.mem_filter.mp hj).2.resolve_left hcorrect, rfl, rfl⟩
  · intro j hj hcorrect
    exact ⟨r', (Finset.mem_filter.mp hj).2.resolve_left hcorrect, hseq.symm, rfl⟩
  · intro j hcorrect hv hw
    obtain ⟨q, hq, hqs, hv⟩ := hv
    obtain ⟨q', hq', hqs', hw⟩ := hw
    rw [← hv, ← hw]
    exact hone j hcorrect q hq q' hq' (hqs.trans hqs'.symm)
  · rw [Fintype.card_fin]
    omega

/-! ## Structures -/

/-- What is queued was accepted or is certified, and what is logged is certified. -/
structure Certifies (A C : Request → Prop) (rs : ReplicaStructure) : Prop where
  queued : ∀ r ∈ rs.queued, A r ∨ C r
  logged : ∀ r ∈ rs.logged, C r

namespace Certifies

variable {A A' C C' : Request → Prop} {rs : ReplicaStructure}

theorem mono (hA : ∀ r, A r → A' r) (hC : ∀ r, C r → C' r) (h : Certifies A C rs) :
    Certifies A' C' rs :=
  ⟨fun r hr => (h.queued r hr).imp (hA r) (hC r), fun r hr => hC r (h.logged r hr)⟩

theorem toKeeps (h : Certifies A C rs) : Keeps (fun r => A r ∨ C r) rs :=
  ⟨h.queued, fun r hr => Or.inr (h.logged r hr)⟩

theorem of_nil (hq : rs.reqQ = []) (hl : rs.rLog = []) : Certifies A C rs := by
  have hkeeps : Keeps (fun _ => False) rs := Keeps.of_nil hq hl
  exact ⟨fun r hr => (hkeeps.queued r hr).elim, fun r hr => (hkeeps.logged r hr).elim⟩

theorem of_eq (h : Certifies A C rs) {rs' : ReplicaStructure} (hq : rs'.reqQ = rs.reqQ)
    (hl : rs'.rLog = rs.rLog) : Certifies A C rs' :=
  ⟨(h.toKeeps.of_eq hq hl).queued, fun r hr => h.logged r (by
    rwa [ReplicaStructure.logged, hl] at hr)⟩

/-- Committing a certified request. -/
theorem committed (h : Certifies A C rs) {r : Request} (hr : C r) :
    Certifies A C (committedOwn rs r) := by
  refine ⟨(h.toKeeps.committed (Or.inr hr)).queued, fun r' hr' => h.logged r' ?_⟩
  rwa [ReplicaStructure.logged, committedOwn_rLog] at hr'

/-- Executing a certified request. -/
theorem executed (h : Certifies A C rs) {r : Request} (hr : C r) (xSet : Finset Int)
    (lastReq : LastReqTable) : Certifies A C (executedOwn rs r xSet lastReq) := by
  refine ⟨(h.toKeeps.executed (Or.inr hr) xSet lastReq).queued, fun r' hr' => ?_⟩
  obtain ⟨e, he, rfl⟩ := ReplicaStructure.mem_logged.mp hr'
  cases List.mem_append.mp ((ReplicaStructure.trimRLog_sublist _ _).subset he) with
  | inl hold => exact h.logged _ (ReplicaStructure.mem_logged.mpr ⟨e, hold, rfl⟩)
  | inr hnew =>
    rw [List.mem_singleton.mp hnew]
    exact hr

end Certifies

/-! ## One iteration -/

section Iteration

variable {m : ReplicationModule n} {faulty : Finset (Fin n)} {f : Nat} {g : Fin n → List Request}

/-- All structures of correct processors in a table. -/
def TableCertifies (faulty : Finset (Fin n)) (f : Nat) (g : Fin n → List Request)
    (m : ReplicationModule n) : Prop :=
  ∀ j, j ∉ faulty → Certifies (· ∈ g j) (Certified faulty f g) (m.rep j)

theorem TableCertifies.setOwn (h : TableCertifies faulty f g m) {rs : ReplicaStructure}
    (hrs : Certifies (· ∈ g m.id) (Certified faulty f g) rs) :
    TableCertifies faulty f g (m.setOwn rs) := by
  intro j hj
  by_cases hown : j = m.id
  · rw [hown, show (m.setOwn rs).rep m.id = rs from own_setOwn m rs]
    exact hrs
  · rw [rep_setOwn_of_ne hown]
    exact h j hj

/-- What is supported is certified: each supporter is faulty, or has accepted
    the request, or has it certified. -/
theorem TableCertifies.certified_of_supported (h : TableCertifies faulty f g m)
    (hlisted : m.ListedGenuinely) (hbyz : m.numberOfByzantine = f) {status : Status}
    (hstatus : status ∈ decisive) {r : Request} (hr : r ∈ m.supportedReqs status) :
    Certified faulty f g r := by
  by_cases hbefore : ∃ j, j ∉ faulty ∧ r ∈ listed status (m.rep j) ∧ r ∉ g j
  · obtain ⟨j, hj, hlists, hnot⟩ := hbefore
    cases queued_or_logged_of_mem_listed hlists with
    | inl hq => exact ((h j hj).queued r hq).resolve_left hnot
    | inr hl => exact (h j hj).logged r hl
  · -- all correct supporters have accepted it
    have hcard := hlisted.card_listers_le hstatus hr
    have hle : (Finset.univ.filter fun j => r ∈ listed status (m.rep j)).card ≤
        (Finset.univ.filter fun j => j ∈ faulty ∨ r ∈ g j).card := by
      apply Finset.card_le_card
      intro j hj
      have hlists := (Finset.mem_filter.mp hj).2
      refine Finset.mem_filter.mpr ⟨Finset.mem_univ j, ?_⟩
      by_contra hnot
      rw [not_or] at hnot
      exact hbefore ⟨j, hnot.1, hlists, hnot.2⟩
    rw [hbyz] at hcard
    unfold Certified
    omega

/-- Committing and executing: everything handed to `commit()` is certified. -/
theorem TableCertifies.finish {m' : ReplicationModule n} {committed : List Request}
    {raised : Option PyError} (h : TableCertifies faulty f g m) (hlisted : m.ListedGenuinely)
    (hbyz : m.numberOfByzantine = f) (hid : m.id ∉ faulty)
    (hexec : (m', committed, raised) =
      executeReqs (m.commitReqs.supportedReqs {.prep, .commit}) m.commitReqs []) :
    ∃ rs, m' = m.setOwn rs ∧ Certifies (· ∈ g m.id) (Certified faulty f g) rs ∧
      ∀ r ∈ committed, Certified faulty f g r := by
  exact hlisted.finish (h m.id hid) (fun rs repState hrs => hrs.of_eq rfl rfl)
    (fun rs hrs hlisted' status hstatus r hr =>
      (h.setOwn hrs).certified_of_supported hlisted' hbyz hstatus hr)
    (fun rs r hrs hr => hrs.committed hr)
    (fun rs r xSet lastReq hrs hr => hrs.executed hr xSet lastReq) hexec

end Iteration

/-- What a correct processor keeps, when `g` are the requests all processors
    have accepted. -/
structure Agreeing (p : Fin n) (faulty : Finset (Fin n)) (f : Nat) (g : Fin n → List Request)
    (i : Fin n) (s : Node n) : Prop extends Settings p f i s where
  table : TableCertifies faulty f g s.module
  executed : ∀ r ∈ s.executed, Certified faulty f g r
  onePerNumber : OnePerNumber s.accepted

section Iteration

variable {p i : Fin n} {faulty : Finset (Fin n)} {f : Nat} {g g' : Fin n → List Request}
  {s s' : Node n}

theorem Agreeing.mono (hle : ∀ j, ∀ r ∈ g j, r ∈ g' j) (h : Agreeing p faulty f g i s) :
    Agreeing p faulty f g' i s :=
  { h with
    table := fun j hj => (h.table j hj).mono (hle j) fun _ hr => hr.mono hle
    executed := fun r hr => (h.executed r hr).mono hle }

/-- The primary's new numbers are later than what was accepted before, and each
    is used once. -/
theorem onePerNumber_append {accepted created : List Request} {m : ReplicationModule n}
    (h : OnePerNumber accepted) (hbound : ∀ r ∈ accepted, r.seqNum ≤ m.own.seqNum)
    (hnum : Numbering m created) : OnePerNumber (accepted ++ created) := by
  intro r hr r' hr' heq
  cases List.mem_append.mp hr with
  | inl hold =>
    cases List.mem_append.mp hr' with
    | inl hold' => exact h r hold r' hold' heq
    | inr hnew' =>
      have hle := hbound r hold
      have hlt := hnum.later r' hnew'
      omega
  | inr hnew =>
    cases List.mem_append.mp hr' with
    | inl hold' =>
      have hle := hbound r' hold'
      have hlt := hnum.later r hnew
      omega
    | inr hnew' =>
      -- equal numbers in an ascending list are at one position
      have hsame : r = r' := by
        have hnodup : (created.map fun r => r.seqNum).Nodup :=
          List.pairwise_map.mpr (hnum.ascending.imp fun hlt => Int.ne_of_lt hlt)
        exact List.inj_on_of_nodup_map hnodup hnew hnew' heq
      rw [hsame]

/-- One iteration of a correct processor: what it has accepted is one client
    request for each number, and what it executes is certified. -/
theorem certified_iterate {order : SetOrder Int} (h : Agreeing p faulty f g i s) (hi : i ∉ faulty)
    (hg : g i = s.accepted) (hno : NoFlush s (.iterate order))
    (hone : AcceptsOne p faulty s (.iterate order)) (hiter : s.iterate order = some s') :
    (∀ r ∈ s.accepted, r ∈ s'.accepted) ∧
      Agreeing p faulty f (Function.update g i s'.accepted) i s' := by
  have hid := h.id
  subst hid
  obtain ⟨m₀, created, rs, hrec, hreconciled, hrs, hmay, hnum, -, -, haccepted, hrest⟩ :=
    iterate_cases_inView h.toSettings hiter
  obtain ⟨rs₀, rfl, -⟩ := hno.reconciled hrec hreconciled
  obtain ⟨hlisted, hbacked, hnumbers, hprimary⟩ := hone _ hrec
  rw [own_setOwn] at hbacked hprimary
  have hold : ∀ r ∈ s.accepted, r ∈ s'.accepted := by
    intro r hr
    rw [haccepted]
    exact List.mem_append_left _ hr
  have hle : ∀ j, ∀ r ∈ g j, r ∈ Function.update g s.module.id s'.accepted j := by
    intro j r hr
    by_cases hj : j = s.module.id
    · subst hj
      rw [Function.update_self]
      exact hold r (hg ▸ hr)
    · rwa [Function.update_of_ne hj]
  have hnew := h.mono hle
  generalize hg' : Function.update g s.module.id s'.accepted = g' at hle hnew
  have hown' : g' s.module.id = s'.accepted := by rw [← hg', Function.update_self]
  -- the own structure when requests are prepared
  have hprepared : Certifies (· ∈ g' s.module.id) (Certified faulty f g') rs := by
    refine ⟨fun r hr => ?_, fun r hr => ?_⟩
    · by_cases hbefore : r ∈ s.module.own.queued
      · exact (hnew.table s.module.id hi).queued r hbefore
      · left
        rw [hown', haccepted]
        exact List.mem_append_right _ (List.mem_filter.mpr ⟨hr, by simpa using hbefore⟩)
    · have hlog : rs.logged = rs₀.logged := by
        rw [ReplicaStructure.logged, hrs.rLog, learnPendReqs, own_setOwn, own_setOwn]
        rfl
      obtain ⟨j, hj, hmem⟩ := hbacked r (hlog ▸ hr)
      exact (hnew.table j hj).logged r hmem
  -- new entries were acceptable, or the primary has just numbered them
  have hacceptable : ∀ r ∈ s'.accepted,
      r ∈ s.accepted ++ acceptable p s (s.module.setOwn rs₀).learnPendReqs ++ created := by
    intro r hr
    rw [haccepted] at hr
    cases List.mem_append.mp hr with
    | inl hr => exact List.mem_append_left _ (List.mem_append_left _ hr)
    | inr hr =>
      obtain ⟨hmem, hnot⟩ := List.mem_filter.mp hr
      rcases hrs.queued r hmem with hkept | ⟨-, hcreated⟩ | ⟨hp, hoffer⟩
      · exact List.mem_append_left _ (List.mem_append_right _ (List.mem_filter.mpr
          ⟨List.mem_append_left _ hkept, hnot⟩))
      · exact List.mem_append_right _ hcreated
      · rcases hmay with rfl | hmay
        · exact List.mem_append_left _ (List.mem_append_right _ (List.mem_filter.mpr
            ⟨List.mem_append_left _ hmem, hnot⟩))
        · refine List.mem_append_left _ (List.mem_append_right _ (List.mem_filter.mpr
            ⟨List.mem_append_right _ ?_, hnot⟩))
          rw [if_pos ⟨hp, hmay⟩]
          exact hoffer
  have honePer : OnePerNumber s'.accepted := by
    have hall : OnePerNumber
        (s.accepted ++ acceptable p s (s.module.setOwn rs₀).learnPendReqs ++ created) := by
      rcases hnum with rfl | ⟨hp, -, hnum⟩
      · rwa [List.append_nil]
      · have hcounter : (s.module.setOwn rs₀).learnPendReqs.own.seqNum = rs₀.seqNum := by
          rw [learnPendReqs, own_setOwn, own_setOwn]
          rfl
        exact onePerNumber_append hnumbers (by rw [hcounter]; exact hprimary hp) hnum
    exact fun r hr r' hr' => hall r (hacceptable r hr) r' (hacceptable r' hr')
  have hnodup : rs.queued.Nodup := by
    apply hrs.nodup
    rw [learnPendReqs, own_setOwn]
    exact hlisted.own
  have htable := hnew.table.setOwn hprepared
  have hsettings := h.toSettings.iterate hiter
  rw [setOwn_setOwn] at hrest
  refine ⟨hold, ?_⟩
  rcases hrest with ⟨hafter, hexecuted, -⟩ | ⟨committed, raised, hexec, hexecuted, -⟩
  · refine { hsettings with table := ?_, executed := ?_, onePerNumber := honePer }
    · rw [hafter]
      exact htable
    · rw [hexecuted]
      exact hnew.executed
  · have hlisted' : (s.module.setOwn rs).ListedGenuinely := by
      have hset := hlisted.setOwn hnodup
      rwa [setOwn_setOwn] at hset
    obtain ⟨rs', hafter, hrs', hdone⟩ := htable.finish hlisted' h.byzantine hi hexec
    refine { hsettings with table := ?_, executed := fun r hr => ?_, onePerNumber := honePer }
    · rw [hafter, setOwn_setOwn]
      exact hnew.table.setOwn hrs'
    · rw [hexecuted] at hr
      exact (List.mem_append.mp hr).elim (hnew.executed r) (hdone r)

theorem Agreeing.inject (h : Agreeing p faulty f g i s) (hi : i ∉ faulty) (req : ClientRequest) :
    Agreeing p faulty f g i (s.inject req) := by
  have hown := h.table s.module.id (h.id ▸ hi)
  exact { h.toSettings.inject req with
    table := h.table.setOwn (hown.of_eq rfl rfl)
    executed := h.executed
    onePerNumber := h.onePerNumber }

/-- A structure replaces a copy; what a faulty processor sends does not matter. -/
theorem Agreeing.receive (h : Agreeing p faulty f g i s) {j : Fin n} {rs : ReplicaStructure}
    (hrs : j ∉ faulty → Certifies (· ∈ g j) (Certified faulty f g) rs) :
    Agreeing p faulty f g i { s with module := s.module.receiveRepMsg s.resolver j rs } := by
  refine { h.toSettings.receive j rs with
    table := fun k hk => ?_, executed := h.executed, onePerNumber := h.onePerNumber }
  obtain ⟨copy, heq, hcopy⟩ := receiveRepMsg_cases s.module s.resolver j rs
  show Certifies _ _ ((s.module.receiveRepMsg s.resolver j rs).rep k)
  rw [heq]
  show Certifies _ _ (Function.update s.module.rep j copy k)
  by_cases hkj : k = j
  · subst hkj
    rw [Function.update_self]
    rcases hcopy with rfl | rfl | rfl
    · exact h.table k hk
    · exact hrs hk
    · exact (h.table k hk).of_eq rfl rfl
  · rw [Function.update_of_ne hkj]
    exact h.table k hk

end Iteration

/-! ## Runs -/

/-- The requests every processor has accepted. -/
def acceptedAt (nodes : Fin n → Node n) (j : Fin n) : List Request := (nodes j).accepted

theorem acceptedAt_set (net : Network (Fin n) (Node n) ReplicaStructure) (i : Fin n) (s : Node n) :
    acceptedAt (net.set i s).nodes = Function.update (acceptedAt net.nodes) i s.accepted := by
  funext j
  by_cases hj : j = i
  · subst hj
    rw [acceptedAt, Network.set_nodes_self, Function.update_self]
  · rw [acceptedAt, Network.set_nodes_of_ne _ _ hj, Function.update_of_ne hj]
    rfl

theorem acceptedAt_set_of_accepted {net : Network (Fin n) (Node n) ReplicaStructure} {i : Fin n}
    {s : Node n} (h : s.accepted = (net.nodes i).accepted) :
    acceptedAt (net.set i s).nodes = acceptedAt net.nodes := by
  funext j
  exact Network.proj_set Node.accepted h j

/-- Runs without a flush at a correct processor, with the condition on every
    iteration of a correct processor. -/
abbrev agreeingNetwork (p : Fin n) (faulty : Finset (Fin n)) (f k : Nat)
    (net : Network (Fin n) (Node n) ReplicaStructure) : Prop :=
  (Node.network (Node.InView p) faulty f k true).Run
    (Network.locally fun _ s a => NoFlush s a ∧ AcceptsOne p faulty s a) net

/-- What every correct processor keeps, and every message it has sent. -/
theorem agreeing_network {p : Fin n} {faulty : Finset (Fin n)} {f k : Nat}
    {net : Network (Fin n) (Node n) ReplicaStructure} (h : agreeingNetwork p faulty f k net) :
    Network.Local (Node.protocol (Node.InView p)) faulty
      (Agreeing p faulty f (acceptedAt net.nodes))
      (fun i _ rs => Certifies (· ∈ acceptedAt net.nodes i)
        (Certified faulty f (acceptedAt net.nodes)) rs) net := by
  refine Network.Run.of_shared acceptedAt (fun g g' => ∀ j, ∀ r ∈ g j, r ∈ g' j)
    (I := fun g => Agreeing p faulty f g)
    (M := fun g i _ rs => Certifies (· ∈ g i) (Certified faulty f g) rs)
    (fun _ _ _ _ hle hs => hs.mono hle)
    (fun _ _ i _ _ hle hm => hm.mono (hle i) fun _ hr => hr.mono hle) ?_ ?_ ?_ ?_ h
  · intro net hnet
    apply Network.Local.of_noFlight _ hnet.2
    intro i hi
    obtain ⟨resolver, hview, hinit⟩ := hnet.1 i hi
    rw [hinit]
    exact { Settings.init i f k hview with
      table := fun j _ => Certifies.of_nil rfl rfl
      executed := fun r hr => absurd hr List.not_mem_nil
      onePerNumber := fun r hr => absurd hr List.not_mem_nil }
  · intro net i a s' hi hnet hok hact
    have hs := hnet.nodes i hi
    cases a with
    | iterate order =>
      obtain ⟨hold, hs'⟩ := certified_iterate hs hi rfl hok.1 hok.2 hact
      rw [acceptedAt_set]
      refine ⟨fun j r hr => ?_, hs'⟩
      by_cases hj : j = i
      · subst hj
        rw [Function.update_self]
        exact hold r hr
      · rwa [Function.update_of_ne hj]
    | inject req =>
      cases hact
      rw [acceptedAt_set_of_accepted (by rfl)]
      exact ⟨fun _ _ hr => hr, hs.inject hi req⟩
    | surroundings resolver =>
      have hsettings := hs.toSettings.act hact
      simp only [Node.protocol, Option.ite_none_right_eq_some, Option.some.injEq] at hact
      obtain ⟨-, rfl⟩ := hact
      rw [acceptedAt_set_of_accepted (by rfl)]
      exact ⟨fun _ _ hr => hr, { hsettings with
        table := hs.table, executed := hs.executed, onePerNumber := hs.onePerNumber }⟩
  · intro g i s j rs hi hs hrs
    simp only [Node.protocol] at hrs
    split at hrs
    · exact absurd hrs List.not_mem_nil
    · rw [List.mem_singleton.mp hrs]
      have hid := hs.id
      subst hid
      exact hs.table s.module.id hi
  · intro net j i rs _ hs hrs _
    exact ⟨acceptedAt_set_of_accepted (by rfl), hs.receive hrs⟩

/-- With at most `f` of `5f + 1` processors faulty, requests that correct
    processors execute with one sequence number carry one client request, in runs
    in which nothing is decided by second occurrences, no log is taken over from liars
    alone and nobody accepts two client requests for one number. -/
theorem executed_agree {p : Fin n} {faulty : Finset (Fin n)} {f k : Nat}
    {net : Network (Fin n) (Node n) ReplicaStructure} (hn : 5 * f + 1 ≤ n)
    (hfaulty : faulty.card ≤ f) (h : agreeingNetwork p faulty f k net)
    (i j : Fin n) (hi : i ∉ faulty) (hj : j ∉ faulty) (r r' : Request)
    (hr : r ∈ (net.nodes i).executed) (hr' : r' ∈ (net.nodes j).executed)
    (hseq : r.seqNum = r'.seqNum) : r.clientRequest = r'.clientRequest := by
  have hnet := agreeing_network h
  exact ((hnet.nodes i hi).executed r hr).agree hn hfaulty
    (fun l hl => (hnet.nodes l hl).onePerNumber) ((hnet.nodes j hj).executed r' hr') hseq

/-- A structure of processor 5 that lists a request with the number of another twice. -/
def rivalOffer : ReplicaStructure :=
  { ReplicaStructure.init 5 1 with
    reqQ := List.replicate 2 ⟨⟨⟨0, some 2, .append 8⟩, 0, 0⟩, {.prePrep, .prep, .commit}⟩ }

/-- While processors 0 to 3 process a request, the faulty processor 5 tells them that it has
    committed another one with its number. Processors 0 and 1 execute the number. -/
theorem executed_agree_six :
    ∃ net : Network (Fin 6) (Node 6) ReplicaStructure,
      ((net.nodes 1).module.rep 5).queued.length = 2 ∧
      (net.nodes 0).executed = [⟨⟨0, some 1, .append 7⟩, 0, 0⟩] ∧
      (net.nodes 1).executed = [⟨⟨0, some 1, .append 7⟩, 0, 0⟩] ∧
      ∀ r ∈ (net.nodes 0).executed, ∀ r' ∈ (net.nodes 1).executed, r.seqNum = r'.seqNum →
        r.clientRequest = r'.clientRequest := by
  have hexec : (System.exec (Network.play (Node.protocol (Node.InView (0 : Fin 6))) {5}
      (Network.locally fun _ s a => NoFlush s a ∧ AcceptsOne 0 {5} s a)) (Node.start 0 1 1)
      (lying rivalOffer [0, 1, 2, 3] ++ serving ⟨0, some 1, .append 7⟩)).any
      (fun net => ((net.nodes 1).module.rep 5).queued.length = 2 ∧
        (net.nodes 0).executed = [⟨⟨0, some 1, .append 7⟩, 0, 0⟩] ∧
        (net.nodes 1).executed = [⟨⟨0, some 1, .append 7⟩, 0, 0⟩]) = true := by
    decide +kernel
  obtain ⟨net, hrun, hp⟩ := Network.Run.of_play (.init (Node.start_init 0 {5} 1 1)) hexec
  obtain ⟨hlie, h₀, h₁⟩ := of_decide_eq_true hp
  exact ⟨net, hlie, h₀, h₁, fun r hr r' hr' hseq =>
    executed_agree (by decide) (by decide) hrun 0 1 (by decide) (by decide) r r' hr hr' hseq⟩

/-- Two requests with the same number. -/
def rivalRequest (v : Value) : Request := ⟨⟨0, some v, .append v⟩, 0, 0⟩

/-- A structure of the faulty primary that lists both four times. -/
def rivalStructure (v w : Value) : ReplicaStructure :=
  { ReplicaStructure.init 0 1 with
    reqQ := List.replicate 4 ⟨rivalRequest v, {.prePrep, .prep, .commit}⟩ ++
      List.replicate 4 ⟨rivalRequest w, {.prePrep, .prep, .commit}⟩ }

/-- What a processor reports once it has committed both. -/
def rivalVote (i : Int) (v w : Value) : ReplicaStructure :=
  { ReplicaStructure.init i 1 with
    reqQ := [⟨rivalRequest v, {.prePrep, .prep, .commit}⟩,
      ⟨rivalRequest w, {.prePrep, .prep, .commit}⟩] }

/-- Processors 1, 2 and 3 commit both requests, processor 2 in another order;
    told of each other's votes, processors 1 and 2 execute what comes first. -/
def rivalExecution : List (Network.Label (Fin 6) (Node.Action 6) ReplicaStructure) :=
  [.forge 0 1 (rivalStructure 7 8), .forge 0 2 (rivalStructure 8 7),
    .forge 0 3 (rivalStructure 7 8)] ++
  [1, 2, 3].map (fun i => .act i (.iterate .insertion)) ++
  [.send 2 1 (rivalVote 2 8 7), .deliver 2 1 (rivalVote 2 8 7), .send 3 1 (rivalVote 3 7 8),
    .deliver 3 1 (rivalVote 3 7 8), .send 1 2 (rivalVote 1 7 8), .deliver 1 2 (rivalVote 1 7 8),
    .send 3 2 (rivalVote 3 7 8), .deliver 3 2 (rivalVote 3 7 8),
    .act 1 (.iterate .insertion), .act 2 (.iterate .insertion)]

/-- With a faulty primary, two of six processors execute different requests with
    sequence number 0, and no correct processor has flushed. -/
theorem executed_differently :
    ∃ net : Network (Fin 6) (Node 6) ReplicaStructure,
      (Node.network (Node.InView (0 : Fin 6)) {0} 1 1 true).Reachable net ∧
      (∀ i, (net.nodes i).module.needFlush = false) ∧
      ∃ r ∈ (net.nodes 1).executed, ∃ r' ∈ (net.nodes 2).executed,
        r.seqNum = r'.seqNum ∧ r.clientRequest ≠ r'.clientRequest := by
  have hexec : (System.exec (Network.next (Node.protocol (Node.InView (0 : Fin 6))) {0})
      (Node.start 0 1 1) rivalExecution).any (fun net =>
        (∀ i, (net.nodes i).module.needFlush = false) ∧
        (net.nodes 1).executed = [rivalRequest 7] ∧ (net.nodes 2).executed = [rivalRequest 8]) =
        true := by
    decide +kernel
  obtain ⟨net, hreach, hp⟩ := Network.Reachable.of_exec (.init (Node.start_init 0 {0} 1 1)) hexec
  obtain ⟨hflush, h₁, h₂⟩ := of_decide_eq_true hp
  refine ⟨net, hreach, hflush, rivalRequest 7, ?_, rivalRequest 8, ?_, rfl, by decide⟩
  · rw [h₁]
    exact List.mem_singleton_self _
  · rw [h₂]
    exact List.mem_singleton_self _

end BFTList
