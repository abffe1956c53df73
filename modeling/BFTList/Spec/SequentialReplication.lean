import BFTList.ForStd.SequentialLog
import BFTList.Spec.ReplicationNetwork

/-!
# Without self-stabilization the system refines one sequential log

In `NON_SELF_STAB` mode processor 0 numbers requests for ever and everybody
follows. The requests it has numbered form a log; wherever a request is kept,
its sequence number is its position in that log. Execution takes the next
position only, so what a processor holds is the result of a prefix of the log,
however stale its copies of other structures are.

`commit()` sets the state before it looks up the client's place among the last
requests. Where a client id has none it raises in between, and leaves a state
with a value of a request that is in no log.

## Key results

- `Own.executed`: executing the next request applies one more request of the log
- `onLog_iterate`: one iteration of a processor on the log
- `onLog_network`: everything every processor keeps in every run
- `refines_sequentialLog`: the refinement, with the states it implies, in runs with requests of
  answerable clients
- `state_ahead`: after the request of another client the state is ahead of the log
-/

namespace BFTList

open ReplicationModule

/-- The requests `log` numbers: the sequence number is the position. -/
def InLog (log : List Request) (r : Request) : Prop :=
  0 ≤ r.seqNum ∧ log[r.seqNum.toNat]? = some r

theorem InLog.mono {log log' : List Request} (hle : log <+: log') {r : Request}
    (h : InLog log r) : InLog log' r := by
  obtain ⟨xs, rfl⟩ := hle
  refine ⟨h.1, ?_⟩
  have hlt := (List.getElem?_eq_some_iff.mp h.2).1
  rw [List.getElem?_append_left hlt]
  exact h.2

theorem InLog.seqNum_lt {log : List Request} {r : Request} (h : InLog log r) :
    r.seqNum < log.length := by
  have hlt := (List.getElem?_eq_some_iff.mp h.2).1
  have hpos := h.1
  omega

/-- The next number names the request that is appended. -/
theorem InLog.last {log : List Request} {r : Request} (h : r.seqNum = log.length) :
    InLog (log ++ [r]) r := by
  refine ⟨by omega, ?_⟩
  have hnat : r.seqNum.toNat = log.length := by omega
  rw [hnat, List.getElem?_concat_length]

/-- The list the first `a` requests of the log produce. -/
def stateAfter (log : List Request) (a : Nat) : List Value :=
  SequentialLog.result (fun r => r.clientRequest.operation.execute) [] log a

theorem Operation.prefix_execute (op : Operation) (lst : List Value) : lst <+: op.execute lst := by
  cases op with
  | append v => exact List.prefix_append _ _
  | bareAppend | noOp | other => exact List.prefix_rfl

/-- The client has a place among the last requests of `k` clients, or its request leaves the
    state as it is. -/
def Answerable (k : Nat) (c : ClientRequest) : Prop :=
  HasPlace k c ∨ ∀ lst, c.operation.execute lst = lst

instance (op : Operation) : Decidable (∀ lst, op.execute lst = lst) :=
  match op with
  | .append v => .isFalse fun h => List.cons_ne_nil v [] (h [])
  | .bareAppend | .noOp | .other => .isTrue fun _ => rfl

instance (k : Nat) (c : ClientRequest) : Decidable (Answerable k c) :=
  inferInstanceAs (Decidable (_ ∨ _))

/-! ## A structure on the log -/

/-- A request of the log of an answerable client. -/
def NumberedFor (k : Nat) (log : List Request) (r : Request) : Prop :=
  InLog log r ∧ Answerable k r.clientRequest

theorem NumberedFor.mono {k : Nat} {log log' : List Request} (hle : log <+: log') {r : Request}
    (h : NumberedFor k log r) : NumberedFor k log' r := ⟨h.1.mono hle, h.2⟩

/-- The requests of a structure are in the log, and its own log is a part of it. -/
structure OnLog (k : Nat) (log : List Request) (rs : ReplicaStructure) : Prop
    extends Keeps (NumberedFor k log) rs where
  ascending : Ascending rs.rLog
  pending : ∀ c ∈ rs.pendReqs, Answerable k c

theorem OnLog.mono {k : Nat} {log log' : List Request} (hle : log <+: log') {rs : ReplicaStructure}
    (h : OnLog k log rs) : OnLog k log' rs :=
  ⟨h.toKeeps.mono fun _ hr => hr.mono hle, h.ascending, h.pending⟩

theorem onLog_init (k : Nat) (log : List Request) (id : Int) (clients : Nat) :
    OnLog k log (ReplicaStructure.init id clients) :=
  ⟨Keeps.of_nil rfl rfl, List.Pairwise.nil, List.forall_mem_nil _⟩

/-- The end of the own log is a position of the log. -/
theorem OnLog.lastSeq_bounds {k : Nat} {log : List Request} {rs : ReplicaStructure}
    (h : OnLog k log rs) : -1 ≤ lastSeq rs.rLog ∧ lastSeq rs.rLog < log.length := by
  rw [lastSeq]
  split
  · rename_i e he
    have hin := (h.logged e.request
      (ReplicaStructure.mem_logged.mpr ⟨e, List.mem_of_getLast? he, rfl⟩)).1
    have hlt := hin.seqNum_lt
    have hpos := hin.1
    omega
  · omega

/-- The own structure of a processor: it holds what the requests up to the end
    of its log produce. -/
structure Own (log : List Request) (k : Nat) (rs : ReplicaStructure) : Prop where
  onLog : OnLog k log rs
  clients : rs.numberOfClients = k
  places : HasPlaces k rs.lastReq
  state : rs.repState = stateAfter log (lastSeq rs.rLog + 1).toNat

namespace Own

variable {log : List Request} {k : Nat} {rs : ReplicaStructure}

theorem mono {log' : List Request} (hle : log <+: log') (h : Own log k rs) : Own log' k rs := by
  refine ⟨h.onLog.mono hle, h.clients, h.places, ?_⟩
  obtain ⟨xs, rfl⟩ := hle
  have hbounds := h.onLog.lastSeq_bounds
  rw [h.state, stateAfter, stateAfter, SequentialLog.result_append _ _ _ _ (by omega)]

theorem init (id : Int) : Own [] k (ReplicaStructure.init id k) :=
  ⟨onLog_init k [] id k, rfl, Nat.le_of_eq List.length_replicate.symm, rfl⟩

/-- Pending requests of answerable clients, sequence number and flags are free. -/
theorem of_eq (h : Own log k rs) {rs' : ReplicaStructure} (hq : rs'.reqQ = rs.reqQ)
    (hl : rs'.rLog = rs.rLog) (hs : rs'.repState = rs.repState) (hr : rs'.lastReq = rs.lastReq)
    (hc : rs'.numberOfClients = rs.numberOfClients)
    (hp : ∀ c ∈ rs'.pendReqs, Answerable k c) : Own log k rs' :=
  ⟨⟨h.onLog.of_eq hq hl, hl ▸ h.onLog.ascending, hp⟩, hc.trans h.clients, hr ▸ h.places,
    by rw [hs, hl, h.state]⟩

/-- Adding a request of the log to the queue. -/
theorem addToReqQ (h : Own log k rs) {pair : ReqPair} (hpair : NumberedFor k log pair.request) :
    Own log k (rs.addToReqQ pair) :=
  ⟨⟨h.onLog.toKeeps.addToReqQ hpair, h.onLog.ascending, h.onLog.pending⟩, h.clients, h.places,
    h.state⟩

theorem upgrade (h : Own log k rs) (r : Request) (old : Status) (new : ReplicationEnums) :
    Own log k (rs.upgrade r old new) :=
  ⟨⟨h.onLog.toKeeps.upgrade r old new, h.onLog.ascending, h.onLog.pending⟩, h.clients, h.places,
    h.state⟩

theorem removeFromPendReqs (h : Own log k rs) (c : ClientRequest) :
    Own log k (rs.removeFromPendReqs c) :=
  h.of_eq rfl rfl rfl rfl rfl fun _ hc => h.onLog.pending _ (List.mem_of_mem_erase hc)

theorem committed (h : Own log k rs) {r : Request} (hr : NumberedFor k log r) :
    Own log k (committedOwn rs r) := by
  unfold committedOwn
  split
  · exact (h.upgrade r {.prePrep, .prep} .commit).removeFromPendReqs r.clientRequest
  · have hadd : Own log k (rs.addToReqQ ⟨r, {.prePrep, .prep, .commit}⟩) := h.addToReqQ hr
    exact hadd.removeFromPendReqs r.clientRequest

/-- Executing the next request applies one more request of the log. -/
theorem executed (h : Own log k rs) (hk : 0 < k) {r : Request} (hr : NumberedFor k log r)
    (hnext : r.seqNum = lastSeq rs.rLog + 1) (xSet : Finset Int) {lastReq : LastReqTable}
    (hlast : LastReqAfter rs r lastReq) : Own log k (executedOwn rs r xSet lastReq) := by
  obtain ⟨rs', hupdate, rfl⟩ := hlast
  have hplaces : HasPlaces k rs'.lastReq := by
    refine HasPlaces.updated ?_ hupdate
    exact h.places
  refine ⟨⟨h.onLog.toKeeps.executed hr xSet rs'.lastReq,
    ascending_executed h.onLog.ascending hnext xSet rs'.lastReq,
    fun _ hc => h.onLog.pending _ (List.mem_of_mem_erase hc)⟩, h.clients, hplaces, ?_⟩
  have hpos := hr.1.1
  have hsucc : (r.seqNum + 1).toNat = r.seqNum.toNat + 1 := by omega
  rw [lastSeq_executed h.onLog.ascending (h.clients ▸ hk) hnext xSet rs'.lastReq, hsucc,
    stateAfter, SequentialLog.result_succ _ _ hr.1.2, ← stateAfter]
  show r.clientRequest.operation.execute rs.repState = _
  rw [h.state, ← hnext]

/-- An answerable client leaves no state behind when `commit()` raises. -/
theorem raised {n : Nat} {m m' : ReplicationModule n} (h : Own log k m.own) {r : Request}
    (hr : Answerable k r.clientRequest) {xSet : Finset Int} {e : PyError}
    (hcommit : m.commit r xSet = (m', some e)) : m' = m := by
  rcases commit_raised hcommit with hsame | ⟨hupdate, hafter⟩
  · exact hsame
  rcases hr with hplace | hstill
  · -- the table of last requests has a place, so it is updated
    obtain ⟨rs', hrs'⟩ := @HasPlaces.completes k { m.own with
      repState := r.clientRequest.operation.execute m.own.repState } h.places _ hplace r
      (r.clientRequest.operation.execute m.own.repState)
    rw [hrs'] at hupdate
    cases hupdate
  · rw [hafter, hstill, setOwn_own]

end Own

/-! ## One iteration -/

/-- A module in `NON_SELF_STAB` mode all of whose structures are on the log. -/
structure ModuleOnLog {n : Nat} (log : List Request) (f k : Nat) (m : ReplicationModule n) :
    Prop where
  byzantine : m.numberOfByzantine = f
  clients : m.numberOfClients = k
  plain : m.selfStab = false
  own : Own log k m.own
  copies : ∀ j, OnLog k log (m.rep j)

namespace ModuleOnLog

variable {n f k : Nat} {log : List Request} {m m' : ReplicationModule n}

theorem mono {log' : List Request} (hle : log <+: log') (h : ModuleOnLog log f k m) :
    ModuleOnLog log' f k m :=
  ⟨h.byzantine, h.clients, h.plain, h.own.mono hle, fun j => (h.copies j).mono hle⟩

theorem setOwn (h : ModuleOnLog log f k m) {rs : ReplicaStructure} (hrs : Own log k rs) :
    ModuleOnLog log f k (m.setOwn rs) :=
  ⟨h.byzantine, h.clients, h.plain, by rwa [own_setOwn], rep_setOwn h.copies hrs.onLog⟩

/-- What is supported is in the log. -/
theorem numbered_of_supported (h : ModuleOnLog log f k m) {status : Status} {r : Request}
    (hr : r ∈ m.supportedReqs status) : NumberedFor k log r :=
  keeps_of_supported (fun j => (h.copies j).toKeeps) hr

/-- Answerable clients may add pending requests. -/
theorem extendPendReqs (h : ModuleOnLog log f k m) {reqs : List ClientRequest}
    (hreqs : ∀ c ∈ reqs, Answerable k c) : Own log k (m.own.extendPendReqs reqs) := by
  refine Own.of_eq h.own rfl rfl rfl rfl rfl fun c hc => ?_
  cases ReplicaStructure.mem_pendReqs_extendPendReqs hc with
  | inl hold => exact h.own.onLog.pending c hold
  | inr hnew => exact hreqs c hnew

/-- Many processors know what is learnt, so some structure lists it. -/
theorem learned (h : ModuleOnLog log f k m) :
    Own log k (m.own.extendPendReqs m.knownPendReqs) := by
  apply h.extendPendReqs
  intro c hc
  obtain ⟨⟨j, hj⟩, -⟩ := mem_knownPendReqs.mp hc
  exact (h.copies j).pending c hj

theorem learnPendReqs (h : ModuleOnLog log f k m) : ModuleOnLog log f k m.learnPendReqs :=
  h.setOwn h.learned

/-- Processor 0 extends the log by what it numbers. -/
theorem assignSeqNums (h : ModuleOnLog log f k m) {created : List Request}
    (hseq : m.own.seqNum = log.length - 1)
    (hassign : m.assignSeqNums m.id.val = .ok (m', created)) :
    ∃ rs, m' = m.setOwn rs ∧ Own (log ++ created) k rs ∧ rs.rLog = m.own.rLog ∧
      rs.seqNum = (log ++ created).length - 1 ∧ (k = 0 → created = []) := by
  refine assignSeqNums_invariant (P := fun rs created => Own (log ++ created) k rs ∧
    rs.rLog = m.own.rLog ∧ rs.seqNum = (log ++ created).length - 1 ∧ (k = 0 → created = []))
    hassign ?_ ?_
  · rw [List.append_nil]
    exact ⟨h.own, rfl, hseq, fun _ => rfl⟩
  · intro rs created req hreq hrs hroom
    obtain ⟨hown, hrLog, hnum, -⟩ := hrs
    have hbounds := hown.onLog.lastSeq_bounds
    have hlen : ((log ++ created ++ [(⟨req, m.id.val, rs.seqNum + 1⟩ : Request)]).length : Int) =
        (log ++ created).length + 1 := by
      simp only [List.length_append, List.length_singleton]
      omega
    have hlast : NumberedFor k (log ++ created ++ [⟨req, m.id.val, rs.seqNum + 1⟩])
        (⟨req, m.id.val, rs.seqNum + 1⟩ : Request) := ⟨InLog.last (by
      show rs.seqNum + 1 = _
      omega), h.own.onLog.pending req hreq⟩
    have hgrown : Own (log ++ created ++ [⟨req, m.id.val, rs.seqNum + 1⟩]) k
        { rs with seqNum := rs.seqNum + 1 } :=
      (hown.mono (List.prefix_append _ _)).of_eq rfl rfl rfl rfl rfl hown.onLog.pending
    rw [← List.append_assoc]
    refine ⟨hgrown.addToReqQ hlast, hrLog, ?_, fun hk => ?_⟩
    · show rs.seqNum + 1 = _
      omega
    · -- without clients the window has no room
      rw [h.clients, hk] at hroom
      simp only [Nat.cast_zero, mul_zero, add_zero] at hroom
      omega

/-- A backup accepts only what the log numbers. -/
theorem prepareReqs_backup (h : ModuleOnLog log f k m) {p : Fin n} (hp : p ≠ m.id)
    {m₁ : ReplicationModule n} (hpre : m.prePrepReqs p.val = .ok m₁) :
    ∃ rs, m₁.prepReqs = m.setOwn rs ∧ Own log k rs ∧ rs.rLog = m.own.rLog := by
  obtain ⟨rs, rfl, hrs⟩ := prePrepReqs_invariant hp hpre
    (P := fun rs => Own log k rs ∧ rs.rLog = m.own.rLog) ⟨h.own, rfl⟩
    (fun rs r hrs hr => ⟨hrs.1.addToReqQ ((h.copies p).queued r (mem_offers hr).1), hrs.2⟩)
  obtain ⟨rs', hrs', hown⟩ := prepReqs_invariant (m := m.setOwn rs)
    (P := fun rs => Own log k rs ∧ rs.rLog = m.own.rLog)
    (by rwa [own_setOwn]) (fun rs r hrs _ => ⟨hrs.1.upgrade r _ _, hrs.2⟩)
  rw [setOwn_setOwn] at hrs'
  exact ⟨rs', hrs', hown⟩

/-- Committing and executing stays on the log, numbers nothing and only moves on. -/
theorem finish (h : ModuleOnLog log f k m) (hk : log ≠ [] → 0 < k) {committed : List Request}
    {raised : Option PyError}
    (hexec : (m', committed, raised) =
      executeReqs (m.commitReqs.supportedReqs {.prep, .commit}) m.commitReqs []) :
    ∃ rs, m' = m.setOwn rs ∧ Own log k rs ∧ rs.seqNum = m.own.seqNum ∧
      lastSeq m.own.rLog ≤ lastSeq rs.rLog := by
  obtain ⟨rs₁, rs, done, hrs₁, hrs, hcase⟩ := finish_cases (m := m)
    (P := fun rs _ => Own log k rs ∧ rs.seqNum = m.own.seqNum ∧
      lastSeq m.own.rLog ≤ lastSeq rs.rLog) hexec ⟨h.own, rfl, Int.le_refl _⟩
    (by
      intro rs r hrs hr
      rw [committedOwn_seqNum, committedOwn_rLog]
      exact ⟨hrs.1.committed (h.numbered_of_supported hr), hrs.2⟩)
    (by
      intro rs₁ hrs₁ rs _ r xSet lastReq hrs hr hnext hlast
      obtain ⟨hown, hnum, hle⟩ := hrs
      have hin := (h.setOwn hrs₁.1).numbered_of_supported hr
      have hne : log ≠ [] := fun hnil => by
        have hlt := hin.1.seqNum_lt
        have hpos := hin.1.1
        rw [hnil] at hlt
        exact absurd hlt (Int.not_lt.mpr hpos)
      have hend := lastSeq_executed hown.onLog.ascending (hown.clients ▸ hk hne) hnext xSet lastReq
      exact ⟨hown.executed (hk hne) hin hnext xSet hlast, hnum, by omega⟩)
  rcases hcase with ⟨hafter, -⟩ | ⟨r, hr, -, -, xSet, e, -, hraised⟩
  · exact ⟨rs, hafter, hrs⟩
  · have hin := (h.setOwn hrs₁.1).numbered_of_supported hr
    have hown : Own log k (m.setOwn rs).own := by
      rw [own_setOwn]
      exact hrs.1
    exact ⟨rs, hown.raised hin.2 hraised, hrs⟩

end ModuleOnLog

/-! ## The network -/

/-- Answers of the other modules are not restricted. -/
def AnyView {n : Nat} (_resolver : Resolver n) : Prop := True

instance {n : Nat} : DecidablePred (AnyView (n := n)) := fun _ => .isTrue trivial

section Network

variable {n f k : Nat} (hn : 0 < n)

/-- Processor 0. -/
def primary : Fin n := ⟨0, hn⟩

/-- The requests processor 0 has numbered. -/
def numberedBy (nodes : Fin n → Node n) : List Request := (nodes (primary hn)).created

/-- What a processor keeps: its structures are on the log, and processor 0
    continues where the log ends. -/
structure FollowsLog (f k : Nat) (log : List Request) (i : Fin n) (s : Node n) : Prop where
  id : s.module.id = i
  module : ModuleOnLog log f k s.module
  numbering : i = primary hn →
    s.module.own.seqNum = s.created.length - 1 ∧ (k = 0 → s.created = [])

variable {hn}

/-- The first part of an iteration: processor 0 extends the log, the others do not. -/
theorem ModuleOnLog.prepared {m m' : ReplicationModule n} {log created : List Request}
    {resolver : Resolver n} {order : SetOrder Int} {processing : Bool}
    (h : ModuleOnLog log f k m) (hseq : m.id = primary hn → m.own.seqNum = log.length - 1)
    (hprep : m.prepared resolver order = .ok (m', created, processing)) :
    (m.id ≠ primary hn → created = []) ∧ (k = 0 → created = []) ∧
      ∃ rs, m' = m.setOwn rs ∧ Own (log ++ created) k rs ∧ rs.rLog = m.own.rLog ∧
        (m.id = primary hn → rs.seqNum = (log ++ created).length - 1) := by
  obtain ⟨m₀, hrec, hrest⟩ := prepared_cases hprep
  -- without self-stabilization nothing is reconciled
  have hm₀ : m₀ = m := by
    simp only [reconcile, h.plain, Bool.not_false, if_true, pure, Except.pure,
      Except.ok.injEq] at hrec
    exact hrec.symm
  subst hm₀
  have hlearn := h.learnPendReqs
  rcases hrest with ⟨-, rfl, rfl⟩ | ⟨-, -, hprepare⟩
  · refine ⟨fun _ => rfl, fun _ => rfl, _, rfl, ?_, rfl, ?_⟩
    · rw [List.append_nil]
      exact h.learned
    · rw [List.append_nil]
      exact hseq
  · have hprim : m₀.learnPendReqs.primId resolver = (primary hn).val := by
      simp only [primId, hlearn.plain, Bool.false_eq_true, if_false, primary, Nat.cast_zero]
    rw [hprim] at hprepare
    rcases prepareReqs_cases hprepare with ⟨hid, hassign⟩ | ⟨hid, rfl, m₁, hpre, rfl⟩
    · -- processor 0 numbers requests
      have heq : m₀.id = primary hn := Fin.ext (by
        have hval : ((primary hn).val : Int) = m₀.id.val := hid
        omega)
      rw [hid] at hassign
      obtain ⟨rs, rfl, hown, hrLog, hnum, hzero⟩ := hlearn.assignSeqNums (by
        rw [ReplicationModule.learnPendReqs, own_setOwn]
        exact hseq heq) hassign
      rw [ReplicationModule.learnPendReqs, own_setOwn] at hrLog
      refine ⟨fun hne => absurd heq hne, hzero, rs, ?_, hown, hrLog, fun _ => hnum⟩
      rw [ReplicationModule.learnPendReqs, setOwn_setOwn]
    · -- the others follow
      have hne : primary hn ≠ m₀.id := fun heq => hid (by
        rw [heq]
        rfl)
      obtain ⟨rs, hrs, hown, hrLog⟩ := hlearn.prepareReqs_backup hne hpre
      rw [ReplicationModule.learnPendReqs, own_setOwn] at hrLog
      refine ⟨fun _ => rfl, fun _ => rfl, rs, ?_, ?_, hrLog, fun heq => absurd heq.symm hne⟩
      · rw [hrs, ReplicationModule.learnPendReqs, setOwn_setOwn]
      · rwa [List.append_nil]

/-- One iteration of a processor on the log. -/
theorem onLog_iterate {order : SetOrder Int} {i : Fin n} {s s' : Node n} {log : List Request}
    (h : FollowsLog hn f k log i s) (hlog : i = primary hn → log = s.created)
    (hk : log ≠ [] → 0 < k) (hiter : s.iterate order = some s') :
    ∃ created, s'.created = s.created ++ created ∧ (i ≠ primary hn → created = []) ∧
      FollowsLog hn f k (log ++ created) i s' ∧
      lastSeq s.module.own.rLog ≤ lastSeq s'.module.own.rLog := by
  obtain ⟨rfl, hmodule, hnumbering⟩ := h
  obtain ⟨m₁, created, processing, hprep, -, -, hcreated, -, hrest⟩ := Node.iterate_cases hiter
  have hseq : s.module.id = primary hn → s.module.own.seqNum = log.length - 1 := fun hi => by
    rw [hlog hi]
    exact (hnumbering hi).1
  obtain ⟨hother, hzero, rs, rfl, hown, hrLog, hnum⟩ := hmodule.prepared hseq hprep
  have hm₁ : ModuleOnLog (log ++ created) f k (s.module.setOwn rs) :=
    (hmodule.mono (List.prefix_append _ _)).setOwn hown
  have hk' : log ++ created ≠ [] → 0 < k := fun hne => Nat.pos_of_ne_zero fun hk0 => by
    rw [hzero hk0, List.append_nil] at hne
    exact absurd (hk hne) (by omega)
  -- what is left is to commit and execute, or nothing
  obtain ⟨rs', hafter, hown', hnum', hle⟩ : ∃ rs', s'.module = s.module.setOwn rs' ∧
      Own (log ++ created) k rs' ∧ rs'.seqNum = rs.seqNum ∧
      lastSeq s.module.own.rLog ≤ lastSeq rs'.rLog := by
    rcases hrest with ⟨-, hafter, -, -⟩ | ⟨-, committed, raised, hexec, -, -⟩
    · exact ⟨rs, hafter, hown, rfl, Int.le_of_eq (congrArg lastSeq hrLog.symm)⟩
    · obtain ⟨rs', hafter, hown', hnum', hle⟩ := hm₁.finish hk' hexec
      rw [setOwn_setOwn] at hafter
      rw [own_setOwn] at hnum' hle
      exact ⟨rs', hafter, hown', hnum', hrLog ▸ hle⟩
  refine ⟨created, hcreated, hother, ⟨?_, ?_, fun hi => ?_⟩, ?_⟩
  · rw [hafter, setOwn_id]
  · rw [hafter]
    exact (hmodule.mono (List.prefix_append _ _)).setOwn hown'
  · rw [hafter, own_setOwn, hnum', hnum hi, hlog hi, hcreated]
    refine ⟨rfl, fun hk0 => ?_⟩
    rw [(hnumbering hi).2 hk0, hzero hk0, List.append_nil]
  · rw [hafter, own_setOwn]
    exact hle

/-- Only requests of answerable clients arrive. -/
def AnswersClient (k : Nat) (_i : Fin n) (_s : Node n) : Node.Action n → Prop
  | .inject req => Answerable k req
  | .iterate _ | .surroundings _ => True

instance (k : Nat) (i : Fin n) (s : Node n) (a : Node.Action n) :
    Decidable (AnswersClient k i s a) :=
  match a with
  | .inject req => inferInstanceAs (Decidable (Answerable k req))
  | .iterate _ | .surroundings _ => .isTrue trivial

/-- A structure in flight between two processors. -/
def SentOnLog (k : Nat) (log : List Request) (i j : Fin n) (rs : ReplicaStructure) : Prop :=
  i ≠ j ∧ OnLog k log rs

/-- All processors without self-stabilization, in any surroundings. -/
abbrev plainNetwork (n f k : Nat) : System (Network (Fin n) (Node n) ReplicaStructure)
    (Network.Label (Fin n) (Node.Action n) ReplicaStructure) :=
  Node.network AnyView ∅ f k false

theorem FollowsLog.mono {log log' : List Request} (hle : log <+: log') {i : Fin n} {s : Node n}
    (h : FollowsLog hn f k log i s) : FollowsLog hn f k log' i s :=
  ⟨h.id, h.module.mono hle, h.numbering⟩

theorem FollowsLog.inject {log : List Request} {i : Fin n} {s : Node n}
    (h : FollowsLog hn f k log i s) {req : ClientRequest} (hreq : Answerable k req) :
    FollowsLog hn f k log i (s.inject req) := by
  have hown : Own log k (s.module.own.extendPendReqs [req]) := h.module.extendPendReqs (by
    intro c hc
    rw [List.mem_singleton.mp hc]
    exact hreq)
  refine ⟨h.id, h.module.setOwn hown, fun hi => ?_⟩
  simp only [Node.inject, injectClientReq, own_setOwn]
  exact h.numbering hi

theorem FollowsLog.receive {log : List Request} {i j : Fin n} {s : Node n}
    (h : FollowsLog hn f k log j s) {rs : ReplicaStructure} (hrs : SentOnLog k log i j rs) :
    FollowsLog hn f k log j { s with module := s.module.receiveRepMsg s.resolver i rs } := by
  obtain ⟨hne, hlog⟩ := hrs
  have hown : (s.module.receiveRepMsg s.resolver i rs).own = s.module.own :=
    own_receiveRepMsg (by rw [h.id]; exact hne)
  have hcopies := rep_receiveRepMsg h.module.copies hlog
    (fun _ _ hrs => ⟨hrs.of_eq rfl rfl, hrs.ascending, hrs.pending⟩) s.resolver (i := i)
  have hmodule : ModuleOnLog log f k (s.module.receiveRepMsg s.resolver i rs) :=
    { byzantine := by simpa using h.module.byzantine
      clients := by simpa using h.module.clients
      plain := by simpa using h.module.plain
      own := by
        rw [hown]
        exact h.module.own
      copies := hcopies }
  refine ⟨by simpa using h.id, hmodule, fun hj => ?_⟩
  rw [hown]
  exact h.numbering hj

theorem numberedBy_set (net : Network (Fin n) (Node n) ReplicaStructure) (i : Fin n) (s : Node n) :
    numberedBy hn (net.set i s).nodes =
      if i = primary hn then s.created else numberedBy hn net.nodes := by
  unfold numberedBy
  split
  · rename_i hi
    subst hi
    rw [Network.set_nodes_self]
  · rename_i hi
    rw [Network.set_nodes_of_ne _ _ (Ne.symm hi)]

/-- An action that numbers nothing leaves the log as it is. -/
theorem numberedBy_set_of_created (net : Network (Fin n) (Node n) ReplicaStructure) {i : Fin n}
    {s : Node n} (h : s.created = (net.nodes i).created) :
    numberedBy hn (net.set i s).nodes = numberedBy hn net.nodes := by
  rw [numberedBy_set]
  split
  · rename_i hi
    rw [h, hi]
    rfl
  · rfl

/-- An iteration extends the log by what it numbers. -/
theorem numberedBy_set_of_append (net : Network (Fin n) (Node n) ReplicaStructure) {i : Fin n}
    {s : Node n} {created : List Request} (h : s.created = (net.nodes i).created ++ created)
    (hother : i ≠ primary hn → created = []) :
    numberedBy hn (net.set i s).nodes = numberedBy hn net.nodes ++ created := by
  by_cases hi : i = primary hn
  · rw [numberedBy_set, if_pos hi, h, hi]
    rfl
  · rw [hother hi, List.append_nil] at h
    rw [numberedBy_set_of_created net h, hother hi, List.append_nil]

/-- What an iteration finds in a network on the log. -/
theorem onLog_iterate_network {net : Network (Fin n) (Node n) ReplicaStructure} {i : Fin n}
    {order : SetOrder Int} {s' : Node n}
    (hnet : Network.Local (Node.protocol (AnyView (n := n))) ∅
      (FollowsLog hn f k (numberedBy hn net.nodes)) (SentOnLog k (numberedBy hn net.nodes)) net)
    (hiter : (net.nodes i).iterate order = some s') :
    ∃ created, s'.created = (net.nodes i).created ++ created ∧
      (i ≠ primary hn → created = []) ∧
      FollowsLog hn f k (numberedBy hn net.nodes ++ created) i s' ∧
      lastSeq (net.nodes i).module.own.rLog ≤ lastSeq s'.module.own.rLog := by
  refine onLog_iterate (hnet.nodes i (Finset.notMem_empty i)) ?_ ?_ hiter
  · intro hi
    rw [hi]
    rfl
  · intro hne
    have hzero := ((hnet.nodes (primary hn) (Finset.notMem_empty _)).numbering rfl).2
    exact Nat.pos_of_ne_zero fun hk => hne (hzero hk)

/-- What every processor keeps, and every message in flight. -/
theorem onLog_network (hn : 0 < n) {net : Network (Fin n) (Node n) ReplicaStructure}
    (h : (plainNetwork n f k).Run (Network.locally (AnswersClient k)) net) :
    Network.Local (Node.protocol (AnyView (n := n))) ∅
      (FollowsLog hn f k (numberedBy hn net.nodes)) (SentOnLog k (numberedBy hn net.nodes))
      net := by
  refine Network.Run.of_shared (numberedBy hn) (· <+: ·) (fun _ _ _ _ hle hs => hs.mono hle)
    (fun _ _ _ _ _ hle hm => ⟨hm.1, hm.2.mono hle⟩) ?_ ?_ ?_ ?_ h
  · intro net hnet
    apply Network.Local.of_noFlight _ hnet.2
    intro i hi
    obtain ⟨resolver, -, hinit⟩ := hnet.1 i hi
    have hlog : numberedBy hn net.nodes = [] := by
      obtain ⟨resolver', -, hinit'⟩ := hnet.1 (primary hn) (Finset.notMem_empty _)
      rw [numberedBy, hinit']
      rfl
    rw [hinit, hlog]
    exact ⟨rfl, ⟨rfl, rfl, rfl, Own.init _, fun j => onLog_init _ _ _ _⟩,
      fun _ => ⟨rfl, fun _ => rfl⟩⟩
  · intro net i a s' hi hnet hok hact
    cases a with
    | iterate order =>
      obtain ⟨created, hcreated, hother, hs', -⟩ := onLog_iterate_network hnet hact
      rw [numberedBy_set_of_append net hcreated hother]
      exact ⟨List.prefix_append _ _, hs'⟩
    | inject req =>
      cases hact
      rw [numberedBy_set_of_created net (by rfl)]
      exact ⟨List.prefix_rfl, (hnet.nodes i hi).inject hok⟩
    | surroundings resolver =>
      simp only [Node.protocol, Option.ite_none_right_eq_some, Option.some.injEq] at hact
      obtain ⟨-, rfl⟩ := hact
      rw [numberedBy_set_of_created net (by rfl)]
      have hs := hnet.nodes i hi
      exact ⟨List.prefix_rfl, ⟨hs.id, hs.module, hs.numbering⟩⟩
  · intro log i s j rs _ hs hrs
    simp only [Node.protocol] at hrs
    split at hrs
    · exact absurd hrs List.not_mem_nil
    · rename_i hne
      rw [List.mem_singleton.mp hrs]
      exact ⟨fun heq => hne (Or.inl heq.symm), hs.module.own.onLog⟩
  · intro net j i rs _ hs hrs _
    exact ⟨numberedBy_set_of_created net (by rfl), hs.receive (hrs (Finset.notMem_empty i))⟩

/-! ## The refinement -/

/-- The sequential log a network implements: what processor 0 has numbered, and
    how far each processor has executed. -/
def toSequentialLog (hn : 0 < n) (net : Network (Fin n) (Node n) ReplicaStructure) :
    SequentialLog (Fin n) Request where
  log := numberedBy hn net.nodes
  applied i := (lastSeq (net.nodes i).module.own.rLog + 1).toNat

/-- Every run is a run of the sequential log. -/
theorem reachable_toSequentialLog {net : Network (Fin n) (Node n) ReplicaStructure}
    (h : (plainNetwork n f k).Run (Network.locally (AnswersClient k)) net) :
    (SequentialLog.system (Fin n) Request).Reachable (toSequentialLog hn net) := by
  induction h with
  | init hinit =>
    rename_i net
    refine .init ?_
    have hnode : ∀ i, (net.nodes i).created = [] ∧ (net.nodes i).module.own.rLog = [] := by
      intro i
      obtain ⟨resolver, -, hi⟩ := hinit.1 i (Finset.notMem_empty i)
      rw [hi]
      exact ⟨rfl, rfl⟩
    show SequentialLog.mk _ _ = SequentialLog.mk _ _
    congr 1
    · exact (hnode (primary hn)).1
    · funext i
      rw [(hnode i).2]
      rfl
  | step hr hok hstep ih =>
    rename_i net net' l
    have hnet := onLog_network hn hr
    -- a processor that neither numbers nor executes leaves the log as it is
    have hidle : ∀ (i : Fin n) (s : Node n), s.created = (net.nodes i).created →
        s.module.own.rLog = (net.nodes i).module.own.rLog →
        toSequentialLog hn (net.set i s) = toSequentialLog hn net := by
      intro i s hcreated hrLog
      unfold toSequentialLog
      congr 1
      · exact numberedBy_set_of_created net hcreated
      · funext j
        by_cases hj : j = i
        · rw [hj, Network.set_nodes_self, hrLog]
        · rw [Network.set_nodes_of_ne _ _ hj]
    cases l with
    | act i a =>
      obtain ⟨-, s', hs', rfl⟩ := hstep
      cases a with
      | iterate order =>
        -- an iteration numbers some requests and executes up to some number
        obtain ⟨created, hcreated, hother, hfollows, hle⟩ := onLog_iterate_network hnet hs'
        have hbounds := hfollows.module.own.onLog.lastSeq_bounds
        have hadvance := SequentialLog.Reachable.advance ih created i
          (a := (lastSeq s'.module.own.rLog + 1).toNat) (by
            show (lastSeq (net.nodes i).module.own.rLog + 1).toNat ≤ _
            omega) (by
            show _ ≤ (numberedBy hn net.nodes ++ created).length
            omega)
        convert hadvance using 1
        unfold toSequentialLog
        congr 1
        · exact numberedBy_set_of_append net hcreated hother
        · funext j
          by_cases hj : j = i
          · rw [hj, Network.set_nodes_self, Function.update_self]
          · rw [Network.set_nodes_of_ne _ _ hj, Function.update_of_ne hj]
      | inject req =>
        cases hs'
        have hrLog : ((net.nodes i).inject req).module.own.rLog =
            (net.nodes i).module.own.rLog := by
          simp only [Node.inject, injectClientReq, own_setOwn]
          rfl
        rw [hidle i ((net.nodes i).inject req) rfl hrLog]
        exact ih
      | surroundings resolver =>
        simp only [Node.protocol, Option.ite_none_right_eq_some, Option.some.injEq] at hs'
        obtain ⟨-, rfl⟩ := hs'
        rw [hidle i { net.nodes i with resolver := resolver } rfl rfl]
        exact ih
    | send i j rs =>
      obtain ⟨-, -, rfl⟩ := hstep
      exact ih
    | deliver i j rs =>
      obtain ⟨-, hmem, rfl⟩ := hstep
      have hne := (hnet.sent i j rs hmem (Finset.notMem_empty i)).1
      have hid := (hnet.nodes j (Finset.notMem_empty j)).id
      have hown : ((net.nodes j).module.receiveRepMsg (net.nodes j).resolver i rs).own =
          (net.nodes j).module.own := own_receiveRepMsg (by rw [hid]; exact hne)
      have hstay := hidle j { net.nodes j with
        module := (net.nodes j).module.receiveRepMsg (net.nodes j).resolver i rs } rfl
        (congrArg ReplicaStructure.rLog hown)
      rw [← hstay] at ih
      exact ih
    | forge i j rs => exact absurd hstep.1 (Finset.notMem_empty i)

/-- In every run with requests of answerable clients the requests processor 0 has
    numbered are one sequential log: the network refines it, every request anywhere
    is an entry whose sequence number is its position, every processor holds what the
    entries up to its last executed one produce, and so any two processors hold
    prefixes of each other. -/
theorem refines_sequentialLog (hn : 0 < n) {net : Network (Fin n) (Node n) ReplicaStructure}
    (h : (plainNetwork n f k).Run (Network.locally (AnswersClient k)) net) :
    (SequentialLog.system (Fin n) Request).Reachable (toSequentialLog hn net) ∧
    (∀ i j, ∀ r ∈ ((net.nodes i).module.rep j).queued ++ ((net.nodes i).module.rep j).logged,
      InLog (numberedBy hn net.nodes) r) ∧
    (∀ i j rs, (i, j, rs) ∈ net.flight → ∀ r ∈ rs.queued ++ rs.logged,
      InLog (numberedBy hn net.nodes) r) ∧
    (∀ i, (net.nodes i).module.own.repState =
      stateAfter (numberedBy hn net.nodes) ((net.nodes i).module.lastExec + 1).toNat ∧
      (net.nodes i).module.lastExec + 1 ≤ (numberedBy hn net.nodes).length) ∧
    ∀ i j, (net.nodes i).module.own.repState <+: (net.nodes j).module.own.repState ∨
      (net.nodes j).module.own.repState <+: (net.nodes i).module.own.repState := by
  have hnet := onLog_network hn h
  have hnode := fun i => hnet.nodes i (Finset.notMem_empty i)
  refine ⟨reachable_toSequentialLog h, ?_, ?_, ?_, ?_⟩
  · intro i j r hr
    have hcopy := (hnode i).module.copies j
    exact (List.mem_append.mp hr).elim (fun hq => (hcopy.queued r hq).1)
      (fun hl => (hcopy.logged r hl).1)
  · intro i j rs hmem r hr
    have hsent := (hnet.sent i j rs hmem (Finset.notMem_empty i)).2
    exact (List.mem_append.mp hr).elim (fun hq => (hsent.queued r hq).1)
      (fun hl => (hsent.logged r hl).1)
  · intro i
    have hbounds := (hnode i).module.own.onLog.lastSeq_bounds
    rw [lastExec_eq]
    exact ⟨(hnode i).module.own.state, by omega⟩
  · intro i j
    rw [(hnode i).module.own.state, (hnode j).module.own.state]
    have hgrow : ∀ a b, a ≤ b →
        stateAfter (numberedBy hn net.nodes) a <+: stateAfter (numberedBy hn net.nodes) b :=
      fun a b => SequentialLog.result_prefix (fun r => Operation.prefix_execute _) _
    exact (Nat.le_total _ _).imp (hgrow _ _) (hgrow _ _)

/-- Six processors after construction. -/
def sixPlain : Network (Fin 6) (Node 6) ReplicaStructure where
  nodes i := Node.init i 1 1 false ⟨true, true, fun _ => 0⟩
  flight := []

theorem sixPlain_init : (plainNetwork 6 1 1).init sixPlain :=
  ⟨fun _ _ => ⟨_, trivial, rfl⟩, rfl⟩

/-- Processors 0 and 1 execute a request, and processor 4 takes over only the state when their
    structures arrive during a view change. -/
theorem refines_sequentialLog_six :
    ∃ net : Network (Fin 6) (Node 6) ReplicaStructure,
      (net.nodes 1).module.own.repState = [7] ∧ (net.nodes 2).module.own.repState = [] ∧
      ((net.nodes 4).module.rep 1).repState = [7] ∧ ((net.nodes 4).module.rep 1).rLog = [] ∧
      (∀ i, (net.nodes i).module.own.repState = stateAfter
        (numberedBy (Nat.succ_pos 5) net.nodes) ((net.nodes i).module.lastExec + 1).toNat) ∧
      ∀ i j, (net.nodes i).module.own.repState <+: (net.nodes j).module.own.repState ∨
        (net.nodes j).module.own.repState <+: (net.nodes i).module.own.repState := by
  have hexec : (System.exec (Network.play (Node.protocol AnyView) ∅
      (Network.locally (AnswersClient 1))) sixPlain
      (serving ⟨0, some 1, .append 7⟩ ++
        [.act 4 (.surroundings ⟨true, false, fun _ => 0⟩)] ++ telling [0, 1] [4])).any
      (fun net => (net.nodes 1).module.own.repState = [7] ∧
        (net.nodes 2).module.own.repState = [] ∧
        ((net.nodes 4).module.rep 1).repState = [7] ∧
        ((net.nodes 4).module.rep 1).rLog = []) = true := by
    decide +kernel
  obtain ⟨net, hrun, hp⟩ := Network.Run.of_play (.init sixPlain_init) hexec
  obtain ⟨hexecuted, hbehind, hstate, hlog⟩ := of_decide_eq_true hp
  have hall := refines_sequentialLog (Nat.succ_pos 5) hrun
  exact ⟨net, hexecuted, hbehind, hstate, hlog, fun i => (hall.2.2.2.1 i).1, hall.2.2.2.2⟩

/-- The request of a client that has no place among the last requests of one client. When
    `commit()` raises, the state has its value and the log has nothing. -/
theorem state_ahead :
    ∃ net : Network (Fin 6) (Node 6) ReplicaStructure,
      (plainNetwork 6 1 1).Reachable net ∧
      (net.nodes 0).module.own.repState = [7] ∧ (net.nodes 0).module.lastExec = -1 ∧
      (net.nodes 0).module.own.repState ≠ stateAfter (numberedBy (Nat.succ_pos 5) net.nodes)
        ((net.nodes 0).module.lastExec + 1).toNat := by
  have hexec : (System.exec (Network.play (Node.protocol AnyView) ∅ fun _ _ => True) sixPlain
      (serving ⟨-3, some 1, .append 7⟩)).any
      (fun net => (net.nodes 0).module.own.repState = [7] ∧
        (net.nodes 0).module.lastExec = -1) = true := by
    decide +kernel
  obtain ⟨net, hreach, hp⟩ := Network.Reachable.of_play (.init sixPlain_init) hexec
  obtain ⟨hstate, hlast⟩ := of_decide_eq_true hp
  refine ⟨net, hreach, hstate, hlast, ?_⟩
  rw [hstate, hlast]
  exact List.cons_ne_nil 7 []

end Network

end BFTList
