import BFTList.Native.ReplicaStructure

/-!
# What the operations of a replica structure do

One lemma for each operation and container: what a later entry was before, or
which call put it there. Everything that is proved about runs of the
Replication module goes through these lemmas and never unfolds an operation.

## Key results

- `mem_reqQ_addToReqQ`, `mem_reqQ_upgrade`: entries of the request queue
- `queued_addToReqQ_nodup`: no request is queued twice
- `commit_spec`: the containers after `commit()`
- `lastSeq_trimRLog`: eviction keeps the end of an ascending log
- `HasPlaces.completes`: a client that has a place among the last requests keeps it
-/

namespace BFTList

/-- Sequence number of the last entry of a log, `-1` for an empty log. -/
def lastSeq (rLog : List LogEntry) : Int :=
  match rLog.getLast? with
  | some e => e.request.seqNum
  | none => -1

/-- Sequence numbers grow along the log. -/
def Ascending (rLog : List LogEntry) : Prop :=
  rLog.Pairwise fun e e' => e.request.seqNum < e'.request.seqNum

theorem lastSeq_append (rLog : List LogEntry) (e : LogEntry) :
    lastSeq (rLog ++ [e]) = e.request.seqNum := by
  simp only [lastSeq, List.getLast?_concat]

/-- No entry of an ascending log is later than the last one. -/
theorem Ascending.le_lastSeq {rLog : List LogEntry} (h : Ascending rLog) {e : LogEntry}
    (he : e ∈ rLog) : e.request.seqNum ≤ lastSeq rLog := by
  cases rLog using List.reverseRecOn with
  | nil => exact absurd he List.not_mem_nil
  | append_singleton l last =>
    rw [lastSeq_append]
    cases List.mem_append.mp he with
    | inl hl => exact Int.le_of_lt ((List.pairwise_append.mp h).2.2 e hl last (by simp))
    | inr hlast => rw [List.mem_singleton.mp hlast]

/-- A log stays ascending when the next sequence number is appended. -/
theorem Ascending.concat {rLog : List LogEntry} (h : Ascending rLog) {e : LogEntry}
    (he : e.request.seqNum = lastSeq rLog + 1) : Ascending (rLog ++ [e]) := by
  refine List.pairwise_append.mpr ⟨h, List.pairwise_singleton _ _, fun a ha b hb => ?_⟩
  rw [List.mem_singleton.mp hb, he]
  have hle := h.le_lastSeq ha
  omega

namespace ReplicaStructure

/-- Requests under process. -/
def queued (rs : ReplicaStructure) : List Request := rs.reqQ.map (·.request)

/-- Executed requests that are still in the log. -/
def logged (rs : ReplicaStructure) : List Request := rs.rLog.map (·.request)

theorem mem_queued {rs : ReplicaStructure} {r : Request} :
    r ∈ rs.queued ↔ ∃ q ∈ rs.reqQ, q.request = r := List.mem_map

theorem mem_logged {rs : ReplicaStructure} {r : Request} :
    r ∈ rs.logged ↔ ∃ e ∈ rs.rLog, e.request = r := List.mem_map

theorem reqAlreadyExist_iff {rs : ReplicaStructure} {r : Request} :
    rs.reqAlreadyExist r = true ↔ r ∈ rs.queued := by
  simp only [reqAlreadyExist, List.any_eq_true, decide_eq_true_eq, mem_queued]

/-! ## The request queue -/

/-- The queue after an insertion holds old entries and the new one. -/
theorem mem_reqQ_addToReqQ {rs : ReplicaStructure} {pair q : ReqPair}
    (h : q ∈ (rs.addToReqQ pair).reqQ) : q ∈ rs.reqQ ∨ q = pair := by
  have hmem := List.mem_of_mem_evict h
  split at hmem
  · exact Or.inl hmem
  · simpa using hmem

theorem mem_queued_addToReqQ {rs : ReplicaStructure} {pair : ReqPair} {r : Request}
    (h : r ∈ (rs.addToReqQ pair).queued) : r ∈ rs.queued ∨ r = pair.request := by
  obtain ⟨q, hq, rfl⟩ := mem_queued.mp h
  cases mem_reqQ_addToReqQ hq with
  | inl hold => exact Or.inl (mem_queued.mpr ⟨q, hold, rfl⟩)
  | inr hnew => exact Or.inr (congrArg ReqPair.request hnew)

/-- No request is queued twice. -/
theorem nodup_queued_addToReqQ {rs : ReplicaStructure} (h : rs.queued.Nodup) (pair : ReqPair) :
    (rs.addToReqQ pair).queued.Nodup := by
  have hnodup : ((if rs.reqAlreadyExist pair.request then rs.reqQ else rs.reqQ ++ [pair]).map
      ReqPair.request).Nodup := by
    split
    · exact h
    · rename_i hnot
      rw [List.map_append, List.map_singleton]
      refine List.nodup_append.mpr ⟨h, List.nodup_singleton _, fun a ha b hb => ?_⟩
      rw [List.mem_singleton.mp hb]
      intro heq
      exact hnot (reqAlreadyExist_iff.mpr (heq ▸ ha))
  exact hnodup.sublist ((List.evict_sublist ..).map _)

/-- A request that is queued is not added again. -/
theorem reqQ_addToReqQ_of_mem {rs : ReplicaStructure} {pair : ReqPair}
    (hroom : rs.reqQ.length ≤ SIGMA * rs.numberOfClients) (h : pair.request ∈ rs.queued) :
    (rs.addToReqQ pair).reqQ = rs.reqQ := by
  simp only [addToReqQ, if_pos (reqAlreadyExist_iff.mpr h), trimReqQ]
  exact List.evict_of_length_le hroom

/-- With room in the queue a new request goes to its end. -/
theorem reqQ_addToReqQ_of_not_mem {rs : ReplicaStructure} {pair : ReqPair}
    (hroom : rs.reqQ.length < SIGMA * rs.numberOfClients) (h : pair.request ∉ rs.queued) :
    (rs.addToReqQ pair).reqQ = rs.reqQ ++ [pair] := by
  have hnew : ¬ rs.reqAlreadyExist pair.request = true :=
    fun hold => h (reqAlreadyExist_iff.mp hold)
  simp only [addToReqQ, if_neg hnew, trimReqQ]
  apply List.evict_of_length_le
  simp only [List.length_append, List.length_singleton]
  omega

/-- With room in the queue all its requests stay. -/
theorem mem_queued_addToReqQ_iff {rs : ReplicaStructure} {pair : ReqPair}
    (hroom : rs.reqQ.length < SIGMA * rs.numberOfClients) {r : Request} :
    r ∈ (rs.addToReqQ pair).queued ↔ r ∈ rs.queued ∨ r = pair.request := by
  by_cases hold : pair.request ∈ rs.queued
  · rw [queued, reqQ_addToReqQ_of_mem (Nat.le_of_lt hroom) hold]
    exact (or_iff_left_of_imp fun heq => heq ▸ hold).symm
  · rw [queued, reqQ_addToReqQ_of_not_mem hroom hold, List.map_append, List.mem_append]
    simp [queued]

theorem length_reqQ_addToReqQ_le (rs : ReplicaStructure) (pair : ReqPair) :
    (rs.addToReqQ pair).reqQ.length ≤ rs.reqQ.length + 1 := by
  apply (List.evict_sublist ..).length_le.trans
  split
  · exact Nat.le_succ _
  · simp

/-- An upgrade changes statuses only. -/
@[simp] theorem queued_upgrade (rs : ReplicaStructure) (r : Request) (old : Status)
    (new : ReplicationEnums) : (rs.upgrade r old new).queued = rs.queued := by
  simp only [queued, upgrade, List.map_map]
  apply List.map_congr_left
  intro q _
  simp only [Function.comp_apply]
  split
  · rfl
  · rfl

/-- An upgraded entry had the old status and belongs to the request. -/
theorem mem_reqQ_upgrade {rs : ReplicaStructure} {r : Request} {old : Status}
    {new : ReplicationEnums} {q : ReqPair} (h : q ∈ (rs.upgrade r old new).reqQ) :
    q ∈ rs.reqQ ∨ (q.request = r ∧ q.status = insert new old ∧ ⟨r, old⟩ ∈ rs.reqQ) := by
  obtain ⟨q₀, hq₀, rfl⟩ := List.mem_map.mp h
  split
  · rename_i hmatch
    obtain ⟨rfl, rfl⟩ := hmatch
    exact Or.inr ⟨rfl, rfl, hq₀⟩
  · exact Or.inl hq₀

/-- With no clients there is no room in the queue. -/
theorem reqQ_addToReqQ_of_noClients {rs : ReplicaStructure} (h : rs.numberOfClients = 0)
    (pair : ReqPair) : (rs.addToReqQ pair).reqQ = [] := by
  have hle : (trimReqQ 0 (if rs.reqAlreadyExist pair.request then rs.reqQ
      else rs.reqQ ++ [pair])).length ≤ SIGMA * 0 :=
    List.length_evict_le (fun q => by simp) (Nat.le_refl _)
  have hzero : (rs.addToReqQ pair).reqQ.length ≤ 0 := by
    show (trimReqQ rs.numberOfClients _).length ≤ 0
    rw [h]
    exact hle
  exact List.length_eq_zero_iff.mp (Nat.le_zero.mp hzero)

/-! ## Pending requests -/

private theorem mem_foldl_pend {reqs pend : List ClientRequest} {c : ClientRequest}
    (h : c ∈ reqs.foldl (fun pend r => if r ∈ pend then pend else pend ++ [r]) pend) :
    c ∈ pend ∨ c ∈ reqs := by
  induction reqs generalizing pend with
  | nil => exact Or.inl h
  | cons r reqs ih =>
    rw [List.foldl_cons] at h
    cases ih h with
    | inr hmem => exact Or.inr (List.mem_cons_of_mem _ hmem)
    | inl hmem =>
      split at hmem
      · exact Or.inl hmem
      · cases List.mem_append.mp hmem with
        | inl hold => exact Or.inl hold
        | inr hnew => exact Or.inr (List.mem_singleton.mp hnew ▸ List.mem_cons_self)

/-- Requests become pending only when they are offered. -/
theorem mem_pendReqs_extendPendReqs {rs : ReplicaStructure} {reqs : List ClientRequest}
    {c : ClientRequest} (h : c ∈ (rs.extendPendReqs reqs).pendReqs) :
    c ∈ rs.pendReqs ∨ c ∈ reqs :=
  mem_foldl_pend (List.mem_of_mem_drop h)

/-- No client request is pending twice. -/
theorem nodup_pendReqs_extendPendReqs {rs : ReplicaStructure} (h : rs.pendReqs.Nodup)
    (reqs : List ClientRequest) : (rs.extendPendReqs reqs).pendReqs.Nodup := by
  have hnodup : (reqs.foldl (fun pend r => if r ∈ pend then pend else pend ++ [r])
      rs.pendReqs).Nodup := by
    refine List.foldl_invariant (P := fun pend : List ClientRequest => pend.Nodup) _ _ h ?_
    intro pend r _ hpend
    exact nodup_setAdd hpend r
  exact hnodup.sublist (List.drop_sublist _ _)

theorem mem_pendReqs_removeFromPendReqs {rs : ReplicaStructure} {c c' : ClientRequest}
    (h : c' ∈ (rs.removeFromPendReqs c).pendReqs) : c' ∈ rs.pendReqs := List.mem_of_mem_erase h

/-! ## The log -/

theorem trimRLog_sublist (k : Nat) (rLog : List LogEntry) : (trimRLog k rLog).Sublist rLog :=
  List.evict_sublist ..

/-- An ascending log keeps its last `3 * SIGMA * K` entries. -/
theorem trimRLog_eq_drop {k : Nat} {rLog : List LogEntry} (h : Ascending rLog) :
    trimRLog k rLog = rLog.drop (rLog.length - 3 * SIGMA * k) := by
  apply List.evict_of_pairwise h
  · simp
  · intro x y hxy
    rw [of_decide_eq_true hxy]
  · exact Nat.le_refl _

/-- Eviction keeps the end of an ascending log. -/
theorem lastSeq_trimRLog {k : Nat} (hk : 0 < k) {rLog : List LogEntry} (h : Ascending rLog) :
    lastSeq (trimRLog k rLog) = lastSeq rLog := by
  rw [trimRLog_eq_drop h]
  have hbound : 0 < 3 * SIGMA * k := Nat.mul_pos (by decide) hk
  cases rLog with
  | nil => rw [List.drop_nil]
  | cons e rLog =>
    have hlen : ¬ (e :: rLog).length ≤ (e :: rLog).length - 3 * SIGMA * k := by
      simp only [List.length_cons]
      omega
    rw [lastSeq, List.getLast?_drop, if_neg hlen, ← lastSeq]

/-- What `commit()` does to the own structure. -/
theorem updateLastReq_spec {rs rs' : ReplicaStructure} {clientId : Int} {r : Request}
    {reply : List Value} (h : rs.updateLastReq clientId r reply = .ok rs') :
    ∃ lastReq, rs' = { rs with lastReq := lastReq } := by
  unfold updateLastReq at h
  split at h
  · cases h
    exact ⟨_, rfl⟩
  · split at h
    · cases h
      exact ⟨_, rfl⟩
    · dsimp only at h
      split at h
      · cases h
        exact ⟨_, rfl⟩
      · cases h

end ReplicaStructure

/-! ## Last requests -/

/-- The id of a client that has a place among the last requests of `k` clients. -/
def HasPlace (k : Nat) (c : ClientRequest) : Prop := -(k : Int) ≤ c.clientId

instance (k : Nat) (c : ClientRequest) : Decidable (HasPlace k c) :=
  inferInstanceAs (Decidable (_ ≤ _))

/-- A dictionary, or a list with a place for every client. -/
def HasPlaces (k : Nat) : LastReqTable → Prop
  | .list l => k ≤ l.length
  | .dict _ => True

/-- An updated table still has its places. -/
theorem HasPlaces.updated {k : Nat} {rs rs' : ReplicaStructure} {clientId : Int}
    {r : Request} {reply : List Value} (h : HasPlaces k rs.lastReq)
    (hupdate : rs.updateLastReq clientId r reply = .ok rs') : HasPlaces k rs'.lastReq := by
  unfold ReplicaStructure.updateLastReq at hupdate
  split at hupdate
  · cases hupdate
    trivial
  -- a list: the reply is stored in place, or after the list has grown
  · rename_i l hlist
    rw [hlist] at h
    split at hupdate
    · cases hupdate
      show k ≤ (l.set _ _).length
      rw [List.length_set]
      exact h
    · dsimp only at hupdate
      split at hupdate
      · cases hupdate
        show k ≤ ((l ++ List.replicate _ _).set _ _).length
        rw [List.length_set, List.length_append]
        exact Nat.le_add_right_of_le h
      · cases hupdate

theorem HasPlaces.completes {k : Nat} {rs : ReplicaStructure}
    (h : HasPlaces k rs.lastReq) {c : ClientRequest} (hc : HasPlace k c) (r : Request)
    (reply : List Value) : (rs.updateLastReq c.clientId r reply).Completes := by
  unfold ReplicaStructure.updateLastReq
  split
  · exact ⟨_, rfl⟩
  · rename_i l hlist
    rw [hlist] at h
    have hle : k ≤ l.length := h
    unfold HasPlace at hc
    split
    · exact ⟨_, rfl⟩
    · -- the list grows until the client has a place
      have hgrown : (pyIndex (l ++ List.replicate (c.clientId + 1 - l.length).toNat
          LastReq.missing).length c.clientId).Completes := by
        rw [pyIndex_completes, List.length_append, List.length_replicate]
        omega
      obtain ⟨i, hi⟩ := hgrown
      simp only [hi]
      exact ⟨_, rfl⟩

/-! ## Calls that may raise -/

/-- `is_dummy()` of the client request does not raise. -/
def ClientRequest.Askable (c : ClientRequest) : Prop :=
  ¬ (c.clientId = -1 ∧ c.timestamp = none ∧ c.operation = .other)

instance (c : ClientRequest) : Decidable c.Askable := inferInstanceAs (Decidable (¬ _))

theorem ClientRequest.callIsDummy_of_askable {c : ClientRequest} (h : c.Askable) :
    c.callIsDummy = .ok c.isDummy := if_neg h

theorem ClientRequest.callIsDummy_of_not_askable {c : ClientRequest} (h : ¬ c.Askable) :
    c.callIsDummy = .error .attributeError := if_pos (Decidable.not_not.mp h)

theorem ClientRequest.askable_of_isDummy {c : ClientRequest} (h : c.isDummy = true) :
    c.Askable := by
  rw [isDummy, decide_eq_true_iff] at h
  intro hother
  rw [h.2.2] at hother
  cases hother.2.2

end BFTList
