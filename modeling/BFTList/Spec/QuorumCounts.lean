import BFTList.Spec.StableView

/-!
# What the quorum counts count

`known_pend_reqs`, `known_reqs` and `supported_reqs` add one for every occurrence
in a queue or log. They are read as numbers of processors, and are at most that
number where no structure has a second copy of what is counted.

## Key results

- `mem_knownReqs`: which own entries are known
- `counts_processors`: without copies the counts are numbers of processors
- `copies_counted`: one structure with copies is a quorum of its own
-/

namespace BFTList.ReplicationModule

variable {n : Nat} {m : ReplicationModule n}

/-- Requests queued with at least the given status. -/
def queuedWith (status : Status) (rs : ReplicaStructure) : List Request :=
  (rs.reqQ.filter fun q => status ⊆ q.status).map (·.request)

theorem mem_queuedWith {status : Status} {rs : ReplicaStructure} {r : Request} :
    r ∈ queuedWith status rs ↔ ∃ q ∈ rs.reqQ, q.request = r ∧ status ⊆ q.status := by
  simp only [queuedWith, List.mem_map, List.mem_filter, decide_eq_true_eq]
  constructor
  · rintro ⟨q, ⟨hq, hstatus⟩, rfl⟩
    exact ⟨q, hq, rfl, hstatus⟩
  · rintro ⟨q, hq, rfl, hstatus⟩
    exact ⟨q, ⟨hq, hstatus⟩, rfl⟩

/-- Entries for a request are counted in all queues together. -/
theorem count_queuedWith (status : Status) (r : Request) (reps : List ReplicaStructure) :
    ((reps.flatMap (·.reqQ)).countP fun q => r = q.request ∧ status ⊆ q.status) =
      (reps.flatMap (queuedWith status)).count r := by
  induction reps with
  | nil => rfl
  | cons rs reps ih =>
    have hone : (rs.reqQ.countP fun q => r = q.request ∧ status ⊆ q.status) =
        (queuedWith status rs).count r := by
      rw [queuedWith, List.count, List.countP_map, List.countP_filter]
      apply List.countP_congr
      intro q _
      simp only [Function.comp_apply, decide_eq_true_eq, Bool.and_eq_true, beq_iff_eq,
        eq_comm (a := r)]
    rw [List.flatMap_cons, List.flatMap_cons, List.countP_append, List.count_append, ih, hone]

/-- An own entry is known with the status iff it reaches the threshold in all queues, or
    the threshold is not positive. -/
theorem mem_knownReqs {status : Status} {pair : ReqPair} :
    pair ∈ m.knownReqs status ↔ pair ∈ m.own.reqQ ∧
      ((status ⊆ pair.status ∧ (n : Int) - 2 * m.numberOfByzantine ≤
          ((List.finRange n).flatMap fun j => queuedWith status (m.rep j)).count pair.request) ∨
        (n : Int) - 2 * m.numberOfByzantine ≤ 0) := by
  have hcount := count_queuedWith status pair.request ((List.finRange n).map m.rep)
  rw [List.flatMap_map, List.flatMap_map] at hcount
  simp only [knownReqs, List.mem_filter, decide_eq_true_eq]
  apply and_congr_right
  intro _
  split
  · rename_i hstatus
    rw [hcount]
    simp only [hstatus, true_and]
    omega
  · rename_i hstatus
    simp only [hstatus, false_and, false_or]
    rfl

/-- No structure has a second copy of what a macro counts: of a request that is not in the own
    log, in queue and log together, of a request of the own queue, in the queue, or of a client
    request among the pending ones. -/
structure SingleCopies (m : ReplicationModule n) : Prop where
  listed : ∀ j, ∀ r ∈ (m.rep j).queued ++ (m.rep j).logged, r ∉ m.own.logged →
    ((m.rep j).queued ++ (m.rep j).logged).count r ≤ 1
  queued : ∀ j, ∀ r ∈ m.own.queued, (m.rep j).queued.count r ≤ 1
  pending : ∀ j, (m.rep j).pendReqs.Nodup

/-- There are no more entries for a request with a status than entries for it. -/
theorem count_queuedWith_le (status : Status) (rs : ReplicaStructure) (r : Request) :
    (queuedWith status rs).count r ≤ rs.queued.count r :=
  (List.filter_sublist.map _).count_le r

/-- A structure lists a request with a status at most as often as it has it. -/
theorem count_listed_le (status : Status) (rs : ReplicaStructure) (r : Request) :
    (listed status rs).count r ≤ (rs.queued ++ rs.logged).count r := by
  rw [listed, List.count_append, List.count_append]
  exact Nat.add_le_add_right (count_queuedWith_le status rs r) _

/-- Without second copies, supported requests are listed by, known client requests pending at,
    and known entries queued with the status at `n - 2f` distinct processors. -/
theorem counts_processors (h : m.SingleCopies) :
    (∀ status, ∀ r ∈ m.supportedReqs status, (n : Int) - 2 * m.numberOfByzantine ≤
        (Finset.univ.filter fun j => (∃ q ∈ (m.rep j).reqQ, status ⊆ q.status ∧ q.request = r) ∨
          r ∈ (m.rep j).logged).card) ∧
      (∀ c ∈ m.knownPendReqs, (n : Int) - 2 * m.numberOfByzantine ≤
        (Finset.univ.filter fun j => c ∈ (m.rep j).pendReqs).card) ∧
      ∀ status, ∀ pair ∈ m.knownReqs status, (n : Int) - 2 * m.numberOfByzantine ≤
        (Finset.univ.filter fun j => ∃ q ∈ (m.rep j).reqQ, q.request = pair.request ∧
          status ⊆ q.status).card := by
  refine ⟨fun status r hr => ?_, fun c hc => ?_, fun status pair hpair => ?_⟩
  · obtain ⟨-, hmany, hnew⟩ := mem_supportedReqs.mp hr
    simp only [← mem_listed]
    have hcount := Counter.count_flatMap_le (g := fun j => listed status (m.rep j)) (x := r)
      fun j => by
        apply (count_listed_le status (m.rep j) r).trans
        by_cases hmem : r ∈ (m.rep j).queued ++ (m.rep j).logged
        · exact h.listed j r hmem hnew
        · rw [List.count_eq_zero_of_not_mem hmem]
          exact Nat.zero_le 1
    omega
  · obtain ⟨-, hmany⟩ := mem_knownPendReqs.mp hc
    have hcount := Counter.count_flatMap_le (g := fun j => (m.rep j).pendReqs) (x := c)
      fun j => List.nodup_iff_count_le_one.mp (h.pending j) c
    omega
  · obtain ⟨hown, ⟨-, hmany⟩ | hneg⟩ := mem_knownReqs.mp hpair
    · simp only [← mem_queuedWith]
      have hcount := Counter.count_flatMap_le (g := fun j => queuedWith status (m.rep j))
        (x := pair.request) fun j => (count_queuedWith_le status (m.rep j) pair.request).trans
          (h.queued j _ (ReplicaStructure.mem_queued.mpr ⟨pair, hown, rfl⟩))
      omega
    · omega

/-! ## Six processors -/

/-- A request that only the faulty processor knows. -/
def forgedRequest : Request := ⟨⟨0, some 666, .append 666⟩, 0, 0⟩

/-- A request that the processor itself and the faulty one have queued. -/
def ownRequest : Request := ⟨⟨0, some 1, .append 1⟩, 0, 1⟩

/-- Processors 0 to 3 have the own request queued and its client request pending; processor 5
    has a forged one beside it, once. -/
def singlesTable : ReplicationModule 6 :=
  { init 0 1 1 true with
    rep := fun j =>
      { ReplicaStructure.init j.val 1 with
        pendReqs := if j.val < 4 then [ownRequest.clientRequest]
          else if j = 5 then [forgedRequest.clientRequest, ownRequest.clientRequest] else []
        reqQ := if j.val < 4 then [⟨ownRequest, {.prePrep, .prep}⟩]
          else if j = 5 then
            [⟨forgedRequest, {.prePrep, .prep}⟩, ⟨ownRequest, {.prePrep, .prep}⟩]
          else [] } }

/-- The own request is supported, pending and known, at `n - 2f` processors each time. -/
theorem counts_processors_singles :
    (ownRequest ∈ singlesTable.supportedReqs {.prep} ∧ (6 : Int) - 2 ≤
      (Finset.univ.filter fun j => (∃ q ∈ (singlesTable.rep j).reqQ,
        {.prep} ⊆ q.status ∧ q.request = ownRequest) ∨
        ownRequest ∈ (singlesTable.rep j).logged).card) ∧
    (ownRequest.clientRequest ∈ singlesTable.knownPendReqs ∧ (6 : Int) - 2 ≤
      (Finset.univ.filter fun j =>
        ownRequest.clientRequest ∈ (singlesTable.rep j).pendReqs).card) ∧
    (⟨ownRequest, {.prePrep, .prep}⟩ ∈ singlesTable.knownReqs {.prep} ∧ (6 : Int) - 2 ≤
      (Finset.univ.filter fun j => ∃ q ∈ (singlesTable.rep j).reqQ,
        q.request = ownRequest ∧ {.prep} ⊆ q.status).card) := by
  have hsingle : singlesTable.SingleCopies := ⟨by decide, by decide, by decide⟩
  obtain ⟨hsupported, hpending, hknown⟩ := counts_processors hsingle
  have h₁ : ownRequest ∈ singlesTable.supportedReqs {.prep} := by decide
  have h₂ : ownRequest.clientRequest ∈ singlesTable.knownPendReqs := by decide
  have h₃ : ⟨ownRequest, {.prePrep, .prep}⟩ ∈ singlesTable.knownReqs {.prep} := by decide
  exact ⟨⟨h₁, hsupported _ _ h₁⟩, ⟨h₂, hpending _ h₂⟩, ⟨h₃, hknown _ _ h₃⟩⟩

/-- What processor 5 sends: copies. -/
def copies : ReplicaStructure :=
  { ReplicaStructure.init 5 1 with
    pendReqs := List.replicate 4 forgedRequest.clientRequest
    reqQ := List.replicate 4 ⟨forgedRequest, {.prePrep, .prep}⟩ ++
      List.replicate 3 ⟨ownRequest, {.prePrep, .prep}⟩ }

/-- Processor 0 after it received them. -/
def copiesTable : ReplicationModule 6 :=
  ((init 0 1 1 true).setOwn { ReplicaStructure.init 0 1 with
    reqQ := [⟨ownRequest, {.prePrep, .prep}⟩] }).receiveRepMsg ⟨true, true, fun _ => 0⟩ 5 copies

/-- Of six processors four are needed, and one is enough: with copies it makes a request
    supported and pending, and together with the own entry another one known. -/
theorem copies_counted :
    (forgedRequest ∈ copiesTable.supportedReqs {.prep} ∧
      ∀ j, j ≠ 5 → forgedRequest ∉ listed {.prep} (copiesTable.rep j)) ∧
    (forgedRequest.clientRequest ∈ copiesTable.knownPendReqs ∧
      ∀ j, j ≠ 5 → forgedRequest.clientRequest ∉ (copiesTable.rep j).pendReqs) ∧
    (⟨ownRequest, {.prePrep, .prep}⟩ ∈ copiesTable.knownReqs {.prep} ∧
      ∀ j, j ≠ 0 → j ≠ 5 → ownRequest ∉ (copiesTable.rep j).queued) := by
  decide

end BFTList.ReplicationModule
