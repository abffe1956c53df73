import BFTList.Spec.NewView
import BFTList.Spec.PrePrepares

/-!
# What an accepted proposal contains

A backup that accepts the structure of a new primary copies all of it. The check
looks at entries of the primary's own view and counts who has pre-prepared their
client request, or else asks whether the request could be pre-prepared now; it
counts who has the pending requests, and it replays the log.

## Key results

- `checked_known`: what a Byzantine primary can get through the check
- `checked_smuggled`: an accepted proposal with client requests only the primary knows
-/

namespace BFTList.ReplicationModule

variable {n : Nat} {m : ReplicationModule n} {p : Fin n} {faulty : Finset (Fin n)}

/-- A correct processor has the client request pending, queued or executed. -/
def KnownToCorrect (m : ReplicationModule n) (faulty : Finset (Fin n)) (c : ClientRequest) :
    Prop :=
  ∃ j, j ∉ faulty ∧ (c ∈ (m.rep j).pendReqs ∨ (∃ r ∈ (m.rep j).queued, r.clientRequest = c) ∨
    ∃ r ∈ (m.rep j).logged, r.clientRequest = c)

instance (m : ReplicationModule n) (faulty : Finset (Fin n)) (c : ClientRequest) :
    Decidable (m.KnownToCorrect faulty c) := inferInstanceAs (Decidable (∃ _ : Fin n, _ ∧ _))

/-- No faulty structure has a client request twice among the pending ones, or twice with
    nothing but `PRE_PREP`. -/
def WithoutCopies (m : ReplicationModule n) (faulty : Finset (Fin n)) : Prop :=
  ∀ j ∈ faulty, (m.rep j).pendReqs.Nodup ∧
    (((m.rep j).reqQ.filter fun q => q.status = {.prePrep}).map
      (·.request.clientRequest)).Nodup

instance (m : ReplicationModule n) (faulty : Finset (Fin n)) :
    Decidable (m.WithoutCopies faulty) := inferInstanceAs (Decidable (∀ _ ∈ faulty, _))

/-- What is pending often enough is pending at a correct processor. -/
theorem WithoutCopies.exists_pending (h : m.WithoutCopies faulty)
    (hfew : faulty.card + 2 * m.numberOfByzantine < n) {c : ClientRequest}
    (hc : (n : Int) - 2 * m.numberOfByzantine ≤
      ((List.finRange n).flatMap fun j => (m.rep j).pendReqs).count c) :
    ∃ j, j ∉ faulty ∧ c ∈ (m.rep j).pendReqs := by
  obtain ⟨j, hj, c', hc', heq⟩ := Counter.exists_hit (p := (· == c))
    (fun j hj => List.nodup_iff_count_le_one.mp (h j hj).1 c) (by
      show _ < List.count c _
      omega)
  exact ⟨j, hj, beq_iff_eq.mp heq ▸ hc'⟩

/-- What is pre-prepared often enough is pre-prepared at a correct processor. -/
theorem WithoutCopies.exists_prePrepared (h : m.WithoutCopies faulty)
    (hfew : faulty.card + 2 * m.numberOfByzantine < n) {c : ClientRequest}
    (hc : (n : Int) - 2 * m.numberOfByzantine ≤ m.prePrepCount c) :
    ∃ j, j ∉ faulty ∧ ∃ r ∈ (m.rep j).queued, r.clientRequest = c := by
  have honce : ∀ j ∈ faulty, ((m.rep j).reqQ.countP fun q =>
      q.status = {.prePrep} ∧ q.request.clientRequest = c) ≤ 1 := by
    intro j hj
    have hcount := List.nodup_iff_count_le_one.mp (h j hj).2 c
    rw [List.count, List.countP_map, List.countP_filter] at hcount
    refine le_trans (le_of_eq (List.countP_congr fun q _ => ?_)) hcount
    simp [and_comm]
  obtain ⟨j, hj, q, hq, hhit⟩ := Counter.exists_hit honce (by
    show _ < m.prePrepCount c
    omega)
  have hclient := (of_decide_eq_true hhit).2
  exact ⟨j, hj, q.request, ReplicaStructure.mem_queued.mpr ⟨q, hq, rfl⟩, hclient⟩

/-- An accepted proposal, with at most `f` faulty structures: a client request queued
    under the primary's view is known to a correct processor, or the primary's own log
    offers it; what is pending is pending at a correct processor; and the log replays to
    the state, with which the states of `n - 3f` correct processors begin. -/
theorem checked_known (hn : 5 * m.numberOfByzantine + 1 ≤ n)
    (hfaulty : faulty.card ≤ m.numberOfByzantine) (hcopies : m.WithoutCopies faulty)
    (h : m.checkNewVState p.val = .ok true) :
    (∀ q ∈ (m.rep p).reqQ, q.request.view = p.val → q.request.clientRequest.isDummy = false →
      m.KnownToCorrect faulty q.request.clientRequest ∨
        m.NewMatch p q.request.clientRequest (m.rep p).logged) ∧
    (∀ c ∈ (m.rep p).pendReqs, ∃ j, j ∉ faulty ∧ c ∈ (m.rep j).pendReqs) ∧
    replay (m.rep p).rLog = (m.rep p).repState ∧
    (n : Int) - 3 * m.numberOfByzantine ≤
      (Finset.univ.filter fun j =>
        j ∉ faulty ∧ (m.rep p).repState <+: (m.rep j).repState).card := by
  obtain ⟨hreqs, hpend, hcommon, hreplay⟩ := (checkNewVState_iff (by omega)).mp h
  have hfew : faulty.card + 2 * m.numberOfByzantine < n := by omega
  refine ⟨fun q hq hview hdummy => ?_, fun c hc => ?_, (replay_of_executeRLog hreplay).2, ?_⟩
  · have hback := hreqs q hq hview
    rw [Backed, if_neg (Bool.eq_false_iff.mp hdummy)] at hback
    rcases hback with ⟨-, hmany | haccept⟩
    · obtain ⟨j, hj, hqueued⟩ := hcopies.exists_prePrepared hfew hmany
      exact Or.inl ⟨j, hj, Or.inr (Or.inl hqueued)⟩
    · rcases acceptReqPreprep_iff.mp haccept with ⟨hknown, -, -⟩ | hlog
      · obtain ⟨j, hj, hc⟩ := hcopies.exists_pending hfew (mem_knownPendReqs.mp hknown).2
        exact Or.inl ⟨j, hj, Or.inl hc⟩
      · exact Or.inr hlog
  · exact hcopies.exists_pending hfew (hpend c hc)
  · -- of the `n - 2f` states at most `f` are faulty
    let held := (m.holders (m.rep p).repState).toFinset
    have hheld : (n : Int) - 2 * m.numberOfByzantine ≤ held.card := by
      have hnodup : (m.holders (m.rep p).repState).Nodup := (List.nodup_finRange n).filter _
      rw [List.toFinset_card_of_nodup hnodup, holders, ← List.countP_eq_length_filter]
      exact hcommon
    have hcorrect : held \ faulty =
        Finset.univ.filter fun j => j ∉ faulty ∧ (m.rep p).repState <+: (m.rep j).repState := by
      ext j
      simp only [held, Finset.mem_sdiff, List.mem_toFinset, mem_holders, Finset.mem_filter,
        Finset.mem_univ, true_and]
      tauto
    have hsplit := Quorum.card_le_card_sdiff_add held faulty
    rw [hcorrect] at hsplit
    omega

/-! ## Two proposals of processor 5 -/

/-- A client request that the correct processors have pending and pre-prepared in view 4. -/
def prePrepared : ClientRequest := ⟨0, some 9, .append 9⟩

/-- Client requests that only processor 5 knows. -/
def smuggled (i : Nat) : ClientRequest := ⟨7, some i, .append i⟩

/-- Six replicas that executed one request, of which processor 5 proposes this queue and log. -/
def proposalTable (reqQ : List ReqPair) (rLog : List LogEntry) : ReplicationModule 6 :=
  let m := viewChangeTable 1 [prePrepared] [⟨⟨prePrepared, 4, 1⟩, {.prePrep}⟩]
  { m with rep := Function.update m.rep 5 { m.rep 5 with reqQ := reqQ, rLog := rLog } }

/-- An honest proposal. -/
theorem checked_known_renewed :
    let m := proposalTable [⟨⟨prePrepared, 5, 1⟩, {.prePrep, .prep}⟩]
      [⟨⟨⟨0, some 0, .append 0⟩, 1, 0⟩, some {0, 1, 2, 3}⟩]
    m.KnownToCorrect {5} prePrepared := by
  intro m
  have hcopies : m.WithoutCopies {5} := by decide
  obtain ⟨hreqs, -⟩ := checked_known (p := 5) (by decide) (by decide) hcopies (by decide)
  rcases hreqs ⟨⟨prePrepared, 5, 1⟩, {.prePrep, .prep}⟩ (by decide) rfl rfl with hknown | hlog
  · exact hknown
  · exact absurd hlog (by decide)

/-- Accepted with two client requests that only processor 5 knows: the first is in the
    log, which replays to the same state and offers it for the queue, and the second is
    queued under another view. -/
theorem checked_smuggled :
    let m := proposalTable [⟨⟨smuggled 0, 5, 1⟩, {.prePrep}⟩, ⟨⟨smuggled 1, 4, 2⟩, {.prePrep}⟩]
      [⟨⟨smuggled 0, 5, 1⟩, some {5}⟩]
    m.checkNewVState 5 = .ok true ∧ ¬ m.KnownToCorrect {5} (smuggled 0) ∧
      ¬ m.KnownToCorrect {5} (smuggled 1) := by
  decide

end BFTList.ReplicationModule
