import BFTList.Spec.NodeRuns
import BFTList.Spec.SequentialReplication

/-!
# Bounds of pending requests, queue and log

Every operation that adds to a container trims it to `SIGMA * K`, the log to
three times as much, with the `K` stored in the structure. A flush stores 6
there, whatever the module was constructed with.

## Key results

- `within`: the bounds as properties of the containers
- `queue_bounds`: without a flush, or with 6 clients and more, they always hold
- `queue_overfull`: after a flush with one client they do not
-/

namespace BFTList

open ReplicationModule

/-- The bounds for `k` clients; no structure trims to more. -/
def within (n k : Nat) : Containers n where
  rLog l := l.length ≤ 3 * SIGMA * k
  pendReqs l := l.length ≤ SIGMA * k
  reqQ l := l.length ≤ SIGMA * k
  clients c := c ≤ k
  rLog_nil := Nat.zero_le _
  rLog_prefix hpre h := hpre.length_le.trans h
  rLog_commit := by
    intro c l r xSet hc _ _ _
    have htrim : (ReplicaStructure.trimRLog c (l ++ [⟨r, some xSet⟩])).length ≤ 3 * SIGMA * c :=
      List.length_evict_le (fun e => by simp) (Nat.le_refl _)
    exact htrim.trans (Nat.mul_le_mul_left _ hc)
  pendReqs_nil := Nat.zero_le _
  pendReqs_sublist hsub h := hsub.length_le.trans h
  pendReqs_extend := by
    intro rs reqs hc _ _
    -- `extend_pend_reqs` keeps the last `SIGMA` times the own number of clients
    have hmul : SIGMA * rs.numberOfClients ≤ SIGMA * k := Nat.mul_le_mul_left _ hc
    simp only [ReplicaStructure.extendPendReqs, List.length_drop]
    omega
  pendReqs_common := by
    intro ls l hls hnodup hcount
    -- what is pending in all lists is in each of them on average
    have hmany : l.length * ls.length ≤ ls.flatten.length := by
      apply Counter.length_mul_le hnodup
      intro c hc
      exact ⟨(hcount c hc).1, (hcount c hc).2.ge⟩
    -- and each list is within the bound
    have hfew : ls.flatten.length ≤ ls.length * (SIGMA * k) := by
      rw [List.length_flatten, ← List.length_map (f := List.length), ← smul_eq_mul]
      apply List.sum_le_card_nsmul
      intro size hsize
      obtain ⟨l', hl', rfl⟩ := List.mem_map.mp hsize
      exact hls l' hl'
    cases ls with
    -- without lists nothing is pending in all of them
    | nil =>
      cases l with
      | nil => exact Nat.zero_le _
      | cons c l => exact absurd (hcount c List.mem_cons_self).1 List.not_mem_nil
    | cons l' ls =>
      apply Nat.le_of_mul_le_mul_left _ (Nat.succ_pos ls.length)
      rw [Nat.mul_comm (ls.length + 1) l.length]
      exact hmany.trans hfew
  reqQ_nil := Nat.zero_le _
  reqQ_sublist hsub h := hsub.length_le.trans h
  reqQ_congr := by
    intro l l' hsame h
    -- renewing requests neither adds nor drops an entry
    have hlength := congrArg List.length hsame
    rw [List.length_map, List.length_map] at hlength
    rw [hlength]
    exact h
  reqQ_add := by
    intro rs pair hc _ _
    have htrim : (rs.addToReqQ pair).reqQ.length ≤ SIGMA * rs.numberOfClients :=
      List.length_evict_le (fun q => by simp) (Nat.le_refl _)
    exact htrim.trans (Nat.mul_le_mul_left _ hc)

/-- An iteration that flushes has room for 6 clients. -/
def FlushFits {n : Nat} (k : Nat) (s : Node n) : Node.Command n → Prop
  | .own (.iterate order) => s.module.Flushes s.resolver order → 6 ≤ k
  | .own (.inject _) | .own (.surroundings _) | .replicaFlush | .repRequestReset => True

instance {n : Nat} (k : Nat) (s : Node n) (command : Node.Command n) :
    Decidable (FlushFits k s command) :=
  match command with
  | .own (.iterate order) => inferInstanceAs (Decidable (s.module.Flushes s.resolver order → 6 ≤ k))
  | .own (.inject _) | .own (.surroundings _) | .replicaFlush | .repRequestReset => .isTrue trivial

/-- In every run of correct processors that have room for 6 clients whenever they
    flush, pending requests, queue and log stay within the bounds. -/
theorem queue_bounds {n f k : Nat} {selfStab : Bool}
    {net : Network (Fin n) (Node n) ReplicaStructure}
    (h : (Node.together AnyView f k selfStab).Run
      (Network.locally fun _ s command => FlushFits k s command) net) (i : Fin n) :
    (net.nodes i).module.own.pendReqs.length ≤ SIGMA * k ∧
      (net.nodes i).module.own.reqQ.length ≤ SIGMA * k ∧
      (net.nodes i).module.own.rLog.length ≤ 3 * SIGMA * k := by
  have hkeeps := Containers.Keeps.of_together (C := within n k) (fun _ _ _ _ => trivial)
    (fun _ => trivial) trivial trivial (Nat.le_refl k) ?_ h i
  -- the bounds are what the containers keep
  · have hown := hkeeps.table.own
    exact ⟨hown.pendReqs, hown.reqQ, hown.rLog⟩
  · intro i s command hfits
    cases command with
    | own action =>
      cases action with
      | iterate order => exact hfits
      | inject req => trivial
      | surroundings resolver => trivial
    | replicaFlush => trivial
    | repRequestReset => trivial

/-! ## A flush with one client -/

/-- Six processors after construction, each in view 0. -/
def sixStarted (k : Nat) : Network (Fin 6) (Node 6) ReplicaStructure where
  nodes i := Node.init i 1 k true ⟨true, true, fun _ => 0⟩
  flight := []

theorem sixStarted_init (k : Nat) : (Node.together AnyView 1 k true).init (sixStarted k) :=
  ⟨fun _ => ⟨_, trivial, rfl⟩, rfl⟩

/-- Six client requests. -/
def sixRequests : List ClientRequest :=
  (List.range 6).map fun v => ⟨0, some v, .append v⟩

/-- With room for 6 clients a flush changes nothing. -/
theorem queue_bounds_six :
    ∃ net : Network (Fin 6) (Node 6) ReplicaStructure,
      (net.nodes 0).module.own.pendReqs.length = 6 ∧
      ∀ i, (net.nodes i).module.own.pendReqs.length ≤ 30 ∧
        (net.nodes i).module.own.reqQ.length ≤ 30 ∧ (net.nodes i).module.own.rLog.length ≤ 90 := by
  have hexec : (System.exec (Network.nextIf (Node.commandProtocol AnyView) ∅
      (Network.locally fun _ s command => FlushFits 6 s command)) (sixStarted 6)
      ([.act 0 .replicaFlush, .act 0 (.own (.iterate .insertion))] ++
        sixRequests.map fun c => .act 0 (.own (.inject c)))).any
      (fun net => (net.nodes 0).module.own.pendReqs.length = 6) = true := by
    decide +kernel
  obtain ⟨net, hrun, hp⟩ := Network.Run.of_exec (.init (sixStarted_init 6)) hexec
  exact ⟨net, of_decide_eq_true hp, queue_bounds hrun⟩

/-- With one client a processor that was flushed has six pending requests, which
    is one more than `SIGMA`. -/
theorem queue_overfull :
    ∃ net : Network (Fin 6) (Node 6) ReplicaStructure,
      (Node.together AnyView 1 1 true).Reachable net ∧
      SIGMA * 1 < (net.nodes 0).module.own.pendReqs.length := by
  have hexec : (System.exec (Network.next (Node.commandProtocol AnyView) ∅) (sixStarted 1)
      ([.act 0 .replicaFlush, .act 0 (.own (.iterate .insertion))] ++
        sixRequests.map fun c => .act 0 (.own (.inject c)))).any
      (fun net => SIGMA * 1 < (net.nodes 0).module.own.pendReqs.length) = true := by
    decide +kernel
  obtain ⟨net, hreach, hp⟩ := Network.Reachable.of_exec (.init (sixStarted_init 1)) hexec
  exact ⟨net, hreach, of_decide_eq_true hp⟩

end BFTList
