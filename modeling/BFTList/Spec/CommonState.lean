import BFTList.Spec.Reconcile
import BFTList.Spec.SequentialReplication
import Mathlib.Data.List.TakeWhile

/-!
# The state and log a new primary adopts

In a table of honest replicas every state is what the first requests of one
history produce, and every log is the end of what was executed. There
`com_pref_states` finds the longest state that enough replicas begin with, in
the first replicas that have it, and `get_corresponding_r_log` takes the first
of their logs with a part that produces an end of that state. That part
produces the whole state iff the log reaches back far enough.

## Key results

- `Executed.next`: executing the next request keeps a replica honest
- `findPrefix_of_prefixes`: the longest common prefix is the shortest state
- `comPrefStates_of_mostCommon`: which replicas `com_pref_states` chooses
- `replay_findConsState_iff`: when the adopted log produces the adopted state
-/

namespace BFTList

open ReplicationModule

/-! ## The list a log produces -/

theorem execute_append (op : Operation) (start lst : List Value) :
    op.execute (start ++ lst) = start ++ op.execute lst := by
  cases op with
  | append v => exact List.append_assoc start lst [v]
  | bareAppend | noOp | other => rfl

/-- The list some requests produce from the empty one. -/
def produce (reqs : List Request) : List Value :=
  reqs.foldl (fun state r => r.clientRequest.operation.execute state) []

theorem foldl_execute (reqs : List Request) (start : List Value) :
    reqs.foldl (fun state r => r.clientRequest.operation.execute state) start =
      start ++ produce reqs := by
  induction reqs using List.reverseRecOn with
  | nil => exact (List.append_nil start).symm
  | append_singleton reqs r ih =>
    rw [produce, List.foldl_append, List.foldl_append, ih, ← produce, List.foldl_cons,
      List.foldl_cons, execute_append]
    rfl

theorem produce_append (reqs reqs' : List Request) :
    produce (reqs ++ reqs') = produce reqs ++ produce reqs' := by
  rw [produce, List.foldl_append, ← produce, foldl_execute]

theorem replay_eq_produce (rLog : List LogEntry) :
    replay rLog = produce (rLog.map (·.request)) := by
  rw [replay, produce, List.foldl_map]

theorem produce_take (history : List Request) (a : Nat) :
    produce (history.take a) = stateAfter history a := rfl

/-- A longer part of a log produces a longer list. -/
theorem prefix_replay {part part' : List LogEntry} (h : part <+: part') :
    replay part <+: replay part' := by
  obtain ⟨rest, rfl⟩ := h
  rw [replay_eq_produce, replay_eq_produce, List.map_append, produce_append]
  exact List.prefix_append _ _

/-! ## Honest replicas -/

/-- A replica that executed the first `executed` requests of the history: its
    state is what they produce, its log holds the last `3 * SIGMA * K` of them. -/
structure Executed (history : List Request) (k executed : Nat) (rs : ReplicaStructure) : Prop where
  le : executed ≤ history.length
  state : rs.repState = stateAfter history executed
  logged : rs.logged = (history.take executed).drop (executed - 3 * SIGMA * k)

namespace Executed

variable {history : List Request} {k executed : Nat} {rs : ReplicaStructure}

theorem init (history : List Request) (k : Nat) (id : Int) :
    Executed history k 0 (ReplicaStructure.init id k) where
  le := Nat.zero_le _
  state := rfl
  logged := by
    rw [List.take_zero, List.drop_nil]
    rfl

theorem state_prefix (h : Executed history k executed rs) : rs.repState <+: produce history := by
  have hsplit : produce history =
      stateAfter history executed ++ produce (history.drop executed) := by
    rw [← produce_take, ← produce_append, List.take_append_drop]
  rw [h.state, hsplit]
  exact List.prefix_append _ _

/-- The log produces the end of the state. -/
theorem replay_suffix (h : Executed history k executed rs) : replay rs.rLog <:+ rs.repState := by
  have hlog : replay rs.rLog =
      produce ((history.take executed).drop (executed - 3 * SIGMA * k)) := by
    rw [replay_eq_produce, ← h.logged, ReplicaStructure.logged]
  have hsplit := produce_append ((history.take executed).take (executed - 3 * SIGMA * k))
    ((history.take executed).drop (executed - 3 * SIGMA * k))
  rw [List.take_append_drop, produce_take] at hsplit
  rw [hlog, h.state, hsplit]
  exact List.suffix_append _ _

/-- The log of a replica with a state is empty only if logs have no room. -/
theorem noClients_of_nil (h : Executed history k executed rs) (hlog : rs.rLog = [])
    (hstate : rs.repState ≠ []) : k = 0 := by
  have hlength := congrArg List.length h.logged
  have hlen := h.le
  rw [ReplicaStructure.logged, hlog, List.map_nil, List.length_nil, List.length_drop,
    List.length_take, Nat.min_eq_left hlen] at hlength
  have hpos : executed ≠ 0 := by
    intro hzero
    exact hstate (by rw [h.state, hzero]; rfl)
  have hsigma : SIGMA = 5 := rfl
  rw [hsigma] at hlength
  omega

theorem nil_of_noClients (h : Executed history 0 executed rs) : rs.rLog = [] := by
  have hlogged := h.logged
  rw [Nat.mul_zero, Nat.sub_zero, List.drop_take_self] at hlogged
  exact List.map_eq_nil_iff.mp hlogged

/-- Executing the next request keeps a replica honest. -/
theorem next (h : Executed history k executed rs) (hk : rs.numberOfClients = k)
    (hnum : ∀ i : Nat, ∀ r, history[i]? = some r → r.seqNum = i) {r : Request}
    (hr : history[executed]? = some r) (xSet : Finset Int) (lastReq : LastReqTable) :
    Executed history k (executed + 1) (executedOwn rs r xSet lastReq) := by
  have hlt := (List.getElem?_eq_some_iff.mp hr).1
  have htake : history.take (executed + 1) = history.take executed ++ [r] := by
    rw [List.take_add_one, hr, Option.toList_some]
  refine ⟨hlt, ?_, ?_⟩
  · show r.clientRequest.operation.execute rs.repState = _
    rw [h.state, stateAfter, stateAfter, SequentialLog.result_succ _ _ hr]
  · -- the log with the new entry is still ascending, so eviction drops its beginning
    have hlogged : List.map LogEntry.request (rs.rLog ++ [⟨r, some xSet⟩]) =
        (history.take (executed + 1)).drop (executed - 3 * SIGMA * k) := by
      rw [List.map_append, htake, List.drop_append_of_le_length, ← h.logged]
      · rfl
      · rw [List.length_take, Nat.min_eq_left h.le]
        omega
    have hascReq : (history.take (executed + 1)).Pairwise fun a b => a.seqNum < b.seqNum := by
      rw [List.pairwise_iff_getElem]
      intro i j hi hj hij
      have hai := hnum i _ (List.getElem?_eq_getElem (by rw [List.length_take] at hi; omega))
      have haj := hnum j _ (List.getElem?_eq_getElem (by rw [List.length_take] at hj; omega))
      rw [List.getElem_take, List.getElem_take, hai, haj]
      omega
    have hasc : Ascending (rs.rLog ++ [⟨r, some xSet⟩]) := by
      have hmap := hascReq.sublist (List.drop_sublist (executed - 3 * SIGMA * k) _)
      rw [← hlogged, List.pairwise_map] at hmap
      exact hmap
    show List.map LogEntry.request
      (ReplicaStructure.trimRLog rs.numberOfClients (rs.rLog ++ [⟨r, some xSet⟩])) = _
    rw [ReplicaStructure.trimRLog_eq_drop hasc, List.map_drop, hlogged, List.drop_drop, hk]
    congr 1
    have hlength := congrArg List.length hlogged
    rw [List.length_map, List.length_drop, List.length_take] at hlength
    omega

/-- Executing a whole history from the start makes a replica honest. -/
theorem of_foldl (hnum : ∀ (i : Nat) (r : Request), history[i]? = some r → r.seqNum = i)
    (id : Int) (xSet : Finset Int) (lastReq : LastReqTable) (hle : executed ≤ history.length) :
    Executed history k executed ((history.take executed).foldl
      (fun rs r => executedOwn rs r xSet lastReq) (ReplicaStructure.init id k)) ∧
    ((history.take executed).foldl (fun rs r => executedOwn rs r xSet lastReq)
      (ReplicaStructure.init id k)).numberOfClients = k := by
  induction executed with
  | zero => exact ⟨init history k id, rfl⟩
  | succ executed ih =>
    obtain ⟨hexec, hclients⟩ := ih (by omega)
    have hr := List.getElem?_eq_getElem (l := history) (i := executed) (by omega)
    rw [List.take_add_one, hr, Option.toList_some, List.foldl_append]
    exact ⟨hexec.next hclients hnum hr xSet lastReq, hclients⟩

end Executed

namespace ReplicationModule

variable {n : Nat} {m : ReplicationModule n}

/-- A table of honest replicas: one history of operations with consecutive sequence
    numbers, of which every replica executed a beginning. -/
structure Honest (m : ReplicationModule n) (history : List Request) : Prop where
  numbered : ∀ (i : Nat) (r : Request), history[i]? = some r → r.seqNum = i
  operations : ∀ r ∈ history, r.clientRequest.operation.Executable
  ids : ∀ j, (m.rep j).id = j.val
  executed : ∀ j, ∃ executed, Executed history m.numberOfClients executed (m.rep j)

namespace Honest

variable {history : List Request}

theorem state_prefix (h : m.Honest history) (j : Fin n) :
    (m.rep j).repState <+: produce history := by
  obtain ⟨executed, hexec⟩ := h.executed j
  exact hexec.state_prefix

/-- States of honest replicas are comparable. -/
theorem state_prefix_state (h : m.Honest history) {i j : Fin n}
    (hle : (m.rep i).repState.length ≤ (m.rep j).repState.length) :
    (m.rep i).repState <+: (m.rep j).repState :=
  List.prefix_of_prefix_length_le (h.state_prefix i) (h.state_prefix j) hle

/-- The logs of honest replicas hold operations. -/
theorem operational (h : m.Honest history) (j : Fin n) : Operational (m.rep j).rLog := by
  obtain ⟨executed, hexec⟩ := h.executed j
  intro e he
  have hlogged : e.request ∈ (m.rep j).logged := ReplicaStructure.mem_logged.mpr ⟨e, he, rfl⟩
  rw [hexec.logged] at hlogged
  exact h.operations _ (List.mem_of_mem_take (List.mem_of_mem_drop hlogged))

theorem operational_of_logOfTable (h : m.Honest history) {rLog : List LogEntry}
    (hlog : LogOfTable m rLog) : Operational rLog := by
  intro e he
  obtain ⟨j, hj⟩ := hlog.mem he
  exact h.operational j e hj

/-- State and log of the own structure are all that counts. -/
theorem setOwn (h : m.Honest history) {rs : ReplicaStructure} (hid : rs.id = m.own.id)
    (hstate : rs.repState = m.own.repState) (hlog : rs.rLog = m.own.rLog) :
    (m.setOwn rs).Honest history := by
  refine ⟨h.numbered, h.operations, fun j => ?_, fun j => ?_⟩
  · by_cases hown : j = m.id
    · subst hown
      show ((m.setOwn rs).own).id = _
      rw [own_setOwn, hid]
      exact h.ids m.id
    · rw [rep_setOwn_of_ne hown]
      exact h.ids j
  · obtain ⟨executed, hexec⟩ := h.executed j
    refine ⟨executed, ?_⟩
    by_cases hown : j = m.id
    · subst hown
      show Executed history m.numberOfClients executed ((m.setOwn rs).own)
      rw [own_setOwn]
      exact ⟨hexec.le, hstate.trans hexec.state, by
        rw [ReplicaStructure.logged, hlog]
        exact hexec.logged⟩
    · rw [rep_setOwn_of_ne hown]
      exact hexec

end Honest

/-! ## Common prefixes of beginnings of one list -/

/-- The longest common prefix of beginnings of one list is the shortest of them. -/
theorem findPrefix_of_prefixes (whole : List Value) (states : List (List Value))
    (hne : states ≠ []) (h : ∀ t ∈ states, t <+: whole) :
    ∃ t ∈ states, (∀ u ∈ states, t <+: u) ∧ findPrefix states = .ok (some t) := by
  cases states with
  | nil => exact absurd rfl hne
  | cons s rest =>
    obtain ⟨t, ht⟩ := List.lowest_isSome (fun t : List Value => (t.length : Int))
      (List.cons_ne_nil s rest)
    have hmem := List.mem_of_lowest ht
    have hpre : ∀ u ∈ s :: rest, t <+: u := by
      intro u hu
      have hle := List.lowest_le ht u hu
      exact List.prefix_of_prefix_length_le (h t hmem) (h u hu) (by omega)
    refine ⟨t, hmem, hpre, ?_⟩
    simp only [List.lowest, Option.some.injEq, Int.ofNat_lt] at ht
    -- every position of the shortest state is common to all
    have hcommon : ((List.range t.length).takeWhile fun i =>
        (s :: rest).all fun u => decide (u[i]? = t[i]?)) = List.range t.length := by
      apply List.takeWhile_eq_self_iff.mpr
      intro i hi
      rw [List.all_eq_true]
      intro u hu
      obtain ⟨tail, rfl⟩ := hpre u hu
      rw [List.getElem?_append_left (List.mem_range.mp hi), decide_eq_true_iff]
    simp only [findPrefix, ht, hcommon]
    by_cases hnil : t = []
    · rw [if_pos hnil, hnil]
    · have hrange : List.range t.length ≠ [] := by
        rw [Ne, List.range_eq_nil, List.length_eq_zero_iff]
        exact hnil
      rw [if_neg hnil, if_neg hrange, List.length_range, List.take_length]

/-! ## The replicas `com_pref_states` chooses -/

theorem replicaStates_eq (hids : ∀ j, (m.rep j).id = j.val) :
    m.replicaStates =
      (List.finRange n).map fun j => ((j.val : Int), (m.rep j).repState, (m.rep j).rLog) := by
  simp only [replicaStates, hids]
  apply foldl_dictSet (fun j : Fin n => (j.val : Int))
  apply (List.nodup_finRange n).map
  intro i j hij
  exact Fin.ext (by simpa using hij)

/-- State and log of a processor are found by its id. -/
theorem dictGet_replicaStates_val (hids : ∀ j, (m.rep j).id = j.val) (j : Fin n) :
    dictGet m.replicaStates (j.val : Int) = .ok ((m.rep j).repState, (m.rep j).rLog) := by
  rw [replicaStates_eq hids]
  refine dictGet_map (fun j : Fin n => (j.val : Int)) _ ?_ (List.mem_finRange j)
  intro i j hij
  exact Fin.ext (by simpa using hij)

/-- Length of the common prefix of some states, `-1` if there is none. -/
def prefixLength (m : ReplicationModule n) (c : List (Fin n)) : Int :=
  match findPrefix (c.map fun j => (m.rep j).repState) with
  | .ok (some p) => p.length
  | _ => -1

theorem findPrefix_cons (s : List Value) (rest : List (List Value)) :
    ∃ p, findPrefix (s :: rest) = .ok p := by
  simp only [findPrefix]
  split
  · exact ⟨_, rfl⟩
  · split
    · exact ⟨_, rfl⟩
    · exact ⟨_, rfl⟩

/-- The loop over candidates keeps the first one with the longest common prefix. -/
theorem longestPrefix_eq (hids : ∀ j, (m.rep j).id = j.val) {candidates : List (List (Fin n))}
    (hne : ∀ c ∈ candidates, c ≠ []) :
    m.longestPrefix (candidates.map (List.map fun j => (j.val : Int))) =
      .ok ((candidates.foldl (List.keepBest m.prefixLength) (-1, [])).2.map
        fun j => (j.val : Int)) := by
  refine congrArg (fun x : Py (Int × List Int) => x >>= fun best => pure best.2)
    (foldlM_eq_foldl (List.keepBest m.prefixLength) (List.map fun j : Fin n => (j.val : Int))
      (fun best : Int × List (Fin n) => (best.1, best.2.map fun j => (j.val : Int)))
      ?_ (-1, []))
  intro best c hc
  have hget : (c.map fun j => (j.val : Int)).mapM (fun id => dictGet m.replicaStates id) =
      .ok (c.map fun j => ((m.rep j).repState, (m.rep j).rLog)) := by
    rw [List.mapM_map]
    exact mapM_eq_map fun j _ => dictGet_replicaStates_val hids j
  obtain ⟨pre, hpre⟩ : ∃ pre, findPrefix (c.map fun j => (m.rep j).repState) = .ok pre := by
    cases c with
    | nil => exact absurd rfl (hne [] hc)
    | cons j c => exact findPrefix_cons _ _
  rw [hget]
  simp only [bind, Except.bind, List.map_map, Function.comp_def, hpre, List.keepBest,
    prefixLength]
  cases pre with
  | none =>
    simp only [gt_iff_lt]
    split
    · rfl
    · rfl
  | some p =>
    simp only [gt_iff_lt]
    split
    · rfl
    · rfl

/-- `com_pref_states` returns states and logs of the processors the loop over the
    candidates ends with. -/
theorem comPrefStates_ok (hids : ∀ j, (m.rep j).id = j.val) {required : Int} (hpos : 0 < required) :
    let chosen := ((((List.finRange n).combinations required.toNat).filter fun c =>
        m.allPrefixes (c.map fun j => (j.val : Int)) = .ok true).foldl
      (List.keepBest m.prefixLength) (-1, [])).2
    m.comPrefStates required = .ok ⟨chosen.map fun j => (m.rep j).repState,
      chosen.map fun j => (m.rep j).rLog, chosen.any fun j => (m.rep j).isDefPrefix⟩ := by
  intro chosen
  have hkeys : m.replicaStates.map Prod.fst = (List.finRange n).map fun j => (j.val : Int) := by
    rw [replicaStates_eq hids, List.map_map]
    rfl
  -- no test of candidates raises
  obtain ⟨candidates, hcandidates⟩ : (filterPy m.allPrefixes
      (((List.finRange n).combinations required.toNat).map
        (List.map fun j => (j.val : Int)))).Completes := by
    apply filterPy_completes
    intro c hc
    obtain ⟨c', -, rfl⟩ := List.mem_map.mp hc
    apply allM_completes
    intro pair hpair
    have hmem := List.mem_of_mem_pairs hpair
    obtain ⟨i, -, hi⟩ := List.mem_map.mp hmem.1
    obtain ⟨j, -, hj⟩ := List.mem_map.mp hmem.2
    rw [← hi, ← hj]
    simp only [arePrefixes, repAt_val, bind, Except.bind]
    split
    · exact ⟨_, rfl⟩
    · split
      · exact ⟨_, rfl⟩
      · exact ⟨_, rfl⟩
  have hfilter := filterPy_eq_filter hcandidates
  rw [List.filter_map] at hfilter
  -- candidates are combinations of a positive number of processors
  have hne : ∀ c ∈ ((List.finRange n).combinations required.toNat).filter fun c =>
      m.allPrefixes (c.map fun j => (j.val : Int)) = .ok true, c ≠ [] := by
    rintro c hc rfl
    have hlength := (List.mem_combinations.mp (List.mem_filter.mp hc).1).2
    rw [List.length_nil] at hlength
    omega
  have hlongest := longestPrefix_eq hids hne
  have hstructures : (chosen.map fun j => (j.val : Int)).mapM m.repAt = .ok (chosen.map m.rep) := by
    rw [List.mapM_map]
    exact mapM_eq_map fun j _ => repAt_val m j
  have hfound : (chosen.map fun j => (j.val : Int)).mapM (fun id => dictGet m.replicaStates id) =
      .ok (chosen.map fun j => ((m.rep j).repState, (m.rep j).rLog)) := by
    rw [List.mapM_map]
    exact mapM_eq_map fun j _ => dictGet_replicaStates_val hids j
  have hsame : m.longestPrefix candidates = .ok (chosen.map fun j => (j.val : Int)) := by
    rw [hfilter]
    exact hlongest
  simp only [comPrefStates, bind, Except.bind, hkeys, List.combinations_map]
  rw [if_neg (by omega)]
  simp only [pure, Except.pure, hcandidates, hsame, hstructures, hfound, List.map_map,
    Function.comp_def, List.any_map]

/-- Whenever it returns, these are the states and logs. -/
theorem comPrefStates_eq (hids : ∀ j, (m.rep j).id = j.val) {required : Int} (hpos : 0 < required)
    {p : PrefStates} (hp : m.comPrefStates required = .ok p) :
    let chosen := ((((List.finRange n).combinations required.toNat).filter fun c =>
        m.allPrefixes (c.map fun j => (j.val : Int)) = .ok true).foldl
      (List.keepBest m.prefixLength) (-1, [])).2
    p.states = chosen.map (fun j => (m.rep j).repState) ∧
      p.rLogs = chosen.map (fun j => (m.rep j).rLog) := by
  rw [comPrefStates_ok hids hpos] at hp
  cases hp
  exact ⟨rfl, rfl⟩

theorem isPrefixOf_iff {a b : List Value} : isPrefixOf a b = true ↔ a <+: b :=
  List.isPrefixOf_iff_prefix

/-- At least `required` states begin with the list. -/
def HeldBy (m : ReplicationModule n) (required : Int) (s : List Value) : Prop :=
  required ≤ (List.finRange n).countP fun j => isPrefixOf s (m.rep j).repState

instance (m : ReplicationModule n) (required : Int) (s : List Value) :
    Decidable (m.HeldBy required s) := inferInstanceAs (Decidable (_ ≤ _))

/-- The state of processor `l` is the longest that `required` states begin with. -/
def MostHeld (m : ReplicationModule n) (required : Int) (l : Fin n) : Prop :=
  m.HeldBy required (m.rep l).repState ∧
    ∀ i, m.HeldBy required (m.rep i).repState →
      (m.rep i).repState.length ≤ (m.rep l).repState.length

instance (m : ReplicationModule n) (required : Int) (l : Fin n) :
    Decidable (m.MostHeld required l) := inferInstanceAs (Decidable (_ ∧ _))

/-- At least `n - 2f` states begin with the list. -/
def IsCommon (m : ReplicationModule n) (s : List Value) : Prop :=
  (n : Int) - 2 * m.numberOfByzantine ≤
    (List.finRange n).countP fun j => isPrefixOf s (m.rep j).repState

instance (m : ReplicationModule n) (s : List Value) : Decidable (m.IsCommon s) :=
  inferInstanceAs (Decidable (_ ≤ _))

/-- The state of processor `l` is the longest that `n - 2f` states begin with. -/
def MostCommon (m : ReplicationModule n) (l : Fin n) : Prop :=
  m.IsCommon (m.rep l).repState ∧
    ∀ i, m.IsCommon (m.rep i).repState → (m.rep i).repState.length ≤ (m.rep l).repState.length

instance (m : ReplicationModule n) (l : Fin n) : Decidable (m.MostCommon l) :=
  inferInstanceAs (Decidable (_ ∧ _))

/-- Processors whose states begin with the list. -/
def holders (m : ReplicationModule n) (s : List Value) : List (Fin n) :=
  (List.finRange n).filter fun j => isPrefixOf s (m.rep j).repState

theorem mem_holders {s : List Value} {j : Fin n} : j ∈ m.holders s ↔ s <+: (m.rep j).repState := by
  rw [holders, List.mem_filter, isPrefixOf_iff]
  exact and_iff_right (List.mem_finRange j)

theorem HeldBy.le_length {required : Int} {s : List Value} (h : m.HeldBy required s) :
    required.toNat ≤ (m.holders s).length := by
  rw [HeldBy, List.countP_eq_length_filter, ← holders] at h
  omega

/-- Enough distinct processors hold a list. -/
theorem heldBy_of_holders {required : Int} {s : List Value} {c : List (Fin n)}
    (hnodup : c.Nodup) (hlength : required ≤ c.length)
    (hc : ∀ j ∈ c, s <+: (m.rep j).repState) : m.HeldBy required s := by
  have hsub : c ⊆ m.holders s := fun j hj => mem_holders.mpr (hc j hj)
  have hle := (hnodup.subperm hsub).length_le
  rw [HeldBy, List.countP_eq_length_filter, ← holders]
  omega

theorem prefixes_of_prefix {whole a b : List Value} (ha : a <+: whole) (hb : b <+: whole) :
    prefixes a b = true := by
  induction a generalizing b whole with
  | nil => rfl
  | cons x a ih =>
    cases b with
    | nil => rfl
    | cons y b =>
      cases whole with
      | nil => exact absurd (List.prefix_nil.mp ha) (List.cons_ne_nil x a)
      | cons z whole =>
        obtain ⟨rfl, htail⟩ := List.cons_prefix_cons.mp ha
        obtain ⟨rfl, htail'⟩ := List.cons_prefix_cons.mp hb
        rw [prefixes, ih htail htail', decide_eq_true rfl, Bool.and_self]

namespace Honest

variable {history : List Request}

/-- Honest replicas with nonempty states are pairwise prefixes. -/
theorem allPrefixes_eq (h : m.Honest history) {c : List (Fin n)}
    (hc : ∀ j ∈ c, (m.rep j).repState ≠ []) :
    m.allPrefixes (c.map fun j => (j.val : Int)) = .ok true := by
  rw [allPrefixes, allM_eq_true]
  intro pair hpair
  have hmem := List.mem_of_mem_pairs hpair
  obtain ⟨i, hi, hi'⟩ := List.mem_map.mp hmem.1
  obtain ⟨j, hj, hj'⟩ := List.mem_map.mp hmem.2
  have hnotDef : ∀ j ∈ c, (m.rep j).isDefPrefix = false := by
    intro j hj
    rw [ReplicaStructure.isDefPrefix, decide_eq_false_iff_not]
    exact fun hdef => hc j hj hdef.1
  rw [arePrefixes, ← hi', ← hj', repAt_val, repAt_val]
  simp only [bind, Except.bind, hnotDef i hi, hnotDef j hj, pure, Except.pure,
    prefixes_of_prefix (h.state_prefix i) (h.state_prefix j)]
  rfl

/-- The common prefix of honest replicas is the shortest of their states. -/
theorem exists_shortest (h : m.Honest history) {c : List (Fin n)} (hne : c ≠ []) :
    ∃ l ∈ c, (∀ j ∈ c, (m.rep l).repState <+: (m.rep j).repState) ∧
      findPrefix (c.map fun j => (m.rep j).repState) = .ok (some (m.rep l).repState) ∧
      m.prefixLength c = (m.rep l).repState.length := by
  obtain ⟨t, ht, hall, hfind⟩ := findPrefix_of_prefixes (produce history)
    (c.map fun j => (m.rep j).repState) (by simpa using hne) (by
      intro t ht
      obtain ⟨j, -, rfl⟩ := List.mem_map.mp ht
      exact h.state_prefix j)
  obtain ⟨l, hl, rfl⟩ := List.mem_map.mp ht
  refine ⟨l, hl, fun j hj => hall _ (List.mem_map_of_mem hj), hfind, ?_⟩
  rw [prefixLength, hfind]

/-- The chosen processors are the first ones with the longest common state. -/
theorem chosen_eq (h : m.Honest history) {required : Int} (hpos : 0 < required) {l : Fin n}
    (hl : m.MostHeld required l) (hne : (m.rep l).repState ≠ []) :
    ((((List.finRange n).combinations required.toNat).filter fun c =>
        m.allPrefixes (c.map fun j => (j.val : Int)) = .ok true).foldl
      (List.keepBest m.prefixLength) (-1, [])).2 =
    (m.holders (m.rep l).repState).take required.toNat := by
  -- the shortest state of a candidate is its common prefix
  have hshortest : ∀ c ∈ ((List.finRange n).combinations required.toNat).filter (fun c =>
      m.allPrefixes (c.map fun j => (j.val : Int)) = .ok true),
      c.Nodup ∧ c.length = required.toNat ∧ ∃ i ∈ c,
        (∀ j ∈ c, (m.rep i).repState <+: (m.rep j).repState) ∧
        m.prefixLength c = (m.rep i).repState.length := by
    intro c hc
    have hlength := (List.mem_combinations.mp (List.mem_filter.mp hc).1)
    obtain ⟨i, hi, hpre, -, hscore⟩ := h.exists_shortest (c := c) (by
      rintro rfl
      simp only [List.length_nil] at hlength
      omega)
    exact ⟨hlength.1.nodup (List.nodup_finRange n), hlength.2, i, hi, hpre, hscore⟩
  have hstep := List.foldl_keepBest_of_find m.prefixLength
    (fun c => c.all fun j => isPrefixOf (m.rep l).repState (m.rep j).repState)
    ((m.rep l).repState.length : Int) (-1, [])
    (l := ((List.finRange n).combinations required.toNat).filter
      fun c => m.allPrefixes (c.map fun j => (j.val : Int)) = .ok true)
    (x := (m.holders (m.rep l).repState).take required.toNat)
    (by omega) ?_ ?_ ?_
  · rw [hstep]
  · -- a candidate of holders has a common prefix that starts with the state of `l`
    intro c hc hall
    obtain ⟨hnodup, hlength, i, hi, hpre, hscore⟩ := hshortest c hc
    have hcommon : m.HeldBy required (m.rep i).repState :=
      heldBy_of_holders hnodup (by omega) hpre
    have hle := hl.2 i hcommon
    have hge := (isPrefixOf_iff.mp (List.all_eq_true.mp hall i hi)).length_le
    omega
  · -- in any other candidate some state is shorter than the state of `l`
    intro c hc hall
    obtain ⟨-, -, i, hi, hpre, hscore⟩ := hshortest c hc
    obtain ⟨j, hj, hnot⟩ := List.all_eq_false.mp hall
    have hshort : (m.rep j).repState.length < (m.rep l).repState.length := by
      by_contra hge
      exact hnot (isPrefixOf_iff.mpr (h.state_prefix_state (by omega)))
    have hle := (hpre j hj).length_le
    omega
  · rw [List.find?_filter]
    have hsame : (fun c : List (Fin n) =>
        decide (decide (m.allPrefixes (c.map fun j => (j.val : Int)) = .ok true) = true ∧
          (c.all fun j => isPrefixOf (m.rep l).repState (m.rep j).repState) = true)) =
        fun c => c.all fun j => isPrefixOf (m.rep l).repState (m.rep j).repState := by
      funext c
      cases hall : c.all fun j => isPrefixOf (m.rep l).repState (m.rep j).repState with
      | false => simp
      | true =>
        have hok := h.allPrefixes_eq (c := c) (by
          intro j hj hnil
          have hpre := isPrefixOf_iff.mp (List.all_eq_true.mp hall j hj)
          rw [hnil] at hpre
          exact hne (List.prefix_nil.mp hpre))
        simp [hok]
    rw [hsame, List.find?_combinations, ← holders, if_pos hl.1.le_length]

end Honest

/-! ## The log for a state -/

/-- Some first part of the log produces an end of the state. -/
def Fits (s : List Value) (rLog : List LogEntry) : Prop :=
  ∃ part ∈ rLog.inits, part ≠ [] ∧ replay part <:+ s

instance (s : List Value) (rLog : List LogEntry) : Decidable (Fits s rLog) :=
  inferInstanceAs (Decidable (∃ part ∈ rLog.inits, _))

/-- Whatever first part of the log produces an end of the state produces all of it. -/
def Covers (s : List Value) (rLog : List LogEntry) : Prop :=
  ∀ part ∈ rLog.inits, part ≠ [] → replay part <:+ s → replay part = s

instance (s : List Value) (rLog : List LogEntry) : Decidable (Covers s rLog) :=
  inferInstanceAs (Decidable (∀ part ∈ rLog.inits, _))

/-- The slice `s[len(s) - len(a):]` is `a` iff `a` is an end of `s`. -/
theorem eq_sliceFrom_iff {a s : List Value} :
    a = sliceFrom s (s.length - a.length) ↔ a <:+ s := by
  rw [sliceFrom]
  split
  · rename_i hle
    have hnat : ((s.length : Int) - a.length).toNat = s.length - a.length := by omega
    rw [hnat, List.suffix_iff_eq_drop]
  · -- a longer list is no end, and no slice is that long
    rename_i hgt
    constructor
    · intro heq
      have hlength := congrArg List.length heq
      rw [List.length_drop] at hlength
      omega
    · intro hsuffix
      have hle := hsuffix.length_le
      omega

theorem matchingPart_eq (s : List Value) (rLog : List LogEntry) :
    matchingPart s rLog = rLog.inits.tail.find? fun part => replay part <:+ s := by
  rw [matchingPart]
  congr 1
  funext part
  exact decide_eq_decide.mpr eq_sliceFrom_iff

theorem matchingPart_eq_none {s : List Value} {rLog : List LogEntry} :
    matchingPart s rLog = none ↔ ¬ Fits s rLog := by
  rw [matchingPart_eq, List.find?_eq_none]
  constructor
  · rintro hnone ⟨part, hpart, hne, hsuffix⟩
    have hmem := List.mem_tail_inits.mpr ⟨(List.mem_inits _ _).mp hpart, hne⟩
    exact hnone part hmem (decide_eq_true hsuffix)
  · intro hnot part hpart hsuffix
    obtain ⟨hpre, hne⟩ := List.mem_tail_inits.mp hpart
    exact hnot ⟨part, (List.mem_inits _ _).mpr hpre, hne, of_decide_eq_true hsuffix⟩

/-- The first fitting part is the beginning of every other one. -/
theorem matchingPart_spec {s : List Value} {rLog part : List LogEntry}
    (h : matchingPart s rLog = some part) :
    part <+: rLog ∧ part ≠ [] ∧ replay part <:+ s ∧
      ∀ part', part' <+: rLog → part' ≠ [] → replay part' <:+ s → part <+: part' := by
  rw [matchingPart_eq, List.find?_eq_some_iff_append] at h
  obtain ⟨hfits, shorter, longer, hsplit, hshorter⟩ := h
  have hmem : part ∈ rLog.inits.tail := by
    rw [hsplit]
    exact List.mem_append_right _ List.mem_cons_self
  obtain ⟨hpre, hne⟩ := List.mem_tail_inits.mp hmem
  refine ⟨hpre, hne, of_decide_eq_true hfits, ?_⟩
  intro part' hpre' hne' hsuffix'
  have hmem' := List.mem_tail_inits.mpr ⟨hpre', hne'⟩
  have hordered := (List.pairwise_inits rLog).sublist (List.tail_sublist _)
  rw [hsplit] at hmem' hordered
  cases List.mem_append.mp hmem' with
  | inl hearly =>
    have hnot := hshorter part' hearly
    simp [hsuffix'] at hnot
  | inr hlate =>
    rcases List.mem_cons.mp hlate with rfl | hlate
    · exact List.prefix_rfl
    · exact (List.pairwise_cons.mp (List.pairwise_append.mp hordered).2.1).1 part' hlate

/-- The first fitting part produces the state iff the log covers it. -/
theorem replay_matchingPart_iff {s : List Value} {rLog part : List LogEntry}
    (h : matchingPart s rLog = some part) : replay part = s ↔ Covers s rLog := by
  obtain ⟨hpre, hne, hsuffix, hshortest⟩ := matchingPart_spec h
  constructor
  · -- a longer part produces at least as much
    intro hwhole part' hpart' hne' hsuffix'
    have hle := hshortest part' ((List.mem_inits _ _).mp hpart') hne' hsuffix'
    have hlength := (prefix_replay hle).length_le
    rw [hwhole] at hlength
    exact hsuffix'.eq_of_length_le hlength
  · intro hcovers
    exact hcovers part ((List.mem_inits _ _).mpr hpre) hne hsuffix

/-- The log found for a state produces an end of it. -/
theorem fittingPart_suffix (rLogs : List (List LogEntry)) (s : List Value) :
    replay (fittingPart rLogs s) <:+ s := by
  rw [fittingPart]
  cases hfind : rLogs.findSome? (matchingPart s) with
  | none => exact List.nil_suffix
  | some part =>
    obtain ⟨rLog, -, hpart⟩ := List.exists_of_findSome?_eq_some hfind
    rw [matchingPart_eq] at hpart
    have hsuffix := List.find?_some hpart
    exact of_decide_eq_true hsuffix

/-! ## The adopted state and log -/

/-- For the longest common state, the log of the first processor that has the
    state and a fitting log covers it. -/
def LogsReachBack (m : ReplicationModule n) : Prop :=
  ∀ l, m.MostCommon l → ∀ j, isPrefixOf (m.rep l).repState (m.rep j).repState = true →
    Fits (m.rep l).repState (m.rep j).rLog →
    (∀ i < j, isPrefixOf (m.rep l).repState (m.rep i).repState = true →
      ¬ Fits (m.rep l).repState (m.rep i).rLog) →
    Covers (m.rep l).repState (m.rep j).rLog

instance (m : ReplicationModule n) : Decidable m.LogsReachBack :=
  inferInstanceAs (Decidable (∀ _ : Fin n, _))

theorem isCommon_nil (m : ReplicationModule n) : m.IsCommon [] := by
  apply heldBy_of_holders (List.nodup_finRange n)
  · rw [List.length_finRange]
    omega
  · exact fun j _ => List.nil_prefix

theorem exists_mostHeld {required : Int} {i : Fin n} (hi : m.HeldBy required (m.rep i).repState) :
    ∃ l, m.MostHeld required l ∧ (m.rep i).repState.length ≤ (m.rep l).repState.length := by
  obtain ⟨l, hl, hmax⟩ := Finset.exists_max_image
    (Finset.univ.filter fun j => m.HeldBy required (m.rep j).repState)
    (fun j => (m.rep j).repState.length) ⟨i, by simpa using hi⟩
  simp only [Finset.mem_filter, Finset.mem_univ, true_and] at hl hmax
  exact ⟨l, ⟨hl, hmax⟩, hmax i hi⟩

namespace Honest

variable {history : List Request} {required : Int} {p : PrefStates} {x : ConsState}

/-- The longest common state is unique. -/
theorem mostHeld_unique (h : m.Honest history) {l l' : Fin n} (hl : m.MostHeld required l)
    (hl' : m.MostHeld required l') : (m.rep l).repState = (m.rep l').repState := by
  have hle := hl.2 l' hl'.1
  have hge := hl'.2 l hl.1
  exact (h.state_prefix_state hge).eq_of_length_le hle

/-- With room in the logs, the log of a replica in the state fits it. -/
theorem fits_of_state (h : m.Honest history) {j : Fin n} (hne : (m.rep j).repState ≠ [])
    (hclients : m.numberOfClients ≠ 0) : Fits (m.rep j).repState (m.rep j).rLog := by
  obtain ⟨executed, hexec⟩ := h.executed j
  refine ⟨(m.rep j).rLog, (List.mem_inits _ _).mpr List.prefix_rfl, ?_, hexec.replay_suffix⟩
  intro hnil
  exact hclients (hexec.noClients_of_nil hnil hne)

theorem not_fits_of_noClients (h : m.Honest history) (hclients : m.numberOfClients = 0)
    (s : List Value) (j : Fin n) : ¬ Fits s (m.rep j).rLog := by
  obtain ⟨executed, hexec⟩ := h.executed j
  rw [hclients] at hexec
  rintro ⟨part, hpart, hne, -⟩
  rw [hexec.nil_of_noClients, List.mem_inits] at hpart
  exact hne (List.prefix_nil.mp hpart)

/-- Without a nonempty common state the empty state is adopted, or none. -/
theorem adopted_nil (h : m.Honest history) (hpos : 0 < required)
    (hnone : ∀ l, m.MostHeld required l → (m.rep l).repState = [])
    (hp : m.comPrefStates required = .ok p) (hx : findConsState p = .ok x) :
    x.repState.getD [] = [] ∧ replay x.rLog = [] := by
  obtain ⟨hstates, -⟩ := comPrefStates_eq h.ids hpos hp
  rcases findConsState_cases hx with ⟨rfl, -⟩ | ⟨s, hne, hfound, hcase⟩
  · exact ⟨rfl, rfl⟩
  have hchosen := hne
  rw [hstates, ne_eq, List.map_eq_nil_iff] at hchosen
  have hmem := (List.foldl_keepBest_mem m.prefixLength _ (-1, [])).resolve_left hchosen
  have hcomb := List.mem_combinations.mp (List.mem_filter.mp hmem).1
  obtain ⟨i, -, hpre, hfind, -⟩ := h.exists_shortest hchosen
  rw [← hstates] at hfind
  have hcommon : m.HeldBy required (m.rep i).repState :=
    heldBy_of_holders (hcomb.1.nodup (List.nodup_finRange n)) (by omega) hpre
  -- a nonempty common state would make some longest one nonempty
  have hnil : (m.rep i).repState = [] := by
    obtain ⟨l, hl, hle⟩ := exists_mostHeld hcommon
    rw [hnone l hl, List.length_nil] at hle
    exact List.length_eq_zero_iff.mp (by omega)
  rw [hfind, hnil] at hfound
  cases hfound
  rcases hcase with ⟨rfl, -⟩ | ⟨rfl, -⟩
  · exact ⟨rfl, rfl⟩
  · exact ⟨rfl, List.suffix_nil.mp (fittingPart_suffix p.rLogs [])⟩

/-- With a nonempty common state, that state is adopted with the log of the first
    of its holders whose log fits it; without room in the logs nothing is. -/
theorem adopted_common (h : m.Honest history) (hpos : 0 < required)
    {l : Fin n} (hl : m.MostHeld required l) (hne : (m.rep l).repState ≠ [])
    (hp : m.comPrefStates required = .ok p) (hx : findConsState p = .ok x) :
    (m.numberOfClients = 0 ∧ x.repState = none ∧ x.rLog = []) ∨
      x.repState = some (m.rep l).repState ∧
        ∃ j, (m.rep l).repState <+: (m.rep j).repState ∧
          matchingPart (m.rep l).repState (m.rep j).rLog = some x.rLog ∧
          ∀ i < j, (m.rep l).repState <+: (m.rep i).repState →
            ¬ Fits (m.rep l).repState (m.rep i).rLog := by
  obtain ⟨hstates, hrLogs⟩ := comPrefStates_eq h.ids hpos hp
  rw [h.chosen_eq hpos hl hne] at hstates hrLogs
  have hholders := hl.1.le_length
  have hlength : ((m.holders (m.rep l).repState).take
      required.toNat).length =
      required.toNat := by
    rw [List.length_take]
    omega
  have hsplit := List.take_append_drop required.toNat
    (m.holders (m.rep l).repState)
  generalize (m.holders (m.rep l).repState).take required.toNat =
    chosen at hstates hrLogs hlength hsplit
  have hsub : chosen.Sublist (m.holders (m.rep l).repState) := by
    rw [← hsplit]
    exact List.sublist_append_left _ _
  have hchosen : chosen ≠ [] := by
    rintro rfl
    rw [List.length_nil] at hlength
    omega
  obtain ⟨i, hi, hpre, hfind, -⟩ := h.exists_shortest hchosen
  -- the shortest of the chosen states is the common one
  have hsame : (m.rep i).repState = (m.rep l).repState := by
    have hcommon : m.HeldBy required (m.rep i).repState :=
      heldBy_of_holders (hsub.nodup ((List.nodup_finRange n).filter _)) (by omega) hpre
    have hle := hl.2 i hcommon
    exact ((mem_holders.mp (hsub.subset hi)).eq_of_length_le hle).symm
  rw [← hstates, hsame] at hfind
  have hfailed : p.states ≠ [] := by
    rw [hstates, ne_eq, List.map_eq_nil_iff]
    exact hchosen
  rcases findConsState_cases hx with ⟨-, hnone⟩ | ⟨s, -, hfound, hcase⟩
  · rw [hfind] at hnone
    cases hnone with
    | inl hnil => exact absurd hnil hfailed
    | inr hnone => cases hnone
  rw [hfind] at hfound
  cases hfound
  rw [hrLogs, fittingPart, List.findSome?_map] at hcase
  cases hlog : chosen.findSome? (matchingPart (m.rep l).repState ∘ fun j => (m.rep j).rLog) with
  | none =>
    -- the chosen replica in the state would have a fitting log
    left
    have hclients : m.numberOfClients = 0 := by
      by_contra hclients
      have hfits := h.fits_of_state (j := i) (hsame ▸ hne) hclients
      rw [hsame] at hfits
      exact matchingPart_eq_none.mp (List.findSome?_eq_none_iff.mp hlog i hi) hfits
    rw [hlog, Option.getD_none] at hcase
    rcases hcase with ⟨rfl, -⟩ | ⟨-, hnil⟩
    · exact ⟨hclients, rfl, rfl⟩
    · exact absurd (hnil rfl) hne
  | some part =>
    right
    obtain ⟨before, j, after, heq, hpart, hbefore⟩ := List.findSome?_eq_some_iff.mp hlog
    have hpartNe : part ≠ [] := by
      rw [Function.comp_apply, matchingPart_eq] at hpart
      exact (List.mem_tail_inits.mp (List.mem_of_find?_eq_some hpart)).2
    rw [hlog, Option.getD_some] at hcase
    rcases hcase with ⟨-, hnil, -⟩ | ⟨rfl, -⟩
    · exact absurd hnil hpartNe
    refine ⟨rfl, j, ?_, hpart, ?_⟩
    · exact mem_holders.mp (hsub.subset (heq ▸ by simp))
    · -- a smaller holder comes before `j`
      intro i' hlt hholder
      have hmem := mem_holders.mpr hholder
      have hordered : (m.holders (m.rep l).repState).Pairwise (· < ·) :=
        (List.pairwise_lt_finRange n).sublist List.filter_sublist
      rw [← hsplit, heq, List.append_assoc, List.cons_append] at hmem hordered
      apply matchingPart_eq_none.mp
      cases List.mem_append.mp hmem with
      | inl hearly => exact hbefore i' hearly
      | inr hlate =>
        exfalso
        have htail := (List.pairwise_cons.mp (List.pairwise_append.mp hordered).2.1).1
        rcases List.mem_cons.mp hlate with rfl | hlate
        · exact lt_irrefl _ hlt
        · exact lt_asymm hlt (htail i' hlate)

/-- Only one processor is the first of those with a state and a fitting log. -/
theorem eq_of_firstFit {s : List Value} {j j' : Fin n}
    (hj : isPrefixOf s (m.rep j).repState = true) (hfits : Fits s (m.rep j).rLog)
    (hfirst : ∀ i < j, isPrefixOf s (m.rep i).repState = true → ¬ Fits s (m.rep i).rLog)
    (hj' : isPrefixOf s (m.rep j').repState = true) (hfits' : Fits s (m.rep j').rLog)
    (hfirst' : ∀ i < j', isPrefixOf s (m.rep i).repState = true → ¬ Fits s (m.rep i).rLog) :
    j' = j := by
  rcases lt_trichotomy j' j with hlt | heq | hgt
  · exact absurd hfits' (hfirst j' hlt hj')
  · exact heq
  · exact absurd hfits (hfirst' j hgt hj)

/-- The adopted log produces the adopted state iff the logs reach back far enough. -/
theorem replay_findConsState_iff (h : m.Honest history)
    (hpos : (0 : Int) < n - 2 * m.numberOfByzantine)
    (hp : m.comPrefStates (n - 2 * m.numberOfByzantine) = .ok p) (hx : findConsState p = .ok x) :
    m.IsCommon (x.repState.getD []) ∧ (replay x.rLog = x.repState.getD [] ↔ m.LogsReachBack) := by
  by_cases hcommon : ∃ l, m.MostCommon l ∧ (m.rep l).repState ≠ []
  · obtain ⟨l, hl, hne⟩ := hcommon
    rcases h.adopted_common hpos hl hne hp hx with ⟨hclients, hstate, hlog⟩ |
      ⟨hstate, j, hj, hpart, hfirst⟩
    · rw [hstate, hlog]
      refine ⟨isCommon_nil m, fun _ l' _ j' _ hfits => ?_, fun _ => rfl⟩
      exact absurd hfits (h.not_fits_of_noClients hclients _ j')
    · have hfits : Fits (m.rep l).repState (m.rep j).rLog := by
        by_contra hnot
        rw [matchingPart_eq_none.mpr hnot] at hpart
        cases hpart
      rw [hstate, Option.getD_some, replay_matchingPart_iff hpart]
      refine ⟨hl.1, fun hcovers l' hl' j' hj' hfits' hfirst' => ?_, fun hback => ?_⟩
      · rw [h.mostHeld_unique hl' hl] at hj' hfits' hfirst' ⊢
        rw [eq_of_firstFit (isPrefixOf_iff.mpr hj) hfits
          (fun i hlt hi => hfirst i hlt (isPrefixOf_iff.mp hi)) hj' hfits' hfirst']
        exact hcovers
      · refine hback l hl j (isPrefixOf_iff.mpr hj) hfits fun i hlt hi => ?_
        exact hfirst i hlt (isPrefixOf_iff.mp hi)
  · have hnone : ∀ l, m.MostCommon l → (m.rep l).repState = [] := by
      intro l hl
      by_contra hne
      exact hcommon ⟨l, hl, hne⟩
    obtain ⟨hstate, hlog⟩ := h.adopted_nil hpos hnone hp hx
    rw [hstate, hlog]
    refine ⟨isCommon_nil m, fun _ l hl j _ _ _ part _ _ hsuffix => ?_, fun _ => rfl⟩
    rw [hnone l hl] at hsuffix ⊢
    exact List.suffix_nil.mp hsuffix

end Honest

end ReplicationModule

end BFTList
