import BFTList.Spec.CompatibleStates
import BFTList.Spec.SequenceWindow
import BFTList.Spec.StableView

/-!
# Which executed requests survive an accepted view change

A backup that accepts the new primary's structure gives up its own queue and log.
What replicas have executed shows in their states: the new primary takes the longest
state that `n - 2f` structures of its table begin with, and of the first log that fits
it a first part. Besides, it keeps the entries of its own queue that it does not renew.
So a request that enough structures have executed is in the new log, and one that the
new primary still has under process is in the new queue. A request that others have
executed and committed but that is neither is gone.

## Key results

- `mem_logged_of_executedByMany`: what enough structures have executed is in the new log
- `mem_queued_iff`: what stays in the queue of the new primary
- `survives_iff`: which executed requests a backup has after it accepted the new structure
- `executed_lost`: a run of correct processors in which an executed request is lost
-/

namespace BFTList

namespace ReplicationModule

variable {n : Nat} {m m' : ReplicationModule n} {history : List Request} {resolver : Resolver n}
  {order : SetOrder Int}

/-! ## Executed requests in a table -/

/-- The state of replica `j` begins with the one that the execution of request `s` leaves. -/
def HasExecuted (m : ReplicationModule n) (history : List Request) (s : Nat) (j : Fin n) : Prop :=
  stateAfter history (s + 1) <+: (m.rep j).repState

instance (m : ReplicationModule n) (history : List Request) (s : Nat) (j : Fin n) :
    Decidable (m.HasExecuted history s j) := inferInstanceAs (Decidable (_ <+: _))

/-- At least `n - 2f` structures of the table have executed request `s`. -/
def ExecutedByMany (m : ReplicationModule n) (history : List Request) (s : Nat) : Prop :=
  (n : Int) - 2 * m.numberOfByzantine ≤
    (Finset.univ.filter fun j => m.HasExecuted history s j).card

instance (m : ReplicationModule n) (history : List Request) (s : Nat) :
    Decidable (m.ExecutedByMany history s) := inferInstanceAs (Decidable (_ ≤ _))

/-- Whoever has executed request `s` still has it in its log. -/
def StillLogged (m : ReplicationModule n) (history : List Request) (s : Nat) : Prop :=
  ∀ j, m.HasExecuted history s j → ∃ r ∈ (m.rep j).logged, r.seqNum = s

instance (m : ReplicationModule n) (history : List Request) (s : Nat) :
    Decidable (m.StillLogged history s) :=
  inferInstanceAs (Decidable (∀ j, m.HasExecuted history s j → _))

/-- No log of the table has lost its first entries. -/
def Uncut (m : ReplicationModule n) (history : List Request) : Prop :=
  ∀ j, (m.rep j).logged <+: history

instance (m : ReplicationModule n) (history : List Request) : Decidable (m.Uncut history) :=
  inferInstanceAs (Decidable (∀ _, _))

theorem executedByMany_iff {s : Nat} :
    m.ExecutedByMany history s ↔ m.IsCommon (stateAfter history (s + 1)) := by
  have hcount : (List.finRange n).countP
      (fun j => isPrefixOf (stateAfter history (s + 1)) (m.rep j).repState) =
      (Finset.univ.filter fun j => m.HasExecuted history s j).card := by
    rw [countP_eq_card_filter (List.nodup_finRange n), List.toFinset_finRange]
    congr 1
    ext j
    rw [Finset.mem_filter, Finset.mem_filter, isPrefixOf_iff]
    rfl
  rw [ExecutedByMany, IsCommon, hcount]

/-- Executing a request that appends a value leaves a longer state. -/
theorem length_stateAfter_succ {s : Nat} {r : Request} {v : Value} (hr : history[s]? = some r)
    (hv : r.clientRequest.operation = .append v) :
    (stateAfter history (s + 1)).length = (stateAfter history s).length + 1 := by
  rw [stateAfter, stateAfter, SequentialLog.result_succ _ _ hr, hv]
  simp [Operation.execute]

theorem stateAfter_prefix {s t : Nat} (h : s ≤ t) :
    stateAfter history s <+: stateAfter history t := by
  rw [← produce_take, ← produce_take]
  have hsplit : history.take t = history.take s ++ (history.take t).drop s := by
    conv_lhs => rw [← List.take_append_drop s (history.take t), List.take_take, Nat.min_eq_left h]
  rw [hsplit, produce_append]
  exact List.prefix_append _ _

/-! ## What the new primary takes over -/

/-- The consolidated state is the one of a table in which only requests are renewed. -/
theorem takenState_cases {x : ConsState} (h : m.takenState resolver order = .ok x) :
    ∃ rs p, rs.id = m.own.id ∧ rs.repState = m.own.repState ∧ rs.rLog = m.own.rLog ∧
      (m.gapsFilled.own.reqQ ≠ [] → rs.reqQ ≠ []) ∧
      (m.setOwn rs).comPrefStates (n - 2 * m.numberOfByzantine) = .ok p ∧
      findConsState p = .ok x := by
  obtain ⟨ids, -, h⟩ := Py.of_bind h
  obtain ⟨renewed, hrenew, h⟩ := Py.of_bind h
  obtain ⟨p, hp, hx⟩ := Py.of_bind h
  obtain ⟨rs, hfill, hfilled⟩ := filled_fillGaps m
  have hgaps : m.gapsFilled = m.setOwn rs := hfill
  rw [hgaps] at hrenew ⊢
  simp only [renewReqs, own_setOwn, setOwn_setOwn] at hrenew ⊢
  obtain ⟨pend, -, hrenew⟩ := Py.of_bind hrenew
  obtain ⟨need, -, hrenew⟩ := Py.of_bind hrenew
  simp only [pure, Except.pure, Except.ok.injEq] at hrenew
  subst hrenew
  refine ⟨_, p, ?_, ?_, ?_, ?_, hp, hx⟩
  · exact hfilled.id_eq
  · exact hfilled.repState_eq
  · exact hfilled.rLog_eq
  · intro hne
    cases hqueue : rs.reqQ with
    | nil => exact absurd hqueue hne
    | cons q reqQ =>
      simp only [renumber]
      split
      · exact List.cons_ne_nil _ _
      · exact List.cons_ne_nil _ _

section Taken

variable {rs : ReplicaStructure} {p : PrefStates} {x : ConsState} {s : Nat} {r : Request}
  {v : Value}

/-- A common list is the beginning of a longest common state. -/
theorem Honest.exists_mostCommon (h : m.Honest history)
    (hpos : (0 : Int) < n - 2 * m.numberOfByzantine) {t : List Value} (ht : m.IsCommon t) :
    ∃ l, m.MostCommon l ∧ t <+: (m.rep l).repState := by
  have hheld : m.HeldBy (n - 2 * m.numberOfByzantine) t := ht
  have hlength := hheld.le_length
  have hne : m.holders t ≠ [] := by
    intro hnil
    rw [hnil, List.length_nil] at hlength
    omega
  -- the shortest state of those that begin with the list
  obtain ⟨i, hi, hpre, -, -⟩ := h.exists_shortest hne
  have hcommon : m.HeldBy (n - 2 * m.numberOfByzantine) (m.rep i).repState :=
    heldBy_of_holders (c := m.holders t) ((List.nodup_finRange n).filter _) (by omega) hpre
  obtain ⟨l, hl, hle⟩ := exists_mostHeld hcommon
  exact ⟨l, hl, (mem_holders.mp hi).trans (h.state_prefix_state hle)⟩

/-- A request that a replica has executed stands in its log after the requests between the
    first one there and it. -/
theorem Honest.position_of_logged (h : m.Honest history) (hr : history[s]? = some r) {j : Fin n}
    {r' : Request} (hr' : r' ∈ (m.rep j).logged) (hseq : r'.seqNum = s) :
    ∃ executed a i, (m.rep j).logged = (history.take executed).drop a ∧ a + i = s ∧
      s < executed ∧ (m.rep j).logged[i]? = some r := by
  obtain ⟨executed, hexec⟩ := h.executed j
  obtain ⟨i, hi⟩ := List.getElem?_of_mem hr'
  have hindex := hi
  rw [hexec.logged, List.getElem?_drop, List.getElem?_take] at hindex
  split at hindex
  · rename_i hlt
    have hnum := h.numbered _ _ hindex
    have hnumber : executed - 3 * SIGMA * m.numberOfClients + i = s := by omega
    rw [hnumber] at hlt hindex
    rw [hr, Option.some.injEq] at hindex
    exact ⟨executed, _, i, hexec.logged, hnumber, hlt, hindex ▸ hi⟩
  · cases hindex

/-- With room in the logs, a log of the table that produces the consolidated state has every
    request that enough structures have executed, unless it has lost it. -/
theorem mem_logged_of_executedByMany (h : m.Honest history)
    (hpos : (0 : Int) < n - 2 * m.numberOfByzantine) (hclients : m.numberOfClients ≠ 0)
    (hp : m.comPrefStates (n - 2 * m.numberOfByzantine) = .ok p) (hx : findConsState p = .ok x)
    (hreplay : replay x.rLog = x.repState.getD []) (hr : history[s]? = some r)
    (hv : r.clientRequest.operation = .append v) (hmany : m.ExecutedByMany history s)
    (hstill : m.StillLogged history s) : r ∈ x.rLog.map (·.request) := by
  have hgrows := length_stateAfter_succ hr hv
  obtain ⟨l, hl, hbegins⟩ := h.exists_mostCommon hpos (executedByMany_iff.mp hmany)
  have hne : (m.rep l).repState ≠ [] := by
    intro hnil
    rw [hnil, List.prefix_nil] at hbegins
    rw [hbegins, List.length_nil] at hgrows
    omega
  rcases h.adopted_common hpos hl hne hp hx with ⟨hzero, -⟩ | ⟨hstate, j, hj, hpart, -⟩
  · exact absurd hzero hclients
  rw [hstate, Option.getD_some] at hreplay
  obtain ⟨hpre, -⟩ := matchingPart_spec hpart
  obtain ⟨r', hr', hseq⟩ := hstill j (hbegins.trans hj)
  obtain ⟨e, a, i, hlogged, hnumber, hlt, hi⟩ := h.position_of_logged hr hr' hseq
  by_contra hnot
  -- a part without it produces less than the state
  have hlist : x.rLog.map (·.request) <+: (m.rep j).logged := hpre.map _
  have hshort : (x.rLog.map (·.request)).length ≤ i := by
    by_contra hlong
    apply hnot
    have hget := hlist.getElem (i := i) (by omega)
    rw [List.getElem?_eq_some_iff] at hi
    rw [hi.2] at hget
    exact hget ▸ List.getElem_mem _
  have hbefore : x.rLog.map (·.request) <+: (history.take s).drop a := by
    have htake := List.prefix_take_iff.mpr ⟨hlist, hshort⟩
    rw [hlogged, List.take_drop, List.take_take, hnumber, Nat.min_eq_left (Nat.le_of_lt hlt)]
      at htake
    exact htake
  have hproduced : (m.rep l).repState.length ≤ (stateAfter history s).length := by
    rw [← hreplay, replay_eq_produce, ← produce_take]
    obtain ⟨rest, hrest⟩ := hbefore
    rw [← List.take_append_drop a (history.take s), ← hrest, produce_append, produce_append,
      List.length_append, List.length_append]
    omega
  have hlong := hbegins.length_le
  omega

theorem IsCommon.of_prefix {t t' : List Value} (h : m.IsCommon t') (hpre : t <+: t') :
    m.IsCommon t := by
  have hle := List.countP_mono_left (l := List.finRange n)
    (p := fun j => isPrefixOf t' (m.rep j).repState)
    (q := fun j => isPrefixOf t (m.rep j).repState)
    fun j _ hj => isPrefixOf_iff.mpr (hpre.trans (isPrefixOf_iff.mp hj))
  rw [IsCommon] at h ⊢
  omega

/-- A log that has lost nothing and produces a common state has only requests that enough
    structures have executed. -/
theorem executedByMany_of_mem_logged (h : m.Honest history) (huncut : m.Uncut history)
    {rLog : List LogEntry} (hlog : LogOfTable m rLog) (hcommon : m.IsCommon (replay rLog))
    (hr : history[s]? = some r) (hmem : r ∈ rLog.map (·.request)) :
    m.ExecutedByMany history s := by
  have hpre : rLog.map (·.request) <+: history := by
    rcases hlog with rfl | ⟨j, hj⟩
    · exact List.nil_prefix
    · exact (hj.map _).trans (huncut j)
  obtain ⟨i, hi⟩ := List.getElem?_of_mem hmem
  have hlt := (List.getElem?_eq_some_iff.mp hi).1
  have hindex : history[i]? = some r := by
    rw [← hi, List.prefix_iff_getElem?.mp hpre i hlt, List.getElem?_eq_getElem hlt]
  -- numbers are positions in the history
  have hnumber : i = s := by
    have hnum := h.numbered i r hindex
    have hnum' := h.numbered s r hr
    omega
  have hproduced : replay rLog = stateAfter history (rLog.map (·.request)).length := by
    rw [replay_eq_produce, ← produce_take, ← List.prefix_iff_eq_take.mp hpre]
  rw [hproduced] at hcommon
  exact executedByMany_iff.mpr (hcommon.of_prefix ( stateAfter_prefix (by omega)))

/-- Among logs of which one fits the state, the search finds a part. -/
theorem fittingPart_ne_nil {rLogs : List (List LogEntry)} {state : List Value}
    {rLog : List LogEntry} (hmem : rLog ∈ rLogs) (hfits : Fits state rLog) :
    fittingPart rLogs state ≠ [] := by
  rw [fittingPart]
  cases hfind : rLogs.findSome? (matchingPart state) with
  | none =>
    exact absurd hfits (matchingPart_eq_none.mp (List.findSome?_eq_none_iff.mp hfind rLog hmem))
  | some part =>
    obtain ⟨_, -, hpart⟩ := List.exists_of_findSome?_eq_some hfind
    exact (matchingPart_spec hpart).2.1

/-- With room in the logs and `n - 2f` compatible structures a state is found. -/
theorem isSome_of_compatible (h : m.Honest history)
    (hpos : (0 : Int) < n - 2 * m.numberOfByzantine) (hclients : m.numberOfClients ≠ 0)
    {alike : Finset (Fin n)} (hmany : (n : Int) - 2 * m.numberOfByzantine ≤ alike.card)
    (halike : m.CompatibleSet alike)
    (hp : m.comPrefStates (n - 2 * m.numberOfByzantine) = .ok p) (hx : findConsState p = .ok x) :
    x.repState.isSome = true := by
  obtain ⟨hstates, hrLogs⟩ := comPrefStates_eq h.ids hpos hp
  rw [← chosen] at hstates hrLogs
  obtain ⟨required, hrequired⟩ := Int.eq_ofNat_of_zero_le (Int.le_of_lt hpos)
  rw [hrequired] at hstates hrLogs hmany
  rcases (chosen_spec (by omega) : (m.chosen required = [] ∧ _) ∨ _) with ⟨-, hnone⟩ | hbest
  · obtain ⟨set, hsub, hcard⟩ :=
      Finset.exists_subset_card_eq (s := alike) (n := required) (by omega)
    exact absurd ⟨set, hcard, fun i hi j hj => halike i (hsub hi) j (hsub hj)⟩ hnone
  obtain ⟨l, hl, hfind, -⟩ := hbest.shortest
  rw [← hstates] at hfind
  have hsome : p.states ≠ [] := by
    rw [hstates, ne_eq, List.map_eq_nil_iff]
    exact List.ne_nil_of_mem hl
  rcases findConsState_cases hx with ⟨-, hnil | hnone⟩ | ⟨t, -, hfound, hcase⟩
  · exact absurd hnil hsome
  · rw [hfind] at hnone
    cases hnone
  · rw [hfind] at hfound
    cases hfound
    rcases hcase with ⟨-, hnil, hne⟩ | ⟨rfl, -⟩
    · -- the log of the replica with this state fits it
      refine absurd hnil (fittingPart_ne_nil ?_ (h.fits_of_state hne hclients))
      rw [hrLogs]
      exact List.mem_map_of_mem hl
    · rfl

end Taken

/-! ## What stays in the queue -/

/-- The new primary has the request under process, and does not renew it. -/
def UnderProcess (m : ReplicationModule n) (resolver : Resolver n) (r : Request) : Prop :=
  ∃ q ∈ m.own.reqQ, q.request = r ∧ ¬ m.Renewable resolver q

instance (m : ReplicationModule n) (resolver : Resolver n) (r : Request) :
    Decidable (m.UnderProcess resolver r) :=
  inferInstanceAs (Decidable (∃ q ∈ m.own.reqQ, _))

/-- `n - 2f` structures have data, when the own one is counted to these, or as many are
    default. -/
def EnoughAlike (m : ReplicationModule n) : Prop :=
  (n : Int) - 2 * m.numberOfByzantine ≤
      (Finset.univ.filter fun j => j = m.id ∨ (m.rep j).isDefPrefix = false).card ∨
    (n : Int) - 2 * m.numberOfByzantine ≤
      (Finset.univ.filter fun j => j ≠ m.id ∧ (m.rep j).isDefPrefix = true).card

instance (m : ReplicationModule n) : Decidable m.EnoughAlike :=
  inferInstanceAs (Decidable (_ ∨ _))

/-- With a request under process the own structure is not default, so the structures that are
    alike are compatible. -/
theorem EnoughAlike.compatible (halike : m.EnoughAlike) (h : m.Honest history)
    {rs : ReplicaStructure} (hstate : rs.repState = m.own.repState) (hqueue : rs.reqQ ≠ []) :
    ∃ alike : Finset (Fin n), (n : Int) - 2 * m.numberOfByzantine ≤ alike.card ∧
      (m.setOwn rs).CompatibleSet alike := by
  have hstates := field_setOwn (m := m) (·.repState) hstate
  have hcomparable : ∀ i j, prefixes ((m.setOwn rs).rep i).repState
      ((m.setOwn rs).rep j).repState = true := by
    intro i j
    rw [hstates, hstates]
    exact prefixes_of_prefix (h.state_prefix i) (h.state_prefix j)
  have hown : ((m.setOwn rs).rep m.id).isDefPrefix = false := by
    show (m.setOwn rs).own.isDefPrefix = false
    rw [own_setOwn, ReplicaStructure.isDefPrefix, decide_eq_false_iff_not]
    exact fun hdef => hqueue hdef.2.2.2
  cases halike with
  | inl hdata =>
    have hall : ∀ j, j = m.id ∨ (m.rep j).isDefPrefix = false →
        ((m.setOwn rs).rep j).isDefPrefix = false := by
      intro j hj
      by_cases hself : j = m.id
      · rw [hself, hown]
      · rw [rep_setOwn_of_ne hself]
        exact hj.resolve_left hself
    refine ⟨_, hdata, fun i hi j hj _ => compatible_iff.mpr ⟨?_, hcomparable i j⟩⟩
    rw [hall i (Finset.mem_filter.mp hi).2, hall j (Finset.mem_filter.mp hj).2]
  | inr hdef =>
    refine ⟨_, hdef, fun i hi j hj _ => compatible_iff.mpr ⟨?_, hcomparable i j⟩⟩
    obtain ⟨hi, hidef⟩ := (Finset.mem_filter.mp hi).2
    obtain ⟨hj, hjdef⟩ := (Finset.mem_filter.mp hj).2
    rw [rep_setOwn_of_ne hi, rep_setOwn_of_ne hj, hidef, hjdef]

/-- With ids that are positions, the structures that are consulted are those that report. -/
theorem renewed_iff_renewable (hids : ∀ j, (m.rep j).id = j.val) {slots : List (Fin n)}
    (hslots : m.reportingSlots resolver = .ok slots) {q : ReqPair} :
    m.Renewed slots q ↔ m.Renewable resolver q := by
  obtain ⟨chosen, -, hchosen, hchanged⟩ := viewChangedProcessors_eq resolver hids
  obtain ⟨ids, hids', hslots⟩ := Py.of_bind hslots
  cases hchanged.symm.trans hids'
  have hsame : slots = chosen := by
    have hmap := map_eq_of_mapM hslots
    rw [map_pyIndex_val] at hmap
    exact (List.map_inj_right fun _ _ => Except.ok.inj).mp hmap.symm
  rw [Renewed, Renewable, hsame, ← hchosen]
  simp only [List.mem_toFinset]

/-- What stays in the queue of a new primary that takes over a state. -/
theorem mem_queued_iff (hids : ∀ j, (m.rep j).id = j.val) (hchanged : m.own.viewChanged = true)
    (h : m.actAsPrimWhenViewChanged resolver order = .ok m') (hdone : m'.own.viewChanged = false)
    {r : Request} (hop : r.clientRequest.operation ≠ .noOp) :
    ∃ x, m.takenState resolver order = .ok x ∧ m'.own.rLog = x.rLog ∧
      (x.repState.isSome = true → m.HasRoom → m.UnderProcess resolver r → r ∈ m'.own.queued) ∧
      (r.view ≠ m.id.val → r ∈ m'.own.queued → m.UnderProcess resolver r) := by
  obtain ⟨slots, hslots, ⟨-, rfl⟩ | ⟨-, x, hx, hcase⟩⟩ := actAsPrim_result h
  · rw [hchanged] at hdone
    cases hdone
  refine ⟨x, hx, ?_⟩
  rcases hcase with ⟨hnone, rs, rfl⟩ | ⟨-, need, hneed, hlog, -, hqueue⟩
  · -- no state: the own structure becomes TEE, whose queue is empty
    obtain ⟨_, p, -, -, -, -, -, hfound⟩ := takenState_cases hx
    rw [findConsState_none hfound hnone, hnone, own_setOwn]
    exact ⟨rfl, fun hsome => absurd hsome Bool.false_ne_true,
      fun _ hr => absurd hr List.not_mem_nil⟩
  · obtain ⟨fresh, -, hfresh, hmem⟩ :=
      renumber_spec m.id.val need m.gapsFilled.own.reqQ m.newSeq
    rw [← hqueue] at hmem
    refine ⟨hlog, fun _ hroom hprocess => ?_, fun hview hr => ?_⟩
    · -- with room nothing is evicted when gaps are filled
      obtain ⟨q, hq, rfl, hkept⟩ := hprocess
      obtain ⟨dummies, hsplit, -⟩ := gapsFilled_complete hroom
      refine ReplicaStructure.mem_queued.mpr ⟨q, (hmem q).mpr (Or.inr ⟨?_, fun hren => ?_⟩), rfl⟩
      · rw [hsplit]
        exact List.mem_append_left _ hq
      · exact hkept ((renewed_iff_renewable hids hslots).mp ((hneed q).mp hren).2)
    · obtain ⟨q, hq, rfl⟩ := ReplicaStructure.mem_queued.mp hr
      rcases (hmem q).mp hq with hnew | ⟨hfilled, hnot⟩
      · -- what is renewed has the view of the new primary
        exact absurd (hfresh q hnew).2.1 hview
      refine ⟨q, ?_, rfl, fun hren => hnot ((hneed q).mpr ⟨hfilled,
        (renewed_iff_renewable hids hslots).mpr hren⟩)⟩
      -- dummies have no operation
      obtain ⟨old, dummies, hsplit, hold, -⟩ := gapsFilled_padded (m := m)
      rw [hsplit, List.mem_append, List.mem_map] at hfilled
      rcases hfilled with hown | ⟨s, -, rfl⟩
      · exact hold.subset hown
      · exact absurd rfl hop

/-! ## What the backups end with -/

/-- A backup that accepts has the log and the queue of the new primary, and the log produces
    the new primary's state. -/
theorem listed_accepted {mq mq' : ReplicationModule n} {p : Fin n}
    (hpos : (0 : Int) < n - 2 * mq.numberOfByzantine) (hchanged : mq.own.viewChanged = true)
    (h : mq.actAsNonprimWhenViewChanged resolver p.val = .ok mq')
    (haccept : mq'.own.viewChanged = false) :
    mq'.own.logged = (mq.rep p).logged ∧ mq'.own.queued = (mq.rep p).queued ∧
      replay (mq.rep p).rLog = (mq.rep p).repState := by
  rcases actAsNonprim_cases h with rfl | ⟨hcheck, rfl⟩
  · rw [hchanged] at haccept
    cases haccept
  · obtain ⟨-, -, -, hexec⟩ := (checkNewVState_iff hpos).mp hcheck
    rw [own_setOwn]
    exact ⟨rfl, rfl, (replay_of_executeRLog hexec).2⟩

/-- The new primary `p` has a table of honest replicas and completes, its structure reaches
    `q`, and `q` accepts it. A request of the history that appends a value is in the log of `q`
    afterwards if `n - 2f` structures of the table of `p` have executed it and still have it in
    their logs, and if no log was cut only then. It is in the queue of `q` if `p` has it under
    process, with room for dummies, and enough structures are alike; a request of another view
    than the one of `p` only if `p` has it under process. -/
theorem survives_iff {mp mp' mq mq' : ReplicationModule n} {resolver' : Resolver n}
    (hn : 5 * mp.numberOfByzantine + 1 ≤ n) (hhonest : mp.Honest history)
    (hclients : mp.numberOfClients ≠ 0) (hprim : mp.own.viewChanged = true)
    (hp : mp.actAsPrimWhenViewChanged resolver order = .ok mp')
    (hdone : mp'.own.viewChanged = false) (hcopy : mq.rep mp.id = mp'.own)
    (hbyz : mq.numberOfByzantine = mp.numberOfByzantine) (hbackup : mq.own.viewChanged = true)
    (hq : mq.actAsNonprimWhenViewChanged resolver' mp.id.val = .ok mq')
    (haccept : mq'.own.viewChanged = false) {s : Nat} {r : Request} {v : Value}
    (hr : history[s]? = some r) (hv : r.clientRequest.operation = .append v) :
    (mp.ExecutedByMany history s → mp.StillLogged history s → r ∈ mq'.own.logged) ∧
      (mp.Uncut history → r ∈ mq'.own.logged → mp.ExecutedByMany history s) ∧
      (mp.UnderProcess resolver r → mp.HasRoom → mp.EnoughAlike → r ∈ mq'.own.queued) ∧
      (r.view ≠ mp.id.val → r ∈ mq'.own.queued → mp.UnderProcess resolver r) := by
  have hpos : (0 : Int) < n - 2 * mp.numberOfByzantine := by omega
  obtain ⟨hlogged, hqueued, hreplay⟩ :=
    listed_accepted (by rw [hbyz]; exact hpos) hbackup hq haccept
  rw [hcopy] at hlogged hqueued hreplay
  obtain ⟨x, hx, hlog, hstays, honly⟩ := mem_queued_iff (r := r) hhonest.ids hprim hp hdone
    (by rw [hv]; exact fun heq => by cases heq)
  rw [hqueued, hlogged, ReplicaStructure.logged, hlog]
  -- the table in which the state is looked for
  obtain ⟨rs, p, hid, hstate, hrLog, hqueue, hcom, hfound⟩ := takenState_cases hx
  have htable := hhonest.setOwn hid hstate hrLog
  have hstates := field_setOwn (m := mp) (·.repState) hstate
  have hlogs := field_setOwn (m := mp) (·.rLog) hrLog
  have hreach : (mp.setOwn rs).LogsReachBack := by
    have hproposal := proposal_of_actAsPrim hhonest hpos hprim hp hdone
    have hback : (mp.setOwn rs).LogsReachBack ↔ mp.LogsReachBack :=
      logsReachBack_congr rfl hstates hlogs
    exact hback.mpr (hproposal.replay_iff.mp hreplay)
  obtain ⟨hcommon, hback⟩ := htable.replay_findConsState_iff hpos hcom hfound
  have hproduces := hback.mpr hreach
  have hsame : ∀ s, (mp.setOwn rs).ExecutedByMany history s ↔ mp.ExecutedByMany history s := by
    intro s
    simp only [executedByMany_iff, IsCommon, setOwn_numberOfByzantine, hstates]
  have hloggedSame : ∀ j, ((mp.setOwn rs).rep j).logged = (mp.rep j).logged := by
    intro j
    rw [ReplicaStructure.logged, ReplicaStructure.logged, hlogs]
  refine ⟨fun hmany hstill => ?_, fun huncut hmem => ?_, fun hprocess hroom halike => ?_, honly⟩
  -- (a) the state produced reaches over the request
  · refine mem_logged_of_executedByMany htable hpos hclients hcom hfound hproduces hr hv
      ((hsame s).mpr hmany) fun j hj => ?_
    rw [hloggedSame]
    apply hstill j
    rwa [HasExecuted, hstates] at hj
  -- (b) the log produces no more than what many have executed
  · refine (hsame s).mp (executedByMany_of_mem_logged htable (fun j => ?_)
      (logOfTable_findConsState hcom hfound) ?_ hr hmem)
    · rw [hloggedSame]
      exact huncut j
    · rw [hproduces]
      exact hcommon
  -- (c) a state is found, so that the queue is not cleared
  · refine hstays ?_ hroom hprocess
    have hne : mp.gapsFilled.own.reqQ ≠ [] := by
      obtain ⟨dummies, hsplit, -⟩ := gapsFilled_complete hroom
      obtain ⟨q, hq, -⟩ := hprocess
      rw [hsplit]
      exact List.append_ne_nil_of_left_ne_nil (List.ne_nil_of_mem hq) _
    obtain ⟨alike, hmany, hcompatible⟩ := halike.compatible hhonest hstate (hqueue hne)
    exact isSome_of_compatible htable hpos hclients hmany hcompatible hcom hfound

/-! ## A slow primary -/

/-- Two requests that append values. Replicas 1 and 2 have executed both, the others one;
    replica 0 has committed the second one. -/
def slowTable : ReplicationModule 6 :=
  { init 0 1 1 true with
    rep := fun j =>
      { ((appends 2).take (if j = 1 ∨ j = 2 then 2 else 1)).foldl
          (fun rs r => executedOwn rs r {0, 1, 2, 3} (.list [.unset]))
          (ReplicaStructure.init j.val 1) with
        id := j.val
        reqQ := if j = 0 then [⟨⟨⟨0, some 1, .append 1⟩, 1, 1⟩, {.prePrep, .prep, .commit}⟩] else []
        viewChanged := true } }

theorem honest_slowTable : slowTable.Honest (appends 2) := by
  refine ⟨appends_numbered 2, appends_operations 2, fun j => rfl,
    fun j => ⟨if j = 1 ∨ j = 2 then 2 else 1, ?_⟩⟩
  have hle : (if j = 1 ∨ j = 2 then 2 else 1) ≤ (appends 2).length := by
    split
    · decide
    · decide
  obtain ⟨hexec, -⟩ := Executed.of_foldl (k := 1) (appends_numbered 2) j.val {0, 1, 2, 3}
    (.list [.unset]) hle
  exact ⟨hexec.le, hexec.state, hexec.logged⟩

/-- The slow replica 0 becomes primary, and replica 1 accepts: the request that all have
    executed is in its log, and the one that only 1 and 2 have executed in its queue. -/
theorem survives_slow :
    ∃ mp' mq', slowTable.actAsPrimWhenViewChanged viewZero .insertion = .ok mp' ∧
      (mp'.seenBy 1).actAsNonprimWhenViewChanged viewZero 0 = .ok mq' ∧
      mq'.own.viewChanged = false ∧ ⟨⟨0, some 0, .append 0⟩, 1, 0⟩ ∈ mq'.own.logged ∧
      ⟨⟨0, some 1, .append 1⟩, 1, 1⟩ ∈ mq'.own.queued ∧
      ⟨⟨0, some 1, .append 1⟩, 1, 1⟩ ∉ mq'.own.logged := by
  obtain ⟨mp', hp, hprop⟩ := Py.exists_of_any
    (x := slowTable.actAsPrimWhenViewChanged viewZero .insertion)
    (p := fun mp' => mp'.own.viewChanged = false ∧ mp'.id = 0 ∧
      mp'.numberOfByzantine = 1 ∧ (mp'.seenBy 1).own.viewChanged = true ∧
      ((mp'.seenBy 1).actAsNonprimWhenViewChanged viewZero 0).toOption.any
        (fun mq' => !mq'.own.viewChanged) = true) (by decide +kernel)
  obtain ⟨hdone, hid, hbyz, hbackup, hany⟩ := of_decide_eq_true hprop
  obtain ⟨mq', hq, haccept⟩ := Py.exists_of_any hany
  have hcopy : (mp'.seenBy 1).rep slowTable.id = mp'.own := by
    rw [own, hid]
    rfl
  have hsurvive := fun {s r v} => survives_iff (s := s) (r := r) (v := v) (by decide)
    honest_slowTable (by decide) rfl hp hdone hcopy hbyz hbackup hq (by simpa using haccept)
  refine ⟨mp', mq', hp, hq, by simpa using haccept, ?_, ?_, ?_⟩
  · exact (hsurvive (s := 0) rfl rfl).1 (by decide) (by decide)
  · exact (hsurvive (s := 1) rfl rfl).2.2.1 (by decide) (by decide) (by decide)
  · exact fun hmem => absurd ((hsurvive (s := 1) rfl rfl).2.1 (by decide) hmem) (by decide)

end ReplicationModule

/-! ## A request that is lost -/

/-- The request of the run. -/
def lostRequest : Request := ⟨⟨0, some 1, .append 7⟩, 0, 0⟩

/-- In view 0 processors 0 to 3 commit a request and 0 and 1 execute it. In view 1
    the new primary 1, which no longer has it in its queue, takes over the empty
    state of 2 and 3 and lets processor 0 know. -/
def losingRun : SixMoves :=
  serving lostRequest.clientRequest ++
  [0, 1, 2, 3, 4, 5].map (fun i => .act i (.surroundings ⟨true, true, fun _ => 1⟩)) ++
  iterating [0, 2, 3, 4, 5] ++ telling [0, 2, 3, 4, 5] [1] ++ iterating [1] ++ telling [1] [0]

/-- All six processors follow the code; processor 0 has executed a request, the
    new primary 1 has completed, its structure has reached processor 0, and in
    its next iteration processor 0 accepts it: the request is gone. -/
theorem executed_lost :
    ∃ (net : Network (Fin 6) (Node 6) ReplicaStructure) (s : Node 6),
      (Node.network (AnyView (n := 6)) ∅ 1 1 true).Reachable net ∧
      lostRequest ∈ (net.nodes 0).executed ∧ (net.nodes 0).module.own.viewChanged = true ∧
      (net.nodes 1).module.own.viewChanged = false ∧ (net.nodes 1).module.own.prim = 1 ∧
      (net.nodes 0).module.rep 1 = (net.nodes 1).module.own ∧
      (net.nodes 0).iterate .insertion = some s ∧
      s.module.own.viewChanged = false ∧ s.module.own.prim = 1 ∧ s.module.needFlush = false ∧
      lostRequest ∉ s.module.own.logged ∧ lostRequest ∉ s.module.own.queued := by
  have hstart : (Node.network (AnyView (n := 6)) ∅ 1 1 true).init (Node.start 0 1 1) :=
    ⟨fun i _ => ⟨_, trivial, rfl⟩, rfl⟩
  have hexec : (System.exec (Network.play (Node.protocol (AnyView (n := 6))) ∅ fun _ _ => True)
      (Node.start 0 1 1) losingRun).any (fun net =>
        lostRequest ∈ (net.nodes 0).executed ∧ (net.nodes 0).module.own.viewChanged = true ∧
        (net.nodes 1).module.own.viewChanged = false ∧ (net.nodes 1).module.own.prim = 1 ∧
        (net.nodes 0).module.rep 1 = (net.nodes 1).module.own ∧
        ((net.nodes 0).iterate .insertion).any (fun s =>
          s.module.own.viewChanged = false ∧ s.module.own.prim = 1 ∧
          s.module.needFlush = false ∧ lostRequest ∉ s.module.own.logged ∧
          lostRequest ∉ s.module.own.queued) = true) = true := by
    decide +kernel
  obtain ⟨net, hreach, hp⟩ := Network.Reachable.of_play (.init hstart) hexec
  obtain ⟨hexecuted, hwait, hdone, hprim, hcopy, hnext⟩ := of_decide_eq_true hp
  obtain ⟨s, hs, hlost⟩ := (Option.any_eq_true ..).mp hnext
  exact ⟨net, s, hreach, hexecuted, hwait, hdone, hprim, hcopy, hs, of_decide_eq_true hlost⟩

end BFTList
