import BFTList.Spec.NewView

/-!
# Which pending requests survive a view change

The new primary keeps as pending what all processors that report the view change
have pending: it counts occurrences, and compares with the number of processors.
One of them that leaves a request out, or lists it twice, gets it dropped. Beyond
that a client request survives under a number, in the queue or in the log.

## Key results

- `pending_iff`: what a new primary that completes has pending, queued and executed
- `pending_survives_iff`: when a request that all correct processors have pending survives
- `pending_lost`: one processor that leaves it out is enough to lose it
-/

namespace BFTList.ReplicationModule

variable {n : Nat} {m m' : ReplicationModule n}

/-- The client requests with an entry in the queue. -/
def queuedClients (rs : ReplicaStructure) : List ClientRequest :=
  rs.reqQ.map (·.request.clientRequest)

/-- The client requests with an entry in the log. -/
def loggedClients (rLog : List LogEntry) : List ClientRequest :=
  rLog.map (·.request.clientRequest)

/-- The client request is pending, or has an entry in queue or log. -/
def Kept (rs : ReplicaStructure) (c : ClientRequest) : Prop :=
  c ∈ rs.pendReqs ∨ c ∈ queuedClients rs ∨ c ∈ loggedClients rs.rLog

instance (rs : ReplicaStructure) (c : ClientRequest) : Decidable (Kept rs c) :=
  inferInstanceAs (Decidable (_ ∨ _))

/-- The positions of the structures that are consulted for the processors which report
    the view change: an id may name any position, and a negative one names one again. -/
def reportingSlots (m : ReplicationModule n) (resolver : Resolver n) : Py (List (Fin n)) := do
  (← m.viewChangedProcessors resolver).mapM (pyIndex n)

theorem nodup_viewChangedProcessors {resolver : Resolver n} {ids : List Int}
    (h : m.viewChangedProcessors resolver = .ok ids) : ids.Nodup := by
  -- an id joins the list as it would join a set
  apply List.foldlM_invariant (P := List.Nodup) h List.nodup_nil
  intro ids ids' j _ hnodup hstep
  obtain ⟨_, -, hstep⟩ := Py.of_bind hstep
  simp only [pure, Except.pure, Except.ok.injEq] at hstep
  rw [← hstep]
  split
  · exact nodup_setAdd hnodup _
  · exact hnodup

/-- An index names a position from the front or from the end. -/
theorem eq_of_pyIndex {i : Int} {j : Fin n} (h : pyIndex n i = .ok j) :
    i = j.val ∨ i = j.val - n := by
  unfold pyIndex at h
  split at h
  · cases h
    simp only
    omega
  · split at h
    · cases h
      simp only
      omega
    · cases h

/-- Faulty positions are consulted at most twice each. -/
theorem exists_correct_slot {faulty : Finset (Fin n)} {resolver : Resolver n}
    {slots : List (Fin n)} (h : m.reportingSlots resolver = .ok slots)
    (hmany : 2 * faulty.card < slots.length) : ∃ j ∈ slots, j ∉ faulty := by
  by_contra hall
  simp only [not_exists, not_and, not_not] at hall
  simp only [reportingSlots] at h
  obtain ⟨ids, hids, h⟩ := Py.of_bind h
  have hmap := map_eq_of_mapM h
  have hlength := congrArg List.length hmap
  rw [List.length_map, List.length_map] at hlength
  -- if all positions are faulty, every id is one of them, or one less `n`
  have hsub : ids.toFinset ⊆ faulty.image (fun j => (j.val : Int)) ∪
      faulty.image fun j => (j.val : Int) - n := by
    intro id hid
    have hid' : pyIndex n id ∈ ids.map (pyIndex n) :=
      List.mem_map_of_mem (List.mem_toFinset.mp hid)
    rw [hmap] at hid'
    obtain ⟨j, hj, hindex⟩ := List.mem_map.mp hid'
    rw [Finset.mem_union, Finset.mem_image, Finset.mem_image]
    cases eq_of_pyIndex hindex.symm with
    | inl hfront => exact Or.inl ⟨j, hall j hj, hfront.symm⟩
    | inr hback => exact Or.inr ⟨j, hall j hj, hback.symm⟩
  -- so there are at most twice as many ids as faulty processors
  have hcard := Finset.card_le_card hsub
  have hunion := Finset.card_union_le (faulty.image fun j => (j.val : Int))
    (faulty.image fun j => (j.val : Int) - n)
  have hfront := Finset.card_image_le (s := faulty) (f := fun j => (j.val : Int))
  have hback := Finset.card_image_le (s := faulty) (f := fun j => (j.val : Int) - n)
  rw [List.toFinset_card_of_nodup (nodup_viewChangedProcessors hids)] at hcard
  omega

/-- Correct processors that have a request pending once count as many as they are. -/
theorem sum_count_eq {faulty : Finset (Fin n)} {c : ClientRequest}
    (hcorrect : ∀ j, j ∉ faulty → c ∈ (m.rep j).pendReqs ∧ (m.rep j).pendReqs.Nodup)
    (slots : List (Fin n)) :
    (slots.map fun j => (m.rep j).pendReqs.count c).sum +
        (slots.filter (· ∈ faulty)).length =
      ((slots.filter (· ∈ faulty)).map fun j => (m.rep j).pendReqs.count c).sum +
        slots.length := by
  induction slots with
  | nil => rfl
  | cons j slots ih =>
    by_cases hj : j ∈ faulty
    -- a faulty position contributes the same to both sides
    · rw [List.filter_cons, if_pos (decide_eq_true hj)]
      simp only [List.map_cons, List.sum_cons, List.length_cons]
      omega
    -- a correct one counts once, and is one of the slots
    · have hone : (m.rep j).pendReqs.count c = 1 :=
        List.count_eq_one_of_mem (hcorrect j hj).2 (hcorrect j hj).1
      rw [List.filter_cons, if_neg (by simpa using hj)]
      simp only [List.map_cons, List.sum_cons, List.length_cons, hone]
      omega

/-- Renewing keeps what is pending as often as there are reporting processors, and
    all client requests of the queue. -/
theorem renewReqs_clients {order : SetOrder Int} {ids : List Int} {slots : List (Fin n)}
    (hslots : ids.map (pyIndex n) = slots.map .ok) {renewed : ReplicationModule n}
    (h : m.gapsFilled.renewReqs order ids = .ok renewed) :
    renewed.numberOfByzantine = m.numberOfByzantine ∧
    (∀ c, c ∈ renewed.own.pendReqs ↔ (∃ j ∈ slots, c ∈ (m.rep j).pendReqs) ∧
      (slots.map fun j => (m.rep j).pendReqs.count c).sum = slots.length) ∧
    queuedClients renewed.own = queuedClients m.gapsFilled.own := by
  obtain ⟨rs, hfill, hfilled⟩ := filled_fillGaps m
  have hown : m.gapsFilled.own = rs := by
    rw [gapsFilled, hfill, own_setOwn]
  rw [hown]
  rw [gapsFilled, hfill] at h
  simp only [renewReqs, own_setOwn, setOwn_setOwn] at h
  obtain ⟨pend, hpend, h⟩ := Py.of_bind h
  obtain ⟨_, -, h⟩ := Py.of_bind h
  simp only [pure, Except.pure, Except.ok.injEq] at h
  rw [← h, own_setOwn]
  refine ⟨rfl, ?_, clients_renumber ..⟩
  intro c
  -- filling gaps has not changed what is pending
  rw [mem_commonPendReqs_iff hslots hpend]
  simp only [field_setOwn (·.pendReqs) hfilled.pendReqs_eq]

/-- A new primary that completes either finds no common state, and has nothing, or
    takes over one: then it has pending what the reporting processors list as often
    as they are many, the client requests of its queue with the gaps filled, and the
    log that comes with the state. -/
theorem pending_iff {resolver : Resolver n} {order : SetOrder Int}
    (hchanged : m.own.viewChanged = true)
    (h : m.actAsPrimWhenViewChanged resolver order = .ok m') (hdone : m'.own.viewChanged = false) :
    ∃ slots x, m.reportingSlots resolver = .ok slots ∧ m.takenState resolver order = .ok x ∧
      (n : Int) - m.numberOfByzantine ≤ slots.length ∧
      ((x.repState = none ∧ ∀ c, ¬ Kept m'.own c) ∨
        x.repState.isSome = true ∧ m'.own.rLog = x.rLog ∧
          queuedClients m'.own = queuedClients m.gapsFilled.own ∧
          ∀ c, c ∈ m'.own.pendReqs ↔ (∃ j ∈ slots, c ∈ (m.rep j).pendReqs) ∧
            (slots.map fun j => (m.rep j).pendReqs.count c).sum = slots.length) := by
  simp only [actAsPrimWhenViewChanged] at h
  obtain ⟨ids, hids, h⟩ := Py.of_bind h
  split at h
  · rename_i hmany
    rw [← gapsFilled] at h
    obtain ⟨renewed, hrenew, h⟩ := Py.of_bind h
    -- all ids were looked up, so they name positions
    obtain ⟨slots, hmapM⟩ := mapM_completes (pyIndex_completes_viewChanged hids)
    have hslots := map_eq_of_mapM hmapM
    obtain ⟨hbyz, hpend, hqueue⟩ := renewReqs_clients hslots hrenew
    have hlength := congrArg List.length hslots
    rw [List.length_map, List.length_map] at hlength
    obtain ⟨p, hp, h⟩ := Py.of_bind h
    -- the number of states needed is that of the module before
    rw [hbyz] at hp
    obtain ⟨x, hx, h⟩ := Py.of_bind h
    refine ⟨slots, x, ?_, ?_, hlength ▸ hmany, ?_⟩
    · simp only [reportingSlots, hids, bind, Except.bind, hmapM]
    · simp only [takenState, hids, bind, Except.bind, hrenew, hp, hx]
    simp only [pure, Except.pure, Except.ok.injEq, adoptConsState] at h
    split at h
    · -- without a common state everything is dropped
      rename_i hnone
      rw [← h, own_setOwn]
      refine Or.inl ⟨hnone, fun c hkept => ?_⟩
      rcases hkept with hmem | hmem | hmem
      · exact List.not_mem_nil hmem
      · exact List.not_mem_nil hmem
      · exact List.not_mem_nil hmem
    · rename_i repState hsome
      rw [← h, own_setOwn]
      exact Or.inr ⟨by rw [hsome]; rfl, rfl, hqueue, hpend⟩
  -- too few processors report the view change: nothing is completed
  · cases h
    rw [hchanged] at hdone
    cases hdone

/-- A client request that every correct processor has pending, once, is kept by a new
    primary that completes iff it takes over a common state and the faulty ones among
    the consulted structures list the request as often as they are many, or it is in
    the queue or in the log that comes with the state. -/
theorem pending_survives_iff (faulty : Finset (Fin n)) {resolver : Resolver n}
    {order : SetOrder Int} (hn : 5 * m.numberOfByzantine + 1 ≤ n)
    (hfaulty : faulty.card ≤ m.numberOfByzantine) {c : ClientRequest}
    (hcorrect : ∀ j, j ∉ faulty → c ∈ (m.rep j).pendReqs ∧ (m.rep j).pendReqs.Nodup)
    (hchanged : m.own.viewChanged = true)
    (h : m.actAsPrimWhenViewChanged resolver order = .ok m') (hdone : m'.own.viewChanged = false) :
    ∃ slots x, m.reportingSlots resolver = .ok slots ∧ m.takenState resolver order = .ok x ∧
      (Kept m'.own c ↔ x.repState.isSome = true ∧
        (((slots.filter (· ∈ faulty)).map fun j => (m.rep j).pendReqs.count c).sum =
            (slots.filter (· ∈ faulty)).length ∨
          c ∈ queuedClients m.gapsFilled.own ∨ c ∈ loggedClients x.rLog)) := by
  obtain ⟨slots, x, hslots, hx, hmany, hcase⟩ := pending_iff hchanged h hdone
  refine ⟨slots, x, hslots, hx, ?_⟩
  rcases hcase with ⟨hnone, hlost⟩ | ⟨hsome, hlog, hqueue, hpend⟩
  · rw [hnone]
    exact iff_of_false (hlost c) fun hand => Bool.false_ne_true hand.1
  · -- some consulted structure is a correct one
    obtain ⟨i, hi, hcorrecti⟩ : ∃ j ∈ slots, j ∉ faulty :=
      exists_correct_slot hslots (by omega)
    have hlisted : ∃ j ∈ slots, c ∈ (m.rep j).pendReqs := ⟨i, hi, (hcorrect i hcorrecti).1⟩
    -- correct ones count once each
    have hsplit := sum_count_eq (c := c) hcorrect slots
    have hcount : c ∈ m'.own.pendReqs ↔
        ((slots.filter (· ∈ faulty)).map fun j => (m.rep j).pendReqs.count c).sum =
          (slots.filter (· ∈ faulty)).length := by
      -- what is left is that the faulty ones count as many as they are
      rw [hpend c, and_iff_right hlisted]
      omega
    rw [Kept, hcount, hlog, hqueue, and_iff_right hsome]

/-! ## Six processors -/

/-- A client request that all six processors have pending. -/
def waiting : ClientRequest := ⟨0, some 9, .append 9⟩

/-- Two executed requests, and one request pending everywhere. -/
def waitingTable : ReplicationModule 6 := viewChangeTable 2 [waiting] []

theorem pending_survives_iff_six :
    ∃ m', waitingTable.actAsPrimWhenViewChanged ⟨true, true, fun _ => 0⟩ .insertion = .ok m' ∧
      Kept m'.own waiting := by
  obtain ⟨m', hok, hp⟩ := Py.exists_of_any
    (x := waitingTable.actAsPrimWhenViewChanged ⟨true, true, fun _ => 0⟩ .insertion)
    (p := fun m' => m'.own.viewChanged = false) (by decide)
  obtain ⟨slots, x, hslots, hx, hiff⟩ := pending_survives_iff {5} (c := waiting) (by decide)
    (by decide) (fun _ _ => ⟨List.mem_singleton_self _, List.nodup_singleton _⟩) rfl
    hok (of_decide_eq_true hp)
  have hall : waitingTable.reportingSlots ⟨true, true, fun _ => 0⟩ = .ok [0, 1, 2, 3, 4, 5] := by
    decide
  have htaken : waitingTable.takenState ⟨true, true, fun _ => 0⟩ .insertion =
      .ok ⟨some [0, 1], (waitingTable.rep 0).rLog, false⟩ := by decide
  rw [hall] at hslots
  rw [htaken] at hx
  cases hslots
  cases hx
  exact ⟨m', hok, hiff.mpr ⟨rfl, Or.inl (by decide)⟩⟩

/-- Processor 5 reports the view change and leaves the request out: the new primary
    drops what all correct processors have pending. -/
theorem pending_lost :
    let m := { waitingTable with
      rep := Function.update waitingTable.rep 5 { waitingTable.rep 5 with pendReqs := [] } }
    (∀ j, j ≠ 5 → waiting ∈ (m.rep j).pendReqs) ∧
      ∃ m', m.actAsPrimWhenViewChanged ⟨true, true, fun _ => 0⟩ .insertion = .ok m' ∧
        m'.own.viewChanged = false ∧ ¬ Kept m'.own waiting := by
  intro m
  obtain ⟨m', hok, hp⟩ := Py.exists_of_any
    (x := m.actAsPrimWhenViewChanged ⟨true, true, fun _ => 0⟩ .insertion)
    (p := fun m' => m'.own.viewChanged = false ∧ ¬ Kept m'.own waiting) (by decide)
  obtain ⟨hdone, hlost⟩ := of_decide_eq_true hp
  exact ⟨by decide, m', hok, hdone, hlost⟩

end BFTList.ReplicationModule
