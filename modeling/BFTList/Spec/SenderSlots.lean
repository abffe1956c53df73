import BFTList.Spec.ReplicationSteps

/-!
# Whom a message speaks for

`receive_rep_msg` stores a structure in the slot of its sender and keeps the id
it carries. `com_pref_states` and `committed_set` go by that id. So a message
with the id of another processor is read as a second report of that processor.

## Key results

- `dictGet_replicaStates_eq`: of several structures with one id the last one counts
- `mem_committedSet`: whom `committed_set` takes for a committed processor
- `slotKept_iff`: exactly which messages leave the other processors alone, in any table and
  in one whose ids are in order
- `slot_forged`: a message that speaks for another processor
-/

namespace BFTList.ReplicationModule

variable {n : Nat} {m m' : ReplicationModule n} {j k : Fin n}

/-! ## Reading a table by id -/

/-- Of several structures with one id the last one counts. -/
theorem dictGet_replicaStates_eq (m : ReplicationModule n) (id : Int) :
    dictGet m.replicaStates id =
      (((List.finRange n).filter fun i => (m.rep i).id = id).getLast?.map fun i =>
        ((m.rep i).repState, (m.rep i).rLog)).elim (.error .keyError) .ok :=
  dictGet_foldl_dictSet (fun i => (m.rep i).id) (fun i => ((m.rep i).repState, (m.rep i).rLog))
    (List.finRange n) id

theorem repAt_completes {id : Int} : (m.repAt id).Completes ↔ -(n : Int) ≤ id ∧ id < n := by
  rw [← pyIndex_completes, repAt]
  cases pyIndex n id with
  | error e =>
    apply iff_of_false
    · rintro ⟨rs, hrs⟩
      cases hrs
    · rintro ⟨i, hi⟩
      cases hi
  | ok i => exact iff_of_true ⟨_, rfl⟩ ⟨i, rfl⟩

theorem msg_completes {status : Status} {id : Int} :
    (m.msg status id).Completes ↔ -(n : Int) ≤ id ∧ id < n := by
  rw [← repAt_completes (m := m), msg]
  cases m.repAt id with
  | error e =>
    apply iff_of_false
    · rintro ⟨rs, hrs⟩
      cases hrs
    · rintro ⟨i, hi⟩
      cases hi
  | ok rs => exact iff_of_true ⟨_, rfl⟩ ⟨rs, rfl⟩

/-- `committed_set` raises iff some structure carries an id that is no index. -/
theorem committedSet_completes {r : Request} :
    (m.committedSet r).Completes ↔ ∀ i, -(n : Int) ≤ (m.rep i).id ∧ (m.rep i).id < n := by
  constructor
  -- every slot is visited, and its id is looked up
  · rintro ⟨set, hset⟩ i
    obtain ⟨c, c', hstep⟩ := exists_of_foldlM hset (List.mem_finRange i)
    have hmsg : (m.msg {.commit} (m.rep i).id).Completes := by
      obtain ⟨reqs, hreqs, hstep⟩ := Py.of_bind hstep
      exact ⟨reqs, hreqs⟩
    exact msg_completes.mp hmsg
  · intro hids
    apply foldlM_completes_of_forall
    intro set i _
    apply (msg_completes.mpr (hids i)).bind
    exact fun reqs _ => ⟨_, rfl⟩

/-- A processor counts as committed if a structure with its id has executed the
    request, or a structure has its id and its own one has committed it. -/
theorem mem_committedSet {r : Request} {set : Finset Int} (h : m.committedSet r = .ok set)
    {id : Int} :
    id ∈ set ↔ ∃ i, (m.rep i).id = id ∧
      ((∃ reqs, m.msg {.commit} id = .ok reqs ∧ r ∈ reqs) ∨ r ∈ (m.rep i).logged) := by
  suffices hgen : ∀ (l : List (Fin n)) (start : Finset Int),
      l.foldlM (fun (set : Finset Int) j => (do
        let rs := m.rep j
        let committed ← m.msg {.commit} rs.id
        return if r ∈ committed ∨ r ∈ rs.rLog.map (·.request) then insert rs.id set
          else set : Py (Finset Int))) start = .ok set →
      (id ∈ set ↔ id ∈ start ∨ ∃ i ∈ l, (m.rep i).id = id ∧
        ((∃ reqs, m.msg {.commit} id = .ok reqs ∧ r ∈ reqs) ∨ r ∈ (m.rep i).logged)) by
    rw [hgen _ _ h]
    simp
  intro l
  induction l with
  | nil =>
    intro start hstart
    simp only [List.foldlM_nil, pure, Except.pure, Except.ok.injEq] at hstart
    simp [hstart]
  | cons i l ih =>
    intro start hstart
    simp only [List.foldlM_cons, bind, Except.bind] at hstart
    cases hreqs : m.msg {.commit} (m.rep i).id with
    | error e => simp only [hreqs, reduceCtorEq] at hstart
    | ok reqs =>
      simp only [hreqs, pure, Except.pure] at hstart
      rw [ih _ hstart, List.exists_mem_cons_iff, ← or_assoc]
      apply or_congr_left
      -- this slot adds its id, if it speaks for the request
      by_cases hid : (m.rep i).id = id
      · subst hid
        simp only [hreqs, Except.ok.injEq, exists_eq_left', true_and]
        split
        · rename_i hmem
          simp only [Finset.mem_insert, true_or, true_iff]
          exact Or.inr hmem
        · rename_i hmem
          exact (or_iff_left hmem).symm
      · simp only [hid, false_and, or_false]
        split
        · rw [Finset.mem_insert, or_iff_right (Ne.symm hid)]
        · rfl

/-- The structure makes `k` count as having committed the request. -/
def Vouches (m : ReplicationModule n) (k : Fin n) (rs : ReplicaStructure) (r : Request) : Prop :=
  rs.id = k.val ∧ (r ∈ ((m.rep k).reqQ.filter fun q => {.commit} ⊆ q.status).map (·.request) ∨
    r ∈ rs.logged)

/-- A processor counts as committed if some structure vouches for it. -/
theorem val_mem_committedSet {r : Request} {set : Finset Int} (h : m.committedSet r = .ok set) :
    (k.val : Int) ∈ set ↔ ∃ i, m.Vouches k (m.rep i) r := by
  rw [mem_committedSet h]
  simp only [Vouches, msg, repAt_val, bind, Except.bind, pure, Except.pure, Except.ok.injEq,
    exists_eq_left']

/-! ## Other processors -/

/-- Only the own structure of processor `k` has its id, and every id is an index. -/
structure Intact (m : ReplicationModule n) (k : Fin n) : Prop where
  only : ∀ i, (m.rep i).id = k.val ↔ i = k
  indices : ∀ i, -(n : Int) ≤ (m.rep i).id ∧ (m.rep i).id < n

/-- What the table says about processor `k` is still what `k` reported last, and
    `k` has committed the same requests. -/
structure SlotKept (m m' : ReplicationModule n) (k : Fin n) : Prop where
  state : dictGet m'.replicaStates k.val = .ok ((m.rep k).repState, (m.rep k).rLog)
  committed : ∀ r, ∃ set set', m.committedSet r = .ok set ∧ m'.committedSet r = .ok set' ∧
    ((k.val : Int) ∈ set' ↔ (k.val : Int) ∈ set)

/-- The structure carries an index, and if that is `k` it comes before the own
    structure of `k` or has its state and log, and has executed nothing else. -/
structure Unobtrusive (m : ReplicationModule n) (j : Fin n) (rs : ReplicaStructure)
    (k : Fin n) : Prop where
  index : -(n : Int) ≤ rs.id ∧ rs.id < n
  state : rs.id = k.val → k < j → rs.repState = (m.rep k).repState ∧ rs.rLog = (m.rep k).rLog
  log : rs.id = k.val → ∀ r ∈ rs.logged, r ∈ listed {.commit} (m.rep k)

/-- The table with another structure in the slot of `j`. -/
def setRep (m : ReplicationModule n) (j : Fin n) (rs : ReplicaStructure) : ReplicationModule n :=
  { m with rep := Function.update m.rep j rs }

@[simp] theorem setRep_rep_self (m : ReplicationModule n) (j : Fin n) (rs : ReplicaStructure) :
    (m.setRep j rs).rep j = rs := Function.update_self ..

theorem setRep_rep_of_ne (hne : k ≠ j) (rs : ReplicaStructure) :
    (m.setRep j rs).rep k = m.rep k := Function.update_of_ne hne ..

/-- The structure that a message of `j` leaves in its slot. -/
def slotAfter (m : ReplicationModule n) (resolver : Resolver n) (j : Fin n)
    (rs : ReplicaStructure) : ReplicaStructure :=
  if !m.selfStab || resolver.allowService then
    if resolver.noViewChange then rs else { m.rep j with repState := rs.repState }
  else m.rep j

theorem receiveRepMsg_eq_setRep (m : ReplicationModule n) (resolver : Resolver n) (j : Fin n)
    (rs : ReplicaStructure) : m.receiveRepMsg resolver j rs =
      m.setRep j (m.slotAfter resolver j rs) := by
  unfold receiveRepMsg slotAfter
  split
  · split
    · rfl
    · rfl
  · rw [setRep, Function.update_eq_self]

/-- All ids are indices, the last slot with the id of `k` has its state and log, and
    the slot of `j` vouches as before for whatever no other slot vouches for. -/
structure Harmless (m : ReplicationModule n) (j : Fin n) (rs : ReplicaStructure)
    (k : Fin n) : Prop where
  indices : ∀ i, -(n : Int) ≤ (m.rep i).id ∧ (m.rep i).id < n
  index : -(n : Int) ≤ rs.id ∧ rs.id < n
  state : ∃ l, (((m.setRep j rs).rep l).id = k.val ∧
    ∀ i, l < i → ((m.setRep j rs).rep i).id ≠ k.val) ∧
    ((m.setRep j rs).rep l).repState = (m.rep k).repState ∧
    ((m.setRep j rs).rep l).rLog = (m.rep k).rLog
  log : ∀ r, (∃ i, i ≠ j ∧ m.Vouches k (m.rep i) r) ∨
    (m.Vouches k rs r ↔ m.Vouches k (m.rep j) r)

/-! ## Any table -/

/-- The last structure with an id in table order. -/
theorem getLast?_filter_finRange {p : Fin n → Bool} {l : Fin n} :
    ((List.finRange n).filter p).getLast? = some l ↔ p l = true ∧ ∀ i, l < i → p i = false := by
  have hsorted : ((List.finRange n).filter p).Pairwise (· < ·) :=
    (List.pairwise_lt_finRange n).sublist List.filter_sublist
  have hmem : ∀ i, i ∈ (List.finRange n).filter p ↔ p i = true := by
    intro i
    rw [List.mem_filter, and_iff_right (List.mem_finRange i)]
  cases hcase : (List.finRange n).filter p using List.reverseRecOn with
  | nil =>
    -- nothing passes the filter
    rw [hcase] at hmem
    simp only [List.getLast?_nil, reduceCtorEq, false_iff, not_and]
    exact fun hl => absurd ((hmem l).mpr hl) List.not_mem_nil
  | append_singleton init x =>
    rw [hcase] at hmem hsorted
    rw [List.getLast?_concat, Option.some.injEq]
    have hx : p x = true := (hmem x).mp List.mem_concat_self
    -- all others are smaller than the last one
    have hlt : ∀ i, p i = true → i ≠ x → i < x := by
      intro i hi hne
      have hinit := List.mem_append.mp ((hmem i).mpr hi)
      apply (List.pairwise_append.mp hsorted).2.2 i ?_ x List.mem_cons_self
      exact hinit.resolve_right fun hsame => hne (List.mem_singleton.mp hsame)
    constructor
    · rintro rfl
      refine ⟨hx, fun i hi => ?_⟩
      by_contra hp
      rw [Bool.not_eq_false] at hp
      exact lt_asymm hi (hlt i hp (ne_of_gt hi))
    · rintro ⟨hl, hlast⟩
      by_contra hne
      have hfalse := hlast x (hlt l hl (Ne.symm hne))
      rw [hx] at hfalse
      cases hfalse

/-- The last slot with an id is the one that counts. -/
theorem dictGet_replicaStates_iff {id : Int} {value : List Value × List LogEntry} :
    dictGet m.replicaStates id = .ok value ↔
      ∃ l, ((m.rep l).id = id ∧ ∀ i, l < i → (m.rep i).id ≠ id) ∧
        (m.rep l).repState = value.1 ∧ (m.rep l).rLog = value.2 := by
  have hlast : ∀ l, ((List.finRange n).filter fun i => (m.rep i).id = id).getLast? = some l ↔
      (m.rep l).id = id ∧ ∀ i, l < i → (m.rep i).id ≠ id := by
    intro l
    rw [getLast?_filter_finRange]
    simp only [decide_eq_true_eq, decide_eq_false_iff_not, ne_eq]
  rw [dictGet_replicaStates_eq]
  simp only [← hlast]
  cases ((List.finRange n).filter fun i => (m.rep i).id = id).getLast? with
  | none => simp
  | some l => simp [Prod.ext_iff]

/-- The other slots vouch as before. -/
theorem vouches_setRep (hne : k ≠ j) (rs : ReplicaStructure) {r : Request} :
    (∃ i, (m.setRep j rs).Vouches k ((m.setRep j rs).rep i) r) ↔
      (∃ i, i ≠ j ∧ m.Vouches k (m.rep i) r) ∨ m.Vouches k rs r := by
  have hsame : ∀ copy, (m.setRep j rs).Vouches k copy r ↔ m.Vouches k copy r := by
    intro copy
    rw [Vouches, setRep_rep_of_ne hne, Vouches]
  constructor
  · rintro ⟨i, hi⟩
    rw [hsame] at hi
    by_cases hij : i = j
    · rw [hij, setRep_rep_self] at hi
      exact Or.inr hi
    · rw [setRep_rep_of_ne hij] at hi
      exact Or.inl ⟨i, hij, hi⟩
  · rintro (⟨i, hij, hi⟩ | hj)
    · refine ⟨i, (hsame _).mpr ?_⟩
      rwa [setRep_rep_of_ne hij]
    · refine ⟨j, (hsame _).mpr ?_⟩
      rwa [setRep_rep_self]

/-- Among all slots the one of `j` makes no difference iff another one vouches, or it
    vouches as before. -/
theorem vouches_setRep_iff (hne : k ≠ j) {rs : ReplicaStructure} {r : Request} :
    ((∃ i, (m.setRep j rs).Vouches k ((m.setRep j rs).rep i) r) ↔ ∃ i, m.Vouches k (m.rep i) r) ↔
      (∃ i, i ≠ j ∧ m.Vouches k (m.rep i) r) ∨
        (m.Vouches k rs r ↔ m.Vouches k (m.rep j) r) := by
  have hsplit : (∃ i, m.Vouches k (m.rep i) r) ↔
      (∃ i, i ≠ j ∧ m.Vouches k (m.rep i) r) ∨ m.Vouches k (m.rep j) r := by
    -- the old structure of `j` put into its own slot changes nothing
    have hself := vouches_setRep (m := m) (r := r) hne (m.rep j)
    rwa [setRep, Function.update_eq_self] at hself
  rw [vouches_setRep hne rs, hsplit]
  -- if another slot vouches, the one of `j` does not matter
  by_cases hother : ∃ i, i ≠ j ∧ m.Vouches k (m.rep i) r
  · simp only [hother, true_or]
  · simp only [hother, false_or]

/-- A structure in the slot of `j` leaves `k` alone iff it is harmless. -/
theorem slotKept_setRep_iff (hne : k ≠ j) (rs : ReplicaStructure) :
    m.SlotKept (m.setRep j rs) k ↔ m.Harmless j rs k := by
  -- no lookup raises iff the other ids and the new one are indices
  have hindices : ∀ r, ((m.setRep j rs).committedSet r).Completes ↔
      (∀ i, i ≠ j → -(n : Int) ≤ (m.rep i).id ∧ (m.rep i).id < n) ∧
        -(n : Int) ≤ rs.id ∧ rs.id < n := by
    intro r
    rw [committedSet_completes]
    constructor
    · intro hall
      refine ⟨fun i hi => ?_, ?_⟩
      · have hi' := hall i
        rwa [setRep_rep_of_ne hi] at hi'
      · have hj := hall j
        rwa [setRep_rep_self] at hj
    · rintro ⟨hothers, hindex⟩ i
      by_cases hi : i = j
      · rw [hi, setRep_rep_self]
        exact hindex
      · rw [setRep_rep_of_ne hi]
        exact hothers i hi
  constructor
  · intro hkept
    -- any request will do to see that no index raises
    obtain ⟨set, set', hset, hset', -⟩ := hkept.committed ⟨⟨0, none, .noOp⟩, 0, 0⟩
    refine ⟨committedSet_completes.mp ⟨set, hset⟩, ((hindices _).mp ⟨set', hset'⟩).2,
      dictGet_replicaStates_iff.mp hkept.state, fun r => ?_⟩
    obtain ⟨set, set', hset, hset', hsame⟩ := hkept.committed r
    rw [val_mem_committedSet hset, val_mem_committedSet hset'] at hsame
    exact (vouches_setRep_iff hne).mp hsame
  · intro hharmless
    refine ⟨dictGet_replicaStates_iff.mpr hharmless.state, fun r => ?_⟩
    obtain ⟨set, hset⟩ := (committedSet_completes (r := r)).mpr hharmless.indices
    obtain ⟨set', hset'⟩ := (hindices r).mpr ⟨fun i _ => hharmless.indices i, hharmless.index⟩
    refine ⟨set, set', hset, hset', ?_⟩
    rw [val_mem_committedSet hset, val_mem_committedSet hset']
    exact (vouches_setRep_iff hne).mpr (hharmless.log r)

/-! ## Intact tables -/

/-- Afterwards `k` and possibly `j` carry the id of `k`. -/
theorem Intact.only_setRep (h : m.Intact k) (hne : k ≠ j) (rs : ReplicaStructure) (i : Fin n) :
    ((m.setRep j rs).rep i).id = k.val ↔ i = k ∨ (i = j ∧ rs.id = k.val) := by
  by_cases hi : i = j
  · subst hi
    rw [setRep_rep_self]
    exact ⟨fun heq => Or.inr ⟨rfl, heq⟩, fun hor => hor.elim (absurd · (Ne.symm hne)) And.right⟩
  · rw [setRep_rep_of_ne hi, h.only i]
    exact ⟨Or.inl, fun hor => hor.resolve_right fun hand => hi hand.1⟩

/-- The last slot with the id of `k` is that of `j` if it comes last, and has that id. -/
theorem Intact.state_iff (h : m.Intact k) (hne : k ≠ j) (rs : ReplicaStructure) :
    (∃ l, (((m.setRep j rs).rep l).id = k.val ∧
        ∀ i, l < i → ((m.setRep j rs).rep i).id ≠ k.val) ∧
      ((m.setRep j rs).rep l).repState = (m.rep k).repState ∧
      ((m.setRep j rs).rep l).rLog = (m.rep k).rLog) ↔
      (rs.id = k.val → k < j → rs.repState = (m.rep k).repState ∧ rs.rLog = (m.rep k).rLog) := by
  simp only [ne_eq, h.only_setRep hne]
  constructor
  -- if `j` comes last, its state and log are found
  · rintro ⟨l, ⟨rfl | ⟨rfl, -⟩, hlast⟩, hsame⟩ hid hlt
    · exact absurd (Or.inr ⟨rfl, hid⟩) (hlast j hlt)
    · rwa [setRep_rep_self] at hsame
  · intro hstate
    by_cases hspeaks : rs.id = k.val ∧ k < j
    · refine ⟨j, ⟨Or.inr ⟨rfl, hspeaks.1⟩, ?_⟩, ?_⟩
      · rintro i hi (rfl | ⟨rfl, -⟩)
        · exact lt_asymm hi hspeaks.2
        · exact lt_irrefl _ hi
      · rw [setRep_rep_self]
        exact hstate hspeaks.1 hspeaks.2
    -- otherwise the last slot is the own one of `k`
    · refine ⟨k, ⟨Or.inl rfl, ?_⟩, ?_⟩
      · rintro i hi (rfl | ⟨rfl, hid⟩)
        · exact lt_irrefl _ hi
        · exact hspeaks ⟨hid, hi⟩
      · rw [setRep_rep_of_ne hne]
        exact ⟨rfl, rfl⟩

/-- In an intact table only the own slot of `k` vouches. -/
theorem Intact.vouches_iff (h : m.Intact k) {i : Fin n} {r : Request} :
    m.Vouches k (m.rep i) r ↔ i = k ∧ r ∈ listed {.commit} (m.rep k) := by
  rw [Vouches, h.only i]
  apply and_congr_right
  rintro rfl
  rw [listed, List.mem_append]
  exact Iff.rfl

/-- In an intact table harmless structures are the unobtrusive ones. -/
theorem Intact.harmless_iff (h : m.Intact k) (hne : k ≠ j) (rs : ReplicaStructure) :
    m.Harmless j rs k ↔ m.Unobtrusive j rs k := by
  constructor
  · intro hharmless
    refine ⟨hharmless.index, (h.state_iff hne rs).mp hharmless.state, fun hid r hr => ?_⟩
    cases hharmless.log r with
    | inl hother =>
      obtain ⟨i, -, hi⟩ := hother
      exact (h.vouches_iff.mp hi).2
    | inr hsame => exact (h.vouches_iff.mp (hsame.mp ⟨hid, Or.inr hr⟩)).2
  · intro hquiet
    refine ⟨h.indices, hquiet.index, (h.state_iff hne rs).mpr hquiet.state, fun r => ?_⟩
    -- the own slot of `k` vouches for what it lists
    by_cases hr : r ∈ listed {.commit} (m.rep k)
    · exact Or.inl ⟨k, hne, h.vouches_iff.mpr ⟨rfl, hr⟩⟩
    · -- nobody vouches for the request
      refine Or.inr (iff_of_false ?_ fun hj => hr (h.vouches_iff.mp hj).2)
      rintro ⟨hid, hcommitted | hlogged⟩
      · exact hr (List.mem_append.mpr (Or.inl hcommitted))
      · exact hr (hquiet.log hid r hlogged)

/-- A slot that keeps its id and its log is unobtrusive. -/
theorem Intact.unobtrusive_of_id (h : m.Intact k) (hne : k ≠ j) (rs : ReplicaStructure)
    (hid : rs.id = (m.rep j).id) : m.Unobtrusive j rs k := by
  have hother : rs.id ≠ k.val := by
    rw [hid]
    exact fun heq => hne ((h.only j).mp heq).symm
  exact ⟨hid ▸ h.indices j, fun heq => absurd heq hother, fun heq => absurd heq hother⟩

/-- A message of processor `j` leaves processor `k` alone iff what it leaves in the
    slot of `j` is harmless; in a table that is intact for `k`, iff the message is not
    stored as a whole, or is unobtrusive. -/
theorem slotKept_iff (hne : k ≠ j) (resolver : Resolver n) (rs : ReplicaStructure) :
    (m.SlotKept (m.receiveRepMsg resolver j rs) k ↔
      m.Harmless j (m.slotAfter resolver j rs) k) ∧
    (m.Intact k → (m.SlotKept (m.receiveRepMsg resolver j rs) k ↔
      (m.stores resolver = true → m.Unobtrusive j rs k))) := by
  rw [receiveRepMsg_eq_setRep, slotKept_setRep_iff hne]
  refine ⟨Iff.rfl, fun h => ?_⟩
  rw [h.harmless_iff hne]
  unfold slotAfter stores
  split
  · rename_i hservice
    split
    · rename_i hview
      simp [hservice, hview]
    · rename_i hview
      -- only the state is stored, and the id stays
      have hquiet := h.unobtrusive_of_id hne { m.rep j with repState := rs.repState } rfl
      simp [hservice, hview, hquiet]
  · rename_i hservice
    simp [hservice, h.unobtrusive_of_id hne (m.rep j) rfl]

theorem intact_of_ids (h : ∀ i, (m.rep i).id = i.val) (k : Fin n) : m.Intact k := by
  refine ⟨fun i => ?_, fun i => ?_⟩
  · rw [h i]
    exact ⟨fun heq => Fin.ext (by omega), fun heq => by rw [heq]⟩
  · rw [h i]
    omega

/-! ## Six processors -/

/-- A request nobody has heard of. -/
def unheardOf : Request := ⟨⟨0, some 666, .append 666⟩, 0, 0⟩

/-- A structure under some id that has executed it. -/
def speakingAs (id : Int) : ReplicaStructure :=
  { ReplicaStructure.init id 1 with
    repState := [666]
    rLog := [⟨unheardOf, some {0, 1, 2, 3}⟩] }

theorem intact_init (id k : Fin 6) : (init id 1 1 true).Intact k :=
  intact_of_ids (fun _ => rfl) k

theorem slotKept_iff_six :
    (init 0 1 1 true : ReplicationModule 6).SlotKept
      ((init 0 1 1 true).receiveRepMsg ⟨true, true, fun _ => 0⟩ 5 (speakingAs 5)) 1 :=
  ((slotKept_iff (by decide) _ _).2 (intact_init 0 1)).mpr
    fun _ => ⟨by decide, by decide, fun hid => absurd hid (by decide)⟩

/-- Processor 5 sends a structure with id 1: now processor 1 counts as being in its
    state, and as having executed its request. -/
theorem slot_forged :
    let before : ReplicationModule 6 := init 0 1 1 true
    let after := before.receiveRepMsg ⟨true, true, fun _ => 0⟩ 5 (speakingAs 1)
    before.Intact 1 ∧
      dictGet before.replicaStates 1 = .ok ([], []) ∧
      dictGet after.replicaStates 1 = .ok ([666], (speakingAs 1).rLog) ∧
      before.committedSet unheardOf = .ok ∅ ∧ after.committedSet unheardOf = .ok {1} ∧
      ¬ before.SlotKept after 1 := by
  intro before after
  have hafter : dictGet after.replicaStates 1 = .ok ([666], (speakingAs 1).rLog) := by
    decide
  refine ⟨intact_init 0 1, by decide, hafter, by decide, by decide, ?_⟩
  intro hkept
  have hstate := hkept.state.symm.trans hafter
  exact absurd hstate (by decide)

end BFTList.ReplicationModule
