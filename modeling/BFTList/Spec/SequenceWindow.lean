import BFTList.Spec.NewPrimary

/-!
# The window of sequence numbers

A processor takes sequence numbers after the last executed one, up to `SIGMA` for each
client, and its queue has room for as many entries. So a queue within the window evicts
only entries that are executed. A view change keeps no such bound: the entries that are
renewed get numbers on top of the highest prepared one, however far it reaches.

## Key results

- `live_stay`: an insertion within the window evicts no entry that is still to be executed
- `window_kept_iff`: when the queue of a new primary stays within the window
- `window_left`: a view change that gives out a number above the window
-/

namespace BFTList.ReplicationModule

variable {n : Nat} {m m' : ReplicationModule n} {resolver : Resolver n} {order : SetOrder Int}

/-! ## Eviction -/

theorem card_numbersAfter_le (a b : Int) : (numbersAfter a b).card ≤ (b - a).toNat := by
  have hcard := Finset.card_image_le (s := Finset.range (b - a).toNat)
    (f := fun i : Nat => a + 1 + (i : Int))
  rw [Finset.card_range] at hcard
  exact hcard

/-- Of entries with distinct numbers up to `b` at most `b - a` are above `a`. -/
theorem countP_above_le {reqQ : List ReqPair} (hnums : (seqNums reqQ).Nodup) {b : Int}
    (hle : ∀ q ∈ reqQ, q.request.seqNum ≤ b) (a : Int) :
    (reqQ.countP fun q => a < q.request.seqNum) ≤ (b - a).toNat := by
  have hnodup : (seqNums (reqQ.filter fun q => a < q.request.seqNum)).Nodup :=
    hnums.sublist (List.filter_sublist.map _)
  have hsub : (seqNums (reqQ.filter fun q => a < q.request.seqNum)).toFinset ⊆
      numbersAfter a b := by
    intro s hs
    obtain ⟨q, hq, rfl⟩ := List.mem_map.mp (List.mem_toFinset.mp hs)
    obtain ⟨hmem, habove⟩ := List.mem_filter.mp hq
    exact mem_numbersAfter.mpr ⟨of_decide_eq_true habove, hle q hmem⟩
  calc (reqQ.countP fun q => a < q.request.seqNum)
      = (seqNums (reqQ.filter fun q => a < q.request.seqNum)).length := by
        rw [seqNums, List.length_map, List.countP_eq_length_filter]
    _ = (seqNums (reqQ.filter fun q => a < q.request.seqNum)).toFinset.card :=
        (List.toFinset_card_of_nodup hnodup).symm
    _ ≤ (numbersAfter a b).card := Finset.card_le_card hsub
    _ ≤ (b - a).toNat := card_numbersAfter_le a b

/-- What an insertion of a new number keeps. -/
theorem mem_addToReqQ_iff {rs : ReplicaStructure} (hnums : (seqNums rs.reqQ).Nodup)
    {pair : ReqPair} (hnew : pair.request.seqNum ∉ seqNums rs.reqQ) {q : ReqPair} :
    q ∈ (rs.addToReqQ pair).reqQ ↔ q ∈ rs.reqQ ++ [pair] ∧
      ((rs.reqQ ++ [pair]).countP fun q' => q.request.seqNum < q'.request.seqNum) <
        SIGMA * rs.numberOfClients := by
  obtain ⟨hnot, hkeys⟩ := distinct_append hnums hnew
  simp only [ReplicaStructure.addToReqQ, if_neg hnot, ReplicaStructure.trimReqQ]
  apply List.mem_evict_iff _ hkeys (Nat.le_refl _)
  intro x hx y hy
  rw [decide_eq_true_iff]
  constructor
  · intro heq
    exact List.inj_on_of_nodup_map hkeys hx hy (congrArg Request.seqNum heq)
  · exact congrArg ReqPair.request

/-- In a queue with distinct numbers up to the end of the window, the insertion of another
    number of the window leaves at most as many entries as the window is wide, among them
    the new one and all that have not been executed. -/
theorem live_stay (hnums : (seqNums m.own.reqQ).Nodup)
    (hhigh : ∀ q ∈ m.own.reqQ,
      q.request.seqNum ≤ m.lastExec + SIGMA * m.own.numberOfClients)
    {pair : ReqPair} (hlow : m.lastExec < pair.request.seqNum)
    (hle : pair.request.seqNum ≤ m.lastExec + SIGMA * m.own.numberOfClients)
    (hnew : pair.request.seqNum ∉ seqNums m.own.reqQ) :
    (m.own.addToReqQ pair).reqQ.length ≤ SIGMA * m.own.numberOfClients ∧
      pair ∈ (m.own.addToReqQ pair).reqQ ∧
      ∀ q ∈ m.own.reqQ, m.lastExec < q.request.seqNum → q ∈ (m.own.addToReqQ pair).reqQ := by
  have hkeys := (distinct_append hnums hnew).2
  have hall : ∀ q ∈ m.own.reqQ ++ [pair],
      q.request.seqNum ≤ m.lastExec + SIGMA * m.own.numberOfClients := by
    intro q hq
    cases List.mem_append.mp hq with
    | inl hmem => exact hhigh q hmem
    | inr hmem => exact List.mem_singleton.mp hmem ▸ hle
  -- above a number of the window there are fewer numbers than the window is wide
  have hlive : ∀ q ∈ m.own.reqQ ++ [pair], m.lastExec < q.request.seqNum →
      q ∈ (m.own.addToReqQ pair).reqQ := by
    intro q hq hlast
    have hfew := countP_above_le hkeys hall q.request.seqNum
    have hin := hall q hq
    rw [mem_addToReqQ_iff hnums hnew]
    exact ⟨hq, by omega⟩
  refine ⟨?_, hlive pair (by simp) hlow, fun q hq => hlive q (List.mem_append_left _ hq)⟩
  exact List.length_evict_le (fun _ => by simp) (Nat.le_refl _)

/-- Two executed requests, one of them still queued, and four requests up to the end of
    the window. -/
def fullTable : ReplicationModule 6 :=
  viewChangeTable 2 [] <| [1, 3, 4, 5, 6].map fun s =>
    ⟨⟨⟨0, some s, .append s⟩, 1, s⟩, {.prePrep}⟩

/-- The executed request gives way to the new one. -/
theorem live_stay_full :
    let pair : ReqPair := ⟨⟨⟨0, some 2, .append 2⟩, 1, 2⟩, {.prePrep}⟩
    (fullTable.own.addToReqQ pair).reqQ.length ≤ 5 ∧ pair ∈ (fullTable.own.addToReqQ pair).reqQ ∧
      ∀ q ∈ fullTable.own.reqQ, 1 < q.request.seqNum → q ∈ (fullTable.own.addToReqQ pair).reqQ :=
  live_stay (m := fullTable) (by decide) (by decide) (by decide)
    (by decide) (by decide)

/-! ## Filled gaps -/

theorem not_mem_queued_of_seqNum {rs : ReplicaStructure} {pair : ReqPair}
    (h : pair.request.seqNum ∉ seqNums rs.reqQ) : pair.request ∉ rs.queued := by
  intro hmem
  obtain ⟨q, hq, heq⟩ := ReplicaStructure.mem_queued.mp hmem
  exact h (List.mem_map.mpr ⟨q, hq, congrArg Request.seqNum heq⟩)

/-- A structure whose queue is made of old entries and of dummies for different numbers
    up to `t`. -/
def Padded (m : ReplicationModule n) (t : Int) (rs : ReplicaStructure) : Prop :=
  ∃ (old : List ReqPair) (dummies : List Int),
    rs.reqQ = old ++ dummies.map m.produceDummyReq ∧ old.Sublist m.own.reqQ ∧ dummies.Nodup ∧
      ∀ s ∈ dummies, m.lastExec < s ∧ s ≤ t

theorem Padded.add {t : Int} {rs : ReplicaStructure} (h : m.Padded t rs) (hle : m.lastExec ≤ t) :
    m.Padded (t + 1) (rs.addToReqQ (m.produceDummyReq (t + 1))) := by
  obtain ⟨old, dummies, hsplit, hold, hnodup, hrange⟩ := h
  have hsub : (rs.addToReqQ (m.produceDummyReq (t + 1))).reqQ.Sublist
      (old ++ (dummies ++ [t + 1]).map m.produceDummyReq) := by
    rw [List.map_append, ← List.append_assoc, ← hsplit]
    apply (List.evict_sublist ..).trans
    split
    · exact List.sublist_append_left _ _
    · exact List.Sublist.refl _
  obtain ⟨old', rest, hsplit', hold', hrest⟩ := List.sublist_append_iff.mp hsub
  obtain ⟨dummies', hdummies', rfl⟩ := List.sublist_map_iff.mp hrest
  have hlast : t + 1 ∉ dummies := by
    intro hmem
    have hrange' := (hrange _ hmem).2
    omega
  have hnodup' : (dummies ++ [t + 1]).Nodup := List.concat_eq_append ▸ hnodup.concat hlast
  refine ⟨old', dummies', hsplit', hold'.trans hold, hnodup'.sublist hdummies', fun s hs => ?_⟩
  cases List.mem_append.mp (hdummies'.subset hs) with
  | inl hmem =>
    have hrange' := hrange s hmem
    omega
  | inr hmem =>
    rw [List.mem_singleton.mp hmem]
    omega

/-- Whatever the queue, filling the gaps leaves old entries and dummies for different
    numbers up to the one the new primary goes on from. -/
theorem gapsFilled_padded : m.Padded m.newSeq m.gapsFilled.own := by
  apply gapsFilled_rule (P := m.Padded)
  · intro t rs h _
    obtain ⟨old, dummies, hsplit, hold, hnodup, hrange⟩ := h
    refine ⟨old, dummies, hsplit, hold, hnodup, fun s hs => ?_⟩
    have hrange' := hrange s hs
    omega
  · exact fun t rs hle _ h _ => h.add hle
  · exact ⟨m.own.reqQ, [], (List.append_nil _).symm, List.Sublist.refl _, List.nodup_nil, by simp⟩

/-- The queue has room for the dummies, if any are written. -/
def HasRoom (m : ReplicationModule n) : Prop :=
  m.missing = ∅ ∨ m.own.reqQ.length + m.missing.card ≤ SIGMA * m.own.numberOfClients

instance (m : ReplicationModule n) : Decidable m.HasRoom := inferInstanceAs (Decidable (_ ∨ _))

/-- A structure whose queue has all old entries, and dummies for the missing numbers. -/
def Complete (m : ReplicationModule n) (t : Int) (rs : ReplicaStructure) : Prop :=
  rs.numberOfClients = m.own.numberOfClients ∧ ∃ dummies : List Int,
    rs.reqQ = m.own.reqQ ++ dummies.map m.produceDummyReq ∧ dummies.Nodup ∧
      dummies.toFinset = m.missingUpTo t

theorem Complete.add {t : Int} {rs : ReplicaStructure} (h : m.Complete t rs)
    (hroom : m.own.reqQ.length + m.missing.card ≤ SIGMA * m.own.numberOfClients)
    (hle : m.lastExec ≤ t) (hlt : t < m.newSeq) (hnot : t + 1 ∉ seqNums rs.reqQ) :
    m.Complete (t + 1) (rs.addToReqQ (m.produceDummyReq (t + 1))) := by
  obtain ⟨hclients, dummies, hsplit, hnodup, hdummies⟩ := h
  have hout : t + 1 ∉ seqNums m.own.reqQ := by
    intro hmem
    apply hnot
    rw [hsplit, seqNums, List.map_append]
    exact List.mem_append_left _ hmem
  have hlast : t + 1 ∉ dummies := by
    rw [← List.mem_toFinset, hdummies, mem_missingUpTo]
    omega
  have hnodup' : (dummies ++ [t + 1]).Nodup := List.concat_eq_append ▸ hnodup.concat hlast
  have hdummies' : (dummies ++ [t + 1]).toFinset = m.missingUpTo (t + 1) := by
    rw [missingUpTo_succ_of_not_mem hle hout, ← hdummies]
    ext s
    simp [or_comm]
  -- the dummies written so far are among those there is room for
  have hcard : dummies.length + 1 ≤ m.missing.card := by
    have hlength := List.toFinset_card_of_nodup hnodup'
    rw [List.length_append, List.length_singleton] at hlength
    rw [← hlength, hdummies']
    apply Finset.card_le_card
    intro s hs
    obtain ⟨⟨hlow, hhigh⟩, hout'⟩ := mem_missingUpTo.mp hs
    exact mem_missingUpTo.mpr ⟨⟨hlow, by omega⟩, hout'⟩
  refine ⟨hclients, dummies ++ [t + 1], ?_, hnodup', hdummies'⟩
  rw [ReplicaStructure.reqQ_addToReqQ_of_not_mem _ (not_mem_queued_of_seqNum hnot), hsplit,
    List.map_append, List.append_assoc]
  · rfl
  · rw [hsplit, hclients, List.length_append, List.length_map]
    omega

/-- With room no entry is evicted. -/
theorem gapsFilled_complete (h : m.HasRoom) : ∃ dummies : List Int,
    m.gapsFilled.own.reqQ = m.own.reqQ ++ dummies.map m.produceDummyReq ∧ dummies.Nodup ∧
      dummies.toFinset = m.missing := by
  cases h with
  | inl hnone =>
    refine ⟨[], ?_, List.nodup_nil, by rw [hnone, List.toFinset_nil]⟩
    rw [gapsFilled_of_missing hnone, List.map_nil, List.append_nil]
  | inr hroom =>
    have hcomplete : m.Complete m.newSeq m.gapsFilled.own := by
      apply gapsFilled_rule (P := m.Complete)
      · intro t rs h hmem
        obtain ⟨hclients, dummies, hsplit, hnodup, hdummies⟩ := h
        refine ⟨hclients, dummies, hsplit, hnodup, ?_⟩
        rw [hdummies, missingUpTo_succ_of_mem]
        rw [hsplit, seqNums, List.map_append, List.map_map, List.mem_append] at hmem
        cases hmem with
        | inl hown => exact hown
        | inr hdummy =>
          obtain ⟨s, hs, heq⟩ := List.mem_map.mp hdummy
          have heq' : s = t + 1 := heq
          rw [← List.mem_toFinset, hdummies, mem_missingUpTo] at hs
          omega
      · exact fun t rs hle hlt h hnot => h.add hroom hle hlt hnot
      · refine ⟨rfl, [], (List.append_nil _).symm, List.nodup_nil, ?_⟩
        rw [missingUpTo_lastExec, List.toFinset_nil]
    exact hcomplete.2

/-! ## Renewed requests -/

theorem countP_eq_card_filter {α : Type*} [DecidableEq α] {l : List α} (h : l.Nodup)
    (p : α → Bool) : l.countP p = (l.toFinset.filter fun x => p x = true).card := by
  rw [List.countP_eq_length_filter, ← List.toFinset_card_of_nodup (h.filter _),
    List.toFinset_filter]

/-- Entries that are renewed: old ones and dummies, unless they are evicted. -/
def renewals (m : ReplicationModule n) (slots : List (Fin n)) : Nat :=
  (m.own.reqQ.countP fun q => q.request.seqNum ∈ m.remaining ∧ m.Renewed slots q) +
    (m.missing.filter fun s => s ∈ m.remaining ∧ m.Renewed slots (m.produceDummyReq s)).card

/-- With room every number remains. -/
theorem mem_remaining_of_hasRoom (h : m.HasRoom) {s : Int}
    (hs : s ∈ seqNums m.own.reqQ ∨ s ∈ m.missing) : s ∈ m.remaining := by
  have hmem : s ∈ (seqNums m.own.reqQ).toFinset ∪ m.missing := by
    rw [Finset.mem_union, List.mem_toFinset]
    exact hs
  rw [remaining, remainingUpTo, ← missing]
  split
  · rename_i hnone
    rwa [hnone, Finset.union_empty] at hmem
  · rename_i hsome
    have hroom := h.resolve_left hsome
    have hcard : ((seqNums m.own.reqQ).toFinset ∪ m.missing).card ≤
        m.own.reqQ.length + m.missing.card := by
      have hown := (seqNums m.own.reqQ).toFinset_card_le
      have hunion := Finset.card_union_le (seqNums m.own.reqQ).toFinset m.missing
      rw [seqNums, List.length_map] at hown
      simp only [seqNums] at hunion ⊢
      omega
    have hrank : Eviction.rank ((seqNums m.own.reqQ).toFinset ∪ m.missing) s <
        ((seqNums m.own.reqQ).toFinset ∪ m.missing).card := by
      apply Finset.card_lt_card
      rw [Finset.filter_ssubset]
      exact ⟨s, hmem, Int.lt_irrefl s⟩
    exact Eviction.mem_keep.mpr ⟨hmem, by omega⟩

/-- What the queue has after the gaps are filled, when numbers are distinct or there is room. -/
theorem mem_gapsFilled (h : (seqNums m.own.reqQ).Nodup ∨ m.HasRoom) {q : ReqPair} :
    q ∈ m.gapsFilled.own.reqQ ↔
      (q ∈ m.own.reqQ ∨ (q.request.seqNum ∈ m.missing ∧
        q = m.produceDummyReq q.request.seqNum)) ∧ q.request.seqNum ∈ m.remaining := by
  cases h with
  | inl hnums => exact mem_gapsFilled_iff hnums
  | inr hroom =>
    obtain ⟨dummies, hsplit, -, hdummies⟩ := gapsFilled_complete hroom
    have hdummy : q ∈ dummies.map m.produceDummyReq ↔
        q.request.seqNum ∈ m.missing ∧ q = m.produceDummyReq q.request.seqNum := by
      rw [← hdummies, List.mem_toFinset, List.mem_map]
      constructor
      · rintro ⟨s, hs, rfl⟩
        exact ⟨hs, rfl⟩
      · rintro ⟨hs, heq⟩
        exact ⟨_, hs, heq.symm⟩
    rw [hsplit, List.mem_append, hdummy, iff_self_and]
    intro hq
    exact mem_remaining_of_hasRoom hroom
      (hq.imp (fun hown => List.mem_map_of_mem hown) And.left)

/-- The number of renewed entries, when numbers are distinct or there is room. -/
theorem countP_renewed (h : (seqNums m.own.reqQ).Nodup ∨ m.HasRoom) (slots : List (Fin n)) :
    (m.gapsFilled.own.reqQ.countP fun q => m.Renewed slots q) = m.renewals slots := by
  cases h with
  | inl hnums =>
    have hown : m.own.reqQ.Nodup := hnums.of_map
    have hperm : m.gapsFilled.own.reqQ.Perm
        ((m.own.reqQ.filter fun q => q.request.seqNum ∈ m.remaining) ++
          (m.missing.filter (· ∈ m.remaining)).toList.map m.produceDummyReq) := by
      apply (List.perm_ext_iff_of_nodup (gapsFilled_filledUpTo hnums).distinct.of_map ?_).mpr
      · intro q
        simp only [mem_gapsFilled_iff hnums, List.mem_append, List.mem_filter, decide_eq_true_eq,
          List.mem_map, Finset.mem_toList, Finset.mem_filter, or_and_right]
        apply or_congr_right
        constructor
        · rintro ⟨⟨hmissing, heq⟩, hstays⟩
          exact ⟨_, ⟨hmissing, hstays⟩, heq.symm⟩
        · rintro ⟨s, ⟨hmissing, hstays⟩, rfl⟩
          exact ⟨⟨hmissing, rfl⟩, hstays⟩
      · refine List.nodup_append.mpr ⟨hown.filter _, (Finset.nodup_toList _).map ?_, ?_⟩
        · exact fun s s' heq => congrArg (fun q : ReqPair => q.request.seqNum) heq
        · rintro q hq _ hq' rfl
          obtain ⟨s, hs, rfl⟩ := List.mem_map.mp hq'
          have hmissing := (Finset.mem_filter.mp (Finset.mem_toList.mp hs)).1
          exact (mem_missingUpTo.mp hmissing).2 (List.mem_map_of_mem (List.mem_filter.mp hq).1)
    rw [hperm.countP_eq, List.countP_append, List.countP_filter, List.countP_map,
      countP_eq_card_filter (Finset.nodup_toList _), Finset.toList_toFinset, Finset.filter_filter,
      renewals]
    simp only [Function.comp_apply, decide_eq_true_eq, Bool.decide_and, Bool.and_comm]
  | inr hroom =>
    obtain ⟨dummies, hsplit, hnodup, hdummies⟩ := gapsFilled_complete hroom
    have hstays := fun s => mem_remaining_of_hasRoom hroom (s := s)
    rw [hsplit, List.countP_append, List.countP_map, countP_eq_card_filter hnodup, hdummies,
      renewals]
    congr 1
    · apply List.countP_congr
      intro q hq
      simp [hstays _ (Or.inl (List.mem_map_of_mem hq))]
    · congr 1
      apply Finset.filter_congr
      intro s hs
      simp [hstays s (Or.inr hs)]

/-- Entries that would be renewed if none were evicted, with a dummy for every number. -/
def renewable (m : ReplicationModule n) (slots : List (Fin n)) : Nat :=
  (m.own.reqQ.countP fun q => m.Renewed slots q) +
    ((numbersAfter m.lastExec m.newSeq).filter fun s => m.Renewed slots (m.produceDummyReq s)).card

theorem countP_renewed_le (slots : List (Fin n)) :
    (m.gapsFilled.own.reqQ.countP fun q => m.Renewed slots q) ≤ m.renewable slots := by
  obtain ⟨old, dummies, hsplit, hold, hnodup, hrange⟩ := gapsFilled_padded (m := m)
  rw [hsplit, List.countP_append, List.countP_map, countP_eq_card_filter hnodup]
  apply Nat.add_le_add hold.countP_le
  apply Finset.card_le_card
  intro s hs
  obtain ⟨hmem, hrenewed⟩ := Finset.mem_filter.mp hs
  refine Finset.mem_filter.mpr ⟨?_, of_decide_eq_true hrenewed⟩
  exact mem_numbersAfter.mpr (hrange s (List.mem_toFinset.mp hmem))

/-- The end of the window. -/
def windowEnd (m : ReplicationModule n) : Int := m.lastExec + SIGMA * m.numberOfClients

/-- If a view change is reported by enough structures and ends with a state, no dummy that
    stays has a number above the window, and neither has a renewed entry. -/
def NumbersFit (m : ReplicationModule n) (resolver : Resolver n) (order : SetOrder Int)
    (slots : List (Fin n)) : Prop :=
  (n : Int) - m.numberOfByzantine ≤ slots.length →
    (m.takenState resolver order).Returns fun x => x.repState.isSome = true →
      (∀ s ∈ m.missing, s ∈ m.remaining → ¬ m.Renewed slots (m.produceDummyReq s) →
        s ≤ m.windowEnd) ∧
      (0 < m.renewals slots → m.newSeq + m.renewals slots ≤ m.windowEnd)

/-- A renewed queue is within the window iff the entries that are kept are, and the last
    number that is given out. -/
theorem inWindow_renumber_iff {need : List ReqPair} {slots : List (Fin n)}
    (hneed : ∀ q, q ∈ need ↔ q ∈ m.gapsFilled.own.reqQ ∧ m.Renewed slots q) :
    (∀ q ∈ (renumber m.id.val need m.newSeq m.gapsFilled.own.reqQ).2,
        m.inWindow q.request.seqNum = true) ↔
      (∀ q ∈ m.gapsFilled.own.reqQ, ¬ m.Renewed slots q → m.inWindow q.request.seqNum = true) ∧
        (0 < (m.gapsFilled.own.reqQ.countP fun q => m.Renewed slots q) →
          m.newSeq + (m.gapsFilled.own.reqQ.countP fun q => m.Renewed slots q) ≤ m.windowEnd) := by
  have hcount : m.gapsFilled.own.reqQ.countP (· ∈ need) =
      m.gapsFilled.own.reqQ.countP fun q => m.Renewed slots q := by
    apply List.countP_congr
    intro q hq
    simp [hneed, hq]
  have hstart : m.lastExec ≤ m.newSeq := le_max_left _ _
  have hnums : (∀ q ∈ (renumber m.id.val need m.newSeq m.gapsFilled.own.reqQ).2,
      m.inWindow q.request.seqNum = true) ↔
      ∀ s ∈ seqNums (renumber m.id.val need m.newSeq m.gapsFilled.own.reqQ).2,
        m.inWindow s = true := by
    simp [seqNums]
  rw [hnums]
  simp only [mem_seqNums_renumber, hcount]
  constructor
  · intro hall
    constructor
    · intro q hq hnot
      exact hall _ (Or.inl ⟨q, hq, fun hmem => hnot ((hneed q).mp hmem).2, rfl⟩)
    · intro hpos
      have hlast := hall _ (Or.inr ⟨by omega, Int.le_refl _⟩)
      exact (of_decide_eq_true hlast).2
  · intro h s hs
    cases hs with
    | inl hkept =>
      obtain ⟨q, hq, hnot, rfl⟩ := hkept
      exact h.1 q hq fun hrenewed => hnot ((hneed q).mpr ⟨hq, hrenewed⟩)
    | inr hgiven =>
      have hend := h.2 (by omega)
      rw [windowEnd] at hend
      apply decide_eq_true
      omega

/-- A view change of a queue within the window, when numbers are distinct or there is room for
    the dummies, leaves it within the window iff the numbers that are given out fit; and any
    queue stays within it if they fit even when every entry that might be renewed is. -/
theorem window_kept_iff (hwindow : ∀ q ∈ m.own.reqQ, m.inWindow q.request.seqNum = true)
    (h : m.actAsPrimWhenViewChanged resolver order = .ok m') :
    ∃ slots, m.reportingSlots resolver = .ok slots ∧
      ((seqNums m.own.reqQ).Nodup ∨ m.HasRoom →
        ((∀ q ∈ m'.own.reqQ, m.inWindow q.request.seqNum = true) ↔
          m.NumbersFit resolver order slots)) ∧
      (((n : Int) - m.numberOfByzantine ≤ slots.length →
        (m.takenState resolver order).Returns fun x => x.repState.isSome = true →
          m.newSeq + m.renewable slots ≤ m.windowEnd) →
        ∀ q ∈ m'.own.reqQ, m.inWindow q.request.seqNum = true) := by
  obtain ⟨slots, hslots, hcase⟩ := actAsPrim_result h
  refine ⟨slots, hslots, ?_⟩
  rw [NumbersFit]
  rcases hcase with ⟨hfew, rfl⟩ |
    ⟨hmany, x, hx, ⟨hnone, rs, rfl⟩ | ⟨hsome, need, hneed, -, -, hqueue⟩⟩
  · refine ⟨fun _ => iff_of_true hwindow fun hmany => ?_, fun _ => hwindow⟩
    omega
  · have hempty : ∀ q ∈ (m.setOwn rs.setToTee).own.reqQ, m.inWindow q.request.seqNum = true := by
      simp [ReplicaStructure.setToTee]
    refine ⟨fun _ => iff_of_true hempty fun _ => ?_, fun _ => hempty⟩
    rw [Py.returns_iff hx]
    simp [hnone]
  · rw [hqueue, inWindow_renumber_iff hneed]
    constructor
    · intro hnums
      rw [countP_renewed hnums, forall_prop_of_true hmany, Py.returns_iff hx,
        forall_prop_of_true hsome]
      apply and_congr_left
      intro _
      constructor
      · intro hkept s hmissing hstays hnot
        have hin := hkept (m.produceDummyReq s)
          ((mem_gapsFilled hnums).mpr ⟨Or.inr ⟨hmissing, rfl⟩, hstays⟩) hnot
        exact (of_decide_eq_true hin).2
      · intro hfit q hq hnot
        obtain ⟨hown | ⟨hmissing, heq⟩, hstays⟩ := (mem_gapsFilled hnums).mp hq
        · exact hwindow q hown
        · rw [heq] at hnot
          have hend := hfit _ hmissing hstays hnot
          exact decide_eq_true ⟨(mem_missingUpTo.mp hmissing).1.1, hend⟩
    · intro hfits
      have hfit := hfits hmany x hx hsome
      have hle := countP_renewed_le (m := m) slots
      constructor
      · intro q hq _
        obtain ⟨old, dummies, hsplit, hold, -, hrange⟩ := gapsFilled_padded (m := m)
        rw [hsplit, List.mem_append] at hq
        cases hq with
        | inl hmem => exact hwindow q (hold.subset hmem)
        | inr hmem =>
          obtain ⟨s, hs, rfl⟩ := List.mem_map.mp hmem
          have hs' := hrange s hs
          rw [windowEnd] at hfit
          apply decide_eq_true
          show m.lastExec < s ∧ s ≤ m.lastExec + SIGMA * m.numberOfClients
          omega
      · intro _
        omega

/-- The accepted request of `renewTable` gets the next number. -/
theorem window_kept_renewed :
    ∃ m', renewTable.actAsPrimWhenViewChanged viewZero .insertion = .ok m' ∧
      ∀ q ∈ m'.own.reqQ, renewTable.inWindow q.request.seqNum = true := by
  obtain ⟨m', hok⟩ := completes_renewTable
  obtain ⟨slots, hslots, hiff, -⟩ := window_kept_iff (by decide) hok
  cases hslots.symm.trans reportingSlots_renewTable
  refine ⟨m', hok, (hiff (Or.inl (by decide))).mpr ?_⟩
  unfold NumbersFit
  decide

/-- Two executed requests, request 2 accepted, and request 6 at the end of the window
    prepared. -/
def edgeTable : ReplicationModule 6 :=
  viewChangeTable 2 [] [⟨⟨⟨0, some 2, .append 2⟩, 1, 2⟩, {.prePrep}⟩,
    ⟨⟨⟨0, some 6, .append 6⟩, 1, 6⟩, {.prePrep, .prep}⟩]

/-- The accepted request gets number 7, which no backup takes. -/
theorem window_left :
    (∀ q ∈ edgeTable.own.reqQ, edgeTable.inWindow q.request.seqNum = true) ∧
      ∃ m', edgeTable.actAsPrimWhenViewChanged viewZero .insertion = .ok m' ∧
        m'.lastExec = edgeTable.lastExec ∧ seqNums m'.own.reqQ = [7, 6, 3, 4, 5] ∧
        m'.inWindow 7 = false := by
  refine ⟨by decide, ?_⟩
  obtain ⟨m', hok, hp⟩ := Py.exists_of_any
    (x := edgeTable.actAsPrimWhenViewChanged viewZero .insertion)
    (p := fun m' => m'.lastExec = edgeTable.lastExec ∧ seqNums m'.own.reqQ = [7, 6, 3, 4, 5] ∧
      m'.inWindow 7 = false) (by decide +kernel)
  exact ⟨m', hok, of_decide_eq_true hp⟩

end BFTList.ReplicationModule
