import BFTList.ForStd.Eviction
import BFTList.Spec.PendingRequests

/-!
# The queue of a new primary

What `act_as_prim_when_view_changed` makes of a queue with distinct sequence
numbers. It goes on from the highest number that is prepared, or from the last
executed one, and writes dummies for the numbers up to there that the queue does
not have. The queue is bounded, so that a dummy costs the lowest entry. Then the
entries that all reporting processors have accepted get the next numbers.

## Key results

- `mem_gapsFilled_iff`, `gapsFilled_sublist`: the queue after the gaps are filled
- `renumber_seqNums`: sequence numbers after requests are renewed
- `actAsPrim_result`: the new primary's structure
-/

namespace BFTList.ReplicationModule

variable {n : Nat} {m m' : ReplicationModule n}

/-! ## Filling gaps -/

/-- Sequence numbers of a queue. -/
def seqNums (reqQ : List ReqPair) : List Int := reqQ.map (·.request.seqNum)

/-- The numbers after `a` up to `b`. -/
def numbersAfter (a b : Int) : Finset Int :=
  (Finset.range (b - a).toNat).image fun i : Nat => a + 1 + i

theorem mem_numbersAfter {a b s : Int} : s ∈ numbersAfter a b ↔ a < s ∧ s ≤ b := by
  simp only [numbersAfter, Finset.mem_image, Finset.mem_range]
  constructor
  · rintro ⟨i, hi, rfl⟩
    omega
  · rintro ⟨hlow, hhigh⟩
    exact ⟨(s - a - 1).toNat, by omega, by omega⟩

/-- Numbers after the last executed one that no entry of the queue has. -/
def missingUpTo (m : ReplicationModule n) (t : Int) : Finset Int :=
  numbersAfter m.lastExec t \ (seqNums m.own.reqQ).toFinset

/-- The numbers the queue has when dummies are written for the missing ones; without any,
    the queue is left alone, even over its bound. -/
def remainingUpTo (m : ReplicationModule n) (t : Int) : Finset Int :=
  if m.missingUpTo t = ∅ then (seqNums m.own.reqQ).toFinset
  else Eviction.keep (SIGMA * m.own.numberOfClients)
    ((seqNums m.own.reqQ).toFinset ∪ m.missingUpTo t)

/-- The numbers for which the new primary writes dummies. -/
def missing (m : ReplicationModule n) : Finset Int := m.missingUpTo m.newSeq

/-- The numbers its queue has then. -/
def remaining (m : ReplicationModule n) : Finset Int := m.remainingUpTo m.newSeq

theorem mem_missingUpTo {t s : Int} :
    s ∈ m.missingUpTo t ↔ (m.lastExec < s ∧ s ≤ t) ∧ s ∉ seqNums m.own.reqQ := by
  simp only [missingUpTo, Finset.mem_sdiff, mem_numbersAfter, List.mem_toFinset]

theorem mem_of_mem_remainingUpTo {t s : Int} (h : s ∈ m.remainingUpTo t) :
    s ∈ seqNums m.own.reqQ ∨ s ∈ m.missingUpTo t := by
  rw [remainingUpTo] at h
  split at h
  · exact Or.inl (List.mem_toFinset.mp h)
  · have hmem := (Eviction.mem_keep.mp h).1
    rwa [Finset.mem_union, List.mem_toFinset] at hmem

/-- A number that the queue has is not missing. -/
theorem missingUpTo_succ_of_mem {t : Int} (h : t + 1 ∈ seqNums m.own.reqQ) :
    m.missingUpTo (t + 1) = m.missingUpTo t := by
  ext s
  rw [mem_missingUpTo, mem_missingUpTo]
  constructor
  · rintro ⟨⟨hlow, hhigh⟩, hnot⟩
    have hne : s ≠ t + 1 := fun heq => hnot (heq ▸ h)
    exact ⟨⟨hlow, by omega⟩, hnot⟩
  · rintro ⟨⟨hlow, hhigh⟩, hnot⟩
    exact ⟨⟨hlow, by omega⟩, hnot⟩

theorem missingUpTo_succ_of_not_mem {t : Int} (hle : m.lastExec ≤ t)
    (h : t + 1 ∉ seqNums m.own.reqQ) :
    m.missingUpTo (t + 1) = insert (t + 1) (m.missingUpTo t) := by
  ext s
  rw [Finset.mem_insert, mem_missingUpTo, mem_missingUpTo]
  constructor
  · rintro ⟨⟨hlow, hhigh⟩, hnot⟩
    by_cases heq : s = t + 1
    · exact Or.inl heq
    · exact Or.inr ⟨⟨hlow, by omega⟩, hnot⟩
  · rintro (rfl | ⟨⟨hlow, hhigh⟩, hnot⟩)
    · exact ⟨⟨by omega, Int.le_refl _⟩, h⟩
    · exact ⟨⟨hlow, by omega⟩, hnot⟩

/-- The own structure when the numbers up to `t` have been gone through: old entries, and
    after them dummies. -/
structure FilledUpTo (m : ReplicationModule n) (t : Int) (rs : ReplicaStructure) : Prop where
  clients : rs.numberOfClients = m.own.numberOfClients
  distinct : (seqNums rs.reqQ).Nodup
  numbers : (seqNums rs.reqQ).toFinset = m.remainingUpTo t
  parts : ∃ old dummies : List ReqPair, rs.reqQ = old ++ dummies ∧ old.Sublist m.own.reqQ ∧
    ∀ q ∈ dummies, q.request.seqNum ∈ m.missingUpTo t ∧ q = m.produceDummyReq q.request.seqNum

theorem FilledUpTo.entry {t : Int} {rs : ReplicaStructure} (h : m.FilledUpTo t rs) {q : ReqPair}
    (hq : q ∈ rs.reqQ) : q ∈ m.own.reqQ ∨
      (q.request.seqNum ∈ m.missingUpTo t ∧ q = m.produceDummyReq q.request.seqNum) := by
  obtain ⟨old, dummies, hsplit, hold, hdummies⟩ := h.parts
  rw [hsplit, List.mem_append] at hq
  exact hq.imp (fun hmem => hold.subset hmem) (hdummies q)

/-- A number that the queue still has is passed over. -/
theorem FilledUpTo.skip {t : Int} {rs : ReplicaStructure} (h : m.FilledUpTo t rs)
    (hmem : t + 1 ∈ seqNums rs.reqQ) : m.FilledUpTo (t + 1) rs := by
  have hown : t + 1 ∈ seqNums m.own.reqQ := by
    rw [← List.mem_toFinset, h.numbers] at hmem
    cases mem_of_mem_remainingUpTo hmem with
    | inl hown => exact hown
    | inr hmissing =>
      have hle := (mem_missingUpTo.mp hmissing).1.2
      omega
  have hsame := missingUpTo_succ_of_mem hown
  refine ⟨h.clients, h.distinct, ?_, ?_⟩
  · rw [h.numbers, remainingUpTo, remainingUpTo, hsame]
  · rw [hsame]
    exact h.parts

/-- A new number goes to the end of a queue with distinct numbers, before the trim. -/
theorem distinct_append {rs : ReplicaStructure} (hnums : (seqNums rs.reqQ).Nodup)
    {pair : ReqPair} (hnew : pair.request.seqNum ∉ seqNums rs.reqQ) :
    ¬ rs.reqAlreadyExist pair.request = true ∧ (seqNums (rs.reqQ ++ [pair])).Nodup := by
  constructor
  · rw [ReplicaStructure.reqAlreadyExist_iff, ReplicaStructure.mem_queued]
    rintro ⟨q, hq, heq⟩
    exact hnew (List.mem_map.mpr ⟨q, hq, congrArg Request.seqNum heq⟩)
  · rw [seqNums, List.map_append, List.map_singleton]
    refine List.nodup_append.mpr ⟨hnums, List.nodup_singleton _, fun a ha b hb => ?_⟩
    rw [List.mem_singleton.mp hb]
    exact fun heq => hnew (heq ▸ ha)

/-- The numbers of a queue with distinct ones after an insertion. -/
theorem seqNums_addToReqQ {rs : ReplicaStructure} (hnums : (seqNums rs.reqQ).Nodup)
    (pair : ReqPair) (hnew : pair.request.seqNum ∉ seqNums rs.reqQ) :
    (seqNums (rs.addToReqQ pair).reqQ).Nodup ∧
      (seqNums (rs.addToReqQ pair).reqQ).toFinset =
        Eviction.keep (SIGMA * rs.numberOfClients)
          (insert pair.request.seqNum (seqNums rs.reqQ).toFinset) := by
  obtain ⟨hnot, hkeys⟩ := distinct_append hnums hnew
  simp only [ReplicaStructure.addToReqQ, if_neg hnot, ReplicaStructure.trimReqQ]
  refine ⟨hkeys.sublist ((List.evict_sublist ..).map _), ?_⟩
  have hset : insert pair.request.seqNum (seqNums rs.reqQ).toFinset =
      (seqNums (rs.reqQ ++ [pair])).toFinset := by
    ext s
    simp [seqNums]
  rw [hset]
  apply List.keys_evict _ hkeys (Nat.le_refl _)
  intro q hq q' hq'
  rw [decide_eq_true_iff]
  refine ⟨fun heq => ?_, congrArg ReqPair.request⟩
  exact List.inj_on_of_nodup_map hkeys hq hq' (congrArg Request.seqNum heq)

/-- One more missing number, evicted as the queue evicts. -/
theorem keep_insert_remainingUpTo {t : Int} (hle : m.lastExec ≤ t)
    (hnot : t + 1 ∉ m.remainingUpTo t) :
    Eviction.keep (SIGMA * m.own.numberOfClients) (insert (t + 1) (m.remainingUpTo t)) =
      m.remainingUpTo (t + 1) := by
  by_cases hown : t + 1 ∈ seqNums m.own.reqQ
  · -- the entry has been evicted, and its dummy is evicted at once
    rw [remainingUpTo, remainingUpTo, missingUpTo_succ_of_mem hown]
    rw [remainingUpTo] at hnot
    split
    · rename_i hnone
      rw [if_pos hnone] at hnot
      exact absurd (List.mem_toFinset.mpr hown) hnot
    · rw [Eviction.keep_insert, Finset.insert_eq_of_mem]
      exact Finset.mem_union_left _ (List.mem_toFinset.mpr hown)
  · rw [remainingUpTo, remainingUpTo, missingUpTo_succ_of_not_mem hle hown,
      if_neg (Finset.insert_ne_empty _ _), Finset.union_insert]
    split
    · rename_i hnone
      rw [hnone, Finset.union_empty]
    · rw [Eviction.keep_insert]

/-- A dummy is written for a number that the queue does not have. -/
theorem FilledUpTo.add {t : Int} {rs : ReplicaStructure} (h : m.FilledUpTo t rs)
    (hle : m.lastExec ≤ t) (hnot : t + 1 ∉ seqNums rs.reqQ) :
    m.FilledUpTo (t + 1) (rs.addToReqQ (m.produceDummyReq (t + 1))) := by
  obtain ⟨hdistinct, hnumbers⟩ := seqNums_addToReqQ h.distinct (m.produceDummyReq (t + 1)) hnot
  have hnumbers' : (seqNums (rs.addToReqQ (m.produceDummyReq (t + 1))).reqQ).toFinset =
      m.remainingUpTo (t + 1) := by
    rw [← List.mem_toFinset, h.numbers] at hnot
    rw [hnumbers, h.clients, h.numbers]
    exact keep_insert_remainingUpTo hle hnot
  obtain ⟨old, dummies, hsplit, hold, hdummies⟩ := h.parts
  -- what stays of the queue and the new entry at its end
  have hsub : (rs.addToReqQ (m.produceDummyReq (t + 1))).reqQ.Sublist
      (old ++ (dummies ++ [m.produceDummyReq (t + 1)])) := by
    rw [← List.append_assoc, ← hsplit]
    apply (List.evict_sublist ..).trans
    split
    · exact List.sublist_append_left _ _
    · exact List.Sublist.refl _
  obtain ⟨old', dummies', hsplit', hold', hdummies'⟩ := List.sublist_append_iff.mp hsub
  refine ⟨h.clients, hdistinct, hnumbers', old', dummies', hsplit', hold'.trans hold,
    fun q hq => ?_⟩
  cases List.mem_append.mp (hdummies'.subset hq) with
  | inl hmem =>
    obtain ⟨hmissing, hd⟩ := hdummies q hmem
    obtain ⟨⟨hlow, hhigh⟩, hout⟩ := mem_missingUpTo.mp hmissing
    exact ⟨mem_missingUpTo.mpr ⟨⟨hlow, by omega⟩, hout⟩, hd⟩
  | inr hnew =>
    cases List.mem_singleton.mp hnew
    refine ⟨mem_missingUpTo.mpr ⟨⟨?_, Int.le_refl _⟩, fun hown => hnot ?_⟩, rfl⟩
    · show m.lastExec < t + 1
      omega
    · -- an evicted entry would still be there
      have hmem : t + 1 ∈ m.remainingUpTo (t + 1) := by
        rw [← hnumbers', List.mem_toFinset, hsplit', seqNums, List.map_append]
        exact List.mem_append_right _
          (List.mem_map_of_mem (f := fun q : ReqPair => q.request.seqNum) hq)
      rw [← List.mem_toFinset, h.numbers]
      rw [remainingUpTo, missingUpTo_succ_of_mem hown] at hmem
      exact hmem

/-- The loop over the numbers: what each number keeps, be it passed over or written. -/
theorem fillGaps_rule {P : Int → ReplicaStructure → Prop} {bound : Int}
    (hskip : ∀ t rs, P t rs → t + 1 ∈ seqNums rs.reqQ → P (t + 1) rs)
    (hadd : ∀ t rs, m.lastExec ≤ t → t < bound → P t rs → t + 1 ∉ seqNums rs.reqQ →
      P (t + 1) (rs.addToReqQ (m.produceDummyReq (t + 1))))
    (count : Nat) {t : Int} {rs : ReplicaStructure} (h : P t rs) (hle : m.lastExec ≤ t)
    (hbound : t + count ≤ bound) :
    ∃ rs', fillGaps count t (m.setOwn rs) = m.setOwn rs' ∧ P (t + count) rs' := by
  induction count generalizing t rs with
  | zero => exact ⟨rs, rfl, by simpa using h⟩
  | succ count ih =>
    have hhas : (m.setOwn rs).reqWithSeqNumInReqQ (t + 1) = true ↔ t + 1 ∈ seqNums rs.reqQ := by
      simp only [reqWithSeqNumInReqQ, own_setOwn, List.any_eq_true, decide_eq_true_eq, seqNums,
        List.mem_map]
    have hcast : t + ((count + 1 : Nat) : Int) = t + 1 + count := by
      rw [Nat.cast_succ]
      omega
    rw [hcast] at hbound
    rw [fillGaps, hcast]
    split
    · rename_i hmem
      exact ih (hskip t rs h (hhas.mp hmem)) (by omega) hbound
    · rename_i hnot
      rw [own_setOwn, setOwn_setOwn]
      exact ih (hadd t rs hle (by omega) h fun hmem => hnot (hhas.mpr hmem)) (by omega) hbound

/-- What holds of the own structure at first and is kept by every number holds after the gaps
    are filled. -/
theorem gapsFilled_rule {P : Int → ReplicaStructure → Prop}
    (hskip : ∀ t rs, P t rs → t + 1 ∈ seqNums rs.reqQ → P (t + 1) rs)
    (hadd : ∀ t rs, m.lastExec ≤ t → t < m.newSeq → P t rs → t + 1 ∉ seqNums rs.reqQ →
      P (t + 1) (rs.addToReqQ (m.produceDummyReq (t + 1))))
    (hstart : P m.lastExec { m.own with seqNum := m.newSeq }) : P m.newSeq m.gapsFilled.own := by
  have hle : m.lastExec ≤ m.newSeq := le_max_left _ _
  have hend : m.lastExec + ((m.newSeq - m.lastExec).toNat : Int) = m.newSeq := by omega
  obtain ⟨rs, hrun, hrs⟩ := fillGaps_rule hskip hadd (m.newSeq - m.lastExec).toNat hstart
    (Int.le_refl _) (by omega)
  rw [hend] at hrs
  rw [gapsFilled, hrun, own_setOwn]
  exact hrs

theorem missingUpTo_lastExec : m.missingUpTo m.lastExec = ∅ := by
  rw [missingUpTo, numbersAfter, Int.sub_self, Int.toNat_zero, Finset.range_zero,
    Finset.image_empty, Finset.empty_sdiff]

theorem gapsFilled_filledUpTo (hnums : (seqNums m.own.reqQ).Nodup) :
    m.FilledUpTo m.newSeq m.gapsFilled.own := by
  apply gapsFilled_rule (P := m.FilledUpTo)
  · exact fun t rs h hmem => h.skip hmem
  · exact fun t rs hle _ h hnot => h.add hle hnot
  · exact ⟨rfl, hnums, by rw [remainingUpTo, if_pos missingUpTo_lastExec],
      m.own.reqQ, [], (List.append_nil _).symm, List.Sublist.refl _, by simp⟩

/-- After the gaps are filled the queue has the old entries and the dummies whose numbers
    have not been evicted. -/
theorem mem_gapsFilled_iff (hnums : (seqNums m.own.reqQ).Nodup) {q : ReqPair} :
    q ∈ m.gapsFilled.own.reqQ ↔
      (q ∈ m.own.reqQ ∨ (q.request.seqNum ∈ m.missing ∧
        q = m.produceDummyReq q.request.seqNum)) ∧ q.request.seqNum ∈ m.remaining := by
  have hfilled := gapsFilled_filledUpTo hnums
  constructor
  · intro hq
    refine ⟨hfilled.entry hq, ?_⟩
    rw [remaining, ← hfilled.numbers, List.mem_toFinset]
    exact List.mem_map_of_mem hq
  · rintro ⟨hq, hmem⟩
    rw [remaining, ← hfilled.numbers, List.mem_toFinset] at hmem
    obtain ⟨q', hq', hsame⟩ := List.mem_map.mp hmem
    -- the entry there is the one of that number
    have heq : q' = q := by
      rcases hq with hown | ⟨hmissing, hdummy⟩
      · rcases hfilled.entry hq' with hown' | ⟨hmissing', -⟩
        · exact List.inj_on_of_nodup_map hnums hown' hown hsame
        · rw [hsame] at hmissing'
          exact absurd (List.mem_map_of_mem hown) (mem_missingUpTo.mp hmissing').2
      · rcases hfilled.entry hq' with hown' | ⟨-, hdummy'⟩
        · refine absurd ?_ (mem_missingUpTo.mp hmissing).2
          rw [← hsame]
          exact List.mem_map_of_mem (f := fun q : ReqPair => q.request.seqNum) hown'
        · rw [hdummy', hdummy, hsame]
    exact heq ▸ hq'

/-- Without missing numbers the queue stays. -/
theorem gapsFilled_of_missing (h : m.missing = ∅) : m.gapsFilled.own.reqQ = m.own.reqQ := by
  rw [gapsFilled, fillGaps_of_full, own_setOwn]
  intro i hi
  have hnot : m.lastExec + 1 + i ∉ m.missing := h ▸ Finset.notMem_empty _
  rw [missing, mem_missingUpTo, not_and, not_not] at hnot
  obtain ⟨q, hq, hseq⟩ := List.mem_map.mp (hnot ⟨by omega, by omega⟩)
  rw [reqWithSeqNumInReqQ, own_setOwn, List.any_eq_true]
  exact ⟨q, hq, decide_eq_true hseq⟩

/-- If one number is missing and the queue is within its bound, one dummy joins the old
    entries, of which the lowest one may go. -/
theorem gapsFilled_sublist {s : Int} (h : m.missing = {s})
    (hroom : m.own.reqQ.length ≤ SIGMA * m.own.numberOfClients) :
    m.gapsFilled.own.reqQ.Sublist (m.own.reqQ ++ [m.produceDummyReq s]) := by
  obtain ⟨⟨-, hle⟩, hout⟩ := mem_missingUpTo.mp (h ▸ Finset.mem_singleton_self s : s ∈ m.missing)
  -- the queue is as before up to `s`, and keeps all numbers after it
  have hfilled := gapsFilled_rule (m := m) (P := fun t rs =>
      rs.numberOfClients = m.own.numberOfClients ∧ (t < s → rs.reqQ = m.own.reqQ) ∧
      (s ≤ t → rs.reqQ.Sublist (m.own.reqQ ++ [m.produceDummyReq s]) ∧
        ∀ q ∈ m.own.reqQ, s < q.request.seqNum → q ∈ rs.reqQ)) ?_ ?_ ?_
  · exact (hfilled.2.2 hle).1
  · intro t rs ⟨hclients, hbefore, hafter⟩ hmem
    refine ⟨hclients, fun hlt => hbefore (by omega), fun hge => hafter ?_⟩
    by_contra hlt
    have hs : s = t + 1 := by omega
    rw [hs, ← hbefore (by omega)] at hout
    exact hout hmem
  · intro t rs hstart hbound ⟨hclients, hbefore, hafter⟩ hnot
    -- only `s` is missing
    have hs : t + 1 = s := by
      rw [← Finset.mem_singleton, ← h]
      refine mem_missingUpTo.mpr ⟨⟨by omega, by omega⟩, fun hown => ?_⟩
      obtain ⟨q, hq, hseq⟩ := List.mem_map.mp hown
      by_cases hlt : t < s
      · exact hnot (hbefore hlt ▸ hown)
      · exact hnot (List.mem_map.mpr ⟨q, (hafter (by omega)).2 q hq (by omega), hseq⟩)
    have hnew : ¬ rs.reqAlreadyExist (m.produceDummyReq s).request = true := by
      rw [ReplicaStructure.reqAlreadyExist_iff, ReplicaStructure.mem_queued]
      rintro ⟨q, hq, heq⟩
      refine hnot (List.mem_map.mpr ⟨q, hq, ?_⟩)
      rw [heq, hs]
      rfl
    rw [hs]
    -- the queue is one over its bound at most, so that entries above the dummy stay
    refine ⟨hclients, fun hlt => absurd hlt (Int.lt_irrefl s), fun _ => ?_⟩
    simp only [ReplicaStructure.addToReqQ, if_neg hnew, ReplicaStructure.trimReqQ, hclients,
      hbefore (by omega : t < s)]
    refine ⟨List.evict_sublist .., fun q hq hhigh => ?_⟩
    have hlength : (m.own.reqQ ++ [m.produceDummyReq s]).length ≤
        SIGMA * m.own.numberOfClients + 1 := by
      rw [List.length_append, List.length_singleton]
      omega
    refine List.mem_evict_of_higher (y := m.produceDummyReq s) (fun q => by simp)
      (fun q q' hsame => ?_) hlength (List.mem_append_left _ hq) (by simp) hhigh
    rw [of_decide_eq_true hsame]
  · refine ⟨rfl, fun _ => rfl, fun hge => ?_⟩
    exact ⟨List.sublist_append_left _ _, fun q hq _ => hq⟩

/-! ## Renewing requests -/

theorem renumber_fst (view : Int) (need reqQ : List ReqPair) :
    ∀ seqNum, (renumber view need seqNum reqQ).1 = seqNum + reqQ.countP (· ∈ need) := by
  induction reqQ with
  | nil => simp [renumber]
  | cons q reqQ ih =>
    intro seqNum
    rw [renumber]
    split
    · rename_i hneed
      rw [List.countP_cons_of_pos (by simpa using hneed), ih]
      omega
    · rename_i hneed
      rw [List.countP_cons_of_neg (by simpa using hneed), ih]

/-- Entries that need it get the numbers that follow, and the others keep theirs. -/
theorem mem_seqNums_renumber (view : Int) (need reqQ : List ReqPair) (s : Int) :
    ∀ seqNum, s ∈ seqNums (renumber view need seqNum reqQ).2 ↔
      (∃ q ∈ reqQ, q ∉ need ∧ q.request.seqNum = s) ∨
        (seqNum < s ∧ s ≤ seqNum + reqQ.countP (· ∈ need)) := by
  induction reqQ with
  | nil =>
    intro seqNum
    simp only [renumber, seqNums, List.map_nil, List.not_mem_nil, false_and, exists_false,
      false_or, List.countP_nil, Nat.cast_zero, false_iff]
    omega
  | cons q reqQ ih =>
    intro seqNum
    simp only [List.mem_cons, or_and_right, exists_or, exists_eq_left]
    rw [renumber]
    split
    · rename_i hneed
      have hcons : s ∈ seqNums (⟨{ q.request with view := view, seqNum := seqNum + 1 },
          insert .prep q.status⟩ :: (renumber view need (seqNum + 1) reqQ).2) ↔
          s = seqNum + 1 ∨ s ∈ seqNums (renumber view need (seqNum + 1) reqQ).2 := List.mem_cons
      rw [hcons, ih, List.countP_cons_of_pos (by simpa using hneed)]
      simp only [hneed, not_true_eq_false, false_and, false_or]
      rw [or_left_comm]
      apply or_congr_right
      omega
    · rename_i hneed
      have hcons : s ∈ seqNums (q :: (renumber view need seqNum reqQ).2) ↔
          s = q.request.seqNum ∨ s ∈ seqNums (renumber view need seqNum reqQ).2 := List.mem_cons
      rw [hcons, ih, List.countP_cons_of_neg (by simpa using hneed), or_assoc]
      simp only [hneed, not_false_eq_true, true_and, eq_comm]

/-- Distinct numbers stay distinct iff no number that is kept is given out. -/
theorem nodup_seqNums_renumber (view : Int) (need : List ReqPair) {reqQ : List ReqPair}
    (hnums : (seqNums reqQ).Nodup) :
    ∀ seqNum, (seqNums (renumber view need seqNum reqQ).2).Nodup ↔ ∀ q ∈ reqQ, q ∉ need →
      ¬ (seqNum < q.request.seqNum ∧ q.request.seqNum ≤ seqNum + reqQ.countP (· ∈ need)) := by
  induction reqQ with
  | nil => simp [renumber, seqNums]
  | cons q reqQ ih =>
    intro seqNum
    obtain ⟨hq, hrest⟩ := List.nodup_cons.mp hnums
    rw [List.forall_mem_cons, renumber]
    split
    · rename_i hneed
      have hcons : (seqNums (⟨{ q.request with view := view, seqNum := seqNum + 1 },
          insert .prep q.status⟩ :: (renumber view need (seqNum + 1) reqQ).2)).Nodup ↔
          seqNum + 1 ∉ seqNums (renumber view need (seqNum + 1) reqQ).2 ∧
            (seqNums (renumber view need (seqNum + 1) reqQ).2).Nodup := List.nodup_cons
      rw [hcons, ih hrest, mem_seqNums_renumber, List.countP_cons_of_pos (by simpa using hneed)]
      constructor
      · rintro ⟨hfirst, hothers⟩
        refine ⟨fun hnot => absurd hneed hnot, fun q' hq' hnot hgiven => ?_⟩
        rw [Nat.cast_succ] at hgiven
        apply hothers q' hq' hnot
        -- the first number that is given out is not kept either
        have hne : q'.request.seqNum ≠ seqNum + 1 :=
          fun heq => hfirst (Or.inl ⟨q', hq', hnot, heq⟩)
        omega
      · rintro ⟨-, hothers⟩
        refine ⟨?_, fun q' hq' hnot hgiven => hothers q' hq' hnot (by omega)⟩
        rintro (⟨q', hq', hnot, heq⟩ | hgiven)
        · exact hothers q' hq' hnot (by omega)
        · omega
    · rename_i hneed
      have hcons : (seqNums (q :: (renumber view need seqNum reqQ).2)).Nodup ↔
          q.request.seqNum ∉ seqNums (renumber view need seqNum reqQ).2 ∧
            (seqNums (renumber view need seqNum reqQ).2).Nodup := List.nodup_cons
      rw [hcons, ih hrest, mem_seqNums_renumber, List.countP_cons_of_neg (by simpa using hneed)]
      apply and_congr_left
      intro _
      have hunique : ¬ ∃ q' ∈ reqQ, q' ∉ need ∧ q'.request.seqNum = q.request.seqNum := by
        rintro ⟨q', hq', -, heq⟩
        exact hq (List.mem_map.mpr ⟨q', hq', heq⟩)
      rw [or_iff_right hunique]
      exact ⟨fun h _ => h, fun h => h hneed⟩

/-! ## The new primary's structure -/

/-- The entry is renewed when these structures are consulted. -/
def Renewed (m : ReplicationModule n) (slots : List (Fin n)) (q : ReqPair) : Prop :=
  q.status = {.prePrep} ∧ ∀ j ∈ slots, j ≠ m.id → q ∈ (m.rep j).reqQ

instance (m : ReplicationModule n) (slots : List (Fin n)) (q : ReqPair) :
    Decidable (m.Renewed slots q) := inferInstanceAs (Decidable (_ ∧ _))

/-- What the new primary's structure becomes. It stays when too few structures report the
    view change; without a common state it is set to TEE; otherwise its queue with the
    gaps filled is renewed, and it takes the log that comes with the state. -/
theorem actAsPrim_result {resolver : Resolver n} {order : SetOrder Int}
    (h : m.actAsPrimWhenViewChanged resolver order = .ok m') :
    ∃ slots, m.reportingSlots resolver = .ok slots ∧
      (((slots.length : Int) < n - m.numberOfByzantine ∧ m' = m) ∨
        ((n : Int) - m.numberOfByzantine ≤ slots.length ∧
          ∃ x, m.takenState resolver order = .ok x ∧
            ((x.repState = none ∧ ∃ rs : ReplicaStructure, m' = m.setOwn rs.setToTee) ∨
              (x.repState.isSome = true ∧ ∃ need,
                (∀ q, q ∈ need ↔ q ∈ m.gapsFilled.own.reqQ ∧ m.Renewed slots q) ∧
                m'.own.rLog = x.rLog ∧
                m'.own.seqNum = (renumber m.id.val need m.newSeq m.gapsFilled.own.reqQ).1 ∧
                m'.own.reqQ = (renumber m.id.val need m.newSeq m.gapsFilled.own.reqQ).2)))) := by
  simp only [actAsPrimWhenViewChanged] at h
  obtain ⟨ids, hids, h⟩ := Py.of_bind h
  obtain ⟨slots, hmapM⟩ := mapM_completes (pyIndex_completes_viewChanged hids)
  have hslots := map_eq_of_mapM hmapM
  have hlength := congrArg List.length hslots
  rw [List.length_map, List.length_map] at hlength
  refine ⟨slots, by simp only [reportingSlots, hids, bind, Except.bind, hmapM], ?_⟩
  rw [← hlength]
  split at h
  · rename_i hmany
    right
    refine ⟨hmany, ?_⟩
    rw [← gapsFilled] at h
    obtain ⟨renewed, hrenew, h⟩ := Py.of_bind h
    obtain ⟨rs, hfill, hfilled⟩ := filled_fillGaps m
    have hfill' : m.gapsFilled = m.setOwn rs := hfill
    have hrenew' := hrenew
    rw [hfill'] at hrenew'
    simp only [renewReqs, own_setOwn, setOwn_setOwn] at hrenew'
    obtain ⟨pend, -, hrenew'⟩ := Py.of_bind hrenew'
    obtain ⟨need, hneed, hrenew'⟩ := Py.of_bind hrenew'
    simp only [pure, Except.pure, Except.ok.injEq] at hrenew'
    obtain ⟨p, hp, h⟩ := Py.of_bind h
    obtain ⟨x, hx, h⟩ := Py.of_bind h
    have hbyz : renewed.numberOfByzantine = m.numberOfByzantine := by rw [← hrenew']; rfl
    rw [hbyz] at hp
    refine ⟨x, by simp only [takenState, hids, bind, Except.bind, hrenew, hp, hx], ?_⟩
    simp only [pure, Except.pure, Except.ok.injEq, adoptConsState] at h
    split at h
    · rename_i hnone
      refine Or.inl ⟨hnone, renewed.own, ?_⟩
      rw [← h, ← hrenew', setOwn_setOwn]
    · rename_i repState hsome
      refine Or.inr ⟨by rw [hsome]; rfl, need, fun q => ?_, ?_⟩
      · rw [mem_reqsNeedPrePrep_iff hslots hneed, own_setOwn, Renewed, hfill', own_setOwn]
        apply and_congr_right
        intro hq
        apply and_congr_right
        intro _
        apply forall₂_congr
        intro j _
        -- the own structure lists all entries of the queue
        by_cases hself : j = m.id
        · subst hself
          have hown : q ∈ (m.setOwn { rs with pendReqs := pend }).own.reqQ := by rwa [own_setOwn]
          exact iff_of_true hown fun hne => absurd rfl hne
        · rw [rep_setOwn_of_ne hself]
          exact ⟨fun hlisted _ => hlisted, fun hlisted => hlisted hself⟩
      · rw [hfill', own_setOwn, ← h, ← hrenew', own_setOwn, own_setOwn, ← hfilled.seqNum_eq]
        exact ⟨rfl, rfl, rfl⟩
  · rename_i hfew
    cases h
    exact Or.inl ⟨Int.not_le.mp hfew, rfl⟩

end BFTList.ReplicationModule
