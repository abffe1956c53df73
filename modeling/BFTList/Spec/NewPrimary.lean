import BFTList.Spec.RenewedQueue

/-!
# Sequence numbers after a view change

The new primary goes on from the highest number that is prepared but not committed,
or from the last executed one, fills the gaps up to there with dummies that all carry
one client request, and moves renewed entries to higher numbers. So a committed entry
above the start keeps a number that is given out again, a renewed entry below it leaves
a hole, and two dummies are taken for one client request with two numbers.

## Key results

- `seqNums_unique_iff`: when numbers stay distinct and none is above the counter
- `sequence_closed_iff`: when no number up to the counter is left without an entry
- `double_iff`: when the new primary does not take its own queue for stale
- `seqNum_reused`, `sequence_hole`, `double_dummies`: view changes where they fail
-/

namespace BFTList.ReplicationModule

variable {n : Nat} {m m' : ReplicationModule n} {resolver : Resolver n} {order : SetOrder Int}

/-! ## Distinct numbers -/

/-- No number is above the one that the new primary goes on from: if too few structures
    report the view change, its counter; else, unless it ends with TEE, the number of each
    entry that is neither evicted nor renewed is at most the highest prepared one, or the
    last executed one. -/
def CounterCovers (m : ReplicationModule n) (resolver : Resolver n) (order : SetOrder Int)
    (slots : List (Fin n)) : Prop :=
  if (n : Int) - m.numberOfByzantine ≤ slots.length then
    (m.takenState resolver order).Returns fun x => x.repState.isSome = true →
      ∀ q ∈ m.own.reqQ, q.request.seqNum ∈ m.remaining → ¬ m.Renewed slots q →
        q.request.seqNum ≤ m.newSeq
  else ∀ q ∈ m.own.reqQ, q.request.seqNum ≤ m.own.seqNum

/-- A view change of a queue with distinct numbers leaves distinct ones, none above the
    counter, iff the counter starts from the highest number that stays. -/
theorem seqNums_unique_iff (hnums : (seqNums m.own.reqQ).Nodup)
    (h : m.actAsPrimWhenViewChanged resolver order = .ok m') :
    ∃ slots, m.reportingSlots resolver = .ok slots ∧
      (((seqNums m'.own.reqQ).Nodup ∧ ∀ s ∈ seqNums m'.own.reqQ, s ≤ m'.own.seqNum) ↔
        m.CounterCovers resolver order slots) := by
  obtain ⟨slots, hslots, hcase⟩ := actAsPrim_result h
  refine ⟨slots, hslots, ?_⟩
  rw [CounterCovers]
  rcases hcase with ⟨hfew, rfl⟩ | ⟨hmany, x, hx, hcase⟩
  · rw [if_neg (by omega)]
    rw [and_iff_right hnums]
    simp [seqNums]
  rw [if_pos hmany]
  rcases hcase with ⟨hnone, rs, rfl⟩ | ⟨hsome, need, hneed, -, hseq, hqueue⟩
  · rw [Py.returns_iff hx]
    simp [hnone, seqNums, ReplicaStructure.setToTee]
  · have hfilled := gapsFilled_filledUpTo hnums
    rw [Py.returns_iff hx, forall_prop_of_true hsome, hqueue, hseq,
      nodup_seqNums_renumber _ _ hfilled.distinct, renumber_fst]
    simp only [mem_seqNums_renumber]
    constructor
    · rintro ⟨hapart, hle⟩ q hq hstays hnot
      have hq' := (mem_gapsFilled_iff hnums).mpr ⟨Or.inl hq, hstays⟩
      have hneed' : q ∉ need := fun hmem => hnot ((hneed q).mp hmem).2
      have hclear := hapart q hq' hneed'
      have hbound := hle _ (Or.inl ⟨q, hq', hneed', rfl⟩)
      omega
    · intro hcovers
      have hkept : ∀ q ∈ m.gapsFilled.own.reqQ, q ∉ need → q.request.seqNum ≤ m.newSeq := by
        intro q hq hnot
        obtain ⟨hown | ⟨hmissing, -⟩, hstays⟩ := (mem_gapsFilled_iff hnums).mp hq
        · exact hcovers q hown hstays fun hrenewed => hnot ((hneed q).mpr ⟨hq, hrenewed⟩)
        · exact (mem_missingUpTo.mp hmissing).1.2
      refine ⟨fun q hq hnot hgiven => ?_, ?_⟩
      · have hle := hkept q hq hnot
        omega
      · rintro s (⟨q, hq, hnot, rfl⟩ | hgiven)
        · have hle := hkept q hq hnot
          omega
        · exact hgiven.2

/-- Six processors answer that the view is 0. -/
def viewZero : Resolver 6 := ⟨true, true, fun _ => 0⟩

theorem completes_renewTable :
    (renewTable.actAsPrimWhenViewChanged viewZero .insertion).Completes := by
  obtain ⟨m', hok, -⟩ := Py.exists_of_any
    (x := renewTable.actAsPrimWhenViewChanged viewZero .insertion) (p := fun _ => True)
    (by decide)
  exact ⟨m', hok⟩

theorem reportingSlots_renewTable :
    renewTable.reportingSlots viewZero = .ok [0, 1, 2, 3, 4, 5] := by
  decide

theorem seqNums_unique_renewed :
    ∃ m', renewTable.actAsPrimWhenViewChanged viewZero .insertion = .ok m' ∧
      (seqNums m'.own.reqQ).Nodup ∧ ∀ s ∈ seqNums m'.own.reqQ, s ≤ m'.own.seqNum := by
  obtain ⟨m', hok⟩ := completes_renewTable
  obtain ⟨slots, hslots, hiff⟩ := seqNums_unique_iff (by decide) hok
  cases hslots.symm.trans reportingSlots_renewTable
  refine ⟨m', hok, hiff.mpr ?_⟩
  unfold CounterCovers
  decide

/-- Two executed requests, request 2 committed, request 3 accepted. -/
def committedTable : ReplicationModule 6 :=
  viewChangeTable 2 [⟨0, some 9, .append 9⟩]
    [⟨⟨⟨0, some 8, .append 8⟩, 1, 2⟩, {.prePrep, .prep, .commit}⟩,
      ⟨⟨⟨0, some 9, .append 9⟩, 1, 3⟩, {.prePrep}⟩]

/-- The accepted request gets the number of the committed one. -/
theorem seqNum_reused :
    (seqNums committedTable.own.reqQ).Nodup ∧
      (∀ q ∈ committedTable.own.reqQ, committedTable.lastExec < q.request.seqNum) ∧
      (committedTable.actAsPrimWhenViewChanged viewZero .insertion).map
        (fun m' => (seqNums m'.own.reqQ, m'.own.seqNum)) = .ok ([2, 2], 2) := by
  decide

/-! ## No hole -/

/-- Every number from the last executed one to the one the new primary goes on from keeps
    its entry: if too few structures report the view change, up to its counter; else, unless
    it ends with TEE, the log that it takes does not end before its own, and no entry after
    the end of that log, be it an old one or a dummy, is evicted or renewed. -/
def NothingMoves (m : ReplicationModule n) (resolver : Resolver n) (order : SetOrder Int)
    (slots : List (Fin n)) : Prop :=
  if (n : Int) - m.numberOfByzantine ≤ slots.length then
    (m.takenState resolver order).Returns fun x => x.repState.isSome = true →
      m.lastExec ≤ lastSeq x.rLog ∧
      (∀ q ∈ m.own.reqQ, lastSeq x.rLog < q.request.seqNum → q.request.seqNum ≤ m.newSeq →
        q.request.seqNum ∈ m.remaining ∧ ¬ m.Renewed slots q) ∧
      ∀ s ∈ m.missing, lastSeq x.rLog < s →
        s ∈ m.remaining ∧ ¬ m.Renewed slots (m.produceDummyReq s)
  else ∀ s ∈ numbersAfter m.lastExec m.own.seqNum, s ∈ seqNums m.own.reqQ

/-- The numbers of the entries that are not renumbered: those of old entries and dummies
    that are neither evicted nor renewed. -/
theorem exists_kept_iff (hnums : (seqNums m.own.reqQ).Nodup) {slots : List (Fin n)}
    {need : List ReqPair}
    (hneed : ∀ q, q ∈ need ↔ q ∈ m.gapsFilled.own.reqQ ∧ m.Renewed slots q) (s : Int) :
    (∃ q ∈ m.gapsFilled.own.reqQ, q ∉ need ∧ q.request.seqNum = s) ↔
      s ∈ m.remaining ∧ ((∃ q ∈ m.own.reqQ, ¬ m.Renewed slots q ∧ q.request.seqNum = s) ∨
        (s ∈ m.missing ∧ ¬ m.Renewed slots (m.produceDummyReq s))) := by
  constructor
  · rintro ⟨q, hq, hnot, rfl⟩
    obtain ⟨hown, hstays⟩ := (mem_gapsFilled_iff hnums).mp hq
    have hnot' : ¬ m.Renewed slots q := fun hren => hnot ((hneed q).mpr ⟨hq, hren⟩)
    refine ⟨hstays, hown.imp (fun hown => ⟨q, hown, hnot', rfl⟩) fun hd => ⟨hd.1, ?_⟩⟩
    rwa [← hd.2]
  · rintro ⟨hstays, ⟨q, hq, hnot, rfl⟩ | ⟨hmissing, hnot⟩⟩
    · have hq' := (mem_gapsFilled_iff hnums).mpr ⟨Or.inl hq, hstays⟩
      exact ⟨q, hq', fun hmem => hnot ((hneed q).mp hmem).2, rfl⟩
    · have hq' := (mem_gapsFilled_iff (q := m.produceDummyReq s) hnums).mpr
        ⟨Or.inr ⟨hmissing, rfl⟩, hstays⟩
      exact ⟨_, hq', fun hmem => hnot ((hneed _).mp hmem).2, rfl⟩

/-- A view change of a queue with distinct numbers after the last executed one leaves an
    entry for every number up to the counter iff nothing moves away from a number. -/
theorem sequence_closed_iff (hnums : (seqNums m.own.reqQ).Nodup)
    (hlow : ∀ q ∈ m.own.reqQ, m.lastExec < q.request.seqNum)
    (h : m.actAsPrimWhenViewChanged resolver order = .ok m') :
    ∃ slots, m.reportingSlots resolver = .ok slots ∧
      ((∀ s, m'.lastExec < s → s ≤ m'.own.seqNum → s ∈ seqNums m'.own.reqQ) ↔
        m.NothingMoves resolver order slots) := by
  obtain ⟨slots, hslots, hcase⟩ := actAsPrim_result h
  refine ⟨slots, hslots, ?_⟩
  rw [NothingMoves]
  rcases hcase with ⟨hfew, rfl⟩ | ⟨hmany, x, hx, hcase⟩
  · rw [if_neg (by omega)]
    simp only [mem_numbersAfter, and_imp]
  rw [if_pos hmany]
  rcases hcase with ⟨hnone, rs, rfl⟩ | ⟨hsome, need, hneed, hlog, hseq, hqueue⟩
  · rw [Py.returns_iff hx]
    refine iff_of_true (fun s hs hle => ?_) fun hsome => ?_
    · rw [lastExec_eq, own_setOwn] at hs
      rw [own_setOwn] at hle
      simp only [ReplicaStructure.setToTee, lastSeq, List.getLast?_nil] at hs hle
      omega
    · simp [hnone] at hsome
  · have hstart : m.lastExec ≤ m.newSeq := le_max_left _ _
    rw [Py.returns_iff hx, forall_prop_of_true hsome, lastExec_eq, hlog, hqueue, hseq, renumber_fst]
    -- the numbers given out are there; what counts are those kept
    simp only [mem_seqNums_renumber, exists_kept_iff hnums hneed]
    constructor
    · intro hclosed
      refine ⟨?_, fun q hq hlast hle => ?_, fun s hs hlast => ?_⟩
      · -- nothing is queued between the ends of the two logs
        by_contra hshort
        rcases hclosed (lastSeq x.rLog + 1) (by omega) (by omega) with
          ⟨-, ⟨q, hq, -, heq⟩ | ⟨hmissing, -⟩⟩ | hgiven
        · have hlt := hlow q hq
          omega
        · have hlt := (mem_missingUpTo.mp hmissing).1.1
          omega
        · omega
      · rcases hclosed _ hlast (by omega) with
          ⟨hstays, ⟨q', hq', hnot, heq⟩ | ⟨hmissing, -⟩⟩ | hgiven
        · exact ⟨hstays, List.inj_on_of_nodup_map hnums hq' hq heq ▸ hnot⟩
        · exact absurd (List.mem_map_of_mem hq) (mem_missingUpTo.mp hmissing).2
        · omega
      · obtain ⟨⟨-, hle⟩, hout⟩ := mem_missingUpTo.mp hs
        rcases hclosed s hlast (by omega) with ⟨hstays, ⟨q, hq, -, rfl⟩ | ⟨-, hnot⟩⟩ | hgiven
        · exact absurd (List.mem_map_of_mem hq) hout
        · exact ⟨hstays, hnot⟩
        · omega
    · rintro ⟨hlog, hown, hdummy⟩ s hlast hle
      by_cases hnew : m.newSeq < s
      · exact Or.inr ⟨hnew, hle⟩
      left
      by_cases hmem : s ∈ seqNums m.own.reqQ
      · obtain ⟨q, hq, rfl⟩ := List.mem_map.mp hmem
        obtain ⟨hstays, hnot⟩ := hown q hq hlast (by omega)
        exact ⟨hstays, Or.inl ⟨q, hq, hnot, rfl⟩⟩
      · have hmissing : s ∈ m.missing := mem_missingUpTo.mpr ⟨⟨by omega, by omega⟩, hmem⟩
        obtain ⟨hstays, hnot⟩ := hdummy s hmissing hlast
        exact ⟨hstays, Or.inr ⟨hmissing, hnot⟩⟩

theorem sequence_closed_renewed :
    ∃ m', renewTable.actAsPrimWhenViewChanged viewZero .insertion = .ok m' ∧
      ∀ s, m'.lastExec < s → s ≤ m'.own.seqNum → s ∈ seqNums m'.own.reqQ := by
  obtain ⟨m', hok⟩ := completes_renewTable
  obtain ⟨slots, hslots, hiff⟩ := sequence_closed_iff (by decide) (by decide) hok
  cases hslots.symm.trans reportingSlots_renewTable
  refine ⟨m', hok, hiff.mpr ?_⟩
  unfold NothingMoves
  decide

/-- Two executed requests, request 2 accepted, request 3 prepared. -/
def acceptedTable : ReplicationModule 6 :=
  viewChangeTable 2 [⟨0, some 9, .append 9⟩]
    [⟨⟨⟨0, some 9, .append 9⟩, 1, 2⟩, {.prePrep}⟩,
      ⟨⟨⟨0, some 8, .append 8⟩, 1, 3⟩, {.prePrep, .prep}⟩]

/-- The accepted request moves behind the prepared one: no entry has number 2. -/
theorem sequence_hole :
    (seqNums acceptedTable.own.reqQ).Nodup ∧
      (∀ q ∈ acceptedTable.own.reqQ, acceptedTable.lastExec < q.request.seqNum) ∧
      acceptedTable.own.reqQ.length ≤ SIGMA * acceptedTable.own.numberOfClients ∧
      (acceptedTable.actAsPrimWhenViewChanged viewZero .insertion).map
        (fun m' => (m'.lastExec, seqNums m'.own.reqQ, m'.own.seqNum)) = .ok (1, [4, 3], 4) := by
  decide

/-! ## The own queue is not stale -/

/-- The queue is not stale iff its entries for a client request are for one request. -/
theorem double_eq_false_iff : m.double = false ↔ ∀ q ∈ m.own.reqQ, ∀ q' ∈ m.own.reqQ,
    q.request.clientRequest = q'.request.clientRequest → q.request = q'.request := by
  have hpairs : m.double = false ↔ m.own.reqQ.Pairwise fun q q' =>
      q.request.clientRequest = q'.request.clientRequest → q.request = q'.request := by
    rw [← List.forall_mem_pairs, double, List.any_eq_false]
    simp only [decide_eq_true_eq, not_and, Decidable.not_not, ne_eq]
  have hsymm : Std.Symm fun q q' : ReqPair =>
      q.request.clientRequest = q'.request.clientRequest → q.request = q'.request :=
    ⟨fun _ _ hsame heq => (hsame heq.symm).symm⟩
  rw [hpairs]
  constructor
  · exact fun h q hq q' hq' => h.forall_of_forall (fun _ _ _ => rfl) hq hq'
  · exact List.pairwise_of_forall_mem_list

/-- How many entries before this one are renumbered. -/
def renewedBefore (need reqQ : List ReqPair) (q : ReqPair) : Nat :=
  (reqQ.takeWhile fun q' => q' ≠ q).countP (· ∈ need)

/-- An entry of the queue after the renewal. -/
def renewedEntry (view : Int) (need : List ReqPair) (seqNum : Int) (reqQ : List ReqPair)
    (q : ReqPair) : ReqPair :=
  if q ∈ need then
    ⟨{ q.request with view := view, seqNum := seqNum + renewedBefore need reqQ q + 1 },
      insert .prep q.status⟩
  else q

theorem renewedBefore_cons_of_ne {need reqQ : List ReqPair} {q₀ q : ReqPair} (hne : q₀ ≠ q) :
    renewedBefore need (q₀ :: reqQ) q =
      renewedBefore need reqQ q + if q₀ ∈ need then 1 else 0 := by
  rw [renewedBefore, List.takeWhile_cons_of_pos (by simpa using hne), List.countP_cons]
  simp [renewedBefore]

/-- Renewal is done entry by entry. -/
theorem renumber_eq_map (view : Int) (need : List ReqPair) {reqQ : List ReqPair}
    (hnodup : reqQ.Nodup) : ∀ seqNum,
      (renumber view need seqNum reqQ).2 = reqQ.map (renewedEntry view need seqNum reqQ) := by
  induction reqQ with
  | nil => exact fun _ => rfl
  | cons q₀ reqQ ih =>
    intro seqNum
    obtain ⟨hq₀, hrest⟩ := List.nodup_cons.mp hnodup
    have hfirst : renewedBefore need (q₀ :: reqQ) q₀ = 0 := by simp [renewedBefore]
    have hne : ∀ q ∈ reqQ, q₀ ≠ q := fun q hq heq => hq₀ (heq ▸ hq)
    rw [renumber, List.map_cons]
    split
    · rename_i hneed
      have hhead : renewedEntry view need seqNum (q₀ :: reqQ) q₀ =
          ⟨{ q₀.request with view := view, seqNum := seqNum + 1 }, insert .prep q₀.status⟩ := by
        rw [renewedEntry, if_pos hneed, hfirst]
        simp
      rw [hhead]
      show _ :: (renumber view need (seqNum + 1) reqQ).2 = _
      rw [ih hrest]
      congr 1
      apply List.map_congr_left
      intro q hq
      simp only [renewedEntry, renewedBefore_cons_of_ne (hne q hq), if_pos hneed]
      split
      · congr 2
        push_cast
        omega
      · rfl
    · rename_i hneed
      have hhead : renewedEntry view need seqNum (q₀ :: reqQ) q₀ = q₀ := if_neg hneed
      rw [hhead]
      show _ :: (renumber view need seqNum reqQ).2 = _
      rw [ih hrest]
      congr 1
      apply List.map_congr_left
      intro q hq
      simp only [renewedEntry, renewedBefore_cons_of_ne (hne q hq), if_neg hneed, Nat.add_zero]

/-- No two renewed entries get the same number. -/
theorem renewedBefore_inj {need reqQ : List ReqPair} (hnodup : reqQ.Nodup) {q q' : ReqPair}
    (hq : q ∈ reqQ) (hq' : q' ∈ reqQ) (hneed : q ∈ need) (hneed' : q' ∈ need)
    (heq : renewedBefore need reqQ q = renewedBefore need reqQ q') : q = q' := by
  induction reqQ with
  | nil => exact absurd hq List.not_mem_nil
  | cons q₀ reqQ ih =>
    obtain ⟨hq₀, hrest⟩ := List.nodup_cons.mp hnodup
    have hfirst : renewedBefore need (q₀ :: reqQ) q₀ = 0 := by simp [renewedBefore]
    by_cases h : q₀ = q
    · by_contra hne
      have hne' : q₀ ≠ q' := fun heq' => hne (h ▸ heq')
      subst h
      rw [hfirst, renewedBefore_cons_of_ne hne', if_pos hneed] at heq
      omega
    · by_cases h' : q₀ = q'
      · subst h'
        rw [hfirst, renewedBefore_cons_of_ne h, if_pos hneed'] at heq
        omega
      · rw [renewedBefore_cons_of_ne h, renewedBefore_cons_of_ne h'] at heq
        exact ih hrest ((List.mem_cons.mp hq).resolve_left (Ne.symm h))
          ((List.mem_cons.mp hq').resolve_left (Ne.symm h')) (by omega)

@[simp] theorem renewedEntry_clientRequest (view : Int) (need : List ReqPair) (seqNum : Int)
    (reqQ : List ReqPair) (q : ReqPair) :
    (renewedEntry view need seqNum reqQ q).request.clientRequest = q.request.clientRequest := by
  rw [renewedEntry]
  split
  · rfl
  · rfl

/-- The entry is renewed, and gets the view and number that the other one keeps. -/
def Meets (view : Int) (need : List ReqPair) (seqNum : Int) (reqQ : List ReqPair)
    (q q' : ReqPair) : Prop :=
  q ∈ need ∧ q' ∉ need ∧ q'.request.view = view ∧
    q'.request.seqNum = seqNum + renewedBefore need reqQ q + 1

/-- Two entries for one client request become the same request iff one meets the other. -/
theorem renewedEntry_eq_iff {view : Int} {need : List ReqPair} {seqNum : Int}
    {reqQ : List ReqPair} (hnums : (seqNums reqQ).Nodup) {q q' : ReqPair} (hq : q ∈ reqQ)
    (hq' : q' ∈ reqQ) (hne : q ≠ q')
    (hclient : q.request.clientRequest = q'.request.clientRequest) :
    (renewedEntry view need seqNum reqQ q).request =
        (renewedEntry view need seqNum reqQ q').request ↔
      Meets view need seqNum reqQ q q' ∨ Meets view need seqNum reqQ q' q := by
  have hnodup : reqQ.Nodup := List.Nodup.of_map _ hnums
  simp only [renewedEntry, Meets]
  by_cases hneed : q ∈ need
  · by_cases hneed' : q' ∈ need
    · have hplace : renewedBefore need reqQ q ≠ renewedBefore need reqQ q' :=
        fun heq => hne (renewedBefore_inj hnodup hq hq' hneed hneed' heq)
      simp only [hneed, hneed', if_true, Request.mk.injEq, not_true_eq_false, false_and, and_false,
        or_self, iff_false]
      omega
    · obtain ⟨⟨c', view', s'⟩, status'⟩ := q'
      simp only [hneed, hneed', if_true, if_false, Request.mk.injEq, hclient, true_and,
        not_false_eq_true, not_true_eq_false, false_and, or_false]
      exact and_congr eq_comm eq_comm
  · by_cases hneed' : q' ∈ need
    · obtain ⟨⟨c, view', s⟩, status⟩ := q
      simp only [hneed, hneed', if_true, if_false, Request.mk.injEq, ← hclient, true_and,
        not_false_eq_true, not_true_eq_false, false_and, false_or]
    · -- two entries that stay have different numbers
      simp only [hneed, hneed', if_false, false_and, or_self, iff_false]
      exact fun heq => hne (List.inj_on_of_nodup_map hnums hq hq' (congrArg Request.seqNum heq))

/-- Before the only dummy in the queue stand all old entries that remain. -/
theorem renewedBefore_dummy (hnums : (seqNums m.own.reqQ).Nodup) {slots : List (Fin n)}
    {need : List ReqPair}
    (hneed : ∀ q, q ∈ need ↔ q ∈ m.gapsFilled.own.reqQ ∧ m.Renewed slots q) {s : Int}
    (hs : s ∈ m.missing) (honly : ∀ s' ∈ m.missing, s' ∈ m.remaining → s' = s) :
    renewedBefore need m.gapsFilled.own.reqQ (m.produceDummyReq s) =
      m.own.reqQ.countP fun q => q.request.seqNum ∈ m.remaining ∧ m.Renewed slots q := by
  have hfilled := gapsFilled_filledUpTo hnums
  obtain ⟨old, dummies, hsplit, hold, hdummies⟩ := hfilled.parts
  have hmem : ∀ q, q ∈ old ++ dummies ↔ (q ∈ m.own.reqQ ∨ (q.request.seqNum ∈ m.missing ∧
      q = m.produceDummyReq q.request.seqNum)) ∧ q.request.seqNum ∈ m.remaining := by
    intro q
    rw [← hsplit]
    exact mem_gapsFilled_iff hnums
  have hout : ∀ q ∈ m.own.reqQ, q.request.seqNum ∉ m.missing :=
    fun q hq hmissing => (mem_missingUpTo.mp hmissing).2 (List.mem_map_of_mem hq)
  have hnot : m.produceDummyReq s ∉ old := fun hd => hout _ (hold.subset hd) hs
  -- the dummies are this one
  have hall : ∀ q ∈ dummies, q = m.produceDummyReq s := by
    intro q hq
    obtain ⟨hmissing, hdummy⟩ := hdummies q hq
    have hq' := ((hmem q).mp (List.mem_append_right _ hq)).2
    rw [hdummy, honly _ hmissing hq']
  have hbefore : (old ++ dummies).takeWhile (fun q => q ≠ m.produceDummyReq s) = old := by
    rw [List.takeWhile_append_of_pos]
    · cases dummies with
      | nil => simp
      | cons q dummies =>
        rw [List.takeWhile_cons_of_neg (by simpa using hall q List.mem_cons_self), List.append_nil]
    · intro q hq
      have hne : q ≠ m.produceDummyReq s := fun heq => hnot (heq ▸ hq)
      simpa using hne
  -- and before it are the old entries that remain
  have hperm : old.Perm (m.own.reqQ.filter fun q => q.request.seqNum ∈ m.remaining) := by
    have hnodup : m.own.reqQ.Nodup := List.Nodup.of_map _ hnums
    apply (List.perm_ext_iff_of_nodup (hnodup.sublist hold) (hnodup.filter _)).mpr
    intro q
    rw [List.mem_filter, decide_eq_true_iff]
    constructor
    · exact fun hq => ⟨hold.subset hq, ((hmem q).mp (List.mem_append_left _ hq)).2⟩
    · rintro ⟨hq, hstay⟩
      refine (List.mem_append.mp ((hmem q).mpr ⟨Or.inl hq, hstay⟩)).resolve_right fun hd => ?_
      exact hout q hq (hdummies q hd).1
  rw [renewedBefore, hsplit, hbefore, hperm.countP_eq, List.countP_filter]
  apply List.countP_congr
  intro q hq
  simp only [Bool.and_eq_true, decide_eq_true_eq, hneed, hsplit, hmem, hq, true_or, true_and]
  tauto

/-- At most one dummy is written that is not evicted, and no old entry for the client
    request of dummies remains beside it, except one under the own view that is not
    renewed, while the dummy is and gets its number. -/
def OnlyDummy (m : ReplicationModule n) (slots : List (Fin n)) : Prop :=
  (∀ s ∈ m.missing, ∀ s' ∈ m.missing, s ∈ m.remaining → s' ∈ m.remaining → s' = s) ∧
  ∀ s ∈ m.missing, s ∈ m.remaining → ∀ q ∈ m.own.reqQ, q.request.seqNum ∈ m.remaining →
    q.request.clientRequest = (m.produceDummyReq s).request.clientRequest →
    m.Renewed slots (m.produceDummyReq s) ∧ ¬ m.Renewed slots q ∧ q.request.view = m.id.val ∧
      q.request.seqNum = m.newSeq + (m.own.reqQ.countP fun q =>
        q.request.seqNum ∈ m.remaining ∧ m.Renewed slots q) + 1

/-- If enough structures report the view change, and unless the new primary ends with TEE,
    a dummy is the only entry for its client request. -/
def DummiesAlone (m : ReplicationModule n) (resolver : Resolver n) (order : SetOrder Int)
    (slots : List (Fin n)) : Prop :=
  (n : Int) - m.numberOfByzantine ≤ slots.length →
    (m.takenState resolver order).Returns fun x => x.repState.isSome = true → m.OnlyDummy slots

/-- The renewed queue is not stale iff entries for one client request are one entry, or one
    of them meets the other. -/
theorem double_renumber_iff (hnums : (seqNums m.own.reqQ).Nodup) {need : List ReqPair}
    (hqueue : m'.own.reqQ = (renumber m.id.val need m.newSeq m.gapsFilled.own.reqQ).2) :
    m'.double = false ↔ ∀ q ∈ m.gapsFilled.own.reqQ, ∀ q' ∈ m.gapsFilled.own.reqQ,
      q.request.clientRequest = q'.request.clientRequest → q = q' ∨
        Meets m.id.val need m.newSeq m.gapsFilled.own.reqQ q q' ∨
        Meets m.id.val need m.newSeq m.gapsFilled.own.reqQ q' q := by
  have hfilled := (gapsFilled_filledUpTo hnums).distinct
  rw [double_eq_false_iff, hqueue, renumber_eq_map _ _ (List.Nodup.of_map _ hfilled)]
  simp only [List.forall_mem_map, renewedEntry_clientRequest]
  apply forall₂_congr
  intro q hq
  apply forall₂_congr
  intro q' hq'
  apply imp_congr_right
  intro hclient
  by_cases heq : q = q'
  · simp [heq]
  · rw [renewedEntry_eq_iff hfilled hq hq' heq hclient, or_iff_right heq]

/-- What is renumbered has not the number of a dummy that stays. -/
theorem not_meets_dummy {need reqQ : List ReqPair} {s : Int} (hs : s ∈ m.missing) {q : ReqPair} :
    ¬ Meets m.id.val need m.newSeq reqQ q (m.produceDummyReq s) := by
  rintro ⟨-, -, -, hseq⟩
  have hle := (mem_missingUpTo.mp hs).1.2
  simp only [produceDummyReq] at hseq
  omega

/-- For distinct numbers the renewed queue is not stale iff dummies are alone. -/
theorem double_renewed_iff (hnums : (seqNums m.own.reqQ).Nodup) (hdouble : m.double = false)
    {slots : List (Fin n)} {need : List ReqPair}
    (hneed : ∀ q, q ∈ need ↔ q ∈ m.gapsFilled.own.reqQ ∧ m.Renewed slots q)
    (hqueue : m'.own.reqQ = (renumber m.id.val need m.newSeq m.gapsFilled.own.reqQ).2) :
    m'.double = false ↔ m.OnlyDummy slots := by
  rw [double_renumber_iff hnums hqueue]
  have hdummy : ∀ s ∈ m.missing, s ∈ m.remaining →
      m.produceDummyReq s ∈ m.gapsFilled.own.reqQ := fun s hs hstays =>
    (mem_gapsFilled_iff hnums).mpr ⟨Or.inr ⟨hs, rfl⟩, hstays⟩
  constructor
  · intro hmeet
    have honly : ∀ s ∈ m.missing, ∀ s' ∈ m.missing, s ∈ m.remaining → s' ∈ m.remaining →
        s' = s := by
      intro s hs s' hs' hstays hstays'
      rcases hmeet _ (hdummy s hs hstays) _ (hdummy s' hs' hstays') rfl with heq | hm | hm
      · exact (congrArg (fun q : ReqPair => q.request.seqNum) heq).symm
      · exact absurd hm (not_meets_dummy hs')
      · exact absurd hm (not_meets_dummy hs)
    refine ⟨honly, fun s hs hstays q hq hremains hclient => ?_⟩
    have hq' := (mem_gapsFilled_iff hnums).mpr ⟨Or.inl hq, hremains⟩
    rcases hmeet _ (hdummy s hs hstays) q hq' hclient.symm with heq | hm | hm
    · refine absurd ?_ (mem_missingUpTo.mp hs).2
      exact List.mem_map.mpr ⟨q, hq, heq ▸ rfl⟩
    · obtain ⟨hrenewed, hkept, hview, hseq⟩ := hm
      rw [renewedBefore_dummy hnums hneed hs fun s' hs' hstays' =>
        honly s hs s' hs' hstays hstays'] at hseq
      exact ⟨((hneed _).mp hrenewed).2, fun hren => hkept ((hneed q).mpr ⟨hq', hren⟩), hview, hseq⟩
    · exact absurd hm (not_meets_dummy hs)
  · rintro ⟨honly, halone⟩
    -- an old entry beside a dummy
    have hmeets : ∀ s ∈ m.missing, s ∈ m.remaining → ∀ q ∈ m.own.reqQ,
        q.request.seqNum ∈ m.remaining →
        q.request.clientRequest = (m.produceDummyReq s).request.clientRequest →
        Meets m.id.val need m.newSeq m.gapsFilled.own.reqQ (m.produceDummyReq s) q := by
      intro s hs hstays q hq hremains hclient
      obtain ⟨hrenewed, hkept, hview, hseq⟩ := halone s hs hstays q hq hremains hclient
      refine ⟨(hneed _).mpr ⟨hdummy s hs hstays, hrenewed⟩, fun hmem => hkept ((hneed q).mp hmem).2,
        hview, ?_⟩
      rw [hseq, renewedBefore_dummy hnums hneed hs fun s' hs' hstays' =>
        honly s hs s' hs' hstays hstays']
    intro q hq q' hq' hclient
    obtain ⟨hq, hstays⟩ := (mem_gapsFilled_iff hnums).mp hq
    obtain ⟨hq', hstays'⟩ := (mem_gapsFilled_iff hnums).mp hq'
    rcases hq with hown | ⟨hs, hd⟩
    · rcases hq' with hown' | ⟨hs', hd'⟩
      · have hsame := double_eq_false_iff.mp hdouble q hown q' hown' hclient
        exact Or.inl (List.inj_on_of_nodup_map hnums hown hown' (congrArg Request.seqNum hsame))
      · rw [hd'] at hclient ⊢
        exact Or.inr (Or.inr (hmeets _ hs' hstays' q hown hstays hclient))
    · rcases hq' with hown' | ⟨hs', hd'⟩
      · rw [hd] at hclient ⊢
        exact Or.inr (Or.inl (hmeets _ hs hstays q' hown' hstays' hclient.symm))
      · rw [hd, hd', honly _ hs _ hs' hstays hstays']
        exact Or.inl rfl

/-- What is enough where entries share numbers: none is missing, or one is while the queue is
    within its bound and has no entry for the client request of dummies, and each entry that
    is renewed is the only one for its client request. -/
structure RenewedAlone (m : ReplicationModule n) (slots : List (Fin n)) : Prop where
  gap : m.missing = ∅ ∨ ∃ s, m.missing = {s} ∧
    m.own.reqQ.length ≤ SIGMA * m.own.numberOfClients ∧
    ∀ q ∈ m.own.reqQ, q.request.clientRequest ≠ (m.produceDummyReq s).request.clientRequest
  renewed : ∀ q ∈ m.own.reqQ, m.Renewed slots q →
    (m.own.reqQ.map (·.request.clientRequest)).count q.request.clientRequest = 1

/-- Then an entry of the queue that is renewed, or new, is the only one for its client
    request. -/
theorem RenewedAlone.count_gapsFilled {slots : List (Fin n)} (h : m.RenewedAlone slots)
    {q : ReqPair} (hq : q ∈ m.gapsFilled.own.reqQ) (hnew : q ∈ m.own.reqQ → m.Renewed slots q) :
    (m.gapsFilled.own.reqQ.map (·.request.clientRequest)).count q.request.clientRequest = 1 := by
  rcases h.gap with hnone | ⟨s, hone, hroom, hother⟩
  · rw [gapsFilled_of_missing hnone] at hq ⊢
    exact h.renewed q hq (hnew hq)
  have hsub := gapsFilled_sublist hone hroom
  have hle : (m.gapsFilled.own.reqQ.map (·.request.clientRequest)).count q.request.clientRequest ≤
      1 := by
    apply ((hsub.map _).count_le _).trans
    rw [List.map_append, List.count_append, List.map_singleton, List.count_singleton]
    cases List.mem_append.mp (hsub.subset hq) with
    | inl hown =>
      have hne : ¬ (m.produceDummyReq s).request.clientRequest = q.request.clientRequest :=
        fun heq => hother q hown heq.symm
      rw [h.renewed q hown (hnew hown), beq_eq_false_iff_ne.mpr hne]
      simp
    | inr hdummy =>
      rw [List.mem_singleton.mp hdummy, List.count_eq_zero_of_not_mem]
      · simp
      · intro hmem
        obtain ⟨q', hq', heq⟩ := List.mem_map.mp hmem
        exact hother q' hq' heq
  have hpos := List.count_pos_iff.mpr
    (List.mem_map_of_mem (f := fun q : ReqPair => q.request.clientRequest) hq)
  omega

/-- An entry whose client request stands once in a queue is the only one with it. -/
theorem eq_of_count_clients {reqQ : List ReqPair} {q q' : ReqPair}
    (hone : (reqQ.map (·.request.clientRequest)).count q.request.clientRequest = 1)
    (hq : q ∈ reqQ) (hq' : q' ∈ reqQ)
    (hclient : q.request.clientRequest = q'.request.clientRequest) : q = q' := by
  have hlength : (reqQ.filter fun q' =>
      q'.request.clientRequest = q.request.clientRequest).length = 1 := by
    rw [← hone, List.count, List.countP_map, ← List.countP_eq_length_filter]
    exact List.countP_congr fun q' _ => by simp
  obtain ⟨z, hz⟩ := List.length_eq_one_iff.mp hlength
  have hmem : q ∈ [z] := hz ▸ List.mem_filter.mpr ⟨hq, by simp⟩
  have hmem' : q' ∈ [z] := hz ▸ List.mem_filter.mpr ⟨hq', by simpa using hclient.symm⟩
  rw [List.mem_singleton.mp hmem, List.mem_singleton.mp hmem']

/-- The renewed queue is not stale when renewed entries are alone. -/
theorem double_of_renewedAlone (hdouble : m.double = false) {slots : List (Fin n)}
    (halone : m.RenewedAlone slots) {need : List ReqPair}
    (hneed : ∀ q, q ∈ need ↔ q ∈ m.gapsFilled.own.reqQ ∧ m.Renewed slots q)
    (hqueue : m'.own.reqQ = (renumber m.id.val need m.newSeq m.gapsFilled.own.reqQ).2) :
    m'.double = false := by
  obtain ⟨fresh, -, hfresh, hmem⟩ := renumber_spec m.id.val need m.gapsFilled.own.reqQ m.newSeq
  rw [← hqueue] at hmem
  -- positions keep their client requests
  have hclients : m'.own.reqQ.map (·.request.clientRequest) =
      m.gapsFilled.own.reqQ.map (·.request.clientRequest) := by
    rw [hqueue]
    exact clients_renumber ..
  -- an entry that is not an old one is the only one for its client request
  have hone : ∀ q ∈ m'.own.reqQ, q ∉ m.own.reqQ ∨ q ∈ fresh →
      (m'.own.reqQ.map (·.request.clientRequest)).count q.request.clientRequest = 1 := by
    intro q hq hnew
    rw [hclients]
    by_cases hf : q ∈ fresh
    · obtain ⟨-, -, q₀, hq₀, hclient⟩ := hfresh q hf
      obtain ⟨hfilled, hrenewed⟩ := (hneed q₀).mp hq₀
      rw [hclient]
      exact halone.count_gapsFilled hfilled fun _ => hrenewed
    · obtain ⟨hold, -⟩ := ((hmem q).mp hq).resolve_left hf
      exact halone.count_gapsFilled hold fun hown => absurd hown (hnew.resolve_right hf)
  rw [double_eq_false_iff]
  intro q hq q' hq' hclient
  by_cases hnew : q ∉ m.own.reqQ ∨ q ∈ fresh
  · rw [eq_of_count_clients (hone q hq hnew) hq hq' hclient]
  by_cases hnew' : q' ∉ m.own.reqQ ∨ q' ∈ fresh
  · rw [eq_of_count_clients (hone q' hq' hnew') hq' hq hclient.symm]
  -- two old entries that are left alone
  simp only [not_or, not_not] at hnew hnew'
  exact double_eq_false_iff.mp hdouble q hnew.1 q' hnew'.1 hclient

/-- A view change of a queue that is not stale: for distinct numbers the queue is not stale
    afterwards iff dummies are alone, and in any queue it is not stale if what is renewed or
    filled in is the only entry for its client request. -/
theorem double_iff (hdouble : m.double = false)
    (h : m.actAsPrimWhenViewChanged resolver order = .ok m') :
    ∃ slots, m.reportingSlots resolver = .ok slots ∧
      ((seqNums m.own.reqQ).Nodup →
        (m'.double = false ↔ m.DummiesAlone resolver order slots)) ∧
      (((n : Int) - m.numberOfByzantine ≤ slots.length →
        (m.takenState resolver order).Returns fun x => x.repState.isSome = true →
          m.RenewedAlone slots) → m'.double = false) := by
  obtain ⟨slots, hslots, hcase⟩ := actAsPrim_result h
  refine ⟨slots, hslots, ?_⟩
  rcases hcase with ⟨hfew, rfl⟩ |
    ⟨hmany, x, hx, ⟨hnone, rs, rfl⟩ | ⟨hsome, need, hneed, -, -, hqueue⟩⟩
  · refine ⟨fun _ => iff_of_true hdouble fun hmany => ?_, fun _ => hdouble⟩
    omega
  · have hempty : (m.setOwn rs.setToTee).double = false := by
      rw [double, own_setOwn]
      rfl
    refine ⟨fun _ => iff_of_true hempty fun _ y hy hsome => ?_, fun _ => hempty⟩
    cases hx.symm.trans hy
    simp [hnone] at hsome
  · refine ⟨fun hnums => ?_, fun halone =>
      double_of_renewedAlone hdouble (halone hmany x hx hsome) hneed hqueue⟩
    rw [double_renewed_iff hnums hdouble hneed hqueue]
    exact ⟨fun hcond _ _ _ _ => hcond, fun hcond => hcond hmany x hx hsome⟩

/-- Two executed requests, two entries with number 4, of which one is prepared, and no entry
    with number 2. -/
def sharedTable : ReplicationModule 6 :=
  viewChangeTable 2 [⟨0, some 9, .append 9⟩]
    [⟨⟨⟨0, some 8, .append 8⟩, 1, 4⟩, {.prePrep, .prep}⟩,
      ⟨⟨⟨0, some 9, .append 9⟩, 1, 4⟩, {.prePrep}⟩,
      ⟨⟨⟨0, some 7, .append 7⟩, 1, 3⟩, {.prePrep, .prep}⟩]

/-- Renewal without a gap, and with a gap and a shared number. -/
theorem double_renewed :
    (∃ m', renewTable.actAsPrimWhenViewChanged viewZero .insertion = .ok m' ∧
      m'.double = false) ∧
    ∃ m', sharedTable.actAsPrimWhenViewChanged viewZero .insertion = .ok m' ∧
      seqNums m'.own.reqQ = [4, 5, 3, 2] ∧ m'.double = false := by
  constructor
  · obtain ⟨m', hok⟩ := completes_renewTable
    obtain ⟨slots, hslots, hiff, -⟩ := double_iff (by decide) hok
    cases hslots.symm.trans reportingSlots_renewTable
    refine ⟨m', hok, (hiff (by decide)).mpr ?_⟩
    unfold DummiesAlone OnlyDummy
    decide
  · obtain ⟨m', hok, hnums⟩ := Py.exists_of_any
      (x := sharedTable.actAsPrimWhenViewChanged viewZero .insertion)
      (p := fun m' => seqNums m'.own.reqQ = [4, 5, 3, 2]) (by decide +kernel)
    obtain ⟨slots, hslots, -, hshared⟩ := double_iff (by decide) hok
    have hall : sharedTable.reportingSlots viewZero = .ok [0, 1, 2, 3, 4, 5] := by decide
    cases hslots.symm.trans hall
    exact ⟨m', hok, of_decide_eq_true hnums, hshared fun _ _ _ _ =>
      ⟨Or.inr ⟨2, by decide, by decide, by decide⟩, by decide⟩⟩

/-- Two executed requests, request 4 prepared, requests 2 and 3 missing. -/
def twoGapsTable : ReplicationModule 6 :=
  viewChangeTable 2 [] [⟨⟨⟨0, some 8, .append 8⟩, 1, 4⟩, {.prePrep, .prep}⟩]

/-- Two dummies make the new primary take its queue for stale. -/
theorem double_dummies :
    twoGapsTable.double = false ∧
      (twoGapsTable.actAsPrimWhenViewChanged viewZero .insertion).map
        (fun m' => (m'.own.reqQ.length, m'.double)) = .ok (3, true) := by
  decide +kernel

end BFTList.ReplicationModule
