import BFTList.Spec.NewView

/-!
# The last common execution

`last_common_exec()` is meant to be the last request that `n - 2f` processors have
executed. It is the largest last number of a log whose last entry names `n - 2f`
processors, and what an entry names is up to the structure that it is in. A log keeps as
many entries as a processor may be behind before it counts as delayed, so one that is not
delayed still finds its next request; but one faulty structure is enough to make every
processor delayed.

## Key results

- `lastCommonExec_spec`: the result is the largest number that a structure claims
- `next_logged`: a processor that is not delayed finds its next request in the logs of others
- `delayed_backed_iff`: when a correct processor backs `delayed()` and `last_common_exec()`
- `delayed_forged`: one faulty structure makes a correct processor delayed
-/

namespace BFTList

/-! ## Logs that are written entry by entry -/

/-- A log written entry by entry in ascending order keeps the last entries. -/
theorem ReplicaStructure.rLog_foldlM_addToRLog {entries : List LogEntry}
    (hasc : Ascending entries) {rs rs' : ReplicaStructure} (hempty : rs.rLog = [])
    (h : entries.foldlM addToRLog rs = .ok rs') :
    rs'.rLog = entries.drop (entries.length - 3 * SIGMA * rs.numberOfClients) ∧
      rs'.numberOfClients = rs.numberOfClients := by
  induction entries using List.reverseRecOn generalizing rs' with
  | nil =>
    simp only [List.foldlM_nil, pure, Except.pure, Except.ok.injEq] at h
    simp [← h, hempty]
  | append_singleton entries e ih =>
    rw [List.foldlM_append] at h
    obtain ⟨rs₁, hrs₁, h⟩ := Py.of_bind h
    obtain ⟨hlog, hclients⟩ := ih (List.pairwise_append.mp hasc).1 hrs₁
    simp only [List.foldlM_cons, List.foldlM_nil, bind_pure, addToRLog] at h
    split at h
    · cases h
    · cases h
      refine ⟨?_, hclients⟩
      -- the log with the new entry is the end of all entries so far
      have hend : rs₁.rLog ++ [e] = (entries ++ [e]).drop
          (entries.length - 3 * SIGMA * rs.numberOfClients) := by
        rw [hlog, List.drop_append_of_le_length (Nat.sub_le _ _)]
      have hasc' : Ascending (rs₁.rLog ++ [e]) := by
        rw [hend]
        exact hasc.sublist (List.drop_sublist _ _)
      show trimRLog rs₁.numberOfClients (rs₁.rLog ++ [e]) = _
      rw [trimRLog_eq_drop hasc', hend, List.drop_drop, hclients]
      congr 1
      simp only [List.length_drop, List.length_append, List.length_singleton]
      omega

/-- The entries have the numbers from `0` to `last`. -/
def CountsTo (entries : List LogEntry) (last : Nat) : Prop :=
  entries.map (·.request.seqNum) = (List.range (last + 1)).map fun i : Nat => (i : Int)

namespace CountsTo

variable {entries : List LogEntry} {last : Nat} (h : CountsTo entries last)

include h

theorem length_eq : entries.length = last + 1 := by
  have hlength := congrArg List.length h
  rwa [List.length_map, List.length_map, List.length_range] at hlength

theorem seqNum_getElem (i : Nat) (hi : i < entries.length) :
    (entries[i]).request.seqNum = i := by
  have hget := congrArg (·[i]?) h
  simp only [List.getElem?_map, List.getElem?_eq_getElem hi, Option.map_some,
    List.getElem?_range (h.length_eq ▸ hi), Option.some.injEq] at hget
  exact hget

theorem ascending : Ascending entries := by
  apply List.pairwise_iff_getElem.mpr
  intro i i' hi hi' hlt
  rw [h.seqNum_getElem i hi, h.seqNum_getElem i' hi']
  exact Int.ofNat_lt.mpr hlt

/-- What is left of the entries ends with the last number. -/
theorem lastSeq_drop {count : Nat} (hcount : count ≤ last) :
    lastSeq (entries.drop count) = last := by
  have hlength := h.length_eq
  rw [lastSeq, List.getLast?_drop, if_neg (by omega), List.getLast?_eq_getElem?, hlength,
    Nat.add_sub_cancel, List.getElem?_eq_getElem (by omega)]
  exact h.seqNum_getElem last _

/-- It has every number from the count of those that are gone. -/
theorem exists_mem_drop {count i : Nat} (hlow : count ≤ i) (hhigh : i ≤ last) :
    ∃ e ∈ entries.drop count, e.request.seqNum = i := by
  have hlength := h.length_eq
  refine ⟨entries[i], ?_, h.seqNum_getElem i _⟩
  rw [List.mem_iff_getElem]
  refine ⟨i - count, by rw [List.length_drop]; omega, ?_⟩
  rw [List.getElem_drop]
  congr 1
  omega

end CountsTo

namespace ReplicationModule

variable {n : Nat} {m : ReplicationModule n} {faulty : Finset (Fin n)}

/-! ## What structures claim -/

/-- The number of the last entry, if it names `n - 2f` processors. -/
def claimedExec (m : ReplicationModule n) (j : Fin n) : Option Int :=
  match (m.rep j).rLog.getLast? with
  | some ⟨r, some xSet⟩ =>
    if (n : Int) - 2 * m.numberOfByzantine ≤ xSet.card then some r.seqNum else none
  | _ => none

/-- The last entry of every log names processors; without `x_set` the call raises. -/
def LogsNamed (m : ReplicationModule n) : Prop :=
  ∀ j, ∀ e ∈ (m.rep j).rLog.getLast?, e.xSet.isSome = true

/-- A structure claims its last number or nothing. -/
theorem lastSeq_of_claimedExec {j : Fin n} {s : Int} (h : m.claimedExec j = some s) :
    lastSeq (m.rep j).rLog = s := by
  unfold claimedExec at h
  split at h
  · rename_i r xSet hlast
    split at h
    · cases h
      rw [lastSeq, hlast]
    · cases h
  · cases h

/-- One round of the loop. -/
def commonStep (m : ReplicationModule n) (best : Int) (j : Fin n) : Py Int :=
  match (m.rep j).rLog.getLast? with
  | none => return best
  | some x =>
    match x.xSet with
    | none => throw .valueError
    | some xSet => do
      if (n : Int) - 2 * m.numberOfByzantine ≤ xSet.card ∧
          (best = -1 ∨ best < x.request.seqNum) then return x.request.seqNum
      return best

/-- A round takes a larger number that is claimed, or leaves the one it has. -/
theorem commonStep_cases {best best' : Int} {j : Fin n} (h : m.commonStep best j = .ok best') :
    (best' = best ∧ ∀ s, m.claimedExec j = some s → s ≤ best) ∨
      (m.claimedExec j = some best' ∧ (best = -1 ∨ best < best')) := by
  unfold commonStep at h
  unfold claimedExec
  split at h
  · rename_i hnone
    cases h
    simp [hnone]
  · rename_i x hlast
    split at h
    · cases h
    · rename_i xSet hx
      obtain ⟨r, xs⟩ := x
      have hx' : xs = some xSet := hx
      subst hx'
      simp only [hlast]
      split at h
      · rename_i htake
        cases h
        exact Or.inr ⟨if_pos htake.1, htake.2⟩
      · rename_i hleave
        cases h
        left
        refine ⟨rfl, fun s hs => ?_⟩
        split at hs
        · rename_i hmany
          cases hs
          have hle := not_or.mp fun hor => hleave ⟨hmany, hor⟩
          exact Int.not_lt.mp hle.2
        · cases hs

theorem commonStep_completes {j : Fin n} (h : ∀ e ∈ (m.rep j).rLog.getLast?, e.xSet.isSome = true)
    (best : Int) : (m.commonStep best j).Completes := by
  unfold commonStep
  split
  · exact ⟨_, rfl⟩
  · rename_i x hlast
    obtain ⟨xSet, hx⟩ := Option.isSome_iff_exists.mp (h x hlast)
    rw [hx]
    dsimp only
    split
    · exact ⟨_, rfl⟩
    · exact ⟨_, rfl⟩

/-- The loop over a part of the table. -/
theorem foldlM_commonStep {l : List (Fin n)} {best b : Int}
    (h : l.foldlM m.commonStep best = .ok b) :
    (b = best ∨ ∃ j ∈ l, m.claimedExec j = some b) ∧ max best (-1) ≤ max b (-1) ∧
      ∀ j ∈ l, ∀ s, m.claimedExec j = some s → s ≤ max b (-1) := by
  induction l generalizing best with
  | nil =>
    simp only [List.foldlM_nil, pure, Except.pure, Except.ok.injEq] at h
    simp [h]
  | cons j l ih =>
    rw [List.foldlM_cons] at h
    obtain ⟨best', hstep, h⟩ := Py.of_bind h
    obtain ⟨hresult, hmono, hclaims⟩ := ih h
    cases commonStep_cases hstep with
    | inl hleave =>
      obtain ⟨rfl, hle⟩ := hleave
      refine ⟨?_, hmono, ?_⟩
      · exact hresult.imp_right fun ⟨i, hi, hb⟩ => ⟨i, List.mem_cons_of_mem j hi, hb⟩
      · intro i hi s hs
        cases List.mem_cons.mp hi with
        | inl heq =>
          have hs' := hle s (heq ▸ hs)
          omega
        | inr hmem => exact hclaims i hmem s hs
    | inr htake =>
      obtain ⟨hclaim, hlarger⟩ := htake
      refine ⟨Or.inr ?_, ?_, ?_⟩
      · cases hresult with
        | inl heq => exact ⟨j, List.mem_cons_self, heq ▸ hclaim⟩
        | inr hmem =>
          obtain ⟨i, hi, hb⟩ := hmem
          exact ⟨i, List.mem_cons_of_mem j hi, hb⟩
      · omega
      · intro i hi s hs
        cases List.mem_cons.mp hi with
        | inl heq =>
          rw [heq, hclaim] at hs
          cases hs
          omega
        | inr hmem => exact hclaims i hmem s hs

/-- The result is a number that a structure claims, or `-1`, and no other one is larger. -/
theorem lastCommonExec_spec {b : Int} (h : m.lastCommonExec = .ok b) :
    (b = -1 ∨ ∃ j, m.claimedExec j = some b) ∧
      ∀ j s, m.claimedExec j = some s → s ≤ max b (-1) := by
  obtain ⟨hresult, -, hclaims⟩ := foldlM_commonStep h
  constructor
  · exact hresult.imp_right fun ⟨j, _, hb⟩ => ⟨j, hb⟩
  · exact fun j s hs => hclaims j (List.mem_finRange j) s hs

theorem lastCommonExec_completes_iff : m.lastCommonExec.Completes ↔ m.LogsNamed := by
  constructor
  · intro h j e he
    obtain ⟨b, hb⟩ := h
    obtain ⟨best, best', hstep⟩ := exists_of_foldlM hb (List.mem_finRange j)
    have hstep' : m.commonStep best j = .ok best' := hstep
    rw [commonStep, Option.mem_def.mp he] at hstep'
    cases hx : e.xSet with
    | none =>
      simp only [hx] at hstep'
      cases hstep'
    | some xSet => rfl
  · intro h
    apply foldlM_completes_of_forall
    exact fun best j _ => commonStep_completes (h j) best

theorem delayed_of_lastCommonExec {b : Int} (h : m.lastCommonExec = .ok b) :
    m.delayed = .ok (decide (m.lastExec < b - 3 * m.numberOfClients * SIGMA)) := by
  simp only [delayed, h, bind, Except.bind, pure, Except.pure]

/-! ## Catching up -/

/-- With sequence numbers from 0 on nothing is below the number of an empty log. -/
theorem neg_one_le_lastExec (h : ∀ e ∈ m.own.rLog, 0 ≤ e.request.seqNum) : -1 ≤ m.lastExec := by
  rw [lastExec_eq, lastSeq]
  split
  · rename_i e he
    have hpos := h e (List.mem_of_getLast? he)
    omega
  · exact Int.le_refl _

/-- A processor may be as far behind as a log is long. -/
theorem delay_eq (m : ReplicationModule n) :
    (3 * m.numberOfClients * SIGMA : Int) = ((3 * SIGMA * m.numberOfClients : Nat) : Int) := by
  push_cast
  exact mul_right_comm _ _ _

/-- Let the log of a structure be written entry by entry from the numbers `0` to `last`, and
    its last entry name `n - 2f` processors. A processor behind it that is not delayed finds
    its next number there. -/
theorem next_logged (hown : ∀ e ∈ m.own.rLog, 0 ≤ e.request.seqNum) {j : Fin n}
    {entries : List LogEntry} {last : Nat} {rs rs' : ReplicaStructure}
    (hnums : entries.map (·.request.seqNum) = (List.range (last + 1)).map fun i : Nat => (i : Int))
    (hempty : rs.rLog = []) (hclients : rs.numberOfClients = m.numberOfClients)
    (hwritten : entries.foldlM ReplicaStructure.addToRLog rs = .ok rs')
    (hlog : (m.rep j).rLog = rs'.rLog) (hclaim : (m.claimedExec j).isSome = true)
    (hdelayed : m.delayed = .ok false) (hbehind : m.lastExec < last) :
    ∃ e ∈ (m.rep j).rLog, e.request.seqNum = m.lastExec + 1 := by
  have hcounts : CountsTo entries last := hnums
  obtain ⟨hdrop, -⟩ :=
    ReplicaStructure.rLog_foldlM_addToRLog hcounts.ascending hempty hwritten
  rw [hclients, hcounts.length_eq] at hdrop
  rw [hdrop] at hlog
  -- the last number is claimed, so the last common one is not below it
  obtain ⟨s, hs⟩ := Option.isSome_iff_exists.mp hclaim
  have hroom : 0 < 3 * SIGMA * m.numberOfClients := by
    apply Nat.pos_of_ne_zero
    intro hzero
    have hnil : (m.rep j).rLog = [] := by
      rw [hlog, hzero, List.drop_eq_nil_iff, hcounts.length_eq]
      exact Nat.le_refl _
    simp [claimedExec, hnil] at hs
  have hlast : s = last := by
    rw [← lastSeq_of_claimedExec hs, hlog]
    exact hcounts.lastSeq_drop (by omega)
  simp only [delayed] at hdelayed
  obtain ⟨b, hb, hdelayed⟩ := Py.of_bind hdelayed
  have hle := (lastCommonExec_spec hb).2 j s hs
  have hnot : ¬ m.lastExec < b - 3 * m.numberOfClients * SIGMA := by
    simpa [pure, Except.pure] using hdelayed
  have hlow := neg_one_le_lastExec hown
  have hbound := delay_eq m
  -- what the log keeps begins no later than the next number
  obtain ⟨i, hi⟩ := Int.eq_ofNat_of_zero_le (by omega : 0 ≤ m.lastExec + 1)
  rw [hlog, hi]
  exact hcounts.exists_mem_drop (by omega) (by omega)

/-- A log of 15 entries for the numbers from 1 on. -/
def longLog : List LogEntry :=
  (List.range 16).map fun i : Nat => ⟨⟨⟨0, some i, .append i⟩, 0, i⟩, some {0, 1, 2, 3}⟩

/-- Processor 0 has executed request 0, and processors 1 to 4 the requests up to 15. -/
def behindTable : ReplicationModule 6 :=
  { init 0 1 1 true with
    rep := fun j =>
      { ReplicaStructure.init j.val 1 with
        rLog := if j = 0 then longLog.take 1 else if j = 5 then [] else longLog.drop 1 } }

theorem next_logged_behind :
    ∃ e ∈ (behindTable.rep 1).rLog, e.request.seqNum = behindTable.lastExec + 1 := by
  obtain ⟨rs', hrs', hlog⟩ : ∃ rs', longLog.foldlM ReplicaStructure.addToRLog
      (ReplicaStructure.init 1 1) = .ok rs' ∧ rs'.rLog = longLog.drop 1 := by
    decide
  have hnums : longLog.map (·.request.seqNum) =
      (List.range (15 + 1)).map fun i : Nat => (i : Int) := by decide
  exact next_logged (by decide) hnums rfl rfl hrs' hlog.symm (by decide)
    (by decide) (by decide)

/-! ## Faulty structures -/

/-- What a faulty structure claims is backed by a correct processor that has got as far. -/
def ClaimsBacked (m : ReplicationModule n) (faulty : Finset (Fin n)) : Prop :=
  m.LogsNamed → ∀ j ∈ faulty, ∀ s, m.claimedExec j = some s →
    ∃ i, i ∉ faulty ∧ s ≤ lastSeq (m.rep i).rLog

/-- If a faulty structure claims a number so far ahead that the processor counts as delayed,
    some correct processor is as far ahead. -/
def DelayBacked (m : ReplicationModule n) (faulty : Finset (Fin n)) : Prop :=
  m.LogsNamed → ∀ j ∈ faulty, ∀ s, m.claimedExec j = some s →
    m.lastExec + 3 * m.numberOfClients * SIGMA < s →
      ∃ i, i ∉ faulty ∧ m.lastExec + 3 * m.numberOfClients * SIGMA < lastSeq (m.rep i).rLog

/-- A correct processor with a log from number 0 on: `delayed()` is true only if a correct
    processor is that far ahead, iff far claims of faulty structures are backed; and
    `last_common_exec()` is not above all correct processors, iff all claims of faulty
    structures are backed. -/
theorem delayed_backed_iff (hself : m.id ∉ faulty)
    (hown : ∀ e ∈ m.own.rLog, 0 ≤ e.request.seqNum) :
    ((m.delayed = .ok true → ∃ i, i ∉ faulty ∧
        m.lastExec + 3 * m.numberOfClients * SIGMA < lastSeq (m.rep i).rLog) ↔
      m.DelayBacked faulty) ∧
    ((∀ b, m.lastCommonExec = .ok b → ∃ i, i ∉ faulty ∧ b ≤ lastSeq (m.rep i).rLog) ↔
      m.ClaimsBacked faulty) := by
  have hlow := neg_one_le_lastExec hown
  have hbound := delay_eq m
  constructor
  · constructor
    · intro h hnamed j _ s hs hfar
      obtain ⟨b, hb⟩ := lastCommonExec_completes_iff.mpr hnamed
      have hle := (lastCommonExec_spec hb).2 j s hs
      apply h
      rw [delayed_of_lastCommonExec hb]
      exact congrArg Except.ok (decide_eq_true (by omega))
    · intro h hdelayed
      have hdelayed' := hdelayed
      simp only [delayed] at hdelayed'
      obtain ⟨b, hb, -⟩ := Py.of_bind hdelayed'
      rw [delayed_of_lastCommonExec hb, Except.ok.injEq, decide_eq_true_eq] at hdelayed
      rcases (lastCommonExec_spec hb).1 with rfl | ⟨j, hj⟩
      · omega
      · by_cases hfaulty : j ∈ faulty
        · exact h (lastCommonExec_completes_iff.mp ⟨b, hb⟩) j hfaulty b hj (by omega)
        · refine ⟨j, hfaulty, ?_⟩
          rw [lastSeq_of_claimedExec hj]
          omega
  · constructor
    · intro h hnamed j _ s hs
      obtain ⟨b, hb⟩ := lastCommonExec_completes_iff.mpr hnamed
      have hle := (lastCommonExec_spec hb).2 j s hs
      obtain ⟨i, hi, hbi⟩ := h b hb
      by_cases hpos : -1 ≤ b
      · exact ⟨i, hi, by omega⟩
      · refine ⟨m.id, hself, ?_⟩
        show s ≤ m.lastExec
        omega
    · intro h b hb
      rcases (lastCommonExec_spec hb).1 with rfl | ⟨j, hj⟩
      · exact ⟨m.id, hself, hlow⟩
      · by_cases hfaulty : j ∈ faulty
        · exact h (lastCommonExec_completes_iff.mp ⟨b, hb⟩) j hfaulty b hj
        · exact ⟨j, hfaulty, Int.le_of_eq (lastSeq_of_claimedExec hj).symm⟩

/-- Processor 0 has executed nothing, processors 1 to 4 the requests up to 15, and processor 5
    claims that one numbered 15 is another one. -/
def claimingTable : ReplicationModule 6 :=
  { init 0 1 1 true with
    rep := fun j =>
      { ReplicaStructure.init j.val 1 with
        rLog := if j = 0 then []
          else if j = 5 then [⟨⟨⟨0, some 99, .append 99⟩, 0, 15⟩, some {0, 1, 2, 5}⟩]
          else longLog.drop 1 } }

/-- Processor 0 is delayed, and a correct processor is that far ahead. -/
theorem delayed_backed_behind :
    claimingTable.delayed = .ok true ∧ claimingTable.claimedExec 5 = some 15 ∧
      (∃ i, i ∉ ({5} : Finset (Fin 6)) ∧
        claimingTable.lastExec + 3 * claimingTable.numberOfClients * SIGMA <
          lastSeq (claimingTable.rep i).rLog) ∧
      ∀ b, claimingTable.lastCommonExec = .ok b →
        ∃ i, i ∉ ({5} : Finset (Fin 6)) ∧ b ≤ lastSeq (claimingTable.rep i).rLog := by
  have hid : claimingTable.id ∉ ({5} : Finset (Fin 6)) := by decide
  have hiff := delayed_backed_iff hid (by decide)
  have hdelayed : claimingTable.delayed = .ok true := by decide
  have hclaim : claimingTable.claimedExec 5 = some 15 := by decide
  refine ⟨hdelayed, hclaim, hiff.1.mpr ?_ hdelayed, hiff.2.mpr ?_⟩
  · intro _ j hj s hs _
    cases Finset.mem_singleton.mp hj
    cases hclaim.symm.trans hs
    exact ⟨1, by decide, by decide⟩
  · intro _ j hj s hs
    cases Finset.mem_singleton.mp hj
    cases hclaim.symm.trans hs
    exact ⟨1, by decide, by decide⟩

/-- Six processors that have executed nothing, but for what processor 5 claims. -/
def forgedTable : ReplicationModule 6 :=
  { init 0 1 1 true with
    rep := fun j =>
      { ReplicaStructure.init j.val 1 with
        rLog := if j = 5 then [⟨⟨⟨0, some 0, .append 0⟩, 0, 100⟩, some {0, 1, 2, 3}⟩] else [] } }

/-- The claim of processor 5 makes processor 0 delayed. -/
theorem delayed_forged :
    forgedTable.delayed = .ok true ∧ forgedTable.lastCommonExec = .ok 100 ∧
      forgedTable.lastExec = -1 ∧
      ∀ i, i ∉ ({5} : Finset (Fin 6)) → lastSeq (forgedTable.rep i).rLog = -1 := by
  decide

end ReplicationModule

end BFTList
