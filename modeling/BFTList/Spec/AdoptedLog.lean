import BFTList.Spec.CompatibleStates

/-!
# Whose log is adopted

A consolidated state has the support of many processors. The log that comes with
it has none: it is the beginning of the log of the first chosen processor whose
log produces an end of the state, with the numbers and sets of processors that
this one processor put there.

## Key results

- `consolidate_adopts`: what consolidation takes over
- `adoptedLog_correct`: with backed logs the log after consolidation is that of a correct replica
- `adoptedLog_forged`: with a forged log it is not
-/

namespace BFTList

namespace ReplicationModule

variable {n : Nat} {m m' : ReplicationModule n}

/-- Consolidation takes over the consolidated pair. -/
def Adopts (m : ReplicationModule n) : Prop :=
  ∃ x, m.consolidated = .ok x ∧
    (m.setOwn { m.own with conFlag := x.repState.isNone }).mustAdopt x = .ok true

instance (m : ReplicationModule n) : Decidable m.Adopts :=
  inferInstanceAs (Decidable (∃ x, m.consolidated = .ok x ∧ _))

/-- Consolidation takes over state and log of the consolidated pair, or flags a conflict
    or none and leaves the rest. -/
theorem consolidate_adopts (h : m.consolidate = .ok m') :
    ∃ x, m.consolidated = .ok x ∧
      ((¬ m.Adopts ∧ m' = m.setOwn { m.own with conFlag := x.repState.isNone }) ∨
        (m.Adopts ∧ x.repState.isSome = true ∧ m' = m.setOwn { m.own with
          conFlag := x.repState.isNone, repState := x.repState.getD [], rLog := x.rLog })) := by
  simp only [consolidate] at h
  obtain ⟨x, hx, h⟩ := Py.of_bind h
  obtain ⟨adopt, hadopt, h⟩ := Py.of_bind h
  refine ⟨x, hx, ?_⟩
  split at h
  -- state and log are taken over together
  · rename_i htrue
    rw [htrue] at hadopt
    have hsome : x.repState.isSome = true := by
      cases hstate : x.repState with
      | none => simp [mustAdopt, hstate, pure, Except.pure] at hadopt
      | some s => rfl
    cases h
    rw [own_setOwn, setOwn_setOwn]
    exact Or.inr ⟨⟨x, hx, hadopt⟩, hsome, rfl⟩
  -- only the flag for a conflict changes
  · rename_i hfalse
    cases h
    refine Or.inl ⟨?_, rfl⟩
    rintro ⟨x', hx', hadopt'⟩
    rw [hx] at hx'
    cases hx'
    rw [hadopt] at hadopt'
    cases hadopt'
    exact hfalse rfl

/-! ## Faulty processors -/

/-- Whatever beginning of a faulty processor's log produces a piece of a correct processor's
    state is the beginning of a correct processor's log. -/
def LogsBacked (m : ReplicationModule n) (faulty : Finset (Fin n)) : Prop :=
  ∀ j ∈ faulty, ∀ part ∈ (m.rep j).rLog.inits,
    (∃ i, i ∉ faulty ∧ replay part <:+: (m.rep i).repState) →
      ∃ i, i ∉ faulty ∧ part <+: (m.rep i).rLog

instance (m : ReplicationModule n) (faulty : Finset (Fin n)) : Decidable (m.LogsBacked faulty) :=
  inferInstanceAs (Decidable (∀ j ∈ faulty, ∀ part ∈ (m.rep j).rLog.inits, _ → _))

/-- A beginning of a log with consecutive numbers from 0 on does not end later. -/
theorem lastSeq_le_of_prefix {part rLog : List LogEntry} (hpart : part <+: rLog)
    (hlog : Consecutive rLog) (hfrom : ∀ e ∈ rLog, 0 ≤ e.request.seqNum) :
    lastSeq part ≤ lastSeq rLog := by
  by_cases hne : part = []
  · -- an empty log counts as -1
    rw [hne]
    show -1 ≤ lastSeq rLog
    rw [lastSeq]
    split
    · rename_i e he
      have hpos := hfrom e (List.mem_of_getLast? he)
      omega
    · exact Int.le_refl _
  · have hlast : lastSeq part = (part.getLast hne).request.seqNum := by
      rw [lastSeq, List.getLast?_eq_getLast_of_ne_nil hne]
    rw [hlast]
    exact hlog.ascending.le_lastSeq (hpart.subset (List.getLast_mem hne))

/-- After the consolidation step of a correct processor its log is the beginning of the log of
    a correct one, and ends no later, if the logs of the faulty ones are backed. -/
theorem adoptedLog_correct {faulty : Finset (Fin n)} (hn : 5 * m.numberOfByzantine + 1 ≤ n)
    (hfaulty : faulty.card ≤ m.numberOfByzantine) (hids : ∀ j, (m.rep j).id = j.val)
    (hself : m.id ∉ faulty)
    (hlogs : ∀ i, i ∉ faulty → Consecutive (m.rep i).rLog ∧
      ∀ e ∈ (m.rep i).rLog, 0 ≤ e.request.seqNum)
    (hbacked : m.LogsBacked faulty) (h : m.consolidate = .ok m') :
    ∃ i, i ∉ faulty ∧ m'.own.rLog <+: (m.rep i).rLog ∧
      m'.lastExec ≤ lastSeq (m.rep i).rLog := by
  suffices hpre : ∃ i, i ∉ faulty ∧ m'.own.rLog <+: (m.rep i).rLog by
    obtain ⟨i, hi, hpre⟩ := hpre
    exact ⟨i, hi, hpre, lastSeq_le_of_prefix hpre (hlogs i hi).1 (hlogs i hi).2⟩
  obtain ⟨x, hx, ⟨-, rfl⟩ | ⟨-, hsome, rfl⟩⟩ := consolidate_adopts h
  -- nothing is adopted: the own log is that of a correct processor
  · refine ⟨m.id, hself, ?_⟩
    rw [own_setOwn]
    exact List.prefix_rfl
  rw [own_setOwn]
  obtain ⟨s, hs⟩ := Option.isSome_iff_exists.mp hsome
  obtain ⟨-, hlog⟩ := consolidated_source hids (by omega) hx hs
  show ∃ i, i ∉ faulty ∧ x.rLog <+: (m.rep i).rLog
  rw [hlog]
  cases hfit : m.fittingLog m.supporters s with
  | none =>
    -- without a fitting log the empty one is adopted
    exact ⟨m.id, hself, List.nil_prefix⟩
  | some source =>
    obtain ⟨j, -, hmap⟩ := List.exists_of_findSome?_eq_some hfit
    obtain ⟨part, hpart, rfl⟩ := Option.map_eq_some_iff.mp hmap
    obtain ⟨hpre, -, hsuffix, -⟩ := matchingPart_spec hpart
    show ∃ i, i ∉ faulty ∧ part <+: (m.rep i).rLog
    by_cases hj : j ∈ faulty
    · -- the state it fits is the beginning of a correct processor's state
      obtain ⟨c, hc, hstate⟩ := exists_correct_of_consolidated hn hfaulty hids hx hs
      exact hbacked j hj part ((List.mem_inits _ _).mpr hpre)
        ⟨c, hc, hsuffix.isInfix.trans hstate.isInfix⟩
    · exact ⟨j, hj, hpre⟩

/-! ## Two tables -/

/-- Processor 0 has executed one request, the others twenty; processor 1 claims that it executed
    another one under number 1000. -/
def misledTable : ReplicationModule 6 :=
  { delayedTable with
    rep := Function.update delayedTable.rep 1
      { delayedTable.rep 1 with
        rLog := [⟨⟨⟨0, some 99, .append 99⟩, 1, 1000⟩, some {0, 1, 2, 3}⟩] } }

/-- The delayed processor adopts the log of a correct one. -/
theorem adoptedLog_correct_misled : ∃ m', misledTable.consolidate = .ok m' ∧ m'.lastExec = 19 ∧
    ∃ i, i ∉ ({1} : Finset (Fin 6)) ∧ m'.own.rLog <+: (misledTable.rep i).rLog ∧
      m'.lastExec ≤ lastSeq (misledTable.rep i).rLog := by
  obtain ⟨m', hok, hlast⟩ := Py.exists_of_any (x := misledTable.consolidate)
    (p := fun m' => m'.lastExec = 19) (by decide +kernel)
  exact ⟨m', hok, of_decide_eq_true hlast,
    adoptedLog_correct (by decide) (by decide) (by decide) (by decide) (by decide) (by decide) hok⟩

/-- Six processors have executed one request; processor 0 claims number 1000 for it,
    and that four processors did. -/
def forgedLogTable : ReplicationModule 6 :=
  { viewChangeTable 1 [] [] with
    id := 1
    rep := Function.update (viewChangeTable 1 [] []).rep 0
      { (viewChangeTable 1 [] []).rep 0 with
        rLog := [⟨⟨⟨0, some 0, .append 0⟩, 1, 1000⟩, some {0, 1, 2, 3}⟩] } }

/-- Processor 1 believes that it is delayed, and adopts the forged log. -/
theorem adoptedLog_forged :
    (∀ i, i ∉ ({0} : Finset (Fin 6)) → Consecutive (forgedLogTable.rep i).rLog ∧
      replay (forgedLogTable.rep i).rLog <:+ (forgedLogTable.rep i).repState ∧
      lastSeq (forgedLogTable.rep i).rLog = 0) ∧
    ∃ m', forgedLogTable.Adopts ∧ forgedLogTable.consolidate = .ok m' ∧ m'.lastExec = 1000 ∧
      ¬ ∃ i, i ∉ ({0} : Finset (Fin 6)) ∧ m'.own.rLog <+: (forgedLogTable.rep i).rLog := by
  obtain ⟨m', hok, hp⟩ := Py.exists_of_any (x := forgedLogTable.consolidate)
    (p := fun m' => m'.lastExec = 1000 ∧
      ¬ ∃ i, i ∉ ({0} : Finset (Fin 6)) ∧ m'.own.rLog <+: (forgedLogTable.rep i).rLog)
    (by decide +kernel)
  obtain ⟨hlast, hnone⟩ := of_decide_eq_true hp
  exact ⟨by decide, m', by decide +kernel, hok, hlast, hnone⟩

end ReplicationModule

end BFTList
