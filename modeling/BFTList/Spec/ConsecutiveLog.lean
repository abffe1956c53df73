import BFTList.Spec.NodeRuns

/-!
# The executed log has no gaps

Here the steps of a processor may come in any order, and with any answers of the
other modules: parts of an iteration, single executions, messages, calls. The
log is appended to, trimmed, cut, replaced and cleared; its sequence numbers stay
consecutive, provided that those of received logs are.

## Key results

- `Consecutive.ascending`: consecutive numbers ascend, so the last one is the largest
- `reached_run`: an iteration is a sequence of steps
- `consecutive_rLog`: the log and `last_exec()` in every reachable state
-/

namespace BFTList

open ReplicationModule

/-! ## Consecutive logs -/

/-- Each sequence number is one more than the one before. -/
def Consecutive (rLog : List LogEntry) : Prop :=
  rLog.IsChain fun e e' => e'.request.seqNum = e.request.seqNum + 1

instance (rLog : List LogEntry) : Decidable (Consecutive rLog) :=
  inferInstanceAs (Decidable (rLog.IsChain _))

namespace Consecutive

variable {rLog : List LogEntry}

theorem of_infix (h : Consecutive rLog) {part : List LogEntry} (hpart : part <:+: rLog) :
    Consecutive part := h.infix hpart

theorem ascending (h : Consecutive rLog) : Ascending rLog := by
  have hlt : rLog.IsChain fun e e' => e.request.seqNum < e'.request.seqNum := by
    apply h.imp
    intro e e' hnext
    omega
  exact hlt.pairwise

/-- The next number continues the log. -/
theorem concat (h : Consecutive rLog) {e : LogEntry}
    (he : e.request.seqNum = lastSeq rLog + 1) : Consecutive (rLog ++ [e]) := by
  -- the only new pair is the last entry and the one before it
  apply List.isChain_append.mpr
  refine ⟨h, List.isChain_singleton e, ?_⟩
  intro last hlast first hfirst
  cases hfirst
  rw [Option.mem_def] at hlast
  rw [he, lastSeq, hlast]

end Consecutive

/-- Logs with consecutive numbers. The 6 clients of a flush are a positive number too. -/
def consecutiveLogs (n : Nat) : Containers n where
  rLog := Consecutive
  clients k := 0 < k
  rLog_nil := List.isChain_nil
  rLog_prefix hpre h := h.of_infix hpre.isInfix
  rLog_commit := by
    intro k l r xSet _ h _ hnext
    have hall : Consecutive (l ++ [⟨r, some xSet⟩]) := h.concat hnext
    -- in an ascending log the lowest number is the first one, which is dropped
    rw [ReplicaStructure.trimRLog_eq_drop hall.ascending]
    exact hall.of_infix (List.drop_suffix _ _).isInfix

/-! ## Steps in any order -/

/-- The steps of a processor and of those who call it. -/
inductive ModuleStep (n : Nat) where
  | noticeView (resolver : Resolver n)
  | actOnViewChange (resolver : Resolver n) (order : SetOrder Int)
  | consolidate
  | flushStep
  | learnPendReqs
  | prepareReqs (primId : Int)
  | commitReqs
  | commit (request : Request)
  | commitRaises (request : Request)
  | receiveRepMsg (resolver : Resolver n) (j : Fin n) (rep : ReplicaStructure)
  | injectClientReq (req : ClientRequest)
  | replicaFlush
  | repRequestReset

namespace ReplicationModule

variable {n : Nat} {i : Fin n} {f k : Nat} {selfStab : Bool} {m m' : ReplicationModule n}

/-- A request is handed to `commit()` when enough processors committed it and it is the
    next. -/
def Hands (m : ReplicationModule n) (request : Request) (xSet : Finset Int) : Prop :=
  m.committedSet request = .ok xSet ∧ (n : Int) - 2 * m.numberOfByzantine ≤ xSet.card ∧
    request.seqNum = m.lastExec + 1

/-- The module after a step. -/
def Takes (m : ReplicationModule n) : ModuleStep n → ReplicationModule n → Prop
  | .noticeView resolver, m' => m' = m.noticeView resolver
  | .actOnViewChange resolver order, m' => m.actOnViewChange resolver order = .ok m'
  | .consolidate, m' => m.consolidate = .ok m'
  | .flushStep, m' => m.flushStep = .ok m'
  | .learnPendReqs, m' => m' = m.learnPendReqs
  | .prepareReqs primId, m' => ∃ created, m.prepareReqs primId = .ok (m', created)
  | .commitReqs, m' => m' = m.commitReqs
  | .commit request, m' => ∃ xSet, m.Hands request xSet ∧ m.commit request xSet = (m', none)
  | .commitRaises request, m' =>
      ∃ xSet e, m.Hands request xSet ∧ m.commit request xSet = (m', some e)
  | .receiveRepMsg resolver j rep, m' => j ≠ m.id ∧ m' = m.receiveRepMsg resolver j rep
  | .injectClientReq req, m' => m' = m.injectClientReq req
  | .replicaFlush, m' => m' = m.replicaFlush
  | .repRequestReset, m' => m' = m.repRequestReset.2

/-- A module whose steps come in any order. -/
def stepwise (i : Fin n) (f k : Nat) (selfStab : Bool) :
    System (ReplicationModule n) (ModuleStep n) where
  init m := m = init i f k selfStab
  step := Takes

/-- Received structures have the property. -/
def Receives (P : ReplicaStructure → Prop) : ModuleStep n → Prop
  | .receiveRepMsg _ _ rep => P rep
  | _ => True

/-- The module is reached by steps that receive only structures with the property. -/
def Reached (P : ReplicaStructure → Prop) (i : Fin n) (f k : Nat) (selfStab : Bool)
    (m : ReplicationModule n) : Prop :=
  (stepwise i f k selfStab).Run (fun _ step => Receives P step) m

namespace Reached

variable {P : ReplicaStructure → Prop}

theorem step (h : Reached P i f k selfStab m) (step : ModuleStep n) (hstep : m.Takes step m')
    (hreceives : Receives P step) : Reached P i f k selfStab m' :=
  System.Run.step h hreceives hstep

/-- View change, consolidation and flush are steps. -/
theorem reconcile (h : Reached P i f k selfStab m) {resolver : Resolver n} {order : SetOrder Int}
    (hrec : m.reconcile resolver order = .ok m') : Reached P i f k selfStab m' := by
  rw [reconcile_eq] at hrec
  split at hrec
  · obtain ⟨m₁, hm₁, hrec⟩ := Py.of_bind hrec
    -- up to the consolidation
    have hm₁' : Reached P i f k selfStab m₁ := by
      unfold unflushed at hm₁
      split at hm₁
      · obtain ⟨m₂, hm₂, hm₁⟩ := Py.of_bind hm₁
        have hnotice := h.step (.noticeView resolver) rfl trivial
        have hact := hnotice.step (.actOnViewChange resolver order) hm₂ trivial
        exact hact.step .consolidate hm₁ trivial
      · exact h.step .consolidate hm₁ trivial
    exact hm₁'.step .flushStep hrec trivial
  · cases hrec
    exact h

/-- The loop over requests executes one after the other. -/
theorem executeReqs (reqs : List Request) : ∀ {m : ReplicationModule n} (committed : List Request),
    Reached P i f k selfStab m →
      Reached P i f k selfStab (ReplicationModule.executeReqs reqs m committed).1 := by
  induction reqs with
  | nil => exact fun _ h => h
  | cons r reqs ih =>
    intro m committed h
    unfold ReplicationModule.executeReqs
    split
    · exact h
    · rename_i xSet hxSet
      split
      · rename_i hnext
        -- the guard of the loop is the one of the step
        split
        · rename_i m₁ e hcommit
          exact h.step (.commitRaises r) ⟨xSet, e, ⟨hxSet, hnext⟩, hcommit⟩ trivial
        · rename_i m₁ hcommit
          apply ih
          exact h.step (.commit r) ⟨xSet, ⟨hxSet, hnext⟩, hcommit⟩ trivial
      · exact ih committed h

/-- A whole iteration is a sequence of steps. -/
theorem run (h : Reached P i f k selfStab m) {resolver : Resolver n} {order : SetOrder Int}
    {it : Iteration n} (hrun : m.run resolver order = .ok it) :
    Reached P i f k selfStab it.after := by
  obtain ⟨m₁, created, processing, hprep, -, hrest⟩ := run_cases hrun
  have hm₁ : Reached P i f k selfStab m₁ := by
    obtain ⟨m₀, hrec, hcase⟩ := prepared_cases hprep
    have hlearn := (h.reconcile hrec).step .learnPendReqs rfl trivial
    rcases hcase with ⟨-, rfl, -⟩ | ⟨-, -, hprepare⟩
    · exact hlearn
    · exact hlearn.step (.prepareReqs _) ⟨created, hprepare⟩ trivial
  rcases hrest with ⟨-, hafter, -⟩ | ⟨-, hexec⟩
  · exact hafter ▸ hm₁
  -- the requests to execute are those supported after the commits
  · have hcommit := hm₁.step .commitReqs rfl trivial
    have hall := hcommit.executeReqs
      (m₁.commitReqs.supportedReqs {.prep, .commit}) []
    rw [← hexec] at hall
    exact hall

end Reached

/-! ## What every step keeps -/

/-- All structures of the table keep consecutive logs. -/
theorem consecutive_takes (h : (consecutiveLogs n).Table m) {step : ModuleStep n}
    (hstep : m.Takes step m') (hreceives : Receives (fun rep => Consecutive rep.rLog) step) :
    (consecutiveLogs n).Table m' := by
  cases step with
  | noticeView resolver => exact hstep ▸ h.noticeView trivial
  | actOnViewChange resolver order => exact h.actOnViewChange hstep
  | consolidate => exact h.consolidate hstep
  | flushStep => exact h.flushStep (fun _ => Nat.succ_pos 5) hstep
  | learnPendReqs => exact hstep ▸ h.learnPendReqs
  | prepareReqs primId =>
    obtain ⟨created, hprep⟩ := hstep
    exact h.prepareReqs hprep
  | commitReqs => exact hstep ▸ h.commitReqs
  | commit r =>
    obtain ⟨xSet, ⟨-, -, hnext⟩, hcommit⟩ := hstep
    exact h.commit trivial hnext hcommit
  | commitRaises r =>
    obtain ⟨xSet, e, ⟨-, -, hnext⟩, hcommit⟩ := hstep
    exact h.commit trivial hnext hcommit
  | receiveRepMsg resolver j rep =>
    obtain ⟨hne, rfl⟩ := hstep
    -- of a received structure only the log has a property
    exact h.receiveRepMsg hne fun _ => ⟨trivial, hreceives, trivial, trivial, trivial⟩
  | injectClientReq req => exact hstep ▸ h.injectClientReq trivial
  | replicaFlush =>
    cases hstep
    exact { h with }
  | repRequestReset =>
    cases hstep
    rw [repRequestReset_eq]
    exact { h with }

theorem consecutive_reached (hk : 0 < k)
    (h : Reached (fun rep => Consecutive rep.rLog) i f k selfStab m) :
    (consecutiveLogs n).Table m := by
  apply h.invariant (I := (consecutiveLogs n).Table)
  · rintro m rfl
    exact ⟨trivial, Containers.holds_init trivial, trivial, hk⟩
  · intro m step m' hm hreceives hstep
    exact consecutive_takes hm hstep hreceives

/-- In every state that is reached by steps in any order, if the received logs
    are consecutive, the own log is: `last_exec()` is its largest number, and
    handing the next request to `commit()` raises `last_exec()` by one. -/
theorem consecutive_rLog (hk : 0 < k)
    (h : Reached (fun rep => Consecutive rep.rLog) i f k selfStab m) :
    Consecutive m.own.rLog ∧ (∀ e ∈ m.own.rLog, e.request.seqNum ≤ m.lastExec) ∧
      (m.own.rLog ≠ [] → ∃ e ∈ m.own.rLog, e.request.seqNum = m.lastExec) ∧
      ∀ r m', m.Takes (.commit r) m' → m'.lastExec = m.lastExec + 1 := by
  have htable := consecutive_reached hk h
  have hlog := htable.own.rLog
  refine ⟨hlog, fun e he => hlog.ascending.le_lastSeq he, fun hne => ?_, ?_⟩
  -- `last_exec()` reads the last entry
  · refine ⟨m.own.rLog.getLast hne, List.getLast_mem hne, ?_⟩
    rw [lastExec_eq, lastSeq, List.getLast?_eq_getLast_of_ne_nil hne]
  · rintro r m' ⟨xSet, ⟨-, -, hnext⟩, hcommit⟩
    obtain ⟨lastReq, rfl⟩ := commit_spec hcommit
    rw [lastExec_eq, own_setOwn, ← hnext]
    -- trimming keeps the entry that was just added
    exact lastSeq_executed hlog.ascending htable.own.clients hnext xSet lastReq

/-! ## A processor that catches up -/

/-- A replica that executed 15 requests and has committed another one. -/
def aheadReport (j : Fin 6) : ReplicaStructure :=
  { ReplicaStructure.init j.val 1 with
    repState := List.range 15
    rLog := (List.range 15).map fun i => ⟨⟨⟨0, some i, .append i⟩, 0, i⟩, some {0, 1, 2, 3}⟩
    reqQ := [⟨⟨⟨0, some 15, .append 15⟩, 0, 15⟩, {.prePrep, .prep, .commit}⟩] }

/-- Processor 0 when the others have reported. -/
def behind : ReplicationModule 6 :=
  [1, 2, 3, 4, 5].foldl (fun m j => m.receiveRepMsg ⟨true, true, fun _ => 0⟩ j (aheadReport j))
    (init 0 1 1 true)

/-- Processor 0 adopts the state of the others with a log of 15 entries, and executes request
    15. The log is full, so it loses its first entry. -/
theorem consecutive_rLog_behind :
    ∃ m : ReplicationModule 6, m.own.rLog.length = 15 ∧ m.lastExec = 15 ∧
      Consecutive m.own.rLog ∧ ∀ r m', m.Takes (.commit r) m' → m'.lastExec = 16 := by
  obtain ⟨it, hrun, hp⟩ := Py.exists_of_any
    (x := behind.run ⟨true, true, fun _ => 0⟩ .insertion)
    (p := fun it => it.after.own.rLog.length = 15 ∧ it.after.lastExec = 15) (by decide +kernel)
  obtain ⟨hlength, hlast⟩ := of_decide_eq_true hp
  -- five structures are received one after the other
  have hbehind : behind.id = 0 ∧
      Reached (fun rep => Consecutive rep.rLog) (0 : Fin 6) 1 1 true behind := by
    refine List.foldl_invariant (P := fun m => m.id = 0 ∧
      Reached (fun rep => Consecutive rep.rLog) (0 : Fin 6) 1 1 true m) _ _ ⟨rfl, .init rfl⟩ ?_
    intro m j hj hm
    have hreceives : Consecutive (aheadReport j).rLog := by decide +revert
    have hne : j ≠ m.id := by
      rw [hm.1]
      rintro rfl
      exact absurd hj (by decide)
    exact ⟨by simpa using hm.1, hm.2.step (.receiveRepMsg _ j _) ⟨hne, rfl⟩ hreceives⟩
  have hall := consecutive_rLog (by decide) (hbehind.2.run hrun)
  refine ⟨it.after, hlength, hlast, hall.1, fun r m' hstep => ?_⟩
  rw [hall.2.2.2 r m' hstep, hlast]
  rfl

end ReplicationModule

end BFTList
