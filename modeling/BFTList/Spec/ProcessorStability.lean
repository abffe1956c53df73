import BFTList.Spec.Containers
import BFTList.Spec.PrimaryStatus
import BFTList.Spec.ProcessorNetwork
import BFTList.Spec.StableView
import BFTList.Spec.SuspectedPrimary
import BFTList.Spec.ViewStability

/-!
# Whole processors in a common view

All correct processors have established one view, and their other modules are as they were
started. A view is left when Primary Monitoring asks for a change, when the own view pair is
stale, or when the Replication module demands a flush. As long as no correct processor comes to
suspect the primary, no forged record decides and no state is flushed, none of this happens: the
modules of a processor give each other the answers of a stable view.

## Key results

- `primSusp_uponTokenFromPj`: a token brings the suspicion of its sender only
- `steady_network`: what correct processors keep
- `undisturbed`: views, statuses, suspicions and demands in every such run
-/

namespace BFTList

/-! ## Suspicions -/

namespace FailureDetectorModule

variable {n : Nat} {m : FailureDetectorModule n} {env : FdEnv n} {j k : Fin n} {b : Bool}

@[simp] theorem noteView_id (m : FailureDetectorModule n) : (m.noteView env j).id = m.id := by
  unfold noteView
  split
  · rfl
  · rfl

/-- Noting the view forgets suspicions, or keeps them. -/
theorem noteView_primSusp (h : (m.noteView env j).primSusp k = true) : m.primSusp k = true := by
  unfold noteView at h
  split at h
  · exact h
  · cases h

/-- The processor, and what it was configured with. -/
theorem uponTokenFromPj_config (m : FailureDetectorModule n) (env : FdEnv n) (j : Fin n)
    (b : Bool) :
    (m.uponTokenFromPj env j b).id = m.id ∧
      (m.uponTokenFromPj env j b).selfStab = m.selfStab := by
  have hstab : (m.noteView env j).selfStab = m.selfStab := by
    unfold noteView
    split
    · rfl
    · rfl
  rw [uponTokenFromPj_eq]
  split
  · exact ⟨noteView_id m, hstab⟩
  · split
    · rw [suspectPrim_eq, checkToken_eq]
      exact ⟨noteView_id m, hstab⟩
    · exact ⟨noteView_id m, hstab⟩

/-- What is held against another processor is what it said with this token, or before. -/
theorem primSusp_uponTokenFromPj (hk : k ≠ m.id)
    (h : (m.uponTokenFromPj env j b).primSusp k = true) :
    m.primSusp k = true ∨ (j = k ∧ b = true) := by
  rw [uponTokenFromPj_eq] at h
  split at h
  · cases h
  · split at h
    · have hid : ((m.noteView env j).checkToken env j b).id = m.id := by
        rw [checkToken_eq]
        exact noteView_id m
      rw [suspectPrim_eq, setPrimSusp_primSusp, hid, Function.update_of_ne hk, checkToken_eq] at h
      dsimp only at h
      split at h
      · by_cases hjk : k = j
        · subst hjk
          rw [Function.update_self] at h
          exact Or.inr ⟨rfl, h⟩
        · rw [Function.update_of_ne hjk] at h
          exact Or.inl (noteView_primSusp h)
      · exact Or.inl (noteView_primSusp h)
    · exact Or.inl (noteView_primSusp h)

end FailureDetectorModule

namespace FailureDetectorThread

variable {n f : Nat} {faulty : Finset (Fin n)} {env : FdEnv n} {i : Fin n}

/-- A failure detector that holds nothing of a correct processor against the primary, and has
    no such token in its queue. -/
structure Trusting (f : Nat) (faulty : Finset (Fin n)) (i : Fin n)
    (t : FailureDetectorThread n) : Prop where
  id : t.module.id = i
  stab : t.module.selfStab = true
  byzantine : t.numberOfByzantine = f
  primSusp : ∀ k, k ∉ faulty → t.module.primSusp k = false
  queue : ∀ k b, (k, b) ∈ t.msgQueue → k ∉ faulty → b = false

theorem Trusting.init (i : Fin n) (nodes : Int) :
    (FailureDetectorThread.init i f nodes true).Trusting f faulty i :=
  ⟨rfl, rfl, rfl, fun _ _ => rfl, fun _ _ hmem => absurd hmem List.not_mem_nil⟩

theorem Trusting.receiveMsg {t : FailureDetectorThread n} (h : t.Trusting f faulty i) {j : Fin n}
    {b : Bool} (hb : j ∉ faulty → b = false) : (t.receiveMsg j b).Trusting f faulty i := by
  refine ⟨h.id, h.stab, h.byzantine, h.primSusp, fun k b' hmem hk => ?_⟩
  cases List.mem_append.mp hmem with
  | inl hold => exact h.queue k b' hold hk
  | inr hnew =>
    cases List.mem_singleton.mp hnew
    exact hb hk

/-- The next token keeps the trust unless it makes the own suspicion rise. -/
theorem Trusting.handleToken {t : FailureDetectorThread n} (h : t.Trusting f faulty i)
    (hown : (t.handleToken env).1.primSusp = false) :
    (t.handleToken env).1.Trusting f faulty i := by
  unfold FailureDetectorThread.handleToken at hown ⊢
  split
  · exact h
  · rename_i j b rest hqueue
    rw [hqueue] at hown
    obtain ⟨hid, hstab⟩ := t.module.uponTokenFromPj_config env j b
    refine ⟨hid.trans h.id, hstab.trans h.stab, h.byzantine, fun k hk => ?_, fun k b' hmem => ?_⟩
    · by_cases hki : k = t.module.id
      · rw [hki, ← hid]
        exact hown
      · rw [Bool.eq_false_iff]
        intro hsusp
        cases FailureDetectorModule.primSusp_uponTokenFromPj hki hsusp with
        | inl hold => exact absurd (hold.symm.trans (h.primSusp k hk)) (by decide)
        | inr hnew =>
          obtain ⟨rfl, rfl⟩ := hnew
          have hfalse := h.queue j true (hqueue ▸ List.mem_cons_self) hk
          cases hfalse
    · exact h.queue k b' (hqueue ▸ List.mem_cons_of_mem _ hmem)

theorem Trusting.run {t : FailureDetectorThread n} (h : t.Trusting f faulty i)
    (hown : (t.run env).1.primSusp = false) : (t.run env).1.Trusting f faulty i := by
  have hhandle : (t.handleToken env).1.primSusp = false →
      (t.handleToken env).1.Trusting f faulty i := h.handleToken
  unfold FailureDetectorThread.run at hown ⊢
  dsimp only at hown ⊢
  split at hown
  · rename_i hfirst
    rw [if_pos hfirst]
    have htrust := hhandle hown
    exact ⟨htrust.id, htrust.stab, htrust.byzantine, htrust.primSusp, htrust.queue⟩
  · rename_i hfirst
    rw [if_neg hfirst]
    exact hhandle hown

/-- Faulty processors alone are too few to be believed. -/
theorem Trusting.suspected_eq {t : FailureDetectorThread n} (h : t.Trusting f faulty i)
    (hsize : 3 * f < n) (hfew : faulty.card ≤ f) : t.suspected env = false := by
  have hsub : (Finset.univ.filter fun k => t.module.primSusp k = true ∧
      t.module.getCurrentView env k = t.module.getCurrentView env t.module.id) ⊆ faulty := by
    intro k hk
    by_contra hcorrect
    have hsusp := (Finset.mem_filter.mp hk).2.1
    rw [h.primSusp k hcorrect] at hsusp
    cases hsusp
  have hcard := Finset.card_le_card hsub
  simp only [FailureDetectorThread.suspected, FailureDetectorModule.suspected, h.byzantine,
    decide_eq_false_iff_not]
  omega

end FailureDetectorThread

/-! ## Records -/

namespace PrimaryMonitoringModule

variable {n f : Nat} {faulty : Finset (Fin n)}

/-- A harmless record, or any one of a faulty processor, keeps a processor calm. -/
theorem calmAt_receiveMsg {i j : Fin n} {s : Monitor n} (h : CalmAt f faulty i s) {vcm : Vcm}
    (hvcm : j ∉ faulty → Harmless faulty vcm) :
    CalmAt f faulty i { s with module := s.module.receiveMsg j vcm } := by
  obtain ⟨hid, hcalm, hasked⟩ := h
  unfold receiveMsg
  split
  · refine ⟨hid, ⟨hcalm.byzantine, fun k hk => ?_⟩, hasked⟩
    by_cases hkj : k = j
    · subst hkj
      simpa only [Function.update_self] using hvcm hk
    · simpa only [Function.update_of_ne hkj] using hcalm.records k hk
  · exact ⟨hid, hcalm, hasked⟩

instance (order : SetOrder (Fin n)) (m : PrimaryMonitoringModule n) (k : Fin n) :
    Decidable (m.Decides order k) := inferInstanceAs (Decidable (_ ∧ _))

instance (env : PrimMonEnv n) (order : SetOrder (Fin n)) (m : PrimaryMonitoringModule n) :
    Decidable (m.Unforged faulty env order) := inferInstanceAs (Decidable (_ → _))

end PrimaryMonitoringModule

/-! ## Iterations of the Replication module -/

namespace ReplicationModule

variable {n : Nat} {m m' : ReplicationModule n} {p : Fin n}

/-- A structure with the recorded primary and view change of another one. -/
structure SameView (rs rs' : ReplicaStructure) : Prop where
  prim : rs'.prim = rs.prim
  viewChanged : rs'.viewChanged = rs.viewChanged

theorem SameView.committed {rs rs' : ReplicaStructure} (h : SameView rs rs') (r : Request) :
    SameView rs (committedOwn rs' r) := by
  unfold committedOwn
  split
  · exact ⟨h.prim, h.viewChanged⟩
  · exact ⟨h.prim, h.viewChanged⟩

/-- Preparing requests does not touch what is recorded about the view. -/
theorem prepareReqs_sameView {created : List Request}
    (h : m.prepareReqs p.val = .ok (m', created)) :
    ∃ rs, m' = m.setOwn rs ∧ SameView m.own rs := by
  rcases prepareReqs_cases h with ⟨-, hassign⟩ | ⟨hid, -, m₁, hpre, rfl⟩
  · exact assignSeqNums_invariant (P := fun rs _ => SameView m.own rs) hassign ⟨rfl, rfl⟩
      fun rs _ _ _ hrs _ => ⟨hrs.prim, hrs.viewChanged⟩
  · have hp : p ≠ m.id := fun heq => hid (by rw [heq])
    obtain ⟨rs, rfl, hrs⟩ := prePrepReqs_invariant hp (P := SameView m.own) hpre ⟨rfl, rfl⟩
      fun rs _ hrs _ => ⟨hrs.prim, hrs.viewChanged⟩
    obtain ⟨rs', hprep, hrs'⟩ := prepReqs_invariant (m := m.setOwn rs) (P := SameView m.own)
      (by rwa [own_setOwn]) fun rs _ hrs _ => ⟨hrs.prim, hrs.viewChanged⟩
    rw [setOwn_setOwn] at hprep
    exact ⟨rs', hprep, hrs'⟩

/-- Nor does an iteration once the own structure is reconciled. -/
theorem run_sameView {resolver : Resolver n} {order : SetOrder Int} {it : Iteration n}
    (h : m.run resolver order = .ok it) (hprim : m.primId resolver = p.val) :
    ∃ m₀ rs, m.reconcile resolver order = .ok m₀ ∧ it.after = m₀.setOwn rs ∧
      SameView m₀.own rs := by
  obtain ⟨m₁, created, processing, hprep, -, hrest⟩ := run_cases h
  obtain ⟨m₀, hrec, hcase⟩ := prepared_cases hprep
  obtain ⟨hid, -, -, hstab⟩ := Containers.Table.settings_reconcile hrec
  have hview : m₀.learnPendReqs.primId resolver = p.val := by
    rw [← hprim]
    simp only [primId, learnPendReqs, setOwn_selfStab, setOwn_id, hid, hstab]
  obtain ⟨rs₁, rfl, hrs₁⟩ : ∃ rs, m₁ = m₀.setOwn rs ∧ SameView m₀.own rs := by
    rcases hcase with ⟨-, rfl, -⟩ | ⟨-, -, hreqs⟩
    · exact ⟨_, rfl, rfl, rfl⟩
    · rw [hview] at hreqs
      obtain ⟨rs, rfl, hrs⟩ := prepareReqs_sameView hreqs
      rw [learnPendReqs, own_setOwn] at hrs
      exact ⟨rs, by rw [learnPendReqs, setOwn_setOwn], hrs.prim, hrs.viewChanged⟩
  rcases hrest with ⟨-, hafter, -, -⟩ | ⟨-, hexec⟩
  · exact ⟨m₀, rs₁, hrec, hafter, hrs₁⟩
  · obtain ⟨-, rs, -, -, hafter, hrs, -⟩ := finish_invariant (m := m₀.setOwn rs₁)
      (P := fun rs _ => SameView m₀.own rs) hexec (by rwa [own_setOwn])
      (fun _ _ _ hrs => ⟨hrs.prim, hrs.viewChanged⟩)
      (fun rs r hrs _ => hrs.committed r)
      (fun _ _ rs _ r xSet lastReq hrs _ _ => ⟨hrs.prim, hrs.viewChanged⟩)
    rw [setOwn_setOwn] at hafter
    exact ⟨m₀, rs, hrec, hafter, hrs⟩

end ReplicationModule

/-! ## One processor -/

namespace Member

open ViewEstablishmentModule (InView Setting Reports)
open PrimaryMonitoringModule (CalmAt Harmless)

variable {n f : Nat} {faulty : Finset (Fin n)} {v : Int} {i : Fin n} {s : Member n}

/-- What correct processors start from: view `v` is established, and nothing has happened in
    the other modules. -/
structure Established (f k : Nat) (nodes : Int) (faulty : Finset (Fin n)) (v : Int) (i : Fin n)
    (s : Member n) : Prop where
  viewEst : InView f faulty v i s.viewEst
  others : s = start { Processor.init i f k nodes with viewEst := s.viewEst }

/-- A processor all of whose modules are in the view. -/
structure Steady (f : Nat) (faulty : Finset (Fin n)) (v : Int) (i : Fin n) (s : Member n) :
    Prop where
  viewEst : InView f faulty v i s.viewEst
  primMon : CalmAt f faulty i ⟨s.primMon, s.asked⟩
  failDet : s.failDet.Trusting f faulty i
  id : s.replication.id = i
  stab : s.replication.selfStab = true
  needFlush : s.replication.needFlush = false

/-- What a correct processor sends in the view. -/
def Calming (faulty : Finset (Fin n)) (v : Int) (i j : Fin n) : Msg → Prop
  | .viewEstablishment own about => Reports v i j (own, about)
  | .replication _ => True
  | .primaryMonitoring vcm => Harmless faulty vcm
  | .failureDetector primSusp => primSusp = false

/-- An action that does not disturb the view: no forged record decides, the own suspicion is
    not raised, and the state is not flushed. -/
def Undisturbed (faulty : Finset (Fin n)) (s : Member n) : Action n → Prop
  | .runPrimMon order => s.primMon.Unforged faulty s.toProcessor.primMonEnv order
  | .runFailDet => s.toProcessor.runFailDet.Returns fun after => after.failDet.primSusp = false
  | .runReplication order => NoFlush s.node (.iterate order)
  | .runViewEst | .sendViewEst | .inject _ => True

instance (s : Member n) (a : Action n) : Decidable (s.Undisturbed faulty a) :=
  match a with
  | .runPrimMon _ => inferInstanceAs (Decidable (PrimaryMonitoringModule.Unforged ..))
  | .runFailDet => inferInstanceAs (Decidable (Py.Returns _ _))
  | .runReplication order => inferInstanceAs (Decidable (NoFlush s.node (.iterate order)))
  | .runViewEst | .sendViewEst | .inject _ => .isTrue trivial

theorem Established.steady {k : Nat} {nodes : Int} (h : Established f k nodes faulty v i s) :
    s.Steady f faulty v i := by
  have hview := h.viewEst
  rw [h.others]
  exact {
    viewEst := hview
    primMon := ⟨rfl, ⟨rfl, fun _ _ => PrimaryMonitoringModule.harmless_default _⟩, rfl⟩
    failDet := FailureDetectorThread.Trusting.init i nodes
    id := rfl
    stab := rfl
    needFlush := rfl }

namespace Steady

variable (h : s.Steady f faulty v i) (hs : Setting n f faulty v) (hi : i ∉ faulty)

include h hs hi

/-- Service is allowed in the view. -/
theorem allowService : s.viewEst.allowService = true := by
  obtain ⟨hid, hview⟩ := h.viewEst
  exact hview.allowService_eq hs (hid ▸ hi)

theorem getCurrentView : s.viewEst.getCurrentView i = v := by
  obtain ⟨hid, hview⟩ := h.viewEst
  have hcur := hview.getCurrentView_eq hs (hid ▸ hi)
  rwa [hid] at hcur

omit hs in
theorem noViewChange : s.primMon.noViewChange = true := by
  obtain ⟨hid, hcalm, -⟩ := h.primMon
  exact decide_eq_true (hcalm.own (hid ▸ hi)).1

omit hi in
theorem suspected : s.toProcessor.suspected = false := by
  have hsize := hs.size
  exact h.failDet.suspected_eq (by omega) hs.few

omit hs hi in
/-- Without a demand for a flush there is none to take back. -/
theorem runViewEst_replication : s.toProcessor.runViewEst.replication = s.replication := by
  show (if s.viewEst.runResets s.replication.repNeedFlush then
    s.replication.repRequestReset.2 else s.replication) = s.replication
  split
  · simp [ReplicationModule.repRequestReset, h.needFlush]
  · rfl

/-- The View Establishment module only updates its witnesses, and does not reset. -/
theorem runViewEst : ({ s with toProcessor := s.toProcessor.runViewEst } : Member n).Steady
    f faulty v i := by
  have hkept := h.runViewEst_replication
  have hrun := ViewEstablishmentModule.inView_run hs hi h.viewEst
  refine ⟨?_, h.primMon, h.failDet, ?_, ?_, ?_⟩
  · show InView f faulty v i (s.viewEst.run s.replication.needFlush)
    rw [h.needFlush]
    exact hrun
  · exact (congrArg ReplicationModule.id hkept).trans h.id
  · exact (congrArg ReplicationModule.selfStab hkept).trans h.stab
  · exact (congrArg ReplicationModule.needFlush hkept).trans h.needFlush

/-- Primary Monitoring does not ask for a view change. -/
theorem runPrimMon {order : SetOrder (Fin n)}
    (hok : s.primMon.Unforged faulty s.toProcessor.primMonEnv order) :
    ({ s with
      toProcessor := s.toProcessor.runPrimMon order
      asked := s.asked || (s.primMon.run s.toProcessor.primMonEnv order).2 } : Member n).Steady
      f faulty v i := by
  have hcalm := PrimaryMonitoringModule.calmAt_run hs.size hs.few hi h.primMon
    (h.suspected hs) hok
  have hasks : (s.primMon.run s.toProcessor.primMonEnv order).2 = false := by
    have hnot : (s.asked || (s.primMon.run s.toProcessor.primMonEnv order).2) = false := hcalm.2.2
    exact (Bool.or_eq_false_iff.mp hnot).2
  refine ⟨?_, hcalm, h.failDet, h.id, h.stab, h.needFlush⟩
  show InView f faulty v i
    (if (s.primMon.run s.toProcessor.primMonEnv order).2 then s.viewEst.viewChange else s.viewEst)
  rw [hasks]
  exact h.viewEst

/-- The primary of the iteration is that of the view. -/
theorem primId (p : Fin n) (hp : (p.val : Int) = v) {m : ReplicationModule n} (hid : m.id = i)
    (hstab : m.selfStab = true) : m.primId s.toProcessor.resolver = p.val := by
  show (if m.selfStab = true then s.viewEst.getCurrentView m.id else 0) = _
  rw [hstab, if_pos rfl, hid, h.getCurrentView hs hi, hp]

/-- The Replication module demands no flush. -/
theorem replicate {order : SetOrder Int} {s' : Member n} (hok : NoFlush s.node (.iterate order))
    (hact : s.replicate order = some s') : s'.Steady f faulty v i := by
  unfold Member.replicate Processor.runReplication at hact
  split at hact
  · cases hact
  cases hrun : s.replication.run s.toProcessor.resolver order with
  | error e =>
    rw [hrun] at hact
    cases hact
  | ok it =>
    rw [hrun] at hact
    cases hact
    have hview := hs.view
    obtain ⟨m₀, rs, hrec, hafter, -⟩ := ReplicationModule.run_sameView hrun
      (h.primId hs hi ⟨v.toNat, by omega⟩ (by simp; omega) h.id h.stab)
    obtain ⟨hid, -, -, hstab⟩ := Containers.Table.settings_run hrun
    have hneed : m₀.needFlush = false := hok m₀ hrec
    refine ⟨h.viewEst, h.primMon, h.failDet, hid.trans h.id, hstab.trans h.stab, ?_⟩
    show it.after.needFlush = false
    rw [hafter]
    exact hneed

/-- Every undisturbed action keeps a processor in the view. -/
theorem act {a : Action n} {s' : Member n} (hok : s.Undisturbed faulty a)
    (hact : s.act a = some s') : s'.Steady f faulty v i := by
  cases a with
  | runViewEst =>
    cases hact
    exact h.runViewEst hs hi
  | sendViewEst =>
    cases hact
    obtain ⟨hid, hview⟩ := h.viewEst
    exact { h with viewEst := ⟨hid, ⟨hview.byzantine, hview.phs, hview.views, hview.vChange⟩⟩ }
  | runPrimMon order =>
    cases hact
    exact h.runPrimMon hs hi hok
  | runFailDet =>
    simp only [Member.act, Processor.runFailDet, bind, Except.bind, pure, Except.pure] at hact
    cases henv : s.toProcessor.fdEnv with
    | error e =>
      rw [henv] at hact
      cases hact
    | ok env =>
      rw [henv] at hact
      cases hact
      have hrun : s.toProcessor.runFailDet =
          .ok { s.toProcessor with failDet := (s.failDet.run env).1 } := by
        simp only [Processor.runFailDet, henv, bind, Except.bind, pure, Except.pure]
      have hown : (s.failDet.run env).1.primSusp = false := hok _ hrun
      exact { h with failDet := h.failDet.run hown }
  | runReplication order => exact h.replicate hs hi hok hact
  | inject req =>
    cases hact
    exact { h with }

omit hs in
/-- What a correct processor sends keeps others in the view. -/
theorem calming {j : Fin n} {msg : Msg} (hmsg : msg ∈ (protocol n).emit i s j) :
    Calming faulty v i j msg := by
  obtain ⟨-, rfl | ⟨rfl, -⟩ | rfl | rfl⟩ := mem_emit hmsg
  · exact ViewEstablishmentModule.reports_ownData hi h.viewEst
  · trivial
  · obtain ⟨hid, hcalm, -⟩ := h.primMon
    exact hcalm.own (hid ▸ hi)
  · exact h.failDet.primSusp _ (h.failDet.id ▸ hi)

omit hs hi in
/-- So does any message of a faulty processor. -/
theorem receive {j : Fin n} {msg : Msg} (hmsg : j ∉ faulty → Calming faulty v j i msg) :
    ({ s with toProcessor := s.toProcessor.dispatchMsg j msg } : Member n).Steady f faulty v i := by
  cases msg with
  | viewEstablishment own about =>
    exact { h with viewEst := ViewEstablishmentModule.inView_receiveMsg h.viewEst hmsg }
  | replication rep =>
    obtain ⟨copy, heq, -⟩ := ReplicationModule.receiveRepMsg_cases s.replication
      s.toProcessor.resolver j rep
    have hkept : (s.toProcessor.dispatchMsg j (.replication rep)).replication =
        { s.replication with rep := Function.update s.replication.rep j copy } := heq
    exact { h with
      id := (congrArg ReplicationModule.id hkept).trans h.id
      stab := (congrArg ReplicationModule.selfStab hkept).trans h.stab
      needFlush := (congrArg ReplicationModule.needFlush hkept).trans h.needFlush }
  | primaryMonitoring vcm =>
    exact { h with primMon := PrimaryMonitoringModule.calmAt_receiveMsg h.primMon hmsg }
  | failureDetector b => exact { h with failDet := h.failDet.receiveMsg hmsg }

end Steady

/-! ## Runs -/

/-- What correct processors keep in every undisturbed run. -/
theorem steady_network (hs : Setting n f faulty v) {k : Nat} {nodes : Int}
    {net : Network (Fin n) (Member n) Msg}
    (h : (network faulty (Established f k nodes faulty v)).Run
      (Network.locally fun _ => Undisturbed faulty) net) :
    Network.Local (protocol n) faulty (Steady f faulty v) (Calming faulty v) net := by
  refine Network.Run.of_local ?_ ?_ ?_ ?_ h
  · intro net hnet
    exact Network.Local.of_noFlight (fun i hi => (hnet.1 i hi).steady) hnet.2
  · intro i hi a s s' hsteady hok hact
    exact hsteady.act hs hi hok hact
  · intro i hi s j msg hsteady hmsg
    exact hsteady.calming hi hmsg
  · intro j _ s i msg hsteady hmsg _
    exact hsteady.receive hmsg

/-- With at most `f` faulty processors, every correct one stays in the established view, serves
    in it and has not asked for a change, in every run of whole processors in which nobody comes
    to suspect the primary, no forged record decides and no state is flushed. -/
theorem undisturbed (hs : Setting n f faulty v) {k : Nat} {nodes : Int}
    {net : Network (Fin n) (Member n) Msg}
    (h : (network faulty (Established f k nodes faulty v)).Run
      (Network.locally fun _ => Undisturbed faulty) net) {i : Fin n} (hi : i ∉ faulty) :
    (net.nodes i).viewEst.phs i = 0 ∧ (net.nodes i).viewEst.views i = ⟨v, v⟩ ∧
      (net.nodes i).viewEst.allowService = true ∧
      (net.nodes i).viewEst.getCurrentView i = v ∧
      (net.nodes i).primMon.noViewChange = true ∧ (net.nodes i).asked = false ∧
      (net.nodes i).toProcessor.suspected = false ∧
      (net.nodes i).replication.repNeedFlush = false := by
  have hsteady := (steady_network hs h).nodes i hi
  exact ⟨hsteady.viewEst.2.phs i hi, hsteady.viewEst.2.views i hi,
    hsteady.allowService hs hi, hsteady.getCurrentView hs hi, hsteady.noViewChange hi,
    hsteady.primMon.2.2, hsteady.suspected hs, hsteady.needFlush⟩

/-! ## Six processors -/

/-- Six processors that have established view 0. -/
def sixInView : Network (Fin 6) (Member 6) Msg :=
  ⟨fun i => start { Processor.init i 1 1 6 with
    viewEst := { ViewEstablishmentModule.init i 1 with views := fun _ => ⟨0, 0⟩ } }, []⟩

theorem sixInView_init :
    (network {5} (Established 1 1 6 {5} 0)).init sixInView :=
  ⟨fun _ _ => ⟨⟨rfl, ⟨rfl, fun _ _ => rfl, fun _ _ => rfl, fun _ _ => rfl⟩⟩, rfl⟩, rfl⟩

/-- Processor 5 accuses the primary, and processor 0 goes on. -/
theorem undisturbed_six : ∃ net : Network (Fin 6) (Member 6) Msg,
    (net.nodes 0).failDet.module.primSusp 5 = true ∧ (net.nodes 0).primMon.own.prim = 0 ∧
      (net.nodes 0).toProcessor.suspected = false ∧ (net.nodes 0).asked = false := by
  have hexec : (System.exec (Network.nextIf (protocol 6) {5}
      (Network.locally fun _ => Undisturbed {5})) sixInView
      [.forge 5 0 (.failureDetector true), .act 0 .runFailDet,
        .forge 5 0 (.viewEstablishment ⟨0, true, ⟨1, 1⟩, true⟩ ⟨none, 0, none, none⟩),
        .act 0 .runViewEst, .act 0 (.runPrimMon .insertion)]).any
      (fun net => (net.nodes 0).failDet.module.primSusp 5 = true ∧
        (net.nodes 0).primMon.own.prim = 0) = true := by
    decide +kernel
  obtain ⟨net, hrun, hp⟩ := Network.Run.of_exec (.init sixInView_init) hexec
  obtain ⟨hsusp, hprim⟩ := of_decide_eq_true hp
  obtain ⟨-, -, -, -, -, hasked, hnot, -⟩ :=
    undisturbed ⟨by decide, by decide, by decide, by decide⟩ hrun (i := 0) (by decide)
  exact ⟨net, hsusp, hprim, hnot, hasked⟩

end Member

end BFTList
