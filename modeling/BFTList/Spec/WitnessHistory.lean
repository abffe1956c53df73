import BFTList.ForStd.Quorum
import BFTList.Spec.ViewPairs

/-!
# Which witnesses an automaton step has

The set of witnesses grows with every flag that is reported, and is emptied by a reset alone.
So a step of the automaton has `n - f` processors that echo what the processor sent last and
that have been witnessed at some time since the last reset, which may have been in another
phase: a later report without the flag takes nobody out of the set.

A run is recorded together with what has been reported: for every processor the last flag and
the last echo, the data the processor itself sent last, and who has been witnessed since the
last reset.

## Key results

- `Sound.next`: what the module knows and what has been reported, after every step
- `witnesses_since_reset`: who stands behind a step of the automaton
- `witnesses_withdrawn`: five witnesses of six, of whom four have withdrawn
-/

namespace BFTList.ViewEstablishmentModule

variable {n : Nat} {m m' : ViewEstablishmentModule n}

/-! ## Actions and the witness tables -/

/-- An action that leaves the witnesses and the echoes of others alone. -/
structure KeepsWitnesses (m m' : ViewEstablishmentModule n) : Prop where
  id : m'.id = m.id
  byzantine : m'.numberOfByzantine = m.numberOfByzantine
  witnesses : m'.witnesses = m.witnesses
  witnessesSet : m'.witnessesSet = m.witnessesSet
  echo : ∀ k, k ≠ m.id → m'.echo k = m.echo k

namespace KeepsWitnesses

theorem refl (m : ViewEstablishmentModule n) : KeepsWitnesses m m :=
  ⟨rfl, rfl, rfl, rfl, fun _ _ => rfl⟩

theorem nextPhs (h : KeepsWitnesses m m') : KeepsWitnesses m m'.nextPhs :=
  ⟨h.id, h.byzantine, h.witnesses, h.witnessesSet, h.echo⟩

theorem resetVChange (h : KeepsWitnesses m m') : KeepsWitnesses m m'.resetVChange :=
  ⟨h.id, h.byzantine, h.witnesses, h.witnessesSet, h.echo⟩

theorem setOwnViews (m : ViewEstablishmentModule n) (vpair : VPair) :
    KeepsWitnesses m (m.setOwnViews vpair) := by
  refine ⟨rfl, rfl, rfl, rfl, fun k hk => ?_⟩
  simp only [ViewEstablishmentModule.setOwnViews]
  split
  · exact Function.update_of_ne hk _ _
  · rfl

end KeepsWitnesses

theorem automationPhaseZero_witnesses (hphs : m.phs m.id = 0) :
    (m.resets = true ∧ m.automationPhaseZero = m.resetAll) ∨
      (m.resets = false ∧ KeepsWitnesses m m.automationPhaseZero) := by
  have hone : ¬ m.phs m.id = 1 := by rw [hphs]; decide
  unfold automationPhaseZero
  cases hpair : m.pairToAdoptZero with
  | some vpair =>
    exact Or.inr ⟨by simp [resets, hone, hpair], (KeepsWitnesses.setOwnViews m _).nextPhs⟩
  | none =>
    by_cases hcase1 : m.caseOneZero = true
    · right
      refine ⟨by simp [resets, hone, hcase1], ?_⟩
      simp only [hcase1, if_true]
      split
      · exact (KeepsWitnesses.setOwnViews m _).nextPhs
      · split
        · exact (KeepsWitnesses.refl m).nextPhs
        · exact KeepsWitnesses.refl m
    · by_cases hcase2 : m.caseTwoZero = true
      · right
        refine ⟨by simp [resets, hone, hcase2], ?_⟩
        simp only [hcase1, hcase2, if_true, if_false, Bool.false_eq_true]
        exact KeepsWitnesses.refl m
      · left
        exact ⟨by simp [resets, hphs, hpair, hcase1, hcase2], by simp [hcase1, hcase2]⟩

theorem automationPhaseOne_witnesses (hphs : m.phs m.id = 1) :
    (m.resets = true ∧ m.automationPhaseOne = m.resetAll) ∨
      (m.resets = false ∧ KeepsWitnesses m m.automationPhaseOne) := by
  have hzero : ¬ m.phs m.id = 0 := by rw [hphs]; decide
  unfold automationPhaseOne
  cases hpair : m.pairToAdoptOne with
  | some vpair =>
    exact Or.inr ⟨by simp [resets, hzero, hpair], (KeepsWitnesses.setOwnViews m _).resetVChange⟩
  | none =>
    by_cases hcase1 : m.establishable 1 .follow = true
    · right
      refine ⟨by simp [resets, hzero, hcase1], ?_⟩
      simp only [hcase1, if_true]
      exact (KeepsWitnesses.setOwnViews m _).resetVChange.nextPhs
    · by_cases hcase2 : m.transitAdopble m.id 1 .remain = true
      · right
        refine ⟨by simp [resets, hzero, hcase2], ?_⟩
        simp only [hcase1, hcase2, if_true, if_false, Bool.false_eq_true]
        exact (KeepsWitnesses.refl m).resetVChange
      · left
        exact ⟨by simp [resets, hphs, hpair, hcase1, hcase2], by simp [hcase1, hcase2]⟩

/-- The automaton resets everything, or leaves the witnesses alone. -/
theorem automation_witnesses (m : ViewEstablishmentModule n) :
    (m.resets = true ∧ m.automation = m.resetAll) ∨
      (m.resets = false ∧ KeepsWitnesses m m.automation) := by
  unfold automation
  split
  · rename_i hphs
    exact automationPhaseZero_witnesses hphs
  · rename_i hzero
    split
    · rename_i hphs
      exact automationPhaseOne_witnesses hphs
    · rename_i hone
      exact Or.inr ⟨by simp [resets, hzero, hone], KeepsWitnesses.refl m⟩

/-! ## Recorded runs -/

/-- A module with the last flag and echo of every processor, the data the processor sent last,
    who has been witnessed since the last reset, and whether the processor has sent its data
    since its last iteration. -/
structure Recorded (n : Nat) where
  module : ViewEstablishmentModule n
  flag : Fin n → Bool
  lastEcho : Fin n → Echo
  sent : Echo
  since : Finset (Fin n)
  ready : Bool

namespace Recorded

/-- A new processor, which has neither sent nor heard anything. -/
def start (id : Fin n) (f : Nat) : Recorded n where
  module := ViewEstablishmentModule.init id f
  flag := fun _ => false
  lastEcho := fun _ => ⟨none, 0, none, none⟩
  sent := ⟨none, 0, none, none⟩
  since := ∅
  ready := true

/-- A reset forgets who has been witnessed. -/
def reset (s : Recorded n) : Recorded n := { s with module := s.module.resetAll, since := ∅ }

/-- The own flag is computed, and the witnesses are added. -/
def witness (s : Recorded n) : Recorded n :=
  let seen := s.module.noticedRecentValue
  let witnesses := Function.update s.module.witnesses s.module.id seen
  { s with
    module := { s.module with
      witnesses := witnesses
      witnessesSet := s.module.witnessesSet ∪ Finset.univ.filter fun k => witnesses k }
    flag := Function.update s.flag s.module.id seen
    since := if seen then insert s.module.id s.since else s.since }

/-- An iteration up to the test of the witnesses. -/
def notice (s : Recorded n) (needFlush : Bool) : Recorded n :=
  if s.module.needReset needFlush then s.reset.witness else s.witness

/-- The step of the automaton. -/
def act (s : Recorded n) : Recorded n :=
  if s.module.resets then s.reset else { s with module := s.module.automation }

/-- One iteration. -/
def iterate (s : Recorded n) (needFlush : Bool) : Recorded n :=
  { (if (s.notice needFlush).module.witnesSeen then (s.notice needFlush).act
      else s.notice needFlush) with ready := false }

/-- The own data is sent. -/
def send (s : Recorded n) : Recorded n :=
  let data := s.module.aboutData s.module.id
  { s with
    module := s.module.sendOwn
    lastEcho := Function.update s.lastEcho s.module.id data
    sent := data
    ready := true }

/-- A message of processor `j`; one that is not valid reports nothing. -/
def receive (s : Recorded n) (j : Fin n) (own : OwnData) (about : Echo) : Recorded n :=
  if valid n own then
    { s with
      module := s.module.receiveMsg j own about
      flag := Function.update s.flag j own.witness
      lastEcho := Function.update s.lastEcho j about
      since := if own.witness then insert j s.since else s.since }
  else s

/-- One step; the loop of `run()` sends the own data before it iterates again. -/
def next (s : Recorded n) : Action n → Option (Recorded n)
  | .run needFlush => if s.ready then some (s.iterate needFlush) else none
  | .sendOwn => some s.send
  | .receiveMsg j own about => if j ≠ s.module.id then some (s.receive j own about) else none
  | .viewChange => some { s with module := s.module.viewChange }

/-- Recorded runs of processor `id`. -/
def recording (id : Fin n) (f : Nat) : System (Recorded n) (Action n) where
  init s := s = start id f
  step s a s' := s.next a = some s'

/-! ## What is recorded -/

theorem notice_module (s : Recorded n) (needFlush : Bool) :
    (s.notice needFlush).module = s.module.noticeWitnesses needFlush := by
  unfold notice noticeWitnesses
  split
  · rfl
  · rfl

theorem act_module (s : Recorded n) : s.act.module = s.module.automation := by
  unfold act
  cases automation_witnesses s.module with
  | inl h => rw [if_pos h.1, h.2]; rfl
  | inr h => rw [if_neg (by rw [h.1]; decide)]

theorem iterate_module (s : Recorded n) (needFlush : Bool) :
    (s.iterate needFlush).module = s.module.run needFlush := by
  simp only [iterate, ViewEstablishmentModule.run, notice_module]
  split
  · rw [act_module, notice_module]
  · exact notice_module s needFlush

theorem receive_module (s : Recorded n) (j : Fin n) (own : OwnData) (about : Echo) :
    (s.receive j own about).module = s.module.receiveMsg j own about := by
  unfold receive receiveMsg
  split
  · rfl
  · rfl

/-- A recorded step is one of the module. -/
theorem process_step {s s' : Recorded n} {a : Action n} {id : Fin n} {f : Nat}
    (h : s.next a = some s') : (process id f).step s.module a s'.module := by
  cases a with
  | run needFlush =>
    simp only [next, Option.ite_none_right_eq_some, Option.some.injEq] at h
    rw [← h.2]
    exact iterate_module s needFlush
  | sendOwn =>
    cases h
    rfl
  | receiveMsg j own about =>
    simp only [next, Option.ite_none_right_eq_some, Option.some.injEq] at h
    rw [← h.2]
    exact ⟨h.1, receive_module s j own about⟩
  | viewChange =>
    cases h
    rfl

/-- Recorded runs are runs of the module. -/
theorem process_reachable {id : Fin n} {f : Nat} {s : Recorded n}
    (h : (recording id f).Reachable s) : (process id f).Reachable s.module := by
  induction h with
  | init h => exact .init (by rw [h]; rfl)
  | step _ _ h ih => exact .step ih trivial (process_step h)

/-! ## The module knows what has been reported -/

/-- The tables of the module against what has been reported. -/
structure Sound (s : Recorded n) (id : Fin n) (f : Nat) : Prop where
  flags : ∀ k, s.module.witnesses k = true → k ∈ s.since
  witnessed : s.module.witnessesSet ⊆ s.since
  echoes : ∀ k, k ≠ s.module.id → s.module.echo k = s.lastEcho k
  own : s.ready = true → s.module.echo s.module.id = s.sent
  ownSent : s.lastEcho s.module.id = s.sent
  self : s.module.id = id
  byzantine : s.module.numberOfByzantine = f

/-- Nobody is forgotten when a flag is recorded. -/
theorem subset_record (since : Finset (Fin n)) (k : Fin n) (flag : Bool) :
    since ⊆ if flag then insert k since else since := by
  split
  · exact Finset.subset_insert _ _
  · exact Finset.Subset.refl _

theorem sound_start (id : Fin n) (f : Nat) : (start id f).Sound id f where
  flags _ h := absurd h Bool.false_ne_true
  witnessed := Finset.empty_subset _
  echoes _ _ := rfl
  own _ := rfl
  ownSent := rfl
  self := rfl
  byzantine := rfl

namespace Sound

variable {s s' : Recorded n} {id : Fin n} {f : Nat}

theorem reset (h : s.Sound id f) : s.reset.Sound id f where
  flags _ hk := absurd hk Bool.false_ne_true
  witnessed := Finset.empty_subset _
  echoes := h.echoes
  own := h.own
  ownSent := h.ownSent
  self := h.self
  byzantine := h.byzantine

/-- The own flag is recorded when it is computed. -/
theorem witness (h : s.Sound id f) : s.witness.Sound id f := by
  have hflags : ∀ k, s.witness.module.witnesses k = true → k ∈ s.witness.since := by
    intro k hk
    simp only [Recorded.witness] at hk ⊢
    by_cases hid : k = s.module.id
    · subst hid
      rw [Function.update_self] at hk
      simp [hk]
    · rw [Function.update_of_ne hid] at hk
      split
      · exact Finset.mem_insert_of_mem (h.flags k hk)
      · exact h.flags k hk
  have hgrows : s.since ⊆ s.witness.since := subset_record _ _ _
  refine ⟨hflags, ?_, h.echoes, h.own, h.ownSent, h.self, h.byzantine⟩
  apply Finset.union_subset (h.witnessed.trans hgrows)
  intro k hk
  exact hflags k (Finset.mem_filter.mp hk).2

theorem notice (h : s.Sound id f) (needFlush : Bool) : (s.notice needFlush).Sound id f := by
  unfold Recorded.notice
  split
  · exact h.reset.witness
  · exact h.witness

/-- The automaton may write into the own echo, which is sent before it is looked at again. -/
theorem act (h : s.Sound id f) : { s.act with ready := false }.Sound id f := by
  unfold Recorded.act
  cases automation_witnesses s.module with
  | inl hreset =>
    rw [if_pos hreset.1]
    exact ⟨h.reset.flags, h.reset.witnessed, h.reset.echoes, nofun, h.reset.ownSent, h.self,
      h.byzantine⟩
  | inr hkept =>
    obtain ⟨hno, hkept⟩ := hkept
    rw [if_neg (by rw [hno]; decide)]
    refine ⟨?_, ?_, ?_, nofun, ?_, hkept.id.trans h.self, hkept.byzantine.trans h.byzantine⟩
    · show ∀ k, s.module.automation.witnesses k = true → k ∈ s.since
      rw [hkept.witnesses]
      exact h.flags
    · show s.module.automation.witnessesSet ⊆ s.since
      rw [hkept.witnessesSet]
      exact h.witnessed
    · show ∀ k, k ≠ s.module.automation.id → s.module.automation.echo k = s.lastEcho k
      intro k hk
      rw [hkept.id] at hk
      rw [hkept.echo k hk, h.echoes k hk]
    · show s.lastEcho s.module.automation.id = s.sent
      rw [hkept.id]
      exact h.ownSent

theorem iterate (h : s.Sound id f) (needFlush : Bool) : (s.iterate needFlush).Sound id f := by
  have hnotice := h.notice needFlush
  unfold Recorded.iterate
  split
  · exact hnotice.act
  · exact ⟨hnotice.flags, hnotice.witnessed, hnotice.echoes, nofun, hnotice.ownSent, hnotice.self,
      hnotice.byzantine⟩

theorem send (h : s.Sound id f) : s.send.Sound id f := by
  refine ⟨h.flags, h.witnessed, ?_, ?_, ?_, h.self, h.byzantine⟩
  · intro k hk
    have hk' : k ≠ s.module.id := hk
    simp only [Recorded.send, sendOwn, Function.update_of_ne hk']
    exact h.echoes k hk'
  · intro _
    simp only [Recorded.send, sendOwn, Function.update_self]
  · simp only [Recorded.send, sendOwn, Function.update_self]

theorem receive (h : s.Sound id f) {j : Fin n} (hj : j ≠ s.module.id) (own : OwnData)
    (about : Echo) : (s.receive j own about).Sound id f := by
  unfold Recorded.receive receiveMsg
  split
  · refine ⟨?_, h.witnessed.trans (subset_record _ _ _), ?_, ?_, ?_, h.self, h.byzantine⟩
    · intro k hk
      by_cases hkj : k = j
      · subst hkj
        simp only [Function.update_self] at hk
        simp [hk]
      · simp only [Function.update_of_ne hkj] at hk
        exact subset_record _ _ _ (h.flags k hk)
    · intro k hk
      by_cases hkj : k = j
      · simp only [hkj, Function.update_self]
      · simp only [Function.update_of_ne hkj]
        exact h.echoes k hk
    · intro hready
      simp only [Function.update_of_ne (Ne.symm hj)]
      exact h.own hready
    · simp only [Function.update_of_ne (Ne.symm hj)]
      exact h.ownSent
  · exact h

/-- Every step keeps the tables in accordance with the reports. -/
theorem next (h : s.Sound id f) {a : Action n} (hstep : s.next a = some s') : s'.Sound id f := by
  cases a with
  | run needFlush =>
    simp only [Recorded.next, Option.ite_none_right_eq_some, Option.some.injEq] at hstep
    rw [← hstep.2]
    exact h.iterate needFlush
  | sendOwn =>
    cases hstep
    exact h.send
  | receiveMsg j own about =>
    simp only [Recorded.next, Option.ite_none_right_eq_some, Option.some.injEq] at hstep
    rw [← hstep.2]
    exact h.receive hstep.1 own about
  | viewChange =>
    cases hstep
    exact ⟨h.flags, h.witnessed, h.echoes, h.own, h.ownSent, h.self, h.byzantine⟩

end Sound

theorem sound_of_reachable {id : Fin n} {f : Nat} {s : Recorded n}
    (h : (recording id f).Reachable s) : s.Sound id f :=
  System.Run.invariant (I := fun s => s.Sound id f) (fun _ hs => hs ▸ sound_start id f)
    (fun _ _ _ hs _ hstep => hs.next hstep) h

/-! ## Behind a step of the automaton -/

/-- Processors that have been witnessed since the last reset and echo what was sent last. -/
def backing (s : Recorded n) : Finset (Fin n) :=
  s.since.filter fun k => s.lastEcho k = s.sent

/-- Processors whose last flag is set and that echo what was sent last. -/
def current (s : Recorded n) : Finset (Fin n) :=
  Finset.univ.filter fun k => s.flag k = true ∧ s.lastEcho k = s.sent

/-- Those that `witnes_seen()` counts, at a processor that has sent its data, back it. -/
theorem Sound.card_backing {s : Recorded n} {id : Fin n} {f : Nat} (h : s.Sound id f)
    (hready : s.ready = true) (hseen : s.module.witnesSeen = true) :
    (n : Int) - f ≤ s.backing.card := by
  simp only [witnesSeen, Bool.and_eq_true, decide_eq_true_eq, h.byzantine] at hseen
  apply hseen.2.trans
  apply Int.ofNat_le.mpr
  apply Finset.card_le_card
  intro k hk
  obtain ⟨hmem, hecho⟩ := Finset.mem_filter.mp hk
  rw [backing, Finset.mem_filter]
  refine ⟨h.witnessed hmem, ?_⟩
  by_cases hid : k = s.module.id
  · rw [hid]
    exact h.ownSent
  · rw [← h.echoes k hid, ← hecho]
    exact h.own hready

/-- The own flag is the one just computed, and the data sent last is still the same. -/
theorem notice_own (s : Recorded n) (needFlush : Bool) :
    (s.notice needFlush).flag s.module.id = (s.notice needFlush).module.witnesses s.module.id ∧
      (s.notice needFlush).ready = s.ready := by
  unfold notice
  split
  · exact ⟨by simp [witness, reset, resetAll], rfl⟩
  · exact ⟨by simp [witness], rfl⟩

/-- In every run, an iteration that finds its witnesses has just been witnessed itself, and
    `n - f` processors have been witnessed at some time since the last reset and echo what the
    processor sent last. -/
theorem witnesses_since_reset {id : Fin n} {f : Nat} {s : Recorded n}
    (h : (recording id f).Reachable s) {needFlush : Bool} (hready : s.ready = true)
    (hseen : (s.module.noticeWitnesses needFlush).witnesSeen = true) :
    (s.notice needFlush).flag id = true ∧
      (n : Int) - f ≤ (s.notice needFlush).backing.card := by
  have hsound := sound_of_reachable h
  have hnotice := hsound.notice needFlush
  obtain ⟨hflag, hsame⟩ := notice_own s needFlush
  rw [← notice_module] at hseen
  have hself : (s.notice needFlush).module.witnesses id = true := by
    simp only [witnesSeen, Bool.and_eq_true, hnotice.self] at hseen
    exact hseen.1
  rw [hsound.self] at hflag
  exact ⟨hflag.trans hself, hnotice.card_backing (hsame.trans hready) hseen⟩

/-! ## Six processors -/

/-- What processor 0 sends first, and after it has left phase 0. -/
def firstEcho (phase : Int) (witness : Bool) : Echo :=
  ⟨some RST_PAIR, phase, some witness, some false⟩

/-- Processors 1 to 4 echo what processor 0 has sent, with their flags. -/
def echoing (phase : Int) (witness flag : Bool) : List (Action 6) :=
  [1, 2, 3, 4].map (.receiveMsg · ⟨0, flag, RST_PAIR, false⟩ (firstEcho phase witness))

/-- Processor 0 has been witnessed in phase 0 and gone to phase 1, where the others echo it
    without their flags. -/
def withdrawnRun : List (Action 6) :=
  [.run false, .sendOwn] ++ echoing 0 false true ++ [.run false, .sendOwn] ++ echoing 1 true false

/-- What holds after some actions of a new processor holds in a reachable state. -/
theorem exists_of_actions (actions : List (Action 6)) (p : Recorded 6 → Bool)
    (h : (System.exec next (start (0 : Fin 6) 1) actions).any p = true) :
    ∃ s, (recording (0 : Fin 6) 1).Reachable s ∧ p s = true :=
  System.Run.exists_of_exec (fun _ _ _ hnext => ⟨trivial, hnext⟩) (.init rfl) h

/-- The iteration of phase 0 has the witnesses it needs. -/
theorem witnesses_since_reset_six : ∃ s, (recording (0 : Fin 6) 1).Reachable s ∧
    (s.notice false).flag 0 = true ∧ (5 : Int) ≤ (s.notice false).backing.card := by
  obtain ⟨s, hreach, hp⟩ := exists_of_actions ([.run false, .sendOwn] ++ echoing 0 false true)
    (fun s => s.ready = true ∧ (s.module.noticeWitnesses false).witnesSeen = true)
    (by decide)
  obtain ⟨hready, hseen⟩ := of_decide_eq_true hp
  exact ⟨s, hreach, witnesses_since_reset hreach hready hseen⟩

/-- The iteration of phase 1 is backed by processor 0 alone, if only last flags count. -/
theorem witnesses_withdrawn : ∃ s, (recording (0 : Fin 6) 1).Reachable s ∧ s.ready = true ∧
    (s.module.noticeWitnesses false).witnesSeen = true ∧ (s.notice false).current.card = 1 := by
  obtain ⟨s, hreach, hp⟩ := exists_of_actions withdrawnRun
    (fun s => s.ready = true ∧ (s.module.noticeWitnesses false).witnesSeen = true ∧
      (s.notice false).current.card = 1) (by decide)
  exact ⟨s, hreach, of_decide_eq_true hp⟩

end Recorded

end BFTList.ViewEstablishmentModule
