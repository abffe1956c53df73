import BFTList.ForStd.Quorum
import BFTList.ForStd.Transition
import BFTList.Native.Predicates

/-!
# View pairs never become stale

One processor's View Establishment module as a transition system: iterations,
the update of the own echo, messages from others and calls of `view_change()`,
in any order. Every entry of its table keeps a phase together with a view pair
that the phase allows (`Legit`), so the stale branch of `need_reset` never fires.

The proof follows the writes: messages are validated before they are stored,
and each action of the automaton moves the own entry from one legit pair to
another (`legit_adopt`, `legit_establish`, `legit_nextView`, `legit_rst`).

## Key results

- `legit_run`: one iteration keeps all entries legit
- `viewPairs_never_stale`: phases and view pairs in every reachable state
-/

namespace BFTList.ViewEstablishmentModule

variable {n : Nat}

/-! ## What the checks say -/

/-- A phase with a view pair it allows. -/
def Legit (n : Nat) (phase : Int) (vpair : VPair) : Prop :=
  (phase = 0 ∧ legitPhsZero n vpair = true) ∨ (phase = 1 ∧ legitPhsOne n vpair = true)

instance (phase : Int) (vpair : VPair) : Decidable (Legit n phase vpair) :=
  inferInstanceAs (Decidable (_ ∨ _))

/-- `type_check` is the range check of both views, with TEE allowed as current view. -/
theorem typeCheck_iff (hn : 0 < n) (vpair : VPair) :
    typeCheck n vpair = true ↔ (0 ≤ vpair.next ∧ vpair.next < n) ∧
      (vpair.current = TEE ∨ (0 ≤ vpair.current ∧ vpair.current < n)) := by
  rw [typeCheck, decide_eq_true_iff]
  simp only [TEE, DF_VIEW]
  omega

theorem legitPhsZero_iff (vpair : VPair) :
    legitPhsZero n vpair = true ↔
      (vpair.current = vpair.next ∨ vpair = RST_PAIR) ∧ typeCheck n vpair = true := by
  simp only [legitPhsZero, Bool.and_eq_true, decide_eq_true_eq]

theorem legitPhsOne_iff (vpair : VPair) :
    legitPhsOne n vpair = true ↔ vpair.current ≠ vpair.next ∧ typeCheck n vpair = true := by
  simp only [legitPhsOne, Bool.and_eq_true, decide_eq_true_eq]

/-- `valid` accepts exactly the messages with a legit pair. -/
theorem valid_iff (msg : OwnData) : valid n msg = true ↔ Legit n msg.phs msg.views := by
  simp only [valid, Legit, Bool.or_eq_true, Bool.and_eq_true, decide_eq_true_eq]

theorem Legit.typeCheck {phase : Int} {vpair : VPair} (h : Legit n phase vpair) :
    typeCheck n vpair = true := by
  cases h with
  | inl h => exact ((legitPhsZero_iff vpair).mp h.2).2
  | inr h => exact ((legitPhsOne_iff vpair).mp h.2).2

/-- A legit entry is not stale. -/
theorem staleV_of_legit {m : ViewEstablishmentModule n} {k : Fin n}
    (h : Legit n (m.phs k) (m.views k)) : m.staleV k = false := by
  simp only [staleV, Bool.or_eq_false_iff, Bool.and_eq_false_iff, decide_eq_false_iff_not,
    Bool.not_eq_false']
  cases h with
  | inl h => exact ⟨Or.inr h.2, Or.inl (by rw [h.1]; decide)⟩
  | inr h => exact ⟨Or.inl (by rw [h.1]; decide), Or.inr h.2⟩

/-! ## Legit pairs an action can produce -/

/-- The pair of a reset is legit in phase 0. -/
theorem legit_rst (hn : 0 < n) : Legit n 0 RST_PAIR := by
  refine Or.inl ⟨rfl, (legitPhsZero_iff _).mpr ⟨Or.inr rfl, (typeCheck_iff hn _).mpr ?_⟩⟩
  exact ⟨⟨by decide, by simp only [RST_PAIR, DF_VIEW]; omega⟩, Or.inl rfl⟩

/-- Adopting a next view other than the own current one is legit in phase 1. -/
theorem legit_adopt {own vpair : VPair} (hn : 0 < n) (hown : typeCheck n own = true)
    (hother : typeCheck n vpair = true) (hne : own.current ≠ vpair.next) :
    Legit n 1 { own with next := vpair.next } := by
  refine Or.inr ⟨rfl, (legitPhsOne_iff _).mpr ⟨hne, (typeCheck_iff hn _).mpr ?_⟩⟩
  exact ⟨((typeCheck_iff hn _).mp hother).1, ((typeCheck_iff hn _).mp hown).2⟩

/-- Installing the next view is legit in phase 0. -/
theorem legit_establish {own : VPair} (hn : 0 < n) (hown : typeCheck n own = true) :
    Legit n 0 { own with current := own.next } := by
  have h := (typeCheck_iff hn own).mp hown
  exact Or.inl ⟨rfl, (legitPhsZero_iff _).mpr ⟨Or.inl rfl, (typeCheck_iff hn _).mpr
    ⟨h.1, Or.inr h.1⟩⟩⟩

/-- Going for the upcoming view is legit in phase 1; with one processor the
    upcoming view would be the current one. -/
theorem legit_nextView {own : VPair} (hn : 2 ≤ n) (hown : typeCheck n own = true) :
    Legit n 1 { own with
      next := if own.current = TEE then DF_VIEW else (own.current + 1) % n } := by
  have hpos : 0 < n := by omega
  have h := (typeCheck_iff hpos own).mp hown
  refine Or.inr ⟨rfl, (legitPhsOne_iff _).mpr ⟨?_, (typeCheck_iff hpos _).mpr ⟨?_, h.2⟩⟩⟩
  · show own.current ≠ if own.current = TEE then DF_VIEW else (own.current + 1) % n
    split
    · rename_i htee
      rw [htee]
      decide
    · rename_i htee
      have hc := h.2.resolve_left htee
      -- wrap-around at the last view, a plain increment before it
      by_cases hlast : own.current + 1 = n
      · rw [hlast, Int.emod_self]
        omega
      · rw [Int.emod_eq_of_lt (by omega) (by omega)]
        omega
  · show 0 ≤ (if own.current = TEE then DF_VIEW else (own.current + 1) % (n : Int)) ∧
      (if own.current = TEE then DF_VIEW else (own.current + 1) % (n : Int)) < n
    split
    · simp only [DF_VIEW]
      omega
    · exact ⟨Int.emod_nonneg _ (by omega), Int.emod_lt_of_pos _ (by omega)⟩

/-! ## Frame lemmas of the actions -/

@[simp] theorem setOwnViews_id (m : ViewEstablishmentModule n) (vp : VPair) :
    (m.setOwnViews vp).id = m.id := rfl

@[simp] theorem setOwnViews_phs (m : ViewEstablishmentModule n) (vp : VPair) :
    (m.setOwnViews vp).phs = m.phs := rfl

@[simp] theorem setOwnViews_views (m : ViewEstablishmentModule n) (vp : VPair) :
    (m.setOwnViews vp).views = Function.update m.views m.id vp := rfl

@[simp] theorem nextPhs_views (m : ViewEstablishmentModule n) : m.nextPhs.views = m.views := rfl

@[simp] theorem nextPhs_phs (m : ViewEstablishmentModule n) :
    m.nextPhs.phs = Function.update m.phs m.id (if m.phs m.id = 1 then 0 else 1) := rfl

@[simp] theorem resetVChange_views (m : ViewEstablishmentModule n) :
    m.resetVChange.views = m.views := rfl

@[simp] theorem resetVChange_phs (m : ViewEstablishmentModule n) :
    m.resetVChange.phs = m.phs := rfl

@[simp] theorem resetVChange_id (m : ViewEstablishmentModule n) : m.resetVChange.id = m.id := rfl

/-! ## One iteration -/

/-- Every entry of the table is legit. -/
def AllLegit (m : ViewEstablishmentModule n) : Prop := ∀ k, Legit n (m.phs k) (m.views k)

instance (m : ViewEstablishmentModule n) : Decidable m.AllLegit :=
  inferInstanceAs (Decidable (∀ k, Legit n (m.phs k) (m.views k)))

/-- Changing one entry to a legit one keeps the table legit. -/
theorem allLegit_update {m m' : ViewEstablishmentModule n} (h : m.AllLegit) (j : Fin n)
    (phase : Int) (vpair : VPair) (hphs : m'.phs = Function.update m.phs j phase)
    (hviews : m'.views = Function.update m.views j vpair) (hl : Legit n phase vpair) :
    m'.AllLegit := by
  intro k
  rw [hphs, hviews]
  by_cases hk : k = j
  · subst hk
    simpa only [Function.update_self] using hl
  · simpa only [Function.update_of_ne hk] using h k

theorem allLegit_resetAll (hn : 0 < n) (m : ViewEstablishmentModule n) : m.resetAll.AllLegit :=
  fun _ => legit_rst hn

/-- What the search of case 0 guarantees about the pair it returns. -/
theorem pairToAdoptZero_spec {m : ViewEstablishmentModule n} {vpair : VPair}
    (h : m.pairToAdoptZero = some vpair) :
    ∃ k, k ≠ m.id ∧ vpair = m.views k ∧ (m.views m.id).current ≠ vpair.next ∧
      m.transitAdopble k 0 .follow = true := by
  simp only [pairToAdoptZero, Option.map_eq_some_iff] at h
  obtain ⟨k, hk, hv⟩ := h
  have hp := List.find?_some hk
  simp only [decide_eq_true_eq] at hp
  exact ⟨k, hp.1, hv.symm, hv ▸ hp.2.1, hp.2.2.2⟩

theorem pairToAdoptOne_spec {m : ViewEstablishmentModule n} {vpair : VPair}
    (h : m.pairToAdoptOne = some vpair) :
    ∃ k, k ≠ m.id ∧ vpair = m.views k ∧ (m.views m.id).current ≠ vpair.next ∧
      m.transitAdopble k 1 .follow = true := by
  simp only [pairToAdoptOne, Option.map_eq_some_iff] at h
  obtain ⟨k, hk, hv⟩ := h
  have hp := List.find?_some hk
  simp only [decide_eq_true_eq] at hp
  exact ⟨k, hp.1, hv.symm, hv ▸ hp.2.1, hp.2.2.2⟩

/-- The actions of phase 0 keep the table legit. -/
theorem allLegit_automationPhaseZero (hn : 2 ≤ n) {m : ViewEstablishmentModule n}
    (h : m.AllLegit) (hphs : m.phs m.id = 0) : m.automationPhaseZero.AllLegit := by
  have hpos : 0 < n := by omega
  have hown := (h m.id).typeCheck
  unfold automationPhaseZero
  split
  · -- case 0: adopt
    rename_i vpair hpair
    obtain ⟨k, -, hk, hne, -⟩ := pairToAdoptZero_spec hpair
    exact allLegit_update h m.id 1 { m.views m.id with next := vpair.next }
      (by simp [adopt, hphs]) rfl (legit_adopt hpos hown (hk ▸ (h k).typeCheck) hne)
  · split
    · split
      · -- case 1a: next view
        exact allLegit_update h m.id 1 _ (by simp [nextView, hphs]) rfl (legit_nextView hn hown)
      · split
        · -- case 1b: the reset pair goes to phase 1 unchanged
          rename_i hrst
          refine allLegit_update h m.id 1 RST_PAIR (by simp [hphs])
            (by rw [nextPhs_views, ← hrst, Function.update_eq_self]) ?_
          refine Or.inr ⟨rfl, (legitPhsOne_iff _).mpr ⟨by decide, ?_⟩⟩
          rw [← hrst]
          exact hown
        · exact h
    · split
      · exact h
      · exact allLegit_resetAll hpos m

/-- The actions of phase 1 keep the table legit. -/
theorem allLegit_automationPhaseOne (hn : 0 < n) {m : ViewEstablishmentModule n}
    (h : m.AllLegit) (hphs : m.phs m.id = 1) : m.automationPhaseOne.AllLegit := by
  have hown := (h m.id).typeCheck
  unfold automationPhaseOne
  split
  · -- case 0: adopt, and stay in phase 1
    rename_i vpair hpair
    obtain ⟨k, -, hk, hne, -⟩ := pairToAdoptOne_spec hpair
    exact allLegit_update h m.id 1 { m.views m.id with next := vpair.next }
      (by simp [adopt, ← hphs]) rfl (legit_adopt hn hown (hk ▸ (h k).typeCheck) hne)
  · split
    · -- case 1: establish
      exact allLegit_update h m.id 0 { m.views m.id with current := (m.views m.id).next }
        (by simp [establish, hphs]) rfl (legit_establish hn hown)
    · split
      · exact h
      · exact allLegit_resetAll hn m

/-- One iteration keeps the table legit, whatever the Replication module answers. -/
theorem legit_run (hn : 2 ≤ n) {m : ViewEstablishmentModule n} (h : m.AllLegit)
    (needFlush : Bool) : (m.run needFlush).AllLegit := by
  have hpos : 0 < n := by omega
  have hnotice : (m.noticeWitnesses needFlush).AllLegit := by
    unfold noticeWitnesses
    split
    · exact allLegit_resetAll hpos m
    · exact h
  simp only [run]
  split
  · unfold automation
    split
    · rename_i hphs
      exact allLegit_automationPhaseZero hn hnotice hphs
    · split
      · rename_i hphs
        exact allLegit_automationPhaseOne hpos hnotice hphs
      · exact hnotice
  · exact hnotice

/-! ## Runs -/

/-- What happens at one processor. -/
inductive Action (n : Nat) where
  | run (needFlush : Bool)
  | sendOwn
  | receiveMsg (j : Fin n) (own : OwnData) (about : Echo)
  | viewChange

/-- The module of processor `id` with any messages from others. -/
def process (id : Fin n) (f : Nat) : System (ViewEstablishmentModule n) (Action n) where
  init m := m = init id f
  step m a m' :=
    match a with
    | .run needFlush => m' = m.run needFlush
    | .sendOwn => m' = m.sendOwn
    | .receiveMsg j own about => j ≠ m.id ∧ m' = m.receiveMsg j own about
    | .viewChange => m' = m.viewChange

/-- Every step keeps the table legit. -/
theorem allLegit_step (hn : 2 ≤ n) {id : Fin n} {f : Nat} {m m' : ViewEstablishmentModule n}
    {a : Action n} (h : m.AllLegit) (hstep : (process id f).step m a m') : m'.AllLegit := by
  cases a with
  | run needFlush =>
    simp only [process] at hstep
    exact hstep ▸ legit_run hn h needFlush
  | sendOwn =>
    simp only [process] at hstep
    exact hstep ▸ h
  | receiveMsg j own about =>
    simp only [process] at hstep
    rw [hstep.2]
    unfold receiveMsg
    split
    · rename_i hvalid
      exact allLegit_update h j own.phs own.views rfl rfl ((valid_iff own).mp hvalid)
    · exact h
  | viewChange =>
    simp only [process] at hstep
    exact hstep ▸ h

theorem allLegit_of_reachable (hn : 2 ≤ n) {id : Fin n} {f : Nat}
    {m : ViewEstablishmentModule n} (h : (process id f).Reachable m) : m.AllLegit := by
  refine System.Run.invariant ?_ (fun s a s' hs _ hstep => allLegit_step hn hs hstep) h
  intro s hs
  simp only [process] at hs
  exact hs ▸ fun _ => legit_rst (by omega)

/-- In every reachable state every processor of the table is in phase 0 or 1
    with a view pair that goes with it, so only the Replication module can be
    the reason for a reset. -/
theorem viewPairs_never_stale (hn : 2 ≤ n) {id : Fin n} {f : Nat}
    {m : ViewEstablishmentModule n} (h : (process id f).Reachable m) :
    (∀ k, (m.phs k = 0 ∨ m.phs k = 1) ∧ m.staleV k = false ∧
      (m.phs k = 0 → (m.views k).current = (m.views k).next ∨ m.views k = RST_PAIR) ∧
      (m.phs k = 1 → (m.views k).current ≠ (m.views k).next) ∧
      (0 ≤ (m.views k).next ∧ (m.views k).next < n) ∧
      ((m.views k).current = TEE ∨ (0 ≤ (m.views k).current ∧ (m.views k).current < n))) ∧
    ∀ needFlush, m.needReset needFlush = needFlush := by
  have hl := allLegit_of_reachable hn h
  constructor
  · intro k
    have hk := hl k
    have hrange := (typeCheck_iff (by omega) _).mp hk.typeCheck
    refine ⟨hk.imp And.left And.left, staleV_of_legit hk, ?_, ?_, hrange⟩
    · intro h0
      cases hk with
      | inl hk => exact ((legitPhsZero_iff _).mp hk.2).1
      | inr hk => exact absurd (h0.symm.trans hk.1) (by decide)
    · intro h1
      cases hk with
      | inl hk => exact absurd (hk.1.symm.trans h1) (by decide)
      | inr hk => exact ((legitPhsOne_iff _).mp hk.2).1
  · intro needFlush
    rw [needReset, staleV_of_legit (hl m.id), Bool.false_or]

/-! ## Six processors -/

/-- The step as a function. -/
def stepped (m : ViewEstablishmentModule n) : Action n → Option (ViewEstablishmentModule n)
  | .run needFlush => some (m.run needFlush)
  | .sendOwn => some m.sendOwn
  | .receiveMsg j own about => if j ≠ m.id then some (m.receiveMsg j own about) else none
  | .viewChange => some m.viewChange

theorem step_of_stepped {id : Fin n} {f : Nat} {m m' : ViewEstablishmentModule n} {a : Action n}
    (h : m.stepped a = some m') : (process id f).step m a m' := by
  cases a with
  | receiveMsg j own about =>
    obtain ⟨hj, hm⟩ := Option.ite_none_right_eq_some.mp h
    exact ⟨hj, (Option.some.inj hm).symm⟩
  | run needFlush => exact (Option.some.inj h).symm
  | sendOwn => exact (Option.some.inj h).symm
  | viewChange => exact (Option.some.inj h).symm

/-- The processor sends its data, hears the same from processors 1 to 4, and iterates. -/
def heardRound (own : OwnData) (about : Echo) : List (Action 6) :=
  [.sendOwn] ++ [1, 2, 3, 4].map (.receiveMsg · own about) ++ [.run false]

/-- From the reset pair to phase 1, from there into view 0, and after a stale message of
    processor 5 and a view change to phase 1 again. -/
def changingRun : List (Action 6) :=
  heardRound ⟨0, true, RST_PAIR, false⟩ ⟨some RST_PAIR, 0, some false, some false⟩ ++
    heardRound ⟨1, true, RST_PAIR, false⟩ ⟨some RST_PAIR, 1, some true, some false⟩ ++
    [.receiveMsg 5 ⟨0, true, ⟨3, 4⟩, true⟩ ⟨some RST_PAIR, 1, some true, some true⟩,
      .viewChange] ++
    heardRound ⟨0, true, ⟨0, 0⟩, true⟩ ⟨some ⟨0, 0⟩, 0, some true, some true⟩

/-- Processor 0 on its way from view 0 to view 1. -/
theorem viewPairs_never_stale_six :
    ∃ m : ViewEstablishmentModule 6, m.phs 0 = 1 ∧ m.views 0 = ⟨0, 1⟩ ∧ m.views 1 = ⟨0, 0⟩ ∧
      (∀ k, m.staleV k = false) ∧ m.needReset false = false := by
  have hexec : (System.exec stepped (init (0 : Fin 6) 1) changingRun).any (fun m =>
      m.phs 0 = 1 ∧ m.views 0 = ⟨0, 1⟩ ∧ m.views 1 = ⟨0, 0⟩) = true := by
    decide +kernel
  obtain ⟨m, hreach, hp⟩ := System.Run.exists_of_exec (S := process (0 : Fin 6) 1)
    (fun _ _ _ hm => ⟨trivial, step_of_stepped hm⟩) (.init rfl) hexec
  obtain ⟨hphs, hown, hother⟩ := of_decide_eq_true hp
  obtain ⟨hlegit, hreset⟩ := viewPairs_never_stale (by decide) hreach
  exact ⟨m, hphs, hown, hother, fun k => (hlegit k).2.1, hreset false⟩

end BFTList.ViewEstablishmentModule
