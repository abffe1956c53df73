import BFTList.Spec.ViewAgreement

/-!
# Who supports the next view

A processor in phase 0 starts a view change when the number of view change flags and the number
of processors that go for the next view add up to `n - f`; one that does both counts twice.

A view is adopted from a processor whose pair is supported by `n - 2f` processors. In phase 1
these have the adopted view. In phase 0 they may instead be on the way from the current view of
that processor to the next one, which need not be the view it goes for.

## Key results

- `caseOne_supported`: a view change has `n - f` distinct supporters if nobody counts twice
- `caseOne_three`: three supporters of six that all count twice
- `adopted_supported`: who supports an adopted view
- `adopted_alone`: a view that nobody but one processor has
-/

namespace BFTList.ViewEstablishmentModule

variable {n : Nat} {m : ViewEstablishmentModule n}

/-! ## Starting a view change -/

/-- Processors that have been told to change the view. -/
def requesting (m : ViewEstablishmentModule n) : Finset (Fin n) :=
  Finset.univ.filter fun k => m.vChange k

/-- Processors that go for view `w`. -/
def heading (m : ViewEstablishmentModule n) (w : Int) : Finset (Fin n) :=
  Finset.univ.filter fun k => (m.views k).next = w

/-- The action of case 1 in phase 0. -/
def caseOneAction (m : ViewEstablishmentModule n) : ViewEstablishmentModule n :=
  if m.changeable then m.nextView.nextPhs
  else if m.views m.id = RST_PAIR then m.nextPhs
  else m

/-- In phase 0 case 1 comes after the search for a pair to adopt. -/
theorem automation_caseOne (hphs : m.phs m.id = 0) (hadopt : m.pairToAdoptZero = none)
    (hcase : m.caseOneZero = true) : m.automation = m.caseOneAction := by
  rw [automation, if_pos hphs, automationPhaseZero, hadopt]
  exact if_pos hcase

/-- With an installed view the first half of the predicate is what counts. -/
theorem caseOneZero_iff {v : Int} (hview : m.views m.id = ⟨v, v⟩) :
    m.caseOneZero = true ↔ m.changeable = true ∧ m.establishable 0 .follow = true := by
  have hinstalled : m.views m.id ≠ RST_PAIR := by
    rw [hview]
    simp only [RST_PAIR, TEE, DF_VIEW, ne_eq, VPair.mk.injEq]
    omega
  simp only [caseOneZero, hinstalled, decide_false, Bool.false_and, Bool.or_false,
    Bool.and_eq_true]

/-- The action goes for the next view in phase 1. -/
theorem caseOneAction_moves {v : Int} (hphs : m.phs m.id = 0) (hview : m.views m.id = ⟨v, v⟩)
    (hchange : m.changeable = true) : m.caseOneAction.phs m.id = 1 ∧
      (m.caseOneAction.views m.id).next = (v + 1) % n := by
  rw [caseOneAction, if_pos hchange]
  refine ⟨by simp [nextView, hphs], ?_⟩
  rw [nextPhs_views, nextView, setOwnViews_views, Function.update_self, hview]
  show (if v = TEE then DF_VIEW else (v + 1) % (n : Int)) = (v + 1) % n
  split
  · rename_i htee
    rw [htee]
    rfl
  · rfl

theorem changeable_iff {v : Int} (hview : m.views m.id = ⟨v, v⟩) : m.changeable = true ↔
    (n : Int) - m.numberOfByzantine ≤
      m.requesting.card + (m.heading ((v + 1) % n)).card := by
  rw [changeable, decide_eq_true_iff, hview]
  rfl

/-- Nobody who has been told to change the view is on its way to view `w` already. -/
def CountOnce (m : ViewEstablishmentModule n) (w : Int) : Prop :=
  ∀ k, m.vChange k = true → (m.views k).next ≠ w

instance (m : ViewEstablishmentModule n) (w : Int) : Decidable (m.CountOnce w) :=
  inferInstanceAs (Decidable (∀ _, _))

/-- With an installed view `v`, case 1 goes for the next view, and if nobody counts twice then
    with `n - f` supporters. -/
theorem caseOne_supported {v : Int} (hphs : m.phs m.id = 0) (hview : m.views m.id = ⟨v, v⟩)
    (honce : m.CountOnce ((v + 1) % n)) (hcase : m.caseOneZero = true) :
    (m.pairToAdoptZero = none → m.automation = m.caseOneAction) ∧
      m.caseOneAction.phs m.id = 1 ∧ (m.caseOneAction.views m.id).next = (v + 1) % n ∧
      (n : Int) - m.numberOfByzantine ≤ (m.requesting ∪ m.heading ((v + 1) % n)).card := by
  have hchange := ((caseOneZero_iff hview).mp hcase).1
  obtain ⟨hphase, hnext⟩ := caseOneAction_moves hphs hview hchange
  refine ⟨fun hadopt => automation_caseOne hphs hadopt hcase, hphase, hnext, ?_⟩
  have hapart : Disjoint m.requesting (m.heading ((v + 1) % n)) := by
    rw [Finset.disjoint_left]
    intro k hflag hhead
    simp only [requesting, heading, Finset.mem_filter, Finset.mem_univ, true_and] at hflag hhead
    exact honce k hflag hhead
  rw [Finset.card_union_of_disjoint hapart]
  have hsum := (changeable_iff hview).mp hchange
  omega

/-- Four processors have been told to change the view, and two others are on the way. -/
def changingTable : ViewEstablishmentModule 6 :=
  { withTable 0 ![0, 0, 0, 0, 1, 1] ![⟨0, 0⟩, ⟨0, 0⟩, ⟨0, 0⟩, ⟨0, 0⟩, ⟨0, 1⟩, ⟨0, 1⟩] with
    vChange := ![true, true, true, true, false, false] }

theorem caseOne_supported_six :
    changingTable.automation.phs 0 = 1 ∧
      (5 : Int) ≤ (changingTable.requesting ∪ changingTable.heading 1).card := by
  obtain ⟨haction, hphase, -, hmany⟩ := caseOne_supported (m := changingTable) (v := 0) rfl rfl
    (by decide) (by decide)
  rw [haction (by decide)]
  exact ⟨hphase, hmany⟩

/-- Processors 3, 4 and 5 are on the way from view 0 to 1, with their flags still set. -/
def doubledTable : ViewEstablishmentModule 6 :=
  { withTable 0 ![0, 0, 0, 1, 1, 1] ![⟨0, 0⟩, ⟨0, 0⟩, ⟨0, 0⟩, ⟨0, 1⟩, ⟨0, 1⟩, ⟨0, 1⟩] with
    vChange := ![false, false, false, true, true, true] }

/-- They are enough to take processor 0 along. -/
theorem caseOne_three : doubledTable.AllLegit ∧ doubledTable.pairToAdoptZero = none ∧
    doubledTable.caseOneZero = true ∧ doubledTable.automation.phs 0 = 1 ∧
    doubledTable.automation.views 0 = ⟨0, 1⟩ ∧
    (doubledTable.requesting ∪ doubledTable.heading 1).card = 3 := by
  decide

/-! ## Adopting a view -/

/-- The pair of case 0 in the own phase. -/
def pairToAdopt (m : ViewEstablishmentModule n) : Option VPair :=
  if m.phs m.id = 0 then m.pairToAdoptZero
  else if m.phs m.id = 1 then m.pairToAdoptOne
  else none

/-- Processors with `w` as current or next view. -/
def having (m : ViewEstablishmentModule n) (w : Int) : Finset (Fin n) :=
  Finset.univ.filter fun k => (m.views k).current = w ∨ (m.views k).next = w

/-- The view that follows `c`; the default view follows no view. -/
def successor (n : Nat) (c : Int) : Int := if c = TEE then DF_VIEW else (c + 1) % n

/-- Processors that have left phase 0 and go for view `w`. -/
def leaving (m : ViewEstablishmentModule n) (w : Int) : Finset (Fin n) :=
  Finset.univ.filter fun k => m.phs k ≠ 0 ∧ (m.views k).next = w

@[simp] theorem mem_having {w : Int} {k : Fin n} :
    k ∈ m.having w ↔ (m.views k).current = w ∨ (m.views k).next = w := by
  simp [having]

@[simp] theorem mem_leaving {w : Int} {k : Fin n} :
    k ∈ m.leaving w ↔ m.phs k ≠ 0 ∧ (m.views k).next = w := by
  simp [leaving]

/-- Case 0 sets the own next view to that of the pair. -/
theorem automation_adopts {vpair : VPair} (h : m.pairToAdopt = some vpair) :
    (m.automation.views m.id).next = vpair.next := by
  unfold pairToAdopt at h
  split at h
  · rename_i hphs
    rw [automation, if_pos hphs, automationPhaseZero, h]
    simp [adopt]
  · split at h
    · rename_i hzero hphs
      rw [automation, if_neg hzero, if_pos hphs, automationPhaseOne, h]
      simp [adopt]
    · cases h

/-- The same view set of a processor has its next view. -/
theorem sameVSet_subset_having (m : ViewEstablishmentModule n) (j : Fin n) (phase : Option Int) :
    m.sameVSet j phase ⊆ m.having (m.views j).next := by
  intro k hk
  simp only [sameVSet, Finset.mem_filter, Finset.mem_univ, true_and] at hk
  rw [mem_having]
  cases hk with
  | inl htee => exact Or.inr htee.2.2
  | inr hsame => exact Or.inr (congrArg VPair.next hsame.2.1)

/-- Support to follow in phase 0 comes from those who leave for the successor. -/
theorem transitSet_zero_subset (m : ViewEstablishmentModule n) (j : Fin n) :
    m.transitSet j 0 .follow ⊆ m.leaving (successor n (m.views j).current) := by
  intro k hk
  simp only [transitSet, transitionCases, Finset.mem_filter, Finset.mem_univ, true_and,
    if_true] at hk
  rw [mem_leaving]
  refine ⟨hk.1, ?_⟩
  have hnext := hk.2.1
  unfold successor
  by_cases htee : (m.views j).current = TEE
  · simpa [htee] using hnext
  · simpa [htee] using hnext

/-- Support to follow in phase 1 comes from those who have established the view. -/
theorem transitSet_one_subset (m : ViewEstablishmentModule n) (j : Fin n) :
    m.transitSet j 1 .follow ⊆ m.having (m.views j).next := by
  intro k hk
  exact mem_having.mpr (Or.inl (mem_transitSet_one.mp hk).2.1)

theorem le_card_of_transitAdopble {j : Fin n} {phase : Int} {mode : Mode} {X : Finset (Fin n)}
    (h : m.transitAdopble j phase mode = true) (hsame : m.sameVSet j (some (m.phs j)) ⊆ X)
    (htransit : m.transitSet j phase mode ⊆ X) :
    (n : Int) - 2 * m.numberOfByzantine ≤ X.card := by
  rw [transitAdopble, decide_eq_true_iff] at h
  have hle := Finset.card_le_card (Finset.union_subset hsame htransit)
  omega

/-- What `n - 2f` processors do in support of a pair that is adopted: they have its next view,
    or, for a processor in phase 0, have left phase 0 for the successor of its current view. -/
def supporters (m : ViewEstablishmentModule n) (vpair : VPair) : Finset (Fin n) :=
  if m.phs m.id = 0 then m.having vpair.next ∪ m.leaving (successor n vpair.current)
  else m.having vpair.next

theorem supported_pair {vpair : VPair} (h : m.pairToAdopt = some vpair) :
    (∃ j, j ≠ m.id ∧ m.views j = vpair) ∧
      (n : Int) - 2 * m.numberOfByzantine ≤ (m.supporters vpair).card := by
  unfold pairToAdopt at h
  split at h
  · rename_i hphs
    obtain ⟨j, hj, rfl, -, hadopble⟩ := pairToAdoptZero_spec h
    refine ⟨⟨j, hj, rfl⟩, ?_⟩
    rw [supporters, if_pos hphs]
    apply le_card_of_transitAdopble hadopble
    · exact (sameVSet_subset_having m j _).trans Finset.subset_union_left
    · exact (transitSet_zero_subset m j).trans Finset.subset_union_right
  · split at h
    · rename_i hzero hphs
      obtain ⟨j, hj, rfl, -, hadopble⟩ := pairToAdoptOne_spec h
      refine ⟨⟨j, hj, rfl⟩, ?_⟩
      rw [supporters, if_neg hzero]
      exact le_card_of_transitAdopble hadopble (sameVSet_subset_having m j _)
        (transitSet_one_subset m j)
    · cases h

/-- In phase 1, and for the successor of the current view, the supporters have the view. -/
theorem supporters_eq_having {vpair : VPair}
    (h : m.phs m.id = 1 ∨ vpair.next = successor n vpair.current) :
    m.supporters vpair = m.having vpair.next := by
  unfold supporters
  cases h with
  | inl hphs => rw [if_neg (by rw [hphs]; decide)]
  | inr hnext =>
    split
    · apply Finset.union_eq_left.mpr
      intro k hk
      rw [← hnext] at hk
      exact mem_having.mpr (Or.inr (mem_leaving.mp hk).2)
    · rfl

/-- A next view that is adopted is that of another processor's pair, with the support of
    `n - 2f` processors and so of `n - 3f` correct ones: in phase 1, and in phase 0 where it is
    the successor of the pair's current view, all of them have the adopted view. -/
theorem adopted_supported {vpair : VPair} (h : m.pairToAdopt = some vpair) :
    (m.automation.views m.id).next = vpair.next ∧ (∃ j, j ≠ m.id ∧ m.views j = vpair) ∧
    (n : Int) - 2 * m.numberOfByzantine ≤ (m.supporters vpair).card ∧
    (∀ faulty : Finset (Fin n), faulty.card ≤ m.numberOfByzantine →
      (n : Int) - 3 * m.numberOfByzantine ≤ (m.supporters vpair \ faulty).card) ∧
    (m.phs m.id = 1 ∨ vpair.next = successor n vpair.current →
      m.supporters vpair = m.having vpair.next) := by
  obtain ⟨hpair, hcard⟩ := supported_pair h
  refine ⟨automation_adopts h, hpair, hcard, fun faulty hfew => ?_, supporters_eq_having⟩
  have hcorrect := Quorum.card_le_card_sdiff_add (m.supporters vpair) faulty
  omega

/-- Four processors go for view 1, and take processor 0 along. -/
def followingTable : ViewEstablishmentModule 6 :=
  withTable 0 ![0, 1, 1, 1, 1, 0] ![⟨0, 0⟩, ⟨0, 1⟩, ⟨0, 1⟩, ⟨0, 1⟩, ⟨0, 1⟩, ⟨0, 0⟩]

theorem adopted_supported_six : (followingTable.automation.views 0).next = 1 ∧
    (4 : Int) ≤ (followingTable.having 1).card := by
  have hpair : followingTable.pairToAdopt = some ⟨0, 1⟩ := by decide
  obtain ⟨hnext, -, hcard, -, hhaving⟩ := adopted_supported hpair
  rw [hhaving (Or.inr (by decide))] at hcard
  exact ⟨hnext, hcard⟩

/-- Processor 1 serves in view 3, and processors 2, 3 and 4 go from view 1 to view 4. -/
def followedTable : ViewEstablishmentModule 6 :=
  withTable 0 ![0, 0, 1, 1, 1, 0] ![⟨0, 0⟩, ⟨3, 3⟩, ⟨1, 4⟩, ⟨1, 4⟩, ⟨1, 4⟩, ⟨0, 0⟩]

/-- The four make processor 0 adopt view 3, which only processor 1 has. -/
theorem adopted_alone : followedTable.AllLegit ∧ followedTable.phs followedTable.id = 0 ∧
    followedTable.pairToAdopt = some ⟨3, 3⟩ ∧ (followedTable.automation.views 0).next = 3 ∧
    followedTable.having 3 = {1} := by
  decide

end BFTList.ViewEstablishmentModule
