import BFTList.Spec.ViewPairs
import BFTList.Native.ReplicationRun
import BFTList.ForStd.Quorum
import Mathlib.Data.Fin.VecNotation

/-!
# When two processors agree on a view

`establishable` adds the sizes of `same_v_set` and `transit_set` where
`transit_adopble` takes their union. A processor of both sets counts twice, and
one exists exactly when the own pair has no current view: then every pair with
the own next view is the same view set, also that of a processor that has
already established it. Two processors that both lack a current view can so be
sure of different views.

Those that serve need `n - 2f` processors in phase 0 with exactly the own pair,
and no processor counts for two pairs.

## Key results

- `card_support_add_le`: supporters of two views overlap only where the tables differ
- `agree_of_current`: with one current view among the two, they agree
- `sameNext_of_fewTwice`: without, they agree if few processors count twice
- `sameView_of_allowService`: processors that serve have the same view
- `primary_of_allowService`: the view of a processor that serves is the id of a processor
-/

namespace BFTList.ViewEstablishmentModule

variable {n : Nat}

/-! ## Who counts for a view -/

/-- Processors with next view `v`. -/
def support (m : ViewEstablishmentModule n) (v : Int) : Finset (Fin n) :=
  Finset.univ.filter fun k => (m.views k).next = v

/-- Processors that have established view `v`. -/
def established (m : ViewEstablishmentModule n) (v : Int) : Finset (Fin n) :=
  Finset.univ.filter fun k => m.phs k = 0 ∧ m.views k = ⟨v, v⟩

@[simp] theorem mem_support {m : ViewEstablishmentModule n} {v : Int} {k : Fin n} :
    k ∈ m.support v ↔ (m.views k).next = v := by
  simp only [support, Finset.mem_filter, Finset.mem_univ, true_and]

@[simp] theorem mem_established {m : ViewEstablishmentModule n} {v : Int} {k : Fin n} :
    k ∈ m.established v ↔ m.phs k = 0 ∧ m.views k = ⟨v, v⟩ := by
  simp only [established, Finset.mem_filter, Finset.mem_univ, true_and]

theorem established_subset (m : ViewEstablishmentModule n) (v : Int) :
    m.established v ⊆ m.support v := by
  intro k hk
  rw [mem_support, (mem_established.mp hk).2]

theorem mem_sameVSet_one {m : ViewEstablishmentModule n} {j k : Fin n} :
    k ∈ m.sameVSet j (some 1) ↔
      (((m.views k).current = TEE ∨ (m.views j).current = TEE) ∧
        (m.views k).next = (m.views j).next) ∨
      (m.phs k = 1 ∧ m.views k = m.views j ∧ m.staleV k = false) := by
  simp only [sameVSet, Finset.mem_filter, Finset.mem_univ, true_and, reduceCtorEq, false_or,
    Option.some.injEq, eq_comm (a := (1 : Int))]

theorem mem_transitSet_one {m : ViewEstablishmentModule n} {j k : Fin n} :
    k ∈ m.transitSet j 1 .follow ↔
      m.phs k ≠ 1 ∧ (m.views k).current = (m.views j).next ∧ m.staleV k = false := by
  simp [transitSet, transitionCases]

/-- The processor is in phase 1, and its table holds legit entries. -/
structure InPhaseOne (m : ViewEstablishmentModule n) : Prop where
  legit : m.AllLegit
  phs : m.phs m.id = 1

namespace InPhaseOne

variable {m : ViewEstablishmentModule n} (h : m.InPhaseOne)

include h

theorem next_nonneg (k : Fin n) : 0 ≤ (m.views k).next :=
  ((typeCheck_iff (Nat.lt_of_le_of_lt (Nat.zero_le _) k.isLt) _).mp (h.legit k).typeCheck).1.1

/-- The transit set of phase 1 is the set of those that have established the own next view. -/
theorem transitSet_eq :
    m.transitSet m.id 1 .follow = m.established (m.views m.id).next := by
  ext k
  rw [mem_transitSet_one, mem_established]
  constructor
  · intro ⟨hphs, hcur, _⟩
    cases h.legit k with
    | inr h1 => exact absurd h1.1 hphs
    | inl h0 =>
      refine ⟨h0.1, ?_⟩
      cases ((legitPhsZero_iff _).mp h0.2).1 with
      | inl heq =>
        exact VPair.ext hcur (heq.symm.trans hcur)
      | inr hrst =>
        -- a reset pair has no current view, and `next` is a view
        have hnext := h.next_nonneg m.id
        rw [hrst] at hcur
        rw [← hcur] at hnext
        exact absurd hnext (by decide)
  · intro ⟨hphs, hviews⟩
    refine ⟨by rw [hphs]; decide, by rw [hviews], staleV_of_legit (h.legit k)⟩

theorem sameVSet_subset :
    m.sameVSet m.id (some (m.phs m.id)) ⊆ m.support (m.views m.id).next := by
  intro k hk
  rw [h.phs, mem_sameVSet_one] at hk
  rw [mem_support]
  cases hk with
  | inl hk => exact hk.2
  | inr hk => rw [hk.2.1]

/-- Without a current view all supporters are in the same view set. -/
theorem sameVSet_of_tee (htee : (m.views m.id).current = TEE) :
    m.sameVSet m.id (some (m.phs m.id)) = m.support (m.views m.id).next := by
  apply Finset.Subset.antisymm h.sameVSet_subset
  intro k hk
  rw [h.phs, mem_sameVSet_one]
  exact Or.inl ⟨Or.inr htee, mem_support.mp hk⟩

/-- With a current view nobody counts twice. -/
theorem disjoint_of_current (hcur : (m.views m.id).current ≠ TEE) :
    Disjoint (m.sameVSet m.id (some (m.phs m.id))) (m.transitSet m.id 1 .follow) := by
  rw [Finset.disjoint_left, h.transitSet_eq]
  intro k hsame hest
  obtain ⟨hphs, hviews⟩ := mem_established.mp hest
  rw [h.phs, mem_sameVSet_one] at hsame
  rcases hsame with ⟨htee | htee, _⟩ | ⟨h1, _⟩
  · have hnext := h.next_nonneg m.id
    rw [hviews] at htee
    rw [show (m.views m.id).next = TEE from htee] at hnext
    exact absurd hnext (by decide)
  · exact hcur htee
  · rw [hphs] at h1
    exact absurd h1 (by decide)

/-- The own entry is no transit, so the sum misses twice the supporters by one. -/
theorem card_sum_lt :
    (m.sameVSet m.id (some (m.phs m.id))).card + (m.transitSet m.id 1 .follow).card <
      2 * (m.support (m.views m.id).next).card := by
  have hsame := Finset.card_le_card h.sameVSet_subset
  have htransit : (m.transitSet m.id 1 .follow).card < (m.support (m.views m.id).next).card := by
    apply Finset.card_lt_card
    rw [h.transitSet_eq, Finset.ssubset_iff_of_subset (established_subset m _)]
    refine ⟨m.id, mem_support.mpr rfl, fun hest => ?_⟩
    have h0 := (mem_established.mp hest).1
    rw [h.phs] at h0
    exact absurd h0 (by decide)
  omega

/-- With a current view the sum counts supporters once. -/
theorem card_sum_le (hcur : (m.views m.id).current ≠ TEE) :
    (m.sameVSet m.id (some (m.phs m.id))).card + (m.transitSet m.id 1 .follow).card ≤
      (m.support (m.views m.id).next).card := by
  rw [← Finset.card_union_of_disjoint (h.disjoint_of_current hcur)]
  apply Finset.card_le_card
  apply Finset.union_subset h.sameVSet_subset
  rw [h.transitSet_eq]
  exact established_subset m _

/-- Without a current view `establishable` counts the established ones twice. -/
theorem establishable_of_tee (htee : (m.views m.id).current = TEE) :
    m.establishable 1 .follow = true ↔
      (n : Int) - m.numberOfByzantine ≤
        (m.support (m.views m.id).next).card + (m.established (m.views m.id).next).card := by
  rw [establishable, decide_eq_true_iff, h.sameVSet_of_tee htee, h.transitSet_eq]

end InPhaseOne

/-! ## Two tables -/

/-- Entries on which the tables of two processors differ. -/
def disagreement (mi mj : ViewEstablishmentModule n) : Finset (Fin n) :=
  Finset.univ.filter fun k => ¬ (mi.phs k = mj.phs k ∧ mi.views k = mj.views k)

/-- Two correct processors in phase 1 whose tables agree but for `f` entries
    about others. -/
structure Peers (f : Nat) (mi mj : ViewEstablishmentModule n) : Prop where
  size : 5 * f + 1 ≤ n
  fi : mi.numberOfByzantine = f
  fj : mj.numberOfByzantine = f
  phaseI : mi.InPhaseOne
  phaseJ : mj.InPhaseOne
  differ : (disagreement mi mj).card ≤ f
  agreeI : mi.id ∉ disagreement mi mj
  agreeJ : mj.id ∉ disagreement mi mj

variable {f : Nat} {mi mj : ViewEstablishmentModule n}

/-- Supporters of two views overlap only where the tables differ. -/
theorem card_support_add_le (hd : (disagreement mi mj).card ≤ f) {v w : Int} (hne : v ≠ w) :
    (mi.support v).card + (mj.support w).card ≤ n + f := by
  have hunion : (mi.support v ∪ mj.support w).card ≤ n := by
    have h := Finset.card_le_univ (mi.support v ∪ mj.support w)
    rwa [Fintype.card_fin] at h
  have hinter : (mi.support v ∩ mj.support w).card ≤ (disagreement mi mj).card := by
    apply Finset.card_le_card
    intro k hk
    obtain ⟨hv, hw⟩ := Finset.mem_inter.mp hk
    rw [mem_support] at hv hw
    simp only [disagreement, Finset.mem_filter, Finset.mem_univ, true_and]
    intro hsame
    exact hne (hv.symm.trans ((congrArg VPair.next hsame.2).trans hw))
  have h := Finset.card_union_add_card_inter (mi.support v) (mj.support w)
  omega

/-- What `establishable` compares, as numbers. -/
theorem establishable_iff (m : ViewEstablishmentModule n) :
    m.establishable 1 .follow = true ↔
      n ≤ (m.sameVSet m.id (some (m.phs m.id))).card + (m.transitSet m.id 1 .follow).card +
        m.numberOfByzantine := by
  rw [establishable, decide_eq_true_iff]
  omega

/-- One processor with a current view among the two is enough for agreement: the
    views it may establish have `n - f` supporters, and at most `2f` others are
    counted at most twice for another view. -/
theorem agree_of_current (h : Peers f mi mj) (hi : mi.establishable 1 .follow = true)
    (hj : mj.establishable 1 .follow = true) (hcur : (mj.views mj.id).current ≠ TEE) :
    (mi.views mi.id).next = (mj.views mj.id).next := by
  by_contra hne
  have hsum := card_support_add_le h.differ hne
  have hsi := h.phaseI.card_sum_lt
  have hsj := h.phaseJ.card_sum_le hcur
  rw [establishable_iff, h.fi] at hi
  rw [establishable_iff, h.fj] at hj
  have hsize := h.size
  omega

theorem Peers.symm (h : Peers f mi mj) : Peers f mj mi := by
  have hd : disagreement mj mi = disagreement mi mj := by
    simp only [disagreement, eq_comm]
  exact ⟨h.size, h.fj, h.fi, h.phaseJ, h.phaseI, hd ▸ h.differ, hd ▸ h.agreeJ, hd ▸ h.agreeI⟩

/-- Without faulty processors both sums would need all processors. -/
theorem agree_of_noFaults (h : Peers 0 mi mj) (hi : mi.establishable 1 .follow = true)
    (hj : mj.establishable 1 .follow = true) :
    (mi.views mi.id).next = (mj.views mj.id).next := by
  by_contra hne
  have hsum := card_support_add_le h.differ hne
  have hsi := h.phaseI.card_sum_lt
  have hsj := h.phaseJ.card_sum_lt
  rw [establishable_iff, h.fi] at hi
  rw [establishable_iff, h.fj] at hj
  omega

/-- Two processors that may both establish agree on the view if there are no faults, or one of
    them has a current view, or fewer than `n - 3f` processors count twice at the two of them:
    those that have established the next view there. -/
theorem sameNext_of_fewTwice (h : Peers f mi mj)
    (hfew : f = 0 ∨ (mi.views mi.id).current ≠ TEE ∨ (mj.views mj.id).current ≠ TEE ∨
      (mi.established (mi.views mi.id).next).card +
        (mj.established (mj.views mj.id).next).card + 3 * f < n)
    (hi : mi.establishable 1 .follow = true) (hj : mj.establishable 1 .follow = true) :
    (mi.views mi.id).next = (mj.views mj.id).next := by
  by_cases hci : (mi.views mi.id).current = TEE
  · by_cases hcj : (mj.views mj.id).current = TEE
    · rcases hfew with rfl | hc | hc | htwice
      · exact agree_of_noFaults h hi hj
      · exact absurd hci hc
      · exact absurd hcj hc
      · -- both sums together have twice `n - f` summands, of which `n + f` are supporters
        by_contra hne
        have hsum := card_support_add_le h.differ hne
        have hei := (h.phaseI.establishable_of_tee hci).mp hi
        have hej := (h.phaseJ.establishable_of_tee hcj).mp hj
        rw [h.fi] at hei
        rw [h.fj] at hej
        omega
    · exact agree_of_current h hi hj hcj
  · exact (agree_of_current h.symm hj hi hci).symm

/-! ## Serving -/

theorem mem_sameVSet_zero {m : ViewEstablishmentModule n} {j k : Fin n} :
    k ∈ m.sameVSet j (some 0) ↔ m.phs k = 0 ∧ m.views k = m.views j ∧ m.staleV k = false := by
  simp [sameVSet, eq_comm (a := (0 : Int))]

/-- A processor that serves has `n - 2f` processors with its pair. -/
theorem card_sameVSet_of_allowService {m : ViewEstablishmentModule n}
    (h : m.allowService = true) :
    n ≤ (m.sameVSet m.id (some 0)).card + 2 * m.numberOfByzantine := by
  simp only [allowService, Bool.and_eq_true, decide_eq_true_eq] at h
  obtain ⟨⟨hcard, hphs⟩, -⟩ := h
  rw [hphs] at hcard
  omega

/-- Two correct processors that serve do so in the same view: two sets of
    `n - 2f` processors share one on which the tables agree. -/
theorem sameView_of_allowService (hsize : 5 * f + 1 ≤ n) (hfi : mi.numberOfByzantine = f)
    (hfj : mj.numberOfByzantine = f) (hd : (disagreement mi mj).card ≤ f)
    (hi : mi.allowService = true) (hj : mj.allowService = true) :
    (mi.views mi.id).current = (mj.views mj.id).current := by
  have hcardI := card_sameVSet_of_allowService hi
  have hcardJ := card_sameVSet_of_allowService hj
  rw [hfi] at hcardI
  rw [hfj] at hcardJ
  -- outside the disagreement a vote in one table is a vote in the other
  have hvotesJ : ∀ k ∈ mj.sameVSet mj.id (some 0), k ∉ disagreement mi mj →
      mi.views k = mj.views mj.id := by
    intro k hk hagree
    simp only [disagreement, Finset.mem_filter, Finset.mem_univ, true_and, not_not] at hagree
    rw [hagree.2]
    exact (mem_sameVSet_zero.mp hk).2.1
  have hsame : mi.views mi.id = mj.views mj.id := by
    apply Quorum.agree_of_unique (fun k v => mi.views k = v)
      (fun k hk _ => (mem_sameVSet_zero.mp hk).2.1) hvotesJ
    · intro k _ hv hw
      exact hv.symm.trans hw
    · rw [Fintype.card_fin]
      omega
  rw [hsame]

/-- The own pair of a processor that serves is not stale, whatever else its table holds:
    others have the same one. -/
theorem legitPhsZero_of_allowService {m : ViewEstablishmentModule n}
    (hf : 2 * m.numberOfByzantine < n) (h : m.allowService = true) :
    legitPhsZero n (m.views m.id) = true := by
  have hcard := card_sameVSet_of_allowService h
  have hpos : 0 < (m.sameVSet m.id (some 0)).card := by omega
  obtain ⟨k, hk⟩ := Finset.card_pos.mp hpos
  obtain ⟨hphs, hviews, hstale⟩ := mem_sameVSet_zero.mp hk
  simp only [staleV, Bool.or_eq_false_iff, Bool.and_eq_false_iff, decide_eq_false_iff_not,
    Bool.not_eq_false', hphs, hviews] at hstale
  exact hstale.1.resolve_left fun hne => hne trivial

/-- The view of a processor that serves is the id of a processor. -/
theorem getCurrentView_of_allowService {m : ViewEstablishmentModule n}
    (hf : 2 * m.numberOfByzantine < n) (h : m.allowService = true) :
    m.getCurrentView m.id = (m.views m.id).next ∧
      ∃ k : Fin n, m.getCurrentView m.id = k.val := by
  have hsame : (m.views m.id).current = (m.views m.id).next := by
    simp only [allowService, Bool.and_eq_true, decide_eq_true_eq] at h
    exact h.2
  -- the exit with TEE is not taken, and the other two return the own current view
  have hview : m.getCurrentView m.id = (m.views m.id).next := by
    rw [getCurrentView, h, if_pos rfl, hsame, ite_self]
  have hlegit := (legitPhsZero_iff _).mp (legitPhsZero_of_allowService hf h)
  have hrange := ((typeCheck_iff (by omega) _).mp hlegit.2).1
  refine ⟨hview, ⟨(m.views m.id).next.toNat, by omega⟩, ?_⟩
  rw [hview]
  exact (Int.toNat_of_nonneg hrange.1).symm

/-- The answers of the View Establishment module to the Replication module. -/
def resolver (m : ViewEstablishmentModule n) (noViewChange : Bool) : Resolver n where
  allowService := m.allowService
  noViewChange := noViewChange
  currentView := m.getCurrentView

/-- While service is allowed the current view is a position in the list of processors, so
    lines 4-8 of the replication read the structure of the primary. -/
theorem primary_of_allowService {m : ViewEstablishmentModule n}
    (hf : 2 * m.numberOfByzantine < n) (h : m.allowService = true) :
    (m.getCurrentView m.id = (m.views m.id).next ∧ m.getCurrentView m.id ≠ TEE ∧
      0 ≤ m.getCurrentView m.id ∧ m.getCurrentView m.id ≤ n - 1) ∧
    ∀ (r : ReplicationModule n) (noViewChange : Bool), r.id = m.id →
      let s := r.noticeView (m.resolver noViewChange)
      ∃ k : Fin n, s.own.prim = k.val ∧ s.repAt s.own.prim = .ok (s.rep k) := by
  obtain ⟨hview, k, hk⟩ := getCurrentView_of_allowService hf h
  refine ⟨⟨hview, ?_, ?_, ?_⟩, ?_⟩
  · rw [hk, TEE]
    omega
  · omega
  · omega
  · intro r noViewChange hid s
    have hprim : s.own.prim = k.val := by
      rw [← hk, ← hid]
      simp [s, ReplicationModule.noticeView, ReplicationModule.own, ReplicationModule.setOwn,
        resolver]
    refine ⟨k, hprim, ?_⟩
    rw [hprim, ReplicationModule.repAt, pyIndex_val]
    rfl

/-- Processor 0 in view 3 with all but processor 5, whose entry is stale. -/
def inViewThree : ViewEstablishmentModule 6 :=
  { init 0 1 with views := fun k => if k = 5 then ⟨9, -4⟩ else ⟨3, 3⟩ }

theorem primary_of_allowService_three : inViewThree.allowService = true ∧
    let s := (ReplicationModule.init 0 1 2 true).noticeView (inViewThree.resolver true)
    ∃ k : Fin 6, s.own.prim = k.val ∧ s.repAt s.own.prim = .ok (s.rep k) :=
  ⟨by decide, (primary_of_allowService (m := inViewThree) (by decide) (by decide)).2 _ true rfl⟩

/-! ## Two tables of six processors -/

/-- Processor `id` of six with the given phases and view pairs. -/
def withTable (id : Fin 6) (phs : Fin 6 → Int) (views : Fin 6 → VPair) :
    ViewEstablishmentModule 6 :=
  { init id 1 with phs := phs, views := views }

/-- Five processors without a current view go for view 2, which processor 5 has established;
    the faulty processor 4 claims another one to processor 1. -/
def catchingUpAt (id : Fin 6) (forged : Int) : ViewEstablishmentModule 6 :=
  withTable id ![1, 1, 1, 1, 1, 0]
    ![⟨TEE, 2⟩, ⟨TEE, 2⟩, ⟨TEE, 2⟩, ⟨TEE, 2⟩, ⟨TEE, forged⟩, ⟨2, 2⟩]

theorem peers_catchingUp : Peers 1 (catchingUpAt 0 2) (catchingUpAt 1 3) where
  size := by decide
  fi := rfl
  fj := rfl
  phaseI := ⟨by decide, rfl⟩
  phaseJ := ⟨by decide, rfl⟩
  differ := by decide
  agreeI := by decide
  agreeJ := by decide

theorem sameNext_of_fewTwice_six :
    ((catchingUpAt 0 2).views 0).next = ((catchingUpAt 1 3).views 1).next :=
  sameNext_of_fewTwice peers_catchingUp (Or.inr (Or.inr (Or.inr (by decide)))) (by decide)
    (by decide)

/-- Processors 0 and 1 serve in view 2, and were told different things by processor 5. -/
def servingAt (id : Fin 6) (forged : VPair) : ViewEstablishmentModule 6 :=
  withTable id (fun _ => 0) ![⟨2, 2⟩, ⟨2, 2⟩, ⟨2, 2⟩, ⟨2, 2⟩, ⟨3, 3⟩, forged]

theorem sameView_of_allowService_six :
    ((servingAt 0 ⟨2, 2⟩).views 0).current = ((servingAt 1 ⟨3, 3⟩).views 1).current :=
  sameView_of_allowService (f := 1) (by decide) rfl rfl (by decide) (by decide) (by decide)

/-- With `n = 5f` two correct processors may serve in different views. -/
example :
    let serving (id : Fin 5) (forged : VPair) : ViewEstablishmentModule 5 :=
      { init id 1 with views := ![⟨0, 0⟩, ⟨0, 0⟩, ⟨1, 1⟩, ⟨1, 1⟩, forged] }
    (disagreement (serving 0 ⟨0, 0⟩) (serving 2 ⟨1, 1⟩)).card ≤ 1 ∧
      (serving 0 ⟨0, 0⟩).allowService = true ∧ (serving 2 ⟨1, 1⟩).allowService = true := by
  decide

/-- Processors 0 and 1 lack a current view and go for views 2 and 3; 2 and 3
    have established the one, 4 and 5 the other. -/
def undecidedAt (id : Fin 6) : ViewEstablishmentModule 6 :=
  withTable id ![1, 1, 0, 0, 0, 0] ![⟨TEE, 2⟩, ⟨TEE, 3⟩, ⟨2, 2⟩, ⟨2, 2⟩, ⟨3, 3⟩, ⟨3, 3⟩]

/-- Two correct processors with one and the same table may establish views 2 and 3. -/
theorem differentNext_undecided :
    Peers 1 (undecidedAt 0) (undecidedAt 1) ∧
      (undecidedAt 0).establishable 1 .follow = true ∧
      (undecidedAt 1).establishable 1 .follow = true ∧
      ((undecidedAt 0).views 0).next ≠ ((undecidedAt 1).views 1).next := by
  refine ⟨?_, by decide, by decide, by decide⟩
  exact
    { size := by decide
      fi := rfl
      fj := rfl
      phaseI := ⟨by decide, rfl⟩
      phaseJ := ⟨by decide, rfl⟩
      differ := by decide
      agreeI := by decide
      agreeJ := by decide }

end BFTList.ViewEstablishmentModule
