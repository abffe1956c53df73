import BFTList.ForStd.Network
import BFTList.ForStd.Quorum
import BFTList.Spec.ViewPairs

/-!
# A common view is stable

All correct processors are in phase 0 with one view pair `(v, v)`, and up to
`f` faulty ones send what they like. In the table of a correct processor every
entry about a correct one then says `(v, v)`, which decides each predicate of
the automaton: nothing else has the support to be adopted, too few flags ask
for a change, and enough processors remain. So an iteration only updates the
witnesses, whatever the echoes are.

## Key results

- `Settled.automation_eq`: the automaton does nothing
- `settled_network`: what correct processors keep in every run
- `view_stable`: no correct processor leaves the view, and service is allowed
-/

namespace BFTList.ViewEstablishmentModule

variable {n f : Nat} {faulty : Finset (Fin n)} {v : Int}

/-! ## One table -/

/-- Every entry about a correct processor says `(v, v)` in phase 0. -/
structure Settled (f : Nat) (faulty : Finset (Fin n)) (v : Int)
    (m : ViewEstablishmentModule n) : Prop where
  byzantine : m.numberOfByzantine = f
  phs : ∀ k, k ∉ faulty → m.phs k = 0
  views : ∀ k, k ∉ faulty → m.views k = ⟨v, v⟩
  vChange : ∀ k, k ∉ faulty → m.vChange k = false

/-- The setting: enough processors, few faulty ones, and `v` is a view. -/
structure Setting (n f : Nat) (faulty : Finset (Fin n)) (v : Int) : Prop where
  size : 5 * f + 1 ≤ n
  two : 2 ≤ n
  few : faulty.card ≤ f
  view : 0 ≤ v ∧ v < n

namespace Settled

variable {m : ViewEstablishmentModule n} (h : m.Settled f faulty v)
  (hs : Setting n f faulty v)

include h hs

/-- Entries about correct processors are not stale. -/
theorem staleV_eq {k : Fin n} (hk : k ∉ faulty) : m.staleV k = false := by
  apply staleV_of_legit
  rw [h.phs k hk, h.views k hk]
  refine Or.inl ⟨rfl, (legitPhsZero_iff _).mpr ⟨Or.inl rfl, ?_⟩⟩
  exact (typeCheck_iff (by have := hs.two; omega) _).mpr ⟨hs.view, Or.inr hs.view⟩

/-- All correct processors are in the view set of a correct one. -/
theorem mem_sameVSet {j k : Fin n} (hj : j ∉ faulty) (hk : k ∉ faulty) :
    k ∈ m.sameVSet j (some (m.phs j)) := by
  simp only [sameVSet, Finset.mem_filter, Finset.mem_univ, true_and]
  refine Or.inr ⟨Or.inr ?_, ?_, h.staleV_eq hs hk⟩
  · rw [h.phs j hj, h.phs k hk]
  · rw [h.views j hj, h.views k hk]

theorem card_sameVSet {j : Fin n} (hj : j ∉ faulty) :
    n ≤ (m.sameVSet j (some (m.phs j))).card + f := by
  have hall := Quorum.card_univ_le_add fun k hk => h.mem_sameVSet hs hj hk
  rw [Fintype.card_fin] at hall
  have hfew := hs.few
  omega

/-- A pair with another next view is supported by faulty processors only. -/
theorem transitAdopble_follow {k : Fin n} (hk : (m.views k).next ≠ v) :
    m.transitAdopble k 0 .follow = false := by
  have hfaulty : ∀ c ∈ m.sameVSet k (some (m.phs k)) ∪ m.transitSet k 0 .follow,
      c ∈ faulty := by
    intro c hc
    by_contra hcorrect
    have hviews := h.views c hcorrect
    simp only [Finset.mem_union, sameVSet, transitSet, Finset.mem_filter, Finset.mem_univ,
      true_and] at hc
    rcases hc with (⟨-, -, hnext⟩ | ⟨-, hsame, -⟩) | ⟨hphs, -⟩
    · rw [hviews] at hnext
      exact hk hnext.symm
    · rw [hviews] at hsame
      exact hk (congrArg VPair.next hsame).symm
    · exact hphs (h.phs c hcorrect)
  have hcard := Finset.card_le_card (show _ ⊆ faulty from hfaulty)
  rw [transitAdopble, decide_eq_false_iff_not, h.byzantine]
  have hfew := hs.few
  have hsize := hs.size
  omega

/-- No pair of the table may be adopted. -/
theorem pairToAdoptZero_eq (hid : m.id ∉ faulty) : m.pairToAdoptZero = none := by
  cases hp : m.pairToAdoptZero with
  | none => rfl
  | some vpair =>
    obtain ⟨k, -, rfl, hne, hadopt⟩ := pairToAdoptZero_spec hp
    rw [h.views m.id hid] at hne
    rw [h.transitAdopble_follow hs (Ne.symm hne)] at hadopt
    exact absurd hadopt (by decide)

/-- Flags and pairs on the way to the upcoming view come from faulty processors. -/
theorem changeable_eq (hid : m.id ∉ faulty) : m.changeable = false := by
  have hflags : ∀ k ∈ Finset.univ.filter fun k => m.vChange k = true, k ∈ faulty := by
    intro k hk
    by_contra hcorrect
    rw [Finset.mem_filter, h.vChange k hcorrect] at hk
    exact absurd hk.2 (by decide)
  have hway : ∀ k ∈ Finset.univ.filter fun k =>
      (m.views k).next = ((m.views m.id).current + 1) % n, k ∈ faulty := by
    intro k hk
    by_contra hcorrect
    rw [Finset.mem_filter, h.views k hcorrect, h.views m.id hid] at hk
    -- the upcoming view is another one, since there are two views
    have hnext : v = (v + 1) % n := hk.2
    have hview := hs.view
    have htwo := hs.two
    by_cases hlast : v + 1 = n
    · rw [hlast, Int.emod_self] at hnext
      omega
    · rw [Int.emod_eq_of_lt (by omega) (by omega)] at hnext
      omega
  have hcf := Finset.card_le_card (show _ ⊆ faulty from hflags)
  have hcw := Finset.card_le_card (show _ ⊆ faulty from hway)
  rw [changeable, decide_eq_false_iff_not, h.byzantine]
  have hfew := hs.few
  have hsize := hs.size
  omega

theorem views_ne_rst (hid : m.id ∉ faulty) : m.views m.id ≠ RST_PAIR := by
  rw [h.views m.id hid]
  intro heq
  have hcur := congrArg VPair.current heq
  have hview := hs.view
  simp only [RST_PAIR, TEE] at hcur
  omega

theorem caseOneZero_eq (hid : m.id ∉ faulty) : m.caseOneZero = false := by
  simp only [caseOneZero, h.changeable_eq hs hid, h.views_ne_rst hs hid, decide_false,
    Bool.false_and, Bool.or_self]

/-- Enough processors remain. -/
theorem caseTwoZero_eq (hid : m.id ∉ faulty) : m.caseTwoZero = true := by
  have hcard := h.card_sameVSet hs hid
  have hle : (m.sameVSet m.id (some (m.phs m.id))).card ≤
      (m.sameVSet m.id (some (m.phs m.id)) ∪ m.transitSet m.id 0 .remain).card :=
    Finset.card_le_card Finset.subset_union_left
  rw [caseTwoZero, transitAdopble, Bool.or_eq_true, decide_eq_true_iff, h.byzantine]
  apply Or.inl
  omega

/-- The automaton does nothing. -/
theorem automation_eq (hid : m.id ∉ faulty) : m.automation = m := by
  simp only [automation, h.phs m.id hid, if_true, automationPhaseZero,
    h.pairToAdoptZero_eq hs hid, h.caseOneZero_eq hs hid, h.caseTwoZero_eq hs hid,
    Bool.false_eq_true, if_false]

theorem needReset_eq (hid : m.id ∉ faulty) : m.needReset false = false := by
  rw [needReset, h.staleV_eq hs hid, Bool.or_self]

theorem allowService_eq (hid : m.id ∉ faulty) : m.allowService = true := by
  have hcard := h.card_sameVSet hs hid
  simp only [allowService, Bool.and_eq_true, decide_eq_true_iff, h.byzantine]
  refine ⟨⟨by omega, h.phs m.id hid⟩, ?_⟩
  rw [h.views m.id hid]

theorem getCurrentView_eq (hid : m.id ∉ faulty) : m.getCurrentView m.id = v := by
  simp only [getCurrentView, h.allowService_eq hs hid, if_true, h.views m.id hid, ite_self]

/-- An iteration only updates the witnesses. -/
theorem run_eq (hid : m.id ∉ faulty) :
    ∃ witnesses witnessesSet,
      m.run false = { m with witnesses := witnesses, witnessesSet := witnessesSet } := by
  have hnotice : ∃ witnesses witnessesSet, m.noticeWitnesses false =
      { m with witnesses := witnesses, witnessesSet := witnessesSet } := by
    simp only [noticeWitnesses, h.needReset_eq hs hid, Bool.false_eq_true, if_false]
    exact ⟨_, _, rfl⟩
  obtain ⟨witnesses, witnessesSet, hw⟩ := hnotice
  refine ⟨witnesses, witnessesSet, ?_⟩
  have hsettled : Settled f faulty v
      { m with witnesses := witnesses, witnessesSet := witnessesSet } :=
    ⟨h.byzantine, h.phs, h.views, h.vChange⟩
  simp only [run, hw]
  rw [hsettled.automation_eq hs hid, ite_self]

end Settled

/-! ## The network -/

/-- What a processor does on its own when nobody asks for a view change or a flush. -/
inductive OwnAction where
  | run
  | sendOwn

/-- The View Establishment module among others; a faulty processor may send any
    data about itself and about the receiver. -/
def protocol (n : Nat) :
    Protocol (Fin n) (ViewEstablishmentModule n) OwnAction (OwnData × Echo) where
  act _ a m :=
    match a with
    | .run => some (m.run false)
    | .sendOwn => some m.sendOwn
  emit i m j := if j = i then [] else [(m.ownData, m.aboutData j)]
  receive _ i msg m := m.receiveMsg i msg.1 msg.2
  forgeable _ _ := True

/-- A processor whose table is settled. -/
def InView (f : Nat) (faulty : Finset (Fin n)) (v : Int) (i : Fin n)
    (m : ViewEstablishmentModule n) : Prop := m.id = i ∧ m.Settled f faulty v

/-- A message that reports view `v`. -/
def Reports (v : Int) (_i _j : Fin n) (msg : OwnData × Echo) : Prop :=
  msg.1.phs = 0 ∧ msg.1.views = ⟨v, v⟩ ∧ msg.1.vChange = false

/-- Runs from the states in which all correct processors and what they have sent
    agree on view `v`. -/
def stableNetwork (n f : Nat) (faulty : Finset (Fin n)) (v : Int) :
    System (Network (Fin n) (ViewEstablishmentModule n) (OwnData × Echo))
      (Network.Label (Fin n) OwnAction (OwnData × Echo)) :=
  Network.system (protocol n) faulty fun net =>
    (∀ i, i ∉ faulty → InView f faulty v i (net.nodes i)) ∧
      ∀ i j msg, (i, j, msg) ∈ net.flight → i ∉ faulty → Reports v i j msg

theorem inView_run (hs : Setting n f faulty v) {i : Fin n} (hi : i ∉ faulty)
    {m : ViewEstablishmentModule n} (h : InView f faulty v i m) :
    InView f faulty v i (m.run false) := by
  obtain ⟨rfl, h⟩ := h
  obtain ⟨witnesses, witnessesSet, hrun⟩ := h.run_eq hs hi
  rw [hrun]
  exact ⟨rfl, ⟨h.byzantine, h.phs, h.views, h.vChange⟩⟩

/-- What a correct processor sends reports the view. -/
theorem reports_ownData {i j : Fin n} (hi : i ∉ faulty) {m : ViewEstablishmentModule n}
    (h : InView f faulty v i m) : Reports v i j (m.ownData, m.aboutData j) := by
  obtain ⟨rfl, h⟩ := h
  exact ⟨h.phs m.id hi, h.views m.id hi, h.vChange m.id hi⟩

/-- A message changes only the entries about its sender. -/
theorem inView_receiveMsg {i j : Fin n} {m : ViewEstablishmentModule n}
    (h : InView f faulty v j m) {msg : OwnData × Echo}
    (hmsg : i ∉ faulty → Reports v i j msg) : InView f faulty v j (m.receiveMsg i msg.1 msg.2) := by
  unfold receiveMsg
  split
  · refine ⟨h.1, ⟨h.2.byzantine, fun k hk => ?_, fun k hk => ?_, fun k hk => ?_⟩⟩
    · by_cases hki : k = i
      · subst hki
        simpa only [Function.update_self] using (hmsg hk).1
      · simpa only [Function.update_of_ne hki] using h.2.phs k hk
    · by_cases hki : k = i
      · subst hki
        simpa only [Function.update_self] using (hmsg hk).2.1
      · simpa only [Function.update_of_ne hki] using h.2.views k hk
    · by_cases hki : k = i
      · subst hki
        simpa only [Function.update_self] using (hmsg hk).2.2
      · simpa only [Function.update_of_ne hki] using h.2.vChange k hk
  · exact h

/-- What correct processors keep in every run. -/
theorem settled_network (hs : Setting n f faulty v)
    {net : Network (Fin n) (ViewEstablishmentModule n) (OwnData × Echo)}
    (h : (stableNetwork n f faulty v).Reachable net) :
    Network.Local (protocol n) faulty (InView f faulty v) (Reports v) net := by
  refine Network.Reachable.of_local ?_ ?_ ?_ ?_ h
  · intro net hnet
    exact ⟨hnet.1, hnet.2, fun _ _ _ _ _ => trivial⟩
  · intro i hi a m m' hm hact
    cases a with
    | run =>
      cases hact
      exact inView_run hs hi hm
    | sendOwn =>
      cases hact
      exact ⟨hm.1, ⟨hm.2.byzantine, hm.2.phs, hm.2.views, hm.2.vChange⟩⟩
  · intro i hi m j msg hm hmsg
    simp only [protocol] at hmsg
    split at hmsg
    · exact absurd hmsg List.not_mem_nil
    · rw [List.mem_singleton.mp hmsg]
      exact reports_ownData hi hm
  · intro j _ m i msg hm hmsg _
    exact inView_receiveMsg hm hmsg

/-- No correct processor leaves view `v` or resets, and each one allows service
    in view `v`, in every run with up to `f` faulty processors. -/
theorem view_stable (hs : Setting n f faulty v)
    {net : Network (Fin n) (ViewEstablishmentModule n) (OwnData × Echo)}
    (h : (stableNetwork n f faulty v).Reachable net) {i : Fin n} (hi : i ∉ faulty) :
    (net.nodes i).phs i = 0 ∧ (net.nodes i).views i = ⟨v, v⟩ ∧
      (net.nodes i).allowService = true ∧ (net.nodes i).getCurrentView i = v ∧
      (net.nodes i).needReset false = false ∧
      ∃ witnesses witnessesSet, (net.nodes i).run false =
        { net.nodes i with witnesses := witnesses, witnessesSet := witnessesSet } := by
  obtain ⟨hid, hsettled⟩ := (settled_network hs h).nodes i hi
  have hcorrect : (net.nodes i).id ∉ faulty := hid.symm ▸ hi
  refine ⟨hsettled.phs i hi, hsettled.views i hi, hsettled.allowService_eq hs hcorrect, ?_,
    hsettled.needReset_eq hs hcorrect, hsettled.run_eq hs hcorrect⟩
  have hview := hsettled.getCurrentView_eq hs hcorrect
  rwa [hid] at hview

/-- Six processors in view 3, after processor 5 has sent a reset pair to processor 0. -/
theorem view_stable_six :
    let m : ViewEstablishmentModule 6 := { init (0 : Fin 6) 1 with views := fun _ => ⟨3, 3⟩ }
    (m.receiveMsg 5 ⟨0, true, RST_PAIR, false⟩
      ⟨some RST_PAIR, 0, some true, some false⟩).getCurrentView 0 = 3 := by
  let start : Network (Fin 6) (ViewEstablishmentModule 6) (OwnData × Echo) :=
    ⟨fun i => { init i 1 with views := fun _ => ⟨3, 3⟩ }, []⟩
  have hstart : (stableNetwork 6 1 {5} 3).Reachable start := by
    refine .init ⟨fun i _ => ⟨rfl, ?_⟩, fun _ _ _ hmem => absurd hmem List.not_mem_nil⟩
    exact ⟨rfl, fun _ _ => rfl, fun _ _ => rfl, fun _ _ => rfl⟩
  have hforged : (stableNetwork 6 1 {5} 3).Reachable
      (start.set 0 ((start.nodes 0).receiveMsg 5
        ⟨0, true, RST_PAIR, false⟩ ⟨some RST_PAIR, 0, some true, some false⟩)) :=
    .step (a := .forge 5 0 (⟨0, true, RST_PAIR, false⟩,
        ⟨some RST_PAIR, 0, some true, some false⟩)) hstart trivial
      ⟨by decide, by decide, trivial, rfl⟩
  have hview := view_stable ⟨by decide, by decide, by decide, by decide⟩ hforged
    (i := 0) (by decide)
  exact hview.2.2.2.1

end BFTList.ViewEstablishmentModule
