import BFTList.Spec.StatusMachine
import BFTList.Spec.SupportedChange

/-!
# Primary Monitoring in a common view

One iteration when all processors are in a view of `p` with service. Sets of at least `n - 2f`
processors are iterated in ascending order, as sets of small integers are. Then `sup_change`
depends on the first processor that names anyone, and no longer on the size asked for, so that
a processor which has stopped the service changes the view as soon as `n - 3f` have.

## Key results

- `supChange_inView`: what `sup_change` decides in a common view
- `updateStatus_inView`: lines 9-13
- `run_inView`: one iteration
-/

namespace BFTList.PrimaryMonitoringModule

variable {n : Nat} {m : PrimaryMonitoringModule n} {order : SetOrder (Fin n)} {p : Fin n}
  {b : Bool}

/-- The answers of a view of `p` with service. -/
def envIn (p : Fin n) (suspected : Bool) : PrimMonEnv n := ⟨fun _ => p.val, true, suspected⟩

/-- Sets of at least `n - 2f` processors are iterated in ascending order. -/
def Ascends (f : Nat) (order : SetOrder (Fin n)) : Prop :=
  ∀ ks : List (Fin n), ks.Pairwise (· < ·) → (n : Int) - 2 * f ≤ ks.length → order.iter ks = ks

theorem ascends_insertion (f : Nat) : Ascends f (.insertion : SetOrder (Fin n)) :=
  fun _ _ _ => rfl

/-- The first processor that names anyone names `n - 2f` processors. -/
def Decisive (m : PrimaryMonitoringModule n) : Prop :=
  ∃ a, m.Names a ∧ ∀ k < a, (m.vcm k).needChgSet = ∅

/-- In a common view `sup_change` depends on the first processor that names anyone. -/
theorem supChange_inView (hpos : 2 * m.numberOfByzantine < n)
    (horder : Ascends m.numberOfByzantine order) (hprim : ∀ k, (m.vcm k).prim = p.val) {x : Int}
    (hx : x ≤ n) : m.supChange order x = true ↔ m.Decisive := by
  have hgroup : m.group p.val = List.finRange n := by
    rw [group, List.filter_eq_self]
    intro k _
    exact decide_eq_true (hprim k)
  have hiter : order.iter (List.finRange n) = List.finRange n := by
    apply horder
    · exact List.pairwise_lt_finRange n
    · rw [List.length_finRange]
      omega
  have hfirst : ∀ k, m.FirstNaming order x k ↔
      (m.vcm k).needChgSet ≠ ∅ ∧ ∀ j < k, (m.vcm j).needChgSet = ∅ := by
    intro k
    rw [FirstNaming, hprim, hgroup, hiter, List.length_finRange, ← Fin.find?_eq_find?_finRange,
      Fin.find?_eq_some_iff]
    simp only [hx, true_and, decide_eq_true_eq, ne_eq, decide_not, Bool.not_eq_false',
      Bool.not_eq_true', decide_eq_false_iff_not]
  rw [supChange_first_iff hpos]
  constructor
  · intro h
    obtain ⟨k, hk, hnames⟩ := h
    exact ⟨k, hnames, ((hfirst k).mp hk).2⟩
  · intro h
    obtain ⟨a, hnames, hbefore⟩ := h
    refine ⟨a, (hfirst a).mpr ⟨?_, hbefore⟩, hnames⟩
    intro hempty
    rw [Names, hempty, Finset.card_empty] at hnames
    omega

/-! ## One iteration -/

/-- Once in a view of `p`, all records report it. -/
def Reporting (p : Fin n) (m : PrimaryMonitoringModule n) : Prop :=
  m.own.prim = p.val → ∀ k, (m.vcm k).prim = p.val

/-- The names of the processors that need a change. -/
def names (m : PrimaryMonitoringModule n) : Finset Int :=
  (Finset.univ.filter fun k : Fin n => (m.vcm k).needChange = true).image ident

/-- The record of another processor when an iteration starts; a clean one, if it is the first
    in the view. -/
theorem started_vcm (m : PrimaryMonitoringModule n) {k : Fin n} (hk : k ≠ m.id) :
    (m.started (envIn p b)).vcm k =
      if m.own.prim = m.getCurrentView (envIn p b) m.id then m.vcm k
      else ⟨.ok, m.getCurrentView (envIn p b) k, false, ∅⟩ := by
  have hid : (m.refreshed (envIn p b)).id = m.id := by
    unfold refreshed
    split
    · rfl
    · rfl
  rw [started, vcm_setOwn_of_ne (hid.symm ▸ hk), refreshed]
  by_cases hview : m.own.prim = m.getCurrentView (envIn p b) m.id
  · rw [if_neg (not_not_intro hview), if_pos hview]
  · rw [if_pos hview, if_neg hview]
    rfl

/-- The own record when an iteration starts. -/
theorem started_own (m : PrimaryMonitoringModule n) :
    (m.started (envIn p b)).own =
      if m.own.prim = m.getCurrentView (envIn p b) m.id then
        { m.own with prim := m.getCurrentView (envIn p b) m.id, needChange := b }
      else ⟨.ok, m.getCurrentView (envIn p b) m.id, b, ∅⟩ := by
  rw [started, own_setOwn, refreshed]
  by_cases hview : m.own.prim = m.getCurrentView (envIn p b) m.id
  · rw [if_neg (not_not_intro hview), if_pos hview]
    rfl
  · rw [if_pos hview, if_neg hview]
    rfl

theorem started_config (m : PrimaryMonitoringModule n) (env : PrimMonEnv n) :
    (m.started env).id = m.id ∧ (m.started env).numberOfByzantine = m.numberOfByzantine ∧
      (m.started env).selfStab = m.selfStab := by
  unfold started refreshed
  split
  · exact ⟨rfl, rfl, rfl⟩
  · exact ⟨rfl, rfl, rfl⟩

/-- Fewer than `n - 3f` processors have stopped the service. -/
def Few (m : PrimaryMonitoringModule n) : Prop :=
  (m.getNumberOfProcessorsInNoService : Int) < n - 3 * m.numberOfByzantine

/-- What an iteration in a view of `p` leaves of a table, when the failure detector answers
    `b`; `m₁` is the table it starts with. -/
structure Monitored (p : Fin n) (b : Bool) (m m₁ m' : PrimaryMonitoringModule n) (asks : Bool) :
    Prop where
  id : m'.id = m.id
  byzantine : m'.numberOfByzantine = m.numberOfByzantine
  stab : m'.selfStab = true
  others : ∀ k, k ≠ m.id → m'.vcm k = m₁.vcm k
  prim : m'.own.prim = p.val
  needChange : m'.own.needChange = b
  needChgSet : m'.own.needChgSet =
    if m₁.own.vStatus = .vChange then m₁.own.needChgSet else m₁.names
  asks : asks = true ↔ m'.own.vStatus = .vChange
  stays : m₁.own.vStatus = .vChange → m'.own.vStatus = .vChange
  decisive : m₁.own.vStatus ≠ .vChange → m'.Decisive →
    (m'.own.vStatus = .noService ∧ (m₁.Few ∨ m₁.own.vStatus = .ok)) ∨
      (m'.own.vStatus = .vChange ∧ ¬ m₁.Few)
  indecisive : m₁.own.vStatus ≠ .vChange → ¬ m'.Decisive →
    m'.own.vStatus = .ok ∨ m'.own.vStatus = m₁.own.vStatus

/-- A change of the own status does not matter to `sup_change`. -/
theorem decisive_congr {m' : PrimaryMonitoringModule n}
    (hbyz : m'.numberOfByzantine = m.numberOfByzantine)
    (hset : ∀ k, (m'.vcm k).needChgSet = (m.vcm k).needChgSet) : m'.Decisive ↔ m.Decisive := by
  simp only [Decisive, Names, hbyz, hset]

theorem vcm_setStatus (v : PrimaryMonitoringEnums) (k : Fin n) :
    ((m.setStatus v).vcm k).needChgSet = (m.vcm k).needChgSet ∧
      ((m.setStatus v).vcm k).prim = (m.vcm k).prim := by
  by_cases hk : k = m.id
  · subst hk
    show (m.setStatus v).own.needChgSet = m.own.needChgSet ∧ (m.setStatus v).own.prim = m.own.prim
    rw [own_setStatus]
    exact ⟨rfl, rfl⟩
  · rw [setStatus, vcm_setOwn_of_ne hk]
    exact ⟨rfl, rfl⟩

theorem setStatus_setStatus (v v' : PrimaryMonitoringEnums) :
    (m.setStatus v).setStatus v' = m.setStatus v' := by
  rw [setStatus, own_setStatus]
  simp only [setStatus, setOwn, Function.update_idem]

theorem setStatus_own : m.setStatus m.own.vStatus = m := setOwn_own m

/-- Collecting the names changes no other part of the table. -/
theorem updateNeedChgSet_inView (m : PrimaryMonitoringModule n) :
    m.updateNeedChgSet (envIn p b) = m.setOwn { m.own with needChgSet := m.names } := by
  have hsame : ∀ k, (m.getCurrentView (envIn p b) m.id = m.getCurrentView (envIn p b) k) ↔ True :=
    fun _ => iff_of_true rfl trivial
  simp only [updateNeedChgSet, hsame, and_true, names]
  rfl

theorem vcm_updateNeedChgSet (m : PrimaryMonitoringModule n) (k : Fin n) :
    ((m.updateNeedChgSet (envIn p b)).vcm k).vStatus = (m.vcm k).vStatus ∧
      ((m.updateNeedChgSet (envIn p b)).vcm k).prim = (m.vcm k).prim := by
  rw [updateNeedChgSet_inView]
  by_cases hk : k = m.id
  · subst hk
    show (m.setOwn _).own.vStatus = m.own.vStatus ∧ (m.setOwn _).own.prim = m.own.prim
    rw [own_setOwn]
    exact ⟨rfl, rfl⟩
  · rw [vcm_setOwn_of_ne hk]
    exact ⟨rfl, rfl⟩

theorem few_updateNeedChgSet (m : PrimaryMonitoringModule n) :
    (m.updateNeedChgSet (envIn p b)).Few ↔ m.Few := by
  simp only [Few, getNumberOfProcessorsInNoService, vcm_updateNeedChgSet]
  rfl

/-- Lines 9-13 in a common view write a status, and ask for a change with `V_CHANGE`. -/
theorem updateStatus_inView (hpos : 2 * m.numberOfByzantine < n)
    (horder : Ascends m.numberOfByzantine order) (hstab : m.selfStab = true)
    (hprim : ∀ k, (m.vcm k).prim = p.val) (hstatus : m.own.vStatus ≠ .vChange) :
    ∃ v, m.updateStatus (envIn p b) order =
        ((m.updateNeedChgSet (envIn p b)).setStatus v, decide (v = .vChange)) ∧
      ((m.updateNeedChgSet (envIn p b)).Decisive →
        (v = .noService ∧ (m.Few ∨ m.own.vStatus = .ok)) ∨ (v = .vChange ∧ ¬ m.Few)) ∧
      (¬ (m.updateNeedChgSet (envIn p b)).Decisive → v = .ok ∨ v = m.own.vStatus) := by
  rw [updateStatus_def]
  generalize hu : m.updateNeedChgSet (envIn p b) = u
  have hvcm := vcm_updateNeedChgSet (p := p) (b := b) m
  have hfew := few_updateNeedChgSet (p := p) (b := b) m
  have hown : u.own.vStatus = m.own.vStatus := hu ▸ updateNeedChgSet_status
  rw [hu] at hvcm hfew
  have hbyz : u.numberOfByzantine = m.numberOfByzantine := by
    rw [← hu]
    rfl
  have hstabu : u.selfStab = true := by
    rw [← hu]
    exact hstab
  -- both sizes are no more than the number of processors, which all report the view
  have hsup : ∀ v, ∀ x : Int, x ≤ n →
      ((u.setStatus v).supChange order x = true ↔ u.Decisive) := by
    intro v x hx
    have hprim' : ∀ k, ((u.setStatus v).vcm k).prim = p.val := by
      intro k
      rw [(vcm_setStatus v k).2, (hvcm k).2]
      exact hprim k
    have hconfig : (u.setStatus v).numberOfByzantine = m.numberOfByzantine := hbyz
    rw [supChange_inView (by rw [hconfig]; exact hpos) (by rw [hconfig]; exact horder) hprim' hx]
    exact decisive_congr rfl fun k => (vcm_setStatus v k).1
  have hline11 : u.line11 = u.setStatus .ok ∧ m.Few ∨ u.line11 = u.setStatus m.own.vStatus ∧
      ¬ m.Few := by
    by_cases hf : m.Few
    · exact Or.inl ⟨if_pos (hfew.mpr hf), hf⟩
    · refine Or.inr ⟨?_, hf⟩
      rw [← hown, setStatus_own]
      exact if_neg fun h => hf (hfew.mp h)
  obtain ⟨v₀, hv₀, hcase⟩ : ∃ v₀, u.line11 = u.setStatus v₀ ∧
      ((v₀ = .ok ∧ m.Few) ∨ (v₀ = m.own.vStatus ∧ ¬ m.Few)) := by
    rcases hline11 with ⟨hline, hf⟩ | ⟨hline, hf⟩
    · exact ⟨_, hline, Or.inl ⟨rfl, hf⟩⟩
    · exact ⟨_, hline, Or.inr ⟨rfl, hf⟩⟩
  rw [hv₀]
  have hstab' : (u.setStatus v₀).selfStab = true := hstabu
  have hown' : (u.setStatus v₀).own.vStatus = v₀ := by rw [own_setStatus]
  simp only [hown', hstab', setStatus_setStatus]
  by_cases hdec : u.Decisive
  · rw [(hsup v₀ _ (by omega)).mpr hdec, (hsup v₀ _ (by omega)).mpr hdec]
    by_cases hok : v₀ = .ok
    · refine ⟨.noService, by simp [hok], fun _ => Or.inl ⟨rfl, ?_⟩, fun hnot => absurd hdec hnot⟩
      rcases hcase with ⟨-, hf⟩ | ⟨heq, -⟩
      · exact Or.inl hf
      · exact Or.inr (heq ▸ hok)
    · refine ⟨.vChange, by simp [hok], fun _ => Or.inr ⟨rfl, ?_⟩, fun hnot => absurd hdec hnot⟩
      rcases hcase with ⟨heq, -⟩ | ⟨-, hf⟩
      · exact absurd heq hok
      · exact hf
  · have hnone : ∀ x : Int, x ≤ n → (u.setStatus v₀).supChange order x = false := by
      intro x hx
      rw [Bool.eq_false_iff]
      exact fun hsupp => hdec ((hsup v₀ x hx).mp hsupp)
    have hnot : v₀ ≠ .vChange := by
      rcases hcase with ⟨rfl, -⟩ | ⟨rfl, -⟩
      · decide
      · exact hstatus
    rw [hnone _ (by omega), hnone _ (by omega)]
    refine ⟨v₀, by simp [hnot], fun hyes => absurd hyes hdec, fun _ => ?_⟩
    exact hcase.imp And.left And.left

/-- The table an iteration starts with reports the view throughout. -/
theorem started_reports (hstab : m.selfStab = true) (hreport : m.Reporting p) (k : Fin n) :
    ((m.started (envIn p b)).vcm k).prim = p.val := by
  have hview : ∀ k, m.getCurrentView (envIn p b) k = p.val := by
    intro k
    rw [getCurrentView, hstab]
    rfl
  by_cases hk : k = m.id
  · rw [hk, ← (started_config m (envIn p b)).1]
    show (m.started (envIn p b)).own.prim = p.val
    rw [started_own]
    split
    · exact hview _
    · exact hview _
  · rw [started_vcm m hk]
    split
    · rename_i hprim
      exact hreport (hprim.trans (hview _)) k
    · exact hview _

/-- One iteration in a view of `p`. -/
theorem run_inView (hpos : 2 * m.numberOfByzantine < n)
    (horder : Ascends m.numberOfByzantine order) (hstab : m.selfStab = true)
    (hreport : m.Reporting p) :
    Monitored p b m (m.started (envIn p b)) (m.run (envIn p b) order).1
      (m.run (envIn p b) order).2 := by
  have hprim := started_reports (b := b) hstab hreport
  have hneed : (m.started (envIn p b)).own.needChange = b := by
    rw [started_own]
    split
    · rfl
    · rfl
  obtain ⟨hid, hbyz, hstab'⟩ := started_config m (envIn p b)
  have hserve : (envIn p b).allowService = true ∨ m.selfStab = false := Or.inl rfl
  rw [run_started, if_pos hserve]
  generalize m.started (envIn p b) = m₁ at hprim hneed hid hbyz hstab'
  by_cases hstatus : m₁.own.vStatus = .vChange
  · rw [if_pos hstatus]
    exact {
      id := hid
      byzantine := hbyz
      stab := hstab'.trans hstab
      others := fun k _ => rfl
      prim := hprim m₁.id
      needChange := hneed
      needChgSet := (if_pos hstatus).symm
      asks := iff_of_true rfl hstatus
      stays := fun _ => hstatus
      decisive := fun hnot => absurd hstatus hnot
      indecisive := fun hnot => absurd hstatus hnot }
  · rw [if_neg hstatus]
    obtain ⟨v, heq, hdecisive, hindecisive⟩ := updateStatus_inView (b := b)
      (by rw [hbyz]; exact hpos) (by rw [hbyz]; exact horder) (hstab'.trans hstab) hprim hstatus
    rw [heq]
    generalize hu : m₁.updateNeedChgSet (envIn p b) = u at hdecisive hindecisive
    rw [updateNeedChgSet_inView] at hu
    have hown : (u.setStatus v).own =
        ⟨v, m₁.own.prim, m₁.own.needChange, m₁.names⟩ := by
      rw [own_setStatus, ← hu, own_setOwn]
    have hdec : (u.setStatus v).Decisive ↔ u.Decisive :=
      decisive_congr rfl fun k => (vcm_setStatus v k).1
    exact {
      id := (congrArg PrimaryMonitoringModule.id hu).symm.trans hid
      byzantine := (congrArg PrimaryMonitoringModule.numberOfByzantine hu).symm.trans hbyz
      stab := (congrArg PrimaryMonitoringModule.selfStab hu).symm.trans (hstab'.trans hstab)
      others := by
        intro k hk
        have hk₁ : k ≠ m₁.id := hid.symm ▸ hk
        have hku : k ≠ u.id := by
          rw [← hu]
          exact hk₁
        rw [setStatus, vcm_setOwn_of_ne hku, ← hu, vcm_setOwn_of_ne hk₁]
      prim := by
        rw [hown]
        exact hprim m₁.id
      needChange := by
        rw [hown]
        exact hneed
      needChgSet := by
        rw [hown, if_neg hstatus]
      asks := by
        rw [hown]
        exact decide_eq_true_iff
      stays := fun hv => absurd hv hstatus
      decisive := by
        rw [hown, hdec]
        exact fun _ => hdecisive
      indecisive := by
        rw [hown, hdec]
        exact fun _ => hindecisive }

end BFTList.PrimaryMonitoringModule
