import BFTList.Spec.PrimaryStatus

/-!
# How a status changes

Iterations and received records are the only steps of a processor's Primary Monitoring. Its
own status gets to `V_CHANGE` from `NO_SERVICE` alone: support by `n - f` processors is support
by `n - 2f`, so that a processor in status `OK` stops the service first. It stays in `V_CHANGE`
until an iteration finds a view that is not the recorded primary and clears the table.

## Key results

- `supChange_mono`: what supports a change of a large size supports one of a small size
- `updateStatus_cases`: lines 9-13, from a status other than `V_CHANGE`
- `status_changes`: where the status enters and leaves `V_CHANGE` in any run
-/

namespace BFTList.PrimaryMonitoringModule

variable {n : Nat} {order : SetOrder (Fin n)} {env : PrimMonEnv n} {m : PrimaryMonitoringModule n}

/-! ## Support and statuses -/

/-- What supports a change of a large size supports one of a small size. -/
theorem supChange_mono (hpos : (0 : Int) < n - 2 * m.numberOfByzantine) {small large : Int}
    (hle : small ≤ large) (h : m.supChange order large = true) :
    m.supChange order small = true := by
  rw [supChange_iff hpos] at h ⊢
  obtain ⟨p, hlarge, henough⟩ := h
  exact ⟨p, by omega, henough⟩

/-- Replace the own status. -/
def setStatus (m : PrimaryMonitoringModule n) (v : PrimaryMonitoringEnums) :
    PrimaryMonitoringModule n := m.setOwn { m.own with vStatus := v }

@[simp] theorem own_setStatus (v : PrimaryMonitoringEnums) :
    (m.setStatus v).own = { m.own with vStatus := v } := own_setOwn m _

/-! ## One iteration -/

@[simp] theorem updateNeedChgSet_status :
    (m.updateNeedChgSet env).own.vStatus = m.own.vStatus := by
  simp only [updateNeedChgSet, own_setOwn]

/-- Line 11: the status is `OK` while too few processors have stopped the service. -/
def line11 (m : PrimaryMonitoringModule n) : PrimaryMonitoringModule n :=
  if (m.getNumberOfProcessorsInNoService : Int) < n - 3 * m.numberOfByzantine then
    m.setStatus .ok
  else m

theorem updateStatus_def (m : PrimaryMonitoringModule n) : m.updateStatus env order =
    (fun s : PrimaryMonitoringModule n =>
      if s.own.vStatus = .ok ∧ s.supChange order (n - 2 * s.numberOfByzantine) then
        (s.setStatus .noService, false)
      else if s.supChange order (n - s.numberOfByzantine) then
        (s.setStatus .vChange, s.selfStab)
      else (s, false)) (m.updateNeedChgSet env).line11 := rfl

theorem line11_byzantine (m : PrimaryMonitoringModule n) :
    m.line11.numberOfByzantine = m.numberOfByzantine := by
  unfold line11
  split
  · rfl
  · rfl

theorem line11_cases (m : PrimaryMonitoringModule n) : m.line11 = m.setStatus .ok ∨
    m.line11 = m ∧ (n : Int) - 3 * m.numberOfByzantine ≤ m.getNumberOfProcessorsInNoService := by
  unfold line11
  split
  · exact Or.inl rfl
  · rename_i hmany
    exact Or.inr ⟨rfl, Int.not_lt.mp hmany⟩

/-- Lines 9-13 lead to `V_CHANGE` from `NO_SERVICE`, with enough processors that have stopped
    the service and with the support of `n - f` processors. -/
theorem updateStatus_cases (hpos : (0 : Int) < n - 2 * m.numberOfByzantine)
    (h : m.own.vStatus ≠ .vChange) :
    (m.updateStatus env order).1.own.vStatus ≠ .vChange ∨
      (m.own.vStatus = .noService ∧
        (n : Int) - 3 * m.numberOfByzantine ≤
          (m.updateNeedChgSet env).getNumberOfProcessorsInNoService ∧
        (m.updateNeedChgSet env).supChange order (n - m.numberOfByzantine) = true) := by
  rw [updateStatus_def]
  generalize hs : (m.updateNeedChgSet env).line11 = s
  have hconfig : s.numberOfByzantine = m.numberOfByzantine := hs ▸ line11_byzantine _
  have hposs : (0 : Int) < n - 2 * s.numberOfByzantine := by rw [hconfig]; exact hpos
  have hstatus : s.own.vStatus ≠ .vChange := by
    rw [← hs]
    cases line11_cases (m.updateNeedChgSet env) with
    | inl hok => rw [hok, own_setStatus]; exact nofun
    | inr hkept => rw [hkept.1, updateNeedChgSet_status]; exact h
  dsimp only
  split
  · left
    rw [own_setStatus]
    exact nofun
  · rename_i hline12
    split
    · rename_i hsup
      -- support by more processors would have stopped the service of a processor in `OK`
      have hnotok : s.own.vStatus ≠ .ok := by
        intro hok
        exact hline12 ⟨hok, supChange_mono hposs (by omega) hsup⟩
      right
      cases line11_cases (m.updateNeedChgSet env) with
      | inl hok =>
        rw [← hs, hok, own_setStatus] at hnotok
        exact absurd rfl hnotok
      | inr hkept =>
        obtain ⟨hsame, hmany⟩ := hkept
        rw [hs] at hsame
        subst hsame
        rw [updateNeedChgSet_status] at hnotok hstatus
        refine ⟨?_, hmany, hsup⟩
        cases hv : m.own.vStatus with
        | ok => exact absurd hv hnotok
        | noService => rfl
        | vChange => exact absurd hv h
    · exact Or.inl hstatus

/-- An iteration from the table with the current view and the failure detector's answer. -/
def started (m : PrimaryMonitoringModule n) (env : PrimMonEnv n) : PrimaryMonitoringModule n :=
  (m.refreshed env).setOwn { (m.refreshed env).own with
    prim := m.getCurrentView env m.id, needChange := env.suspected }

/-- Line 15 is never reached, as the recorded primary has just been written. -/
theorem run_started (m : PrimaryMonitoringModule n) : m.run env order =
    if env.allowService = true ∨ m.selfStab = false then
      if (m.started env).own.vStatus = .vChange then (m.started env, true)
      else (m.started env).updateStatus env order
    else (m.started env, false) := by
  have hprim : (m.started env).own.prim = m.getCurrentView env m.id := by
    rw [started, own_setOwn]
  have hself : (m.started env).selfStab = m.selfStab := by
    unfold started refreshed
    split
    · rfl
    · rfl
  have hrun : m.run env order =
      if env.allowService = true ∨ (m.started env).selfStab = false then
        if (m.started env).own.prim = m.getCurrentView env m.id ∧
            (m.started env).own.vStatus ≠ .vChange then
          (m.started env).updateStatus env order
        else if (m.started env).own.prim = m.getCurrentView env m.id ∧
            (m.started env).own.vStatus = .vChange then
          (m.started env, true)
        else ((m.started env).cleanState env, false)
      else (m.started env, false) := run_def m
  rw [hrun]
  simp only [hprim, hself, ne_eq, true_and]
  by_cases hv : (m.started env).own.vStatus = .vChange
  · simp only [hv, not_true_eq_false, if_false, if_true]
  · simp only [hv, not_false_eq_true, if_true, if_false]

/-- The status an iteration starts with: `OK` when the view is not the recorded primary. -/
theorem started_status (m : PrimaryMonitoringModule n) (env : PrimMonEnv n) :
    (m.started env).own.vStatus =
      if m.own.prim = m.getCurrentView env m.id then m.own.vStatus else .ok := by
  rw [started, own_setOwn]
  unfold refreshed
  by_cases hview : m.own.prim = m.getCurrentView env m.id
  · simp only [hview, ne_eq, not_true_eq_false, if_false, if_true]
  · simp only [hview, ne_eq, not_false_eq_true, if_true, if_false]
    rfl

/-- An iteration that finds another view than the recorded primary starts from a clean table. -/
theorem run_cleanState (h : m.own.prim ≠ m.getCurrentView env m.id) :
    m.run env order = (m.cleanState env).run env order := by
  have hclean : (m.cleanState env).started env = m.started env := by
    have hrefreshed : (m.cleanState env).refreshed env = m.refreshed env := by
      rw [refreshed, refreshed, if_pos h]
      exact if_neg (not_not_intro rfl)
    rw [started, hrefreshed]
    rfl
  rw [run_started, run_started, hclean]
  rfl

/-- The table that the tests of an iteration see. -/
def examined (m : PrimaryMonitoringModule n) (env : PrimMonEnv n) : PrimaryMonitoringModule n :=
  (m.started env).updateNeedChgSet env

/-- What an iteration that enters `V_CHANGE` has found. -/
structure Entitled (m : PrimaryMonitoringModule n) (env : PrimMonEnv n)
    (order : SetOrder (Fin n)) : Prop where
  stopped : m.own.vStatus = .noService
  allowed : env.allowService = true ∨ m.selfStab = false
  many : (n : Int) - 3 * m.numberOfByzantine ≤ (m.examined env).getNumberOfProcessorsInNoService
  supported : (m.examined env).supChange order (n - m.numberOfByzantine) = true

theorem started_byzantine (m : PrimaryMonitoringModule n) :
    (m.started env).numberOfByzantine = m.numberOfByzantine := by
  unfold started refreshed
  split
  · rfl
  · rfl

/-- An iteration enters `V_CHANGE` only when it is entitled to. -/
theorem entitled_of_run (hsize : 3 * m.numberOfByzantine < n) (hbefore : m.own.vStatus ≠ .vChange)
    (hafter : (m.run env order).1.own.vStatus = .vChange) : m.Entitled env order := by
  have hconfig : (m.started env).numberOfByzantine = m.numberOfByzantine := started_byzantine m
  have hstatus := started_status m env
  have hstarted : (m.started env).own.vStatus ≠ .vChange := by
    rw [hstatus]
    split
    · exact hbefore
    · exact nofun
  rw [run_started] at hafter
  split at hafter
  · rename_i hallowed
    cases updateStatus_cases (by rw [hconfig]; omega) hstarted with
    | inl hnot => exact absurd hafter hnot
    | inr h =>
      obtain ⟨hstopped, hmany, hsup⟩ := h
      rw [hconfig] at hmany hsup
      rw [hstatus] at hstopped
      split at hstopped
      · exact ⟨hstopped, hallowed, hmany, hsup⟩
      · cases hstopped
  · exact absurd hafter hstarted

/-- An iteration in the recorded view keeps the status `V_CHANGE`. -/
theorem run_stays (h : m.own.vStatus = .vChange) (hview : m.own.prim = m.getCurrentView env m.id) :
    (m.run env order).1.own.vStatus = .vChange := by
  have hstarted : (m.started env).own.vStatus = .vChange := by
    rw [started_status, if_pos hview, h]
  rw [run_started]
  split
  · exact hstarted
  · exact hstarted

/-- An iteration in another view ends without `V_CHANGE`. -/
theorem run_leaves (hsize : 3 * m.numberOfByzantine < n)
    (hview : m.own.prim ≠ m.getCurrentView env m.id) :
    (m.run env order).1.own.vStatus = .ok ∨ (m.run env order).1.own.vStatus = .noService := by
  have hnot : (m.run env order).1.own.vStatus ≠ .vChange := by
    intro hafter
    rw [run_cleanState hview] at hafter
    have hclean : (m.cleanState env).own.vStatus = .ok := rfl
    have hentitled : (m.cleanState env).Entitled env order :=
      entitled_of_run hsize (by rw [hclean]; exact nofun) hafter
    exact absurd (hclean.symm.trans hentitled.stopped) nofun
  cases hv : (m.run env order).1.own.vStatus with
  | ok => exact Or.inl rfl
  | noService => exact Or.inr rfl
  | vChange => exact absurd hv hnot

/-! ## Runs -/

/-- A step of one processor's module: an iteration, or a record that arrives. -/
inductive Event (n : Nat) where
  | iterate (env : PrimMonEnv n) (order : SetOrder (Fin n))
  | receive (j : Fin n) (vcm : Vcm)

/-- The module after a step. -/
def next (m : PrimaryMonitoringModule n) : Event n → PrimaryMonitoringModule n
  | .iterate env order => (m.run env order).1
  | .receive j vcm => m.receiveMsg j vcm

/-- The module after steps. -/
def after (m : PrimaryMonitoringModule n) (es : List (Event n)) : PrimaryMonitoringModule n :=
  es.foldl next m

/-- A step that is no iteration in another view than the recorded primary. -/
def SameView (m : PrimaryMonitoringModule n) : Event n → Prop
  | .iterate env _ => m.own.prim = m.getCurrentView env m.id
  | .receive _ _ => True

/-- None of the steps is an iteration in another view than the primary recorded by then. -/
def SameViews : PrimaryMonitoringModule n → List (Event n) → Prop
  | _, [] => True
  | m, e :: es => m.SameView e ∧ (m.next e).SameViews es

/-- A record of another processor, or an own one that is ignored, leaves the own record. -/
theorem own_receiveMsg (m : PrimaryMonitoringModule n) (j : Fin n) (vcm : Vcm) :
    (m.receiveMsg j vcm).own = m.own := by
  unfold receiveMsg
  split
  · rename_i hj
    exact Function.update_of_ne (Ne.symm hj) _ _
  · rfl

theorem updateStatus_byzantine (m : PrimaryMonitoringModule n) :
    (m.updateStatus env order).1.numberOfByzantine = m.numberOfByzantine := by
  rw [updateStatus_def]
  dsimp only
  split
  · exact line11_byzantine _
  · split
    · exact line11_byzantine _
    · exact line11_byzantine _

theorem next_byzantine (m : PrimaryMonitoringModule n) (e : Event n) :
    (m.next e).numberOfByzantine = m.numberOfByzantine := by
  cases e with
  | iterate env order =>
    show (m.run env order).1.numberOfByzantine = m.numberOfByzantine
    rw [run_started]
    split
    · split
      · exact started_byzantine m
      · rw [updateStatus_byzantine, started_byzantine]
    · exact started_byzantine m
  | receive j vcm =>
    simp only [next, receiveMsg]
    split
    · rfl
    · rfl

/-- A run leaves the number of faulty processors that are tolerated. -/
theorem after_byzantine (es : List (Event n)) :
    ∀ m : PrimaryMonitoringModule n, (m.after es).numberOfByzantine = m.numberOfByzantine := by
  induction es with
  | nil => exact fun _ => rfl
  | cons e es ih => exact fun m => (ih (m.next e)).trans (next_byzantine m e)

/-- One step keeps the status `V_CHANGE` unless it is an iteration in another view. -/
theorem next_stays {e : Event n} (h : m.own.vStatus = .vChange) (hview : m.SameView e) :
    (m.next e).own.vStatus = .vChange := by
  cases e with
  | iterate env order => exact run_stays h hview
  | receive j vcm =>
    show (m.receiveMsg j vcm).own.vStatus = .vChange
    rw [own_receiveMsg]
    exact h

/-- So do steps of which none is one. -/
theorem after_stays {es : List (Event n)} :
    ∀ {m : PrimaryMonitoringModule n}, m.own.vStatus = .vChange → m.SameViews es →
      (m.after es).own.vStatus = .vChange := by
  induction es with
  | nil => exact fun h _ => h
  | cons e es ih => exact fun h hviews => ih (next_stays h hviews.1) hviews.2

/-- In any run from any table the own status enters `V_CHANGE` only by an iteration that is
    entitled to; from then on it keeps it until an iteration in another view than the recorded
    primary, which starts from a clean table and ends with `OK` or `NO_SERVICE`. -/
theorem status_changes (hsize : 3 * m.numberOfByzantine < n) (before : List (Event n)) :
    (∀ e, (m.after before).own.vStatus ≠ .vChange →
      (m.after (before ++ [e])).own.vStatus = .vChange →
      ∃ env order, e = .iterate env order ∧ (m.after before).Entitled env order) ∧
    ((m.after before).own.vStatus = .vChange →
      (∀ es, (m.after before).SameViews es → (m.after (before ++ es)).own.vStatus = .vChange) ∧
      ∀ env order, ¬ (m.after before).SameView (.iterate env order) →
        m.after (before ++ [.iterate env order]) =
          (((m.after before).cleanState env).run env order).1 ∧
        ((m.after (before ++ [.iterate env order])).own.vStatus = .ok ∨
          (m.after (before ++ [.iterate env order])).own.vStatus = .noService)) := by
  have happend : ∀ es, m.after (before ++ es) = (m.after before).after es :=
    fun es => List.foldl_append
  have hsize' : 3 * (m.after before).numberOfByzantine < n := by
    rw [after_byzantine]
    exact hsize
  simp only [happend]
  generalize m.after before = m at hsize'
  constructor
  · intro e hbefore hafter
    cases e with
    | iterate env order => exact ⟨env, order, rfl, entitled_of_run hsize' hbefore hafter⟩
    | receive j vcm =>
      have hsame : (m.after [.receive j vcm]).own = m.own := own_receiveMsg m j vcm
      rw [hsame] at hafter
      exact absurd hafter hbefore
  · intro hchange
    constructor
    · exact fun es hviews => after_stays hchange hviews
    · intro env order hview
      exact ⟨congrArg Prod.fst (run_cleanState hview), run_leaves hsize' hview⟩

/-! ## Six processors -/

/-- All processors name the same four, in view 0. -/
def fourNamed : Vcm := ⟨.ok, 0, true, {0, 1, 2, 3}⟩

/-- Six new processors, the records of four of which arrive; the service stops. -/
def stopping : List (Event 6) :=
  .iterate ⟨fun _ => 0, true, true⟩ .insertion ::
    [1, 2, 3, 4].map (.receive · { fourNamed with vStatus := .noService }) ++
    [.iterate ⟨fun _ => 0, true, true⟩ .insertion]

/-- The next iteration enters `V_CHANGE`. -/
theorem status_changes_six :
    ((init (0 : Fin 6) 1 true).after stopping).Entitled ⟨fun _ => 0, true, true⟩ .insertion := by
  have hrun := (status_changes (by decide : 3 * (init (0 : Fin 6) 1 true).numberOfByzantine < 6)
    stopping).1 (.iterate ⟨fun _ => 0, true, true⟩ .insertion) (by decide)
    (by decide +kernel)
  obtain ⟨env, order, heq, hentitled⟩ := hrun
  cases heq
  exact hentitled

end BFTList.PrimaryMonitoringModule
