import BFTList.ForStd.Network
import BFTList.ForStd.Quorum
import BFTList.Native.PrimaryMonitoring

/-!
# When a processor can be talked into a view change

`sup_change` is meant to ask for processors that all of a large group want to
change. It ends up with the set of one of them: the first record of the group,
in the order the set of its members is iterated, that names anyone. As long as
that record is no faulty processor's with `n - 2f` names in it, nobody leaves
the status `OK`; a single such record is enough to leave it.

## Key results

- `mem_primDct`: the groups are the processors with one reported primary
- `supChange_iff`, `supChange_eq_false`: what `sup_change` looks for; without a large first
  set there is no support
- `statusOk_network`: what correct processors keep while nobody forges
- `status_ok`: statuses and calls in every such run
-/

namespace BFTList.PrimaryMonitoringModule

variable {n f : Nat} {faulty : Finset (Fin n)} {order : SetOrder (Fin n)} {env : PrimMonEnv n}

/-! ## Groups -/

/-- The processors that report primary `p`. -/
def group (m : PrimaryMonitoringModule n) (p : Int) : List (Fin n) :=
  (List.finRange n).filter fun k => (m.vcm k).prim = p

/-- The dictionary after a part of the loop that builds it. -/
private structure Grouped (m : PrimaryMonitoringModule n) (ks : List (Fin n))
    (dct : List (Int × List (Fin n))) : Prop where
  keys : (dct.map Prod.fst).Nodup
  items : ∀ p g, (p, g) ∈ dct ↔ g = ks.filter (fun k => (m.vcm k).prim = p) ∧ g ≠ []

/-- Adding a processor to the group of its primary. -/
private theorem Grouped.add {m : PrimaryMonitoringModule n} {ks : List (Fin n)}
    {dct : List (Int × List (Fin n))} (h : Grouped m ks dct) {k : Fin n} :
    Grouped m (ks ++ [k]) (dictSet dct (m.vcm k).prim
      (ks.filter (fun j => (m.vcm j).prim = (m.vcm k).prim) ++ [k])) := by
  refine ⟨nodup_dictSet h.keys _ _, fun p g => ?_⟩
  rw [mem_dictSet h.keys, h.items, List.filter_append]
  by_cases hp : p = (m.vcm k).prim
  · subst hp
    have hlast : [k].filter (fun j => (m.vcm j).prim = (m.vcm k).prim) = [k] := by simp
    rw [hlast]
    constructor
    · intro hg
      rcases hg with ⟨-, hg⟩ | ⟨hne, -⟩
      · exact ⟨hg, by rw [hg]; exact List.append_ne_nil_of_right_ne_nil _ (List.cons_ne_nil _ _)⟩
      · exact absurd rfl hne
    · intro hg
      exact Or.inl ⟨rfl, hg.1⟩
  · have hlast : [k].filter (fun j => (m.vcm j).prim = p) = [] := by simp [Ne.symm hp]
    rw [hlast, List.append_nil]
    constructor
    · intro hg
      rcases hg with ⟨heq, -⟩ | ⟨-, hg⟩
      · exact absurd heq hp
      · exact hg
    · intro hg
      exact Or.inr ⟨hp, hg⟩

private theorem Grouped.addToGroup {m : PrimaryMonitoringModule n} {ks : List (Fin n)}
    {dct : List (Int × List (Fin n))} (h : Grouped m ks dct) {k : Fin n} (hk : k ∉ ks) :
    Grouped m (ks ++ [k]) (m.addToGroup dct k) := by
  unfold PrimaryMonitoringModule.addToGroup
  cases hget : dictGet dct (m.vcm k).prim with
  | ok set =>
    have hset := ((h.items _ _).mp (dictGet_eq_ok hget)).1
    have hnot : k ∉ set := by
      rw [hset]
      exact fun hmem => hk (List.mem_filter.mp hmem).1
    show Grouped m _ (dictSet dct _ (setAdd set k))
    rw [setAdd, if_neg hnot, hset]
    exact h.add
  | error e =>
    have hempty : ks.filter (fun j => (m.vcm j).prim = (m.vcm k).prim) = [] := by
      by_contra hne
      exact not_mem_of_dictGet_eq_error hget _ ((h.items _ _).mpr ⟨rfl, hne⟩)
    have hadd := h.add (k := k)
    rwa [hempty, List.nil_append] at hadd

private theorem grouped_foldl (m : PrimaryMonitoringModule n) {done todo : List (Fin n)}
    {dct : List (Int × List (Fin n))} (h : Grouped m done dct) (hnodup : (done ++ todo).Nodup) :
    Grouped m (done ++ todo) (todo.foldl m.addToGroup dct) := by
  induction todo generalizing done dct with
  | nil => simpa using h
  | cons k ks ih =>
    have hk : k ∉ done := fun hmem =>
      (List.nodup_append.mp hnodup).2.2 k hmem k List.mem_cons_self rfl
    have happend : done ++ k :: ks = (done ++ [k]) ++ ks := by simp
    rw [happend] at hnodup ⊢
    exact ih (h.addToGroup hk) hnodup

/-- The groups are the processors with one reported primary. -/
theorem mem_primDct {m : PrimaryMonitoringModule n} {p : Int} {g : List (Fin n)} :
    (p, g) ∈ m.primDct ↔ g = m.group p ∧ g ≠ [] := by
  have hempty : Grouped m [] [] := ⟨List.nodup_nil, by simp⟩
  exact (grouped_foldl m hempty (List.nodup_finRange n)).items p g

/-! ## Support for a change -/

/-- The set the loop over a group ends with is that of its first member that names anyone. -/
theorem needChgSetIntersection_eq (m : PrimaryMonitoringModule n) (ks : List (Fin n)) :
    m.needChgSetIntersection order ks =
      match (order.iter ks).find? fun k => (m.vcm k).needChgSet ≠ ∅ with
      | some k => (m.vcm k).needChgSet
      | none => ∅ := by
  -- once a set is not empty the loop keeps it
  have hkeep : ∀ (l : List (Fin n)) (set : Finset Int), set ≠ ∅ →
      l.foldl (fun set k => if set = ∅ then (m.vcm k).needChgSet else set) set = set := by
    intro l
    induction l with
    | nil => exact fun _ _ => rfl
    | cons k l ih =>
      intro set hset
      rw [List.foldl_cons, if_neg hset]
      exact ih set hset
  unfold needChgSetIntersection
  generalize order.iter ks = l
  induction l with
  | nil => rfl
  | cons k l ih =>
    rw [List.foldl_cons, if_pos rfl]
    by_cases hk : (m.vcm k).needChgSet = ∅
    · rw [List.find?_cons_of_neg (by simpa using hk), hk]
      exact ih
    · rw [List.find?_cons_of_pos (by simpa using hk)]
      exact hkeep l _ hk

/-- The record of processor `k` decides for the group of its primary: the group
    has `n - 2f` members, and `k` is the first that names anyone. -/
def Decides (order : SetOrder (Fin n)) (m : PrimaryMonitoringModule n) (k : Fin n) : Prop :=
  (n : Int) - 2 * m.numberOfByzantine ≤ (m.group (m.vcm k).prim).length ∧
    (order.iter (m.group (m.vcm k).prim)).find? (fun j => (m.vcm j).needChgSet ≠ ∅) = some k

instance (order : SetOrder (Fin n)) (m : PrimaryMonitoringModule n) (k : Fin n) :
    Decidable (m.Decides order k) := inferInstanceAs (Decidable (_ ∧ _))

/-- Every record that decides names fewer than `n - 2f` processors. -/
def Unpersuaded (order : SetOrder (Fin n)) (m : PrimaryMonitoringModule n) : Prop :=
  ∀ k, m.Decides order k → ((m.vcm k).needChgSet.card : Int) < n - 2 * m.numberOfByzantine

/-- A large group ends with a set that is too small. -/
theorem card_needChgSetIntersection_lt {m : PrimaryMonitoringModule n}
    (hpos : (0 : Int) < n - 2 * m.numberOfByzantine) (h : m.Unpersuaded order) {p : Int}
    (hlarge : (n : Int) - 2 * m.numberOfByzantine ≤ (m.group p).length) :
    ((m.needChgSetIntersection order (m.group p)).card : Int) < n - 2 * m.numberOfByzantine := by
  rw [needChgSetIntersection_eq]
  cases hfind : (order.iter (m.group p)).find? fun k => (m.vcm k).needChgSet ≠ ∅ with
  | none => simpa using hpos
  | some k =>
    have hmem : k ∈ m.group p := (order.mem_iter).mp (List.mem_of_find?_eq_some hfind)
    have hprim : (m.vcm k).prim = p := by simpa [group] using hmem
    subst hprim
    exact h k ⟨hlarge, hfind⟩

/-- The members of a group name enough processors, by the set the loop over them ends with. -/
def NamesEnough (order : SetOrder (Fin n)) (m : PrimaryMonitoringModule n) (ks : List (Fin n)) :
    Prop :=
  (n : Int) - 2 * m.numberOfByzantine ≤ (m.needChgSetIntersection order ks).card

instance (order : SetOrder (Fin n)) (m : PrimaryMonitoringModule n) (ks : List (Fin n)) :
    Decidable (m.NamesEnough order ks) := inferInstanceAs (Decidable (_ ≤ _))

theorem not_namesEnough_nil {m : PrimaryMonitoringModule n}
    (hpos : (0 : Int) < n - 2 * m.numberOfByzantine) : ¬ m.NamesEnough order [] := by
  have hempty : order.iter [] = [] := List.Perm.eq_nil (order.perm [])
  rw [NamesEnough, needChgSetIntersection_eq, hempty]
  simpa using hpos

/-- The loop finds the large groups whose members name enough; the set it may have left from
    an earlier group was too small. -/
private theorem supChangeLoop_iff {m : PrimaryMonitoringModule n} {size : Int}
    (dct : List (Int × List (Fin n))) :
    ∀ {ks : List (Fin n)}, ¬ m.NamesEnough order ks →
      (m.supChangeLoop order size ks dct = true ↔
        ∃ e ∈ dct, size ≤ e.2.length ∧ m.NamesEnough order e.2) := by
  induction dct with
  | nil => simp [supChangeLoop]
  | cons e dct ih =>
    intro ks hks
    have hstep : m.supChangeLoop order size ks (e :: dct) =
        if m.NamesEnough order (if size ≤ e.2.length then e.2 else ks) then true
        else m.supChangeLoop order size (if size ≤ e.2.length then e.2 else ks) dct := rfl
    simp only [List.mem_cons, exists_eq_or_imp]
    rw [hstep]
    by_cases hlarge : size ≤ e.2.length
    · simp only [hlarge, if_true, true_and]
      by_cases henough : m.NamesEnough order e.2
      · simp only [henough, if_true, true_or]
      · simp only [henough, if_false, false_or]
        exact ih henough
    · simp only [hlarge, hks, if_false, false_and, false_or]
      exact ih hks

/-- A group whose members name anyone is not empty. -/
theorem group_ne_nil {m : PrimaryMonitoringModule n}
    (hpos : (0 : Int) < n - 2 * m.numberOfByzantine) {p : Int}
    (h : m.NamesEnough order (m.group p)) : m.group p ≠ [] := by
  intro hnil
  rw [hnil] at h
  exact not_namesEnough_nil hpos h

/-- `sup_change` looks for a group that is large enough and whose members name enough. -/
theorem supChange_iff {m : PrimaryMonitoringModule n}
    (hpos : (0 : Int) < n - 2 * m.numberOfByzantine) {size : Int} :
    m.supChange order size = true ↔
      ∃ p, size ≤ (m.group p).length ∧ m.NamesEnough order (m.group p) := by
  rw [supChange, supChangeLoop_iff _ (not_namesEnough_nil hpos)]
  constructor
  · intro h
    obtain ⟨e, he, hlarge, henough⟩ := h
    obtain ⟨heq, -⟩ := mem_primDct.mp he
    rw [heq] at hlarge henough
    exact ⟨e.1, hlarge, henough⟩
  · intro h
    obtain ⟨p, hlarge, henough⟩ := h
    exact ⟨(p, m.group p), mem_primDct.mpr ⟨rfl, group_ne_nil hpos henough⟩, hlarge, henough⟩

/-- Without a large first set no size of groups finds support. -/
theorem supChange_eq_false {m : PrimaryMonitoringModule n}
    (hpos : (0 : Int) < n - 2 * m.numberOfByzantine) (h : m.Unpersuaded order) {size : Int}
    (hsize : (n : Int) - 2 * m.numberOfByzantine ≤ size) : m.supChange order size = false := by
  rw [Bool.eq_false_iff, ne_eq, supChange_iff hpos]
  intro hsup
  obtain ⟨p, hlarge, henough⟩ := hsup
  have hfew := card_needChgSetIntersection_lt hpos h (by omega : _ ≤ ((m.group p).length : Int))
  exact Int.not_le.mpr hfew henough

/-! ## One iteration -/

/-- The number that names a processor in a `need_chg_set`. -/
def ident (k : Fin n) : Int := k.val

/-- A record that asks for no change and names faulty processors only. -/
def Harmless (faulty : Finset (Fin n)) (v : Vcm) : Prop :=
  v.vStatus = .ok ∧ v.needChange = false ∧ v.needChgSet ⊆ faulty.image ident

/-- A processor in status `OK` whose records about correct processors are harmless. -/
structure Calm (f : Nat) (faulty : Finset (Fin n)) (m : PrimaryMonitoringModule n) : Prop where
  byzantine : m.numberOfByzantine = f
  records : ∀ k, k ∉ faulty → Harmless faulty (m.vcm k)

/-- No faulty processor's record decides with `n - 2f` names, in an iteration
    that evaluates `sup_change` on the table. -/
def Unforged (faulty : Finset (Fin n)) (env : PrimMonEnv n) (order : SetOrder (Fin n))
    (m : PrimaryMonitoringModule n) : Prop :=
  m.own.prim = m.getCurrentView env m.id → (env.allowService = true ∨ m.selfStab = false) →
    ∀ k ∈ faulty, (m.updateNeedChgSet env).Decides order k →
      ((m.vcm k).needChgSet.card : Int) < n - 2 * m.numberOfByzantine

instance (faulty : Finset (Fin n)) (env : PrimMonEnv n) (order : SetOrder (Fin n))
    (m : PrimaryMonitoringModule n) : Decidable (m.Unforged faulty env order) :=
  inferInstanceAs (Decidable (_ → _ → ∀ k ∈ faulty, _ → _))

@[simp] theorem setOwn_own (m : PrimaryMonitoringModule n) : m.setOwn m.own = m := by
  simp only [setOwn, own, Function.update_eq_self]

@[simp] theorem own_setOwn (m : PrimaryMonitoringModule n) (v : Vcm) : (m.setOwn v).own = v := by
  simp only [setOwn, own, Function.update_self]

theorem vcm_setOwn_of_ne {m : PrimaryMonitoringModule n} {v : Vcm} {k : Fin n} (h : k ≠ m.id) :
    (m.setOwn v).vcm k = m.vcm k := by
  simp only [setOwn, Function.update_of_ne h]

theorem harmless_default (p : Int) : Harmless faulty ⟨.ok, p, false, ∅⟩ :=
  ⟨rfl, rfl, Finset.empty_subset _⟩

namespace Calm

variable {m : PrimaryMonitoringModule n} (h : m.Calm f faulty)

include h

theorem own (hid : m.id ∉ faulty) : Harmless faulty m.own := h.records m.id hid

theorem setOwn {v : Vcm} (hv : Harmless faulty v) : (m.setOwn v).Calm f faulty := by
  refine ⟨h.byzantine, fun k hk => ?_⟩
  by_cases hki : k = m.id
  · subst hki
    show Harmless faulty (m.setOwn v).own
    rwa [own_setOwn]
  · rw [vcm_setOwn_of_ne hki]
    exact h.records k hk

theorem cleanState : (m.cleanState env).Calm f faulty :=
  ⟨h.byzantine, fun _ _ => harmless_default _⟩

/-- The processors in need of a change are faulty. -/
theorem updateNeedChgSet (hid : m.id ∉ faulty) : (m.updateNeedChgSet env).Calm f faulty := by
  apply h.setOwn
  refine ⟨(h.own hid).1, (h.own hid).2.1, ?_⟩
  apply Finset.image_subset_image
  intro k hk
  by_contra hcorrect
  have hneed := (Finset.mem_filter.mp hk).2.1
  rw [(h.records k hcorrect).2.1] at hneed
  exact absurd hneed (by decide)

/-- A correct processor's record names too few to decide anything. -/
theorem card_needChgSet_le (hfew : faulty.card ≤ f) {k : Fin n} (hk : k ∉ faulty) :
    (m.vcm k).needChgSet.card ≤ f :=
  calc (m.vcm k).needChgSet.card
      ≤ (faulty.image ident).card := Finset.card_le_card (h.records k hk).2.2
    _ ≤ faulty.card := Finset.card_image_le
    _ ≤ f := hfew

/-- Lines 9-13 leave the status as it is. -/
theorem updateStatus_eq (hsize : 5 * f + 1 ≤ n) (hid : m.id ∉ faulty)
    (hun : (m.updateNeedChgSet env).Unpersuaded order) :
    m.updateStatus env order = (m.updateNeedChgSet env, false) := by
  have hcalm : (m.updateNeedChgSet env).Calm f faulty := h.updateNeedChgSet hid
  have hstatus : (m.updateNeedChgSet env).own.vStatus = .ok := (hcalm.own hid).1
  -- line 11 may write the status that is already there
  have hline11 : ∀ (c : Prop) [Decidable c],
      (if c then (m.updateNeedChgSet env).setOwn
        { (m.updateNeedChgSet env).own with vStatus := .ok }
      else m.updateNeedChgSet env) = m.updateNeedChgSet env := by
    intro c _
    split
    · rw [← hstatus]
      exact setOwn_own _
    · rfl
  have hbyz := hcalm.byzantine
  have hsup : ∀ size : Int, (n : Int) - 2 * f ≤ size →
      (m.updateNeedChgSet env).supChange order size = false := by
    intro size hle
    exact supChange_eq_false (by rw [hbyz]; omega) hun (by rw [hbyz]; exact hle)
  simp only [PrimaryMonitoringModule.updateStatus, hline11, hbyz, hsup _ (Int.le_refl _),
    hsup (n - f) (by omega), Bool.false_eq_true, and_false, if_false]

/-- Records of correct processors never decide, so a processor nobody forges to
    is not persuaded. -/
theorem unpersuaded (hsize : 5 * f + 1 ≤ n) (hfew : faulty.card ≤ f)
    (hforged : ∀ k ∈ faulty, m.Decides order k →
      ((m.vcm k).needChgSet.card : Int) < n - 2 * m.numberOfByzantine) :
    m.Unpersuaded order := by
  intro k hk
  by_cases hfk : k ∈ faulty
  · exact hforged k hfk hk
  · have hle := h.card_needChgSet_le hfew hfk
    rw [h.byzantine]
    omega

end Calm

/-- The table an iteration starts from: the old one, or a clean one when the
    current view has changed. -/
def refreshed (m : PrimaryMonitoringModule n) (env : PrimMonEnv n) : PrimaryMonitoringModule n :=
  if m.own.prim ≠ m.getCurrentView env m.id then m.cleanState env else m

/-- The iteration from its refreshed table on. -/
theorem run_def (m : PrimaryMonitoringModule n) :
    m.run env order =
      (fun m' : PrimaryMonitoringModule n =>
        if env.allowService = true ∨ m'.selfStab = false then
          if m'.own.prim = m.getCurrentView env m.id ∧ m'.own.vStatus ≠ .vChange then
            m'.updateStatus env order
          else if m'.own.prim = m.getCurrentView env m.id ∧ m'.own.vStatus = .vChange then
            (m', true)
          else (m'.cleanState env, false)
        else (m', false))
      ((m.refreshed env).setOwn { (m.refreshed env).own with
        prim := m.getCurrentView env m.id, needChange := env.suspected }) := rfl

/-- Without a suspicion and without a forged record an iteration does no more
    than to collect the processors that need a change. -/
theorem run_eq {m : PrimaryMonitoringModule n} (hsize : 5 * f + 1 ≤ n)
    (hfew : faulty.card ≤ f) (h : m.Calm f faulty) (hid : m.id ∉ faulty)
    (hsuspected : env.suspected = false) (hforged : m.Unforged faulty env order) :
    m.run env order =
      (if env.allowService = true ∨ m.selfStab = false then
        (m.refreshed env).updateNeedChgSet env else m.refreshed env, false) := by
  have hrefreshed : (m.refreshed env).Calm f faulty := by
    unfold refreshed
    split
    · exact h.cleanState
    · exact h
  have hsame : (m.refreshed env).id = m.id ∧ (m.refreshed env).selfStab = m.selfStab := by
    unfold refreshed
    split
    · exact ⟨rfl, rfl⟩
    · exact ⟨rfl, rfl⟩
  have hprim : (m.refreshed env).own.prim = m.getCurrentView env m.id := by
    unfold refreshed
    split
    · rfl
    · rename_i heq
      exact Decidable.not_not.mp heq
  have hcorrect : (m.refreshed env).id ∉ faulty := hsame.1 ▸ hid
  -- the own record already holds the view and no suspicion
  have hown : (m.refreshed env).setOwn { (m.refreshed env).own with
      prim := m.getCurrentView env m.id, needChange := env.suspected } = m.refreshed env := by
    rw [← hprim, hsuspected, ← (hrefreshed.own hcorrect).2.1]
    exact setOwn_own _
  have hstatus : (m.refreshed env).own.vStatus = .ok := (hrefreshed.own hcorrect).1
  have hrun : m.run env order =
      if env.allowService = true ∨ m.selfStab = false then (m.refreshed env).updateStatus env order
      else (m.refreshed env, false) := by
    rw [run_def, hown]
    simp only [hprim, hstatus, hsame.2, ne_eq, reduceCtorEq, not_false_eq_true, and_self, if_true]
  rw [hrun]
  split
  · rename_i hallow
    apply hrefreshed.updateStatus_eq hsize hcorrect
    apply (hrefreshed.updateNeedChgSet hcorrect).unpersuaded hsize hfew
    intro k hk hdecides
    have hki : k ≠ (m.refreshed env).id := fun heq => hcorrect (heq ▸ hk)
    rw [PrimaryMonitoringModule.updateNeedChgSet, vcm_setOwn_of_ne hki]
    by_cases hview : m.own.prim = m.getCurrentView env m.id
    · have heq : m.refreshed env = m := by rw [refreshed, if_neg (not_not_intro hview)]
      rw [heq] at hdecides ⊢
      exact hforged hview hallow k hk hdecides
    · rw [refreshed, if_pos hview]
      show ((∅ : Finset Int).card : Int) < n - 2 * m.numberOfByzantine
      rw [Finset.card_empty, h.byzantine]
      omega
  · rfl

/-! ## The network -/

/-- A processor's module, and whether it has called `VIEW_CHANGE`. -/
structure Monitor (n : Nat) where
  module : PrimaryMonitoringModule n
  asked : Bool

/-- What one iteration sees of its surroundings. -/
structure Round (n : Nat) where
  env : PrimMonEnv n
  order : SetOrder (Fin n)

/-- Nothing is suspected, and all correct processors report the same view. -/
def Quiet (faulty : Finset (Fin n)) (env : PrimMonEnv n) : Prop :=
  env.suspected = false ∧
    ∀ j k, j ∉ faulty → k ∉ faulty → env.currentView j = env.currentView k

instance (faulty : Finset (Fin n)) (env : PrimMonEnv n) : Decidable (Quiet faulty env) :=
  inferInstanceAs (Decidable (_ ∧ _))

/-- Primary Monitoring in quiet surroundings; a faulty processor may report any record. -/
def protocol (faulty : Finset (Fin n)) : Protocol (Fin n) (Monitor n) (Round n) Vcm where
  act _ a s :=
    if Quiet faulty a.env then
      let r := s.module.run a.env a.order
      some ⟨r.1, s.asked || r.2⟩
    else none
  emit i s j := if j = i then [] else [s.module.own]
  receive _ i v s := { s with module := s.module.receiveMsg i v }
  forgeable _ _ := True

instance (faulty : Finset (Fin n)) (i : Fin n) :
    DecidablePred ((protocol faulty).forgeable i) := fun _ => .isTrue trivial

/-- Runs of the network from the default records. -/
def network (f : Nat) (selfStab : Bool) (faulty : Finset (Fin n)) :
    System (Network (Fin n) (Monitor n) Vcm) (Network.Label (Fin n) (Round n) Vcm) :=
  Network.system (protocol faulty) faulty fun net =>
    (∀ i, i ∉ faulty → net.nodes i = ⟨init i f selfStab, false⟩) ∧ net.flight = []

/-- Every iteration of a correct processor finds its table unforged. -/
def NoForgery (faulty : Finset (Fin n)) :
    Network (Fin n) (Monitor n) Vcm → Network.Label (Fin n) (Round n) Vcm → Prop :=
  Network.locally fun _ s a => s.module.Unforged faulty a.env a.order

/-- What a correct processor keeps. -/
def CalmAt (f : Nat) (faulty : Finset (Fin n)) (i : Fin n) (s : Monitor n) : Prop :=
  s.module.id = i ∧ s.module.Calm f faulty ∧ s.asked = false

/-- One iteration keeps a processor calm. -/
theorem calmAt_run (hsize : 5 * f + 1 ≤ n) (hfew : faulty.card ≤ f) {i : Fin n} (hi : i ∉ faulty)
    {s : Monitor n} (h : CalmAt f faulty i s) (hsuspected : env.suspected = false)
    (hforged : s.module.Unforged faulty env order) :
    CalmAt f faulty i ⟨(s.module.run env order).1, s.asked || (s.module.run env order).2⟩ := by
  obtain ⟨rfl, hcalm, hasked⟩ := h
  rw [run_eq hsize hfew hcalm hi hsuspected hforged, hasked]
  have hrefreshed : (s.module.refreshed env).id = s.module.id ∧
      (s.module.refreshed env).Calm f faulty := by
    unfold refreshed
    split
    · exact ⟨rfl, hcalm.cleanState⟩
    · exact ⟨rfl, hcalm⟩
  split
  · exact ⟨hrefreshed.1, hrefreshed.2.updateNeedChgSet (hrefreshed.1 ▸ hi), rfl⟩
  · exact ⟨hrefreshed.1, hrefreshed.2, rfl⟩

/-- What correct processors keep while no forged record decides. -/
theorem statusOk_network (hsize : 5 * f + 1 ≤ n) (hfew : faulty.card ≤ f) {selfStab : Bool}
    {net : Network (Fin n) (Monitor n) Vcm}
    (h : (network f selfStab faulty).Run (NoForgery faulty) net) :
    Network.Local (protocol faulty) faulty (CalmAt f faulty)
      (fun _ _ v => Harmless faulty v) net := by
  refine Network.Run.of_local ?_ ?_ ?_ ?_ h
  · intro net hnet
    apply Network.Local.of_noFlight _ hnet.2
    intro i hi
    rw [hnet.1 i hi]
    exact ⟨rfl, ⟨rfl, fun _ _ => harmless_default _⟩, rfl⟩
  · intro i hi a s s' hs hforged hact
    simp only [protocol, Option.ite_none_right_eq_some, Option.some.injEq] at hact
    obtain ⟨hquiet, rfl⟩ := hact
    exact calmAt_run hsize hfew hi hs hquiet.1 hforged
  · intro i hi s j v hs hv
    simp only [protocol] at hv
    split at hv
    · exact absurd hv List.not_mem_nil
    · rw [List.mem_singleton.mp hv]
      obtain ⟨rfl, hcalm, -⟩ := hs
      exact hcalm.own hi
  · intro j _ s i v hs hv _
    simp only [protocol, receiveMsg]
    split
    · refine ⟨hs.1, ⟨hs.2.1.byzantine, fun k hk => ?_⟩, hs.2.2⟩
      by_cases hki : k = i
      · subst hki
        simpa only [Function.update_self] using hv hk
      · simpa only [Function.update_of_ne hki] using hs.2.1.records k hk
    · exact hs

/-- As long as no forged record decides, every correct processor is in status
    `OK` and has not called `VIEW_CHANGE`. -/
theorem status_ok (hsize : 5 * f + 1 ≤ n) (hfew : faulty.card ≤ f) {selfStab : Bool}
    {net : Network (Fin n) (Monitor n) Vcm}
    (h : (network f selfStab faulty).Run (NoForgery faulty) net) {i : Fin n} (hi : i ∉ faulty) :
    ((net.nodes i).module.vcm i).vStatus = .ok ∧ (net.nodes i).asked = false := by
  obtain ⟨-, hcalm, hasked⟩ := (statusOk_network hsize hfew h).nodes i hi
  exact ⟨(hcalm.records i hi).1, hasked⟩

/-! ## Six processors -/

/-- Surroundings in view 0. -/
def viewZero : Round 6 := ⟨⟨fun _ => 0, true, false⟩, .insertion⟩

/-- Six new processors. -/
def sixNew : Network (Fin 6) (Monitor 6) Vcm := ⟨fun i => ⟨init i 1 true, false⟩, []⟩

/-- A record that names four processors. -/
def forgedVcm : Vcm := ⟨.ok, 0, false, {0, 1, 2, 3}⟩

/-- The correct processors enter view 0. Processor 5 reports the forged record to each of them,
    but asks for a change, so they name it, tell each other, and iterate once more. -/
def namedRun : List (Network.Move (Fin 6) (Round 6) Vcm) :=
  [0, 1, 2, 3, 4].map (.act · viewZero) ++
    [0, 1, 2, 3, 4].map (.forge 5 · { forgedVcm with needChange := true }) ++
    [0, 1, 2, 3, 4].map (.act · viewZero) ++
    [0, 1, 2, 3, 4].flatMap (fun j => [0, 1, 2, 3, 4].map (.relay j ·)) ++
    [0, 1, 2, 3, 4].map (.act · viewZero)

/-- The first record of the group of six that names anyone is not the forged one. -/
theorem status_ok_six :
    ∃ net : Network (Fin 6) (Monitor 6) Vcm,
      (∀ i, i ∉ ({5} : Finset (Fin 6)) → ((net.nodes i).module.group 0).length = 6 ∧
        (net.nodes i).module.own.needChgSet = {5} ∧
        ((net.nodes i).module.vcm 5).needChgSet = {0, 1, 2, 3}) ∧
      ∀ i, i ∉ ({5} : Finset (Fin 6)) →
        ((net.nodes i).module.vcm i).vStatus = .ok ∧ (net.nodes i).asked = false := by
  have hexec : (System.exec (Network.play (protocol {5}) {5} (Network.locally fun _ s a =>
      s.module.Unforged {5} a.env a.order)) sixNew namedRun).any (fun net =>
      ∀ i, i ∉ ({5} : Finset (Fin 6)) → ((net.nodes i).module.group 0).length = 6 ∧
        (net.nodes i).module.own.needChgSet = {5} ∧
        ((net.nodes i).module.vcm 5).needChgSet = {0, 1, 2, 3}) = true := by
    decide +kernel
  have hstart : (network 1 true {5}).init sixNew := ⟨fun _ _ => rfl, rfl⟩
  obtain ⟨net, hrun, hp⟩ := Network.Run.of_play (.init hstart) hexec
  exact ⟨net, of_decide_eq_true hp, fun i hi =>
    status_ok (f := 1) (by decide) (by decide) hrun hi⟩

/-- Processor 5 reports the forged record to processors 0, 1 and 2, which take
    it for an intersection and stop the service; told of their statuses,
    processor 0 calls `VIEW_CHANGE`. -/
def forgedRun : List (Network.Label (Fin 6) (Round 6) Vcm) :=
  [0, 1, 2].flatMap (fun i => [.act i viewZero, .forge 5 i forgedVcm, .act i viewZero]) ++
    [1, 2].flatMap (fun i => [.send i 0 ⟨.noService, 0, false, ∅⟩,
      .deliver i 0 ⟨.noService, 0, false, ∅⟩]) ++
    [.act 0 viewZero]

/-- One faulty processor out of six talks a correct one into a view change. -/
theorem viewChange_forged :
    ∃ net, (network 1 true {5}).Reachable net ∧
      ((net.nodes (0 : Fin 6)).module.vcm 0).vStatus = .vChange ∧
      (net.nodes (0 : Fin 6)).asked = true := by
  have hstart : (network 1 true {5}).Reachable sixNew := .init ⟨fun _ _ => rfl, rfl⟩
  have hexec : (System.exec (Network.next (protocol {5}) {5}) sixNew forgedRun).any (fun net =>
      ((net.nodes 0).module.vcm 0).vStatus = .vChange ∧ (net.nodes 0).asked = true) = true := by
    decide
  obtain ⟨net, hreach, hp⟩ := Network.Reachable.of_exec hstart hexec
  exact ⟨net, hreach, of_decide_eq_true hp⟩

end BFTList.PrimaryMonitoringModule
