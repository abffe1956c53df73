import BFTList.Spec.SilentPrimary

/-!
# How a suspicion spreads

In the view of a silent primary nothing that was held against it is taken back: what a
processor has recorded of another one, what is on its way and what that one holds itself
ascend. So whoever needs a view change does so on behalf of processors that suspect the primary
themselves.

## Key results

- `Watcher.token_chain`, `Watcher.record_chain`: suspicions and records on their way
- `Watcher.suspected_mono`, `Watcher.needChgSet_mono`: what is held is not taken back
- `Watcher.suspecting_of_needChange`: whose suspicions a view change rests on
-/

namespace BFTList.Watcher

open FailureDetectorModule PrimaryMonitoringModule

variable {n : Nat} {p i j k : Fin n} {f : Nat} {nodes : Int} {silent : Finset (Fin n)}
  {w : Watcher n} {pendReqs : Option (List ClientRequest)} {order : SetOrder (Fin n)}
  {net net' : Channels (Fin n) (Watcher n) Channel Notice}
  {l : Channels.Label (Fin n) (Action n) Channel}

/-! ## Tokens -/

/-- The own suspicion. -/
def susp (w : Watcher n) : Bool := w.failDet.primSusp

/-- The suspicion of processor `j`, as it was recorded and as it waits in the queue. -/
def heardSusp (j : Fin n) (w : Watcher n) : List Bool :=
  w.failDet.module.primSusp j :: (w.failDet.msgQueue.filter (·.1 = j)).map (·.2)

/-- The suspicion a token brings. -/
def Notice.susp : Notice → Bool
  | .token b => b
  | .record _ => false

theorem watch_failDet (p : Fin n) (pendReqs : Option (List ClientRequest)) (w : Watcher n) :
    (w.watch p pendReqs).failDet = ⟨w.failDet.handled (w.fdEnv p pendReqs),
      w.failDet.numberOfByzantine, w.failDet.msgQueue.tail, false⟩ :=
  FailureDetectorThread.run_fst _ _

theorem heardSusp_watch (j : Fin n) : heardSusp j (w.watch p pendReqs) =
    (w.failDet.handled (w.fdEnv p pendReqs)).primSusp j ::
      (w.failDet.msgQueue.tail.filter (·.1 = j)).map (·.2) := by
  rw [heardSusp, watch_failDet]

/-- A raised suspicion stays. -/
theorem susp_watch (hi : i ∉ silent) (hp : p ∈ silent) (h : Sound p f nodes silent i w) :
    w.susp ≤ (w.watch p pendReqs).susp := by
  have hsusp : (w.watch p pendReqs).susp = (w.failDet.handled (w.fdEnv p pendReqs)).primSusp
      (w.failDet.handled (w.fdEnv p pendReqs)).id := by
    rw [susp, watch_failDet]
    rfl
  rw [hsusp]
  rcases handled_cases hi hp h (w.fdEnv p pendReqs) rfl fun _ => rfl with
    ⟨-, hsame⟩ | ⟨j, b, rest, -, -, -, htold⟩
  · rw [hsame]
    exact le_rfl
  · rw [htold.id]
    exact htold.own

/-- Enough recorded suspicions. -/
theorem suspected_count (h : Sound p f nodes silent i w) : w.suspected p = true ↔
    (n : Int) - 2 * f ≤
      (Finset.univ.filter fun k => w.failDet.module.primSusp k = true).card := by
  have hview : ∀ k, w.failDet.module.getCurrentView (w.fdEnv p none) k = p.val := by
    intro k
    rw [FailureDetectorModule.getCurrentView, h.fdStab]
    rfl
  simp only [suspected, FailureDetectorThread.suspected, FailureDetectorModule.suspected, hview,
    and_true, h.fdByzantine, decide_eq_true_eq]

theorem suspected_congr (w w' : Watcher n) (h : w'.failDet.module = w.failDet.module)
    (hbyz : w'.failDet.numberOfByzantine = w.failDet.numberOfByzantine) :
    w'.suspected p = w.suspected p := by
  simp only [suspected, FailureDetectorThread.suspected, h, hbyz]
  rfl

/-- What an iteration of Primary Monitoring does. -/
theorem monitored (hpos : 2 * f < n) (horder : Ascends f order)
    (h : Sound p f nodes silent i w) :
    Monitored p (w.suspected p) w.primMon (w.primMon.started (envIn p (w.suspected p)))
      (w.monitor p order).primMon
      (w.primMon.run (envIn p (w.suspected p)) order).2 :=
  run_inView (by rw [h.pmByzantine]; exact hpos) (by rw [h.pmByzantine]; exact horder) h.pmStab
    h.reporting

/-- A record of another processor replaces the one before. -/
theorem vcm_receive (v : Vcm) (h : k ≠ w.primMon.id) (j : Fin n) :
    (w.primMon.receiveMsg k v).vcm j = if j = k then v else w.primMon.vcm j := by
  have hget : w.primMon.receiveMsg k v =
      { w.primMon with vcm := Function.update w.primMon.vcm k v } := if_pos h
  rw [hget]
  exact Function.update_apply _ _ _ _

/-- The record of another processor after an iteration: a clean one, if it was the first. -/
theorem vcm_monitor (hpos : 2 * f < n) (horder : Ascends f order)
    (h : Sound p f nodes silent i w) (hj : j ≠ i) :
    (w.monitor p order).primMon.vcm j =
      if w.primMon.own.prim = p.val then w.primMon.vcm j else ⟨.ok, p.val, false, ∅⟩ := by
  have hview : ∀ k, w.primMon.getCurrentView (envIn p (w.suspected p)) k = p.val := by
    intro k
    rw [PrimaryMonitoringModule.getCurrentView, h.pmStab]
    rfl
  have hjid : j ≠ w.primMon.id := h.pmId.symm ▸ hj
  rw [(monitored hpos horder h).others j hjid, started_vcm _ hjid, hview, hview]

section Reachable

variable (hp : p ∈ silent) (hpos : 2 * f < n) (h : (system p f nodes silent).Reachable net)

include hp hpos h

theorem susp_mono (hstep : (system p f nodes silent).step net l net') (j : Fin n) :
    (net.nodes j).susp ≤ (net'.nodes j).susp := by
  have hsound := (sound hp hpos h).1
  refine Channels.Step.of_local (R := fun w w' => w.susp ≤ w'.susp) hstep (fun w => le_rfl)
    (fun a hj _ => ?_) fun k c m hj _ => ?_
  · cases a with
    | watch pendReqs => exact susp_watch hj hp (hsound j hj)
    | monitor order => exact le_rfl
  · cases m with
    | token b => exact le_rfl
    | record vcm => exact le_rfl

/-- What was recorded of a suspicion, what waits, what is on its way and the suspicion itself
    ascend. -/
theorem token_chain (hi : i ∉ silent) (hij : i ≠ j) :
    (heardSusp j (net.nodes i) ++ (net.queue j i .token).map Notice.susp ++
      [(net.nodes j).susp]).Pairwise (· ≤ ·) := by
  refine Channels.Reachable.chain Notice.susp (heardSusp j) susp hij (fun net hinit => ?_)
    (fun net l net' hnet hstep => susp_mono hp hpos hnet hstep j)
    (fun net a hnet hj ha m hm => ?_) (fun net a hnet _ ha => ?_)
    (fun net k c m hnet _ hm hother => ?_) (fun net m hnet _ hm => ?_) h
  · refine ⟨hinit.2 j i .token, ?_⟩
    rw [hinit.1 i hi]
    exact List.pairwise_pair.mpr (Bool.false_le _)
  · cases a with
    | watch pendReqs =>
      obtain ⟨⟨k, b⟩, hx, heq⟩ := List.mem_map.mp hm
      cases heq
      exact (FailureDetectorThread.mem_sent.mp hx).1
    | monitor order =>
      obtain ⟨k, -, heq⟩ := List.mem_map.mp hm
      cases heq
  · have hsound := (sound hp hpos hnet).1 i hi
    cases a with
    | monitor order => exact .refl _
    | watch pendReqs =>
      show Channels.Lowers _ (heardSusp j ((net.nodes i).watch p pendReqs))
      rw [heardSusp_watch]
      rcases handled_cases hi hp hsound ((net.nodes i).fdEnv p pendReqs) rfl fun _ => rfl with
        ⟨hnone, hsame⟩ | ⟨k, b, rest, hqueue, -, hki, htold⟩
      · rw [hsame, heardSusp, hnone]
        exact .refl _
      · rw [heardSusp, hqueue, List.tail_cons]
        by_cases hkj : k = j
        · subst hkj
          rw [htold.sender, List.filter_cons_of_pos (by simp), List.map_cons]
          apply Channels.Lowers.of_sublist
          split
          · exact List.sublist_cons_self _ _
          · exact (List.sublist_cons_self _ _).cons_cons _
        · have hjid : j ≠ (net.nodes i).failDet.module.id := hsound.fdId.symm ▸ Ne.symm hij
          rw [htold.others j (Ne.symm hkj) hjid, List.filter_cons_of_neg (by simpa using hkj)]
          exact .refl _
  · have hgenuine := (sound hp hpos hnet).2 k i c m hm
    cases m with
    | record vcm => exact .refl _
    | token b =>
      cases c with
      | record => exact hgenuine.elim
      | token =>
        have hkj : k ≠ j := fun heq => hother ⟨heq, rfl⟩
        show Channels.Lowers _ (_ :: (((net.nodes i).failDet.msgQueue ++ [(k, b)]).filter
          (·.1 = j)).map (·.2))
        rw [List.filter_append, List.filter_cons_of_neg (by simpa using hkj), List.filter_nil,
          List.append_nil]
        exact .refl _
  · have hgenuine := (sound hp hpos hnet).2 j i .token m hm
    cases m with
    | record vcm => exact hgenuine.elim
    | token b =>
      show Channels.Lowers _ (_ :: (((net.nodes i).failDet.msgQueue ++ [(j, b)]).filter
        (·.1 = j)).map (·.2))
      rw [List.filter_append, List.filter_cons_of_pos (by simp), List.filter_nil, List.map_append]
      exact .refl _

/-- A processor that suspects the primary, as another one has recorded, does so. -/
theorem primSusp_le (hi : i ∉ silent) (hij : i ≠ j) :
    (net.nodes i).failDet.module.primSusp j ≤ (net.nodes j).susp := by
  have hchain := token_chain hp hpos h hi hij
  rw [List.append_assoc, heardSusp, List.cons_append, List.pairwise_cons] at hchain
  exact hchain.1 _ (by simp)

/-- What was recorded of a suspicion is not taken back. -/
theorem primSusp_mono (hstep : (system p f nodes silent).step net l net') (i j : Fin n) :
    (net.nodes i).failDet.module.primSusp j ≤ (net'.nodes i).failDet.module.primSusp j := by
  refine Channels.Step.of_local (i := i) (R := fun w w' =>
    w.failDet.module.primSusp j ≤ w'.failDet.module.primSusp j) hstep (fun w => le_rfl)
    (fun a hi _ => ?_) fun k c m _ _ => ?_
  · cases a with
    | monitor order => exact le_rfl
    | watch pendReqs =>
      have hsound := (sound hp hpos h).1 i hi
      show _ ≤ ((net.nodes i).watch p pendReqs).failDet.module.primSusp j
      rw [watch_failDet]
      rcases handled_cases hi hp hsound ((net.nodes i).fdEnv p pendReqs) rfl fun _ => rfl with
        ⟨-, hsame⟩ | ⟨k, b, rest, hqueue, -, hki, htold⟩
      · rw [hsame]
      · by_cases hji : j = (net.nodes i).failDet.module.id
        · rw [hji]
          exact htold.own
        · by_cases hjk : j = k
          · subst hjk
            rw [htold.sender]
            -- the token was sent after the one that was recorded
            have hchain := token_chain hp hpos h hi (Ne.symm hki)
            rw [List.append_assoc, heardSusp, hqueue, List.filter_cons_of_pos (by simp),
              List.map_cons, List.cons_append, List.pairwise_cons] at hchain
            split
            · exact hchain.1 b List.mem_cons_self
            · exact le_rfl
          · rw [htold.others j hjk hji]
  · cases m with
    | token b => exact le_rfl
    | record vcm => exact le_rfl

theorem suspected_mono (hstep : (system p f nodes silent).step net l net') (hi : i ∉ silent)
    (hsuspected : (net.nodes i).suspected p = true) : (net'.nodes i).suspected p = true := by
  have hsound := (sound hp hpos h).1 i hi
  have hsound' := (sound hp hpos (.step h trivial hstep)).1 i hi
  rw [suspected_count hsound] at hsuspected
  rw [suspected_count hsound']
  have hsub : (Finset.univ.filter fun k => (net.nodes i).failDet.module.primSusp k = true) ⊆
      Finset.univ.filter fun k => (net'.nodes i).failDet.module.primSusp k = true := by
    intro k hk
    have hkeep := primSusp_mono hp hpos h hstep i k
    exact Finset.mem_filter.mpr ⟨Finset.mem_univ k, hkeep (Finset.mem_filter.mp hk).2⟩
  exact hsuspected.trans (Int.ofNat_le.mpr (Finset.card_le_card hsub))

/-! ## Records -/

/-- A processor that reports to need a change has enough suspicions recorded. -/
theorem needChange_suspected (hi : i ∉ silent)
    (hneed : (net.nodes i).primMon.own.needChange = true) :
    (net.nodes i).suspected p = true := by
  induction h with
  | init hinit =>
    rw [hinit.1 i hi] at hneed
    cases hneed
  | @step net net' l hnet _ hstep ih =>
    have hsound := (sound hp hpos hnet).1 i hi
    have hkeep := suspected_mono hp hpos hnet hstep hi
    refine Channels.Step.of_local (i := i) (R := fun w w' =>
      (w.primMon.own.needChange = true → w.suspected p = true) →
        (w.suspected p = true → w'.suspected p = true) → w'.primMon.own.needChange = true →
          w'.suspected p = true) hstep (fun w hw _ => hw) (fun a _ ha hw hkeep hneed => ?_)
      (fun k c m _ hm hw hkeep hneed => ?_) ih hkeep hneed
    · cases a with
      | watch pendReqs => exact hkeep (hw hneed)
      | monitor order =>
        have hmon := monitored hpos ha hsound
        exact (suspected_congr (net.nodes i) ((net.nodes i).monitor p order) rfl rfl).trans
          (hmon.needChange.symm.trans hneed)
    · cases m with
      | token b => exact hkeep (hw hneed)
      | record v =>
        have hown := own_receiveMsg (net.nodes i).primMon k v
        exact hkeep (hw ((congrArg Vcm.needChange hown).symm.trans hneed))

theorem needChange_mono (hstep : (system p f nodes silent).step net l net') (i : Fin n) :
    (net.nodes i).primMon.own.needChange ≤ (net'.nodes i).primMon.own.needChange := by
  refine Channels.Step.of_local (R := fun w w' =>
    w.primMon.own.needChange ≤ w'.primMon.own.needChange) hstep (fun w => le_rfl)
    (fun a hi ha => ?_) fun k c m _ _ => ?_
  · cases a with
    | watch pendReqs => exact le_rfl
    | monitor order =>
      have hmon := monitored hpos ha ((sound hp hpos h).1 i hi)
      exact fun hneed => hmon.needChange.trans (needChange_suspected hp hpos h hi hneed)
  · cases m with
    | token b => exact le_rfl
    | record v =>
      have hown := own_receiveMsg (net.nodes i).primMon k v
      exact (congrArg Vcm.needChange hown).ge

/-- What the record of a processor says. -/
def Notice.vcm : Notice → Vcm
  | .token _ => ⟨.ok, 0, false, ∅⟩
  | .record v => v

/-- What was recorded of a processor, what is on its way and what it holds itself ascend, when
    the latter only rises and a clean record says the least. -/
theorem record_chain {β : Type*} [Preorder β] {look : Vcm → β}
    (hclean : ∀ v x, look ⟨.ok, v, false, ∅⟩ ≤ x) (hi : i ∉ silent) (hij : i ≠ j)
    (hmono : ∀ net l net', (system p f nodes silent).Reachable net →
      (system p f nodes silent).step net l net' →
        look (net.nodes j).primMon.own ≤ look (net'.nodes j).primMon.own) :
    (look ((net.nodes i).primMon.vcm j) ::
      ((net.queue j i .record).map fun m => look m.vcm) ++
      [look (net.nodes j).primMon.own]).Pairwise (· ≤ ·) := by
  refine Channels.Reachable.chain (fun m => look m.vcm) (fun w => [look (w.primMon.vcm j)])
    (fun w => look w.primMon.own) hij (fun net hinit => ?_) hmono
    (fun net a hnet hj ha m hm => ?_) (fun net a hnet _ ha => ?_)
    (fun net k c m hnet _ hm hother => ?_) (fun net m hnet _ hm => ?_) h
  · refine ⟨hinit.2 j i .record, ?_⟩
    rw [hinit.1 i hi]
    exact List.pairwise_pair.mpr (hclean _ _)
  · cases a with
    | watch pendReqs =>
      obtain ⟨x, -, heq⟩ := List.mem_map.mp hm
      cases heq
    | monitor order =>
      obtain ⟨k, -, heq⟩ := List.mem_map.mp hm
      cases heq
      rfl
  · cases a with
    | watch pendReqs => exact .refl _
    | monitor order =>
      have hsound := (sound hp hpos hnet).1 i hi
      show Channels.Lowers _ [look (((net.nodes i).monitor p order).primMon.vcm j)]
      rw [vcm_monitor hpos ha hsound (Ne.symm hij)]
      split
      · exact .refl _
      · exact .of_le (hclean _ _)
  · have hsound := (sound hp hpos hnet).1 i hi
    have hgenuine := (sound hp hpos hnet).2 k i c m hm
    cases m with
    | token b => exact .refl _
    | record v =>
      cases c with
      | token => exact hgenuine.elim
      | record =>
        have hjk : j ≠ k := fun heq => hother ⟨heq.symm, rfl⟩
        have hkid : k ≠ (net.nodes i).primMon.id := hsound.pmId.symm ▸ hgenuine.2.1
        show Channels.Lowers _ [look (((net.nodes i).primMon.receiveMsg k v).vcm j)]
        rw [vcm_receive v hkid, if_neg hjk]
        exact .refl _
  · have hsound := (sound hp hpos hnet).1 i hi
    have hgenuine := (sound hp hpos hnet).2 j i .record m hm
    cases m with
    | token b => exact hgenuine.elim
    | record v =>
      have hjid : j ≠ (net.nodes i).primMon.id := hsound.pmId.symm ▸ Ne.symm hij
      show Channels.Lowers _ [look (((net.nodes i).primMon.receiveMsg j v).vcm j)]
      rw [vcm_receive v hjid, if_pos rfl]
      exact .of_sublist (List.sublist_cons_self _ _)

/-- The need of a change, as it was recorded, as it is on its way and as it is. -/
theorem needChange_chain (hi : i ∉ silent) (hij : i ≠ j) :
    (((net.nodes i).primMon.vcm j).needChange ::
      ((net.queue j i .record).map fun m => m.vcm.needChange) ++
      [(net.nodes j).primMon.own.needChange]).Pairwise (· ≤ ·) :=
  record_chain hp hpos h (fun _ x => Bool.false_le x) hi hij
    fun _ _ _ hnet hstep => needChange_mono hp hpos hnet hstep j

omit hp hpos h in
theorem names_subset {m m' : PrimaryMonitoringModule n}
    (h : ∀ k, (m.vcm k).needChange = true → (m'.vcm k).needChange = true) : m.names ⊆ m'.names :=
  Finset.image_subset_image (Finset.monotone_filter_right _ fun k _ => h k)

omit hp h in
/-- An iteration names at least those who were named, and only processors that need a change. -/
theorem needChgSet_monitor (horder : Ascends f order) (h : Sound p f nodes silent i w)
    (hneed : w.primMon.own.needChange = true → w.suspected p = true)
    (hnames : w.primMon.own.needChgSet ⊆ w.primMon.names) :
    w.primMon.own.needChgSet ⊆ (w.monitor p order).primMon.own.needChgSet ∧
      (w.monitor p order).primMon.own.needChgSet ⊆ (w.monitor p order).primMon.names := by
  have hmon := monitored hpos horder h
  have hown := started_inView h (w.suspected p)
  have hid : (w.primMon.started (envIn p (w.suspected p))).id = i :=
    (started_config _ _).1.trans h.pmId
  -- who was named is still recorded when the iteration starts, and when it ends
  have hstart : w.primMon.own.needChgSet ⊆
      (w.primMon.started (envIn p (w.suspected p))).names := by
    by_cases hprim : w.primMon.own.prim = p.val
    · refine hnames.trans (names_subset fun k hk => ?_)
      by_cases hki : k = i
      · subst hki
        have hself : w.primMon.own.needChange = true := by
          rw [own, h.pmId]
          exact hk
        rw [← hid]
        show (w.primMon.started (envIn p (w.suspected p))).own.needChange = true
        rw [hown]
        exact hneed hself
      · have hview : w.primMon.getCurrentView (envIn p (w.suspected p)) w.primMon.id = p.val := by
          rw [PrimaryMonitoringModule.getCurrentView, h.pmStab]
          rfl
        rw [started_vcm _ (h.pmId.symm ▸ hki), hview, if_pos hprim]
        exact hk
    · rw [(h.fresh hprim).2.2]
      exact Finset.empty_subset _
  have hend : (w.primMon.started (envIn p (w.suspected p))).names ⊆
      (w.monitor p order).primMon.names := by
    refine names_subset fun k hk => ?_
    by_cases hki : k = i
    · subst hki
      have hself : (w.primMon.started (envIn p (w.suspected p))).own.needChange = true := by
        rw [own, hid]
        exact hk
      rw [hown] at hself
      have hid' : (w.monitor p order).primMon.id = k := hmon.id.trans h.pmId
      have hown' := hmon.needChange.trans hself
      rw [own, hid'] at hown'
      exact hown'
    · rw [hmon.others k (h.pmId.symm ▸ hki)]
      exact hk
  rw [hmon.needChgSet, hown]
  split
  · exact ⟨subset_rfl, hstart.trans hend⟩
  · exact ⟨hstart, hend⟩

/-- Everybody who was named is still recorded to need a change. -/
theorem needChgSet_subset (hi : i ∉ silent) :
    (net.nodes i).primMon.own.needChgSet ⊆ (net.nodes i).primMon.names := by
  induction h with
  | init hinit =>
    rw [hinit.1 i hi]
    exact Finset.empty_subset _
  | @step net net' l hnet _ hstep ih =>
    have hsound := (sound hp hpos hnet).1 i hi
    refine Channels.Step.of_local (i := i) (R := fun w w' =>
      w.primMon.own.needChgSet ⊆ w.primMon.names → w'.primMon.own.needChgSet ⊆ w'.primMon.names)
      hstep (fun w hw => hw) (fun a _ ha hw => ?_) (fun k c m _ hm hw => ?_) ih
    · cases a with
      | watch pendReqs => exact hw
      | monitor order =>
        exact (needChgSet_monitor hpos ha hsound (needChange_suspected hp hpos hnet hi) hw).2
    · have hgenuine := (sound hp hpos hnet).2 k i c m hm
      cases m with
      | token b => exact hw
      | record v =>
        cases c with
        | token => exact hgenuine.elim
        | record =>
          have hkid : k ≠ (net.nodes i).primMon.id := hsound.pmId.symm ▸ hgenuine.2.1
          show ((net.nodes i).primMon.receiveMsg k v).own.needChgSet ⊆ _
          rw [own_receiveMsg]
          refine hw.trans (names_subset fun j hj => ?_)
          show (((net.nodes i).primMon.receiveMsg k v).vcm j).needChange = true
          rw [vcm_receive v hkid]
          split
          · rename_i hjk
            subst hjk
            have hchain := needChange_chain hp hpos hnet hi (Ne.symm hgenuine.2.1)
            rw [List.cons_append, List.pairwise_cons] at hchain
            exact hchain.1 v.needChange
              (List.mem_append_left _ (List.mem_map.mpr ⟨.record v, hm, rfl⟩)) hj
          · exact hj

theorem needChgSet_mono (hstep : (system p f nodes silent).step net l net') (i : Fin n) :
    (net.nodes i).primMon.own.needChgSet ⊆ (net'.nodes i).primMon.own.needChgSet := by
  refine Channels.Step.of_local (R := fun w w' =>
    w.primMon.own.needChgSet ⊆ w'.primMon.own.needChgSet) hstep (fun w => subset_rfl)
    (fun a hi ha => ?_) fun k c m _ _ => ?_
  · cases a with
    | watch pendReqs => exact subset_rfl
    | monitor order =>
      exact (needChgSet_monitor hpos ha ((sound hp hpos h).1 i hi)
        (needChange_suspected hp hpos h hi) (needChgSet_subset hp hpos h hi)).1
  · cases m with
    | token b => exact subset_rfl
    | record v =>
      have hown := own_receiveMsg (net.nodes i).primMon k v
      exact (congrArg Vcm.needChgSet hown).ge

/-- Whom a processor names, as it was recorded, as it is on its way and as it is. -/
theorem needChgSet_chain (hi : i ∉ silent) (hij : i ≠ j) :
    (((net.nodes i).primMon.vcm j).needChgSet ::
      ((net.queue j i .record).map fun m => m.vcm.needChgSet) ++
      [(net.nodes j).primMon.own.needChgSet]).Pairwise (· ≤ ·) :=
  record_chain hp hpos h (fun _ x => Finset.empty_subset x) hi hij
    fun _ _ _ hnet hstep => needChgSet_mono hp hpos hnet hstep j

/-- Records lag behind what they report. -/
theorem vcm_le (hi : i ∉ silent) (hij : i ≠ j) :
    ((net.nodes i).primMon.vcm j).needChange ≤ (net.nodes j).primMon.own.needChange ∧
      ((net.nodes i).primMon.vcm j).needChgSet ⊆ (net.nodes j).primMon.own.needChgSet := by
  have hneed := needChange_chain hp hpos h hi hij
  have hset := needChgSet_chain hp hpos h hi hij
  rw [List.cons_append, List.pairwise_cons] at hneed hset
  exact ⟨hneed.1 _ (by simp), hset.1 _ (by simp)⟩

omit hp h in
/-- A status other than `OK` was held before, or the first processor that names anyone names
    enough; who was in `V_CHANGE` names the same processors. -/
theorem status_monitor (horder : Ascends f order) (h : Sound p f nodes silent i w)
    (hstatus : (w.monitor p order).primMon.own.vStatus ≠ .ok) :
    (w.monitor p order).primMon.Decisive ∨
      w.primMon.own.vStatus = (w.monitor p order).primMon.own.vStatus ∧
        ((w.monitor p order).primMon.own.vStatus = .vChange →
          (w.monitor p order).primMon.own.needChgSet = w.primMon.own.needChgSet) := by
  have hmon := monitored hpos horder h
  have hown := started_inView h (w.suspected p)
  have hset := hmon.needChgSet
  rw [hown] at hset
  by_cases hchange : w.primMon.own.vStatus = .vChange
  · rw [if_pos hchange] at hset
    have hstays := hmon.stays (by rw [hown]; exact hchange)
    exact Or.inr ⟨hchange.trans hstays.symm, fun _ => hset⟩
  · by_cases hdecisive : (w.monitor p order).primMon.Decisive
    · exact Or.inl hdecisive
    · have hsame := hmon.indecisive (by rw [hown]; exact hchange) hdecisive
      rw [hown] at hsame
      have heq := hsame.resolve_left hstatus
      exact Or.inr ⟨heq.symm, fun hyes => absurd (heq.symm.trans hyes) hchange⟩

/-- So it is in every step. -/
theorem status_step (hstep : (system p f nodes silent).step net l net') (i : Fin n)
    (hstatus : (net'.nodes i).primMon.own.vStatus ≠ .ok) :
    (i ∉ silent ∧ (net'.nodes i).primMon.Decisive) ∨
      (net.nodes i).primMon.own.vStatus = (net'.nodes i).primMon.own.vStatus ∧
        ((net'.nodes i).primMon.own.vStatus = .vChange →
          (net'.nodes i).primMon.own.needChgSet = (net.nodes i).primMon.own.needChgSet) := by
  refine Channels.Step.of_local (i := i) (R := fun w w' => w'.primMon.own.vStatus ≠ .ok →
    (i ∉ silent ∧ w'.primMon.Decisive) ∨
      w.primMon.own.vStatus = w'.primMon.own.vStatus ∧ (w'.primMon.own.vStatus = .vChange →
        w'.primMon.own.needChgSet = w.primMon.own.needChgSet)) hstep
    (fun w _ => Or.inr ⟨rfl, fun _ => rfl⟩) (fun a hi ha hstatus => ?_)
    (fun k c m _ _ _ => Or.inr ?_) hstatus
  · cases a with
    | watch pendReqs => exact Or.inr ⟨rfl, fun _ => rfl⟩
    | monitor order =>
      exact (status_monitor hpos ha ((sound hp hpos h).1 i hi) hstatus).imp_left
        fun hdecisive => ⟨hi, hdecisive⟩
  · cases m with
    | token b => exact ⟨rfl, fun _ => rfl⟩
    | record v =>
      have hown := own_receiveMsg (net.nodes i).primMon k v
      exact ⟨(congrArg Vcm.vStatus hown).symm, fun _ => congrArg Vcm.needChgSet hown⟩

/-- The first processor that names anyone does so itself, when it names enough. -/
theorem names_of_decisive (hi : i ∉ silent) (hdecisive : (net.nodes i).primMon.Decisive) :
    ∃ a, a ∉ silent ∧ (n : Int) - 2 * f ≤ (net.nodes a).primMon.own.needChgSet.card ∧
      (i < a → (net.nodes i).primMon.own.needChgSet = ∅) := by
  have hsound := (sound hp hpos h).1 i hi
  obtain ⟨a, hnames, hbefore⟩ := hdecisive
  rw [Names, hsound.pmByzantine] at hnames
  have hown : (net.nodes i).primMon.own = (net.nodes i).primMon.vcm i := by
    rw [own, hsound.pmId]
  refine ⟨a, fun hsilent => ?_, ?_, fun hia => ?_⟩
  · rw [(hsound.unnamed a hsilent).2, Finset.card_empty] at hnames
    omega
  · by_cases hia : i = a
    · subst hia
      rw [hown]
      exact hnames
    · exact hnames.trans (Int.ofNat_le.mpr
        (Finset.card_le_card (vcm_le hp hpos h hi hia).2))
  · rw [hown]
    exact hbefore i hia

/-- Whoever has stopped the service goes by a processor that names enough. -/
theorem stopped_cause (hi : i ∉ silent)
    (hstatus : (net.nodes i).primMon.own.vStatus ≠ .ok) :
    ∃ a, a ∉ silent ∧ (n : Int) - 2 * f ≤ (net.nodes a).primMon.own.needChgSet.card := by
  induction h with
  | init hinit =>
    rw [hinit.1 i hi] at hstatus
    exact absurd rfl hstatus
  | @step net net' l hnet _ hstep ih =>
    rcases status_step hp hpos hnet hstep i hstatus with ⟨-, hdecisive⟩ | ⟨hsame, -⟩
    · obtain ⟨a, ha, henough, -⟩ :=
        names_of_decisive hp hpos (.step hnet trivial hstep) hi hdecisive
      exact ⟨a, ha, henough⟩
    · obtain ⟨a, ha, henough⟩ := ih (hsame ▸ hstatus)
      exact ⟨a, ha, henough.trans (Int.ofNat_le.mpr
        (Finset.card_le_card (needChgSet_mono hp hpos hnet hstep a)))⟩

/-- Whoever is in `V_CHANGE` names nobody, or enough processors, or others before it do. -/
theorem changing_cause (hi : i ∉ silent)
    (hstatus : (net.nodes i).primMon.own.vStatus = .vChange) :
    (net.nodes i).primMon.own.needChgSet = ∅ ∨
      (n : Int) - 2 * f ≤ (net.nodes i).primMon.own.needChgSet.card ∨
      ∃ j < i, j ∉ silent ∧ (net.nodes j).primMon.own.needChgSet ≠ ∅ := by
  induction h with
  | init hinit =>
    rw [hinit.1 i hi] at hstatus
    cases hstatus
  | @step net net' l hnet _ hstep ih =>
    have hstopped : (net'.nodes i).primMon.own.vStatus ≠ .ok := by
      rw [hstatus]
      exact nofun
    rcases status_step hp hpos hnet hstep i hstopped with ⟨-, hdecisive⟩ | ⟨hsame, hset⟩
    · obtain ⟨a, ha, henough, hbefore⟩ :=
        names_of_decisive hp hpos (.step hnet trivial hstep) hi hdecisive
      rcases lt_trichotomy i a with hia | rfl | hai
      · exact Or.inl (hbefore hia)
      · exact Or.inr (Or.inl henough)
      · refine Or.inr (Or.inr ⟨a, hai, ha, fun hempty => ?_⟩)
        rw [hempty, Finset.card_empty] at henough
        omega
    · rw [hset hstatus]
      rcases ih (hsame.trans hstatus) with hnone | henough | ⟨j, hji, hj, hne⟩
      · exact Or.inl hnone
      · exact Or.inr (Or.inl henough)
      · refine Or.inr (Or.inr ⟨j, hji, hj, fun hempty => hne ?_⟩)
        exact Finset.subset_empty.mp (hempty ▸ needChgSet_mono hp hpos hnet hstep j)

/-- A processor with a need of a change has recorded enough processors that suspect the
    primary. -/
theorem suspecting_of_needChange (hi : i ∉ silent)
    (hneed : (net.nodes i).primMon.own.needChange = true) : (n : Int) - 2 * f ≤
      (Finset.univ.filter fun k => k ∉ silent ∧ (net.nodes k).susp = true).card := by
  have hsound := (sound hp hpos h).1 i hi
  have hsuspected := (suspected_count hsound).mp (needChange_suspected hp hpos h hi hneed)
  refine hsuspected.trans (Int.ofNat_le.mpr (Finset.card_le_card fun k hk => ?_))
  have hk := (Finset.mem_filter.mp hk).2
  refine Finset.mem_filter.mpr ⟨Finset.mem_univ k, fun hsilent => ?_, ?_⟩
  · rw [hsound.unheard k hsilent] at hk
    cases hk
  · by_cases hik : i = k
    · subst hik
      rw [susp, FailureDetectorThread.primSusp, hsound.fdId]
      exact hk
    · exact primSusp_le hp hpos h hi hik hk

end Reachable

end BFTList.Watcher
