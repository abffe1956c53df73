import BFTList.Spec.SpreadingSuspicion

/-!
# A silent primary is voted out

In every fair run of a view whose primary is silent, all processors that are not silent ask for a
view change in the end. Tokens go round between any two of them, so the missing ones of the
primary are noticed; a processor whose own status is not `OK` any more does not take notice of
tokens, but then enough others name enough processors, and their records arrive.

`sup_change` looks at the first processor that names anyone. The first one that ever does names
enough in the end, and from then on everybody goes by it.

## Key results

- `Watcher.handled_again`: tokens go round
- `Watcher.record_settles`: what is reported for good arrives
- `Watcher.stopped_sound`: whose suspicions a view change rests on
- `Watcher.voted_out`: all processors ask for a view change
-/

namespace BFTList.Watcher

open FailureDetectorModule PrimaryMonitoringModule

variable {n : Nat} {p i j k : Fin n} {f : Nat} {nodes : Int} {silent : Finset (Fin n)}
  {net net' : Channels (Fin n) (Watcher n) Channel Notice}
  {l : Channels.Label (Fin n) (Action n) Channel}

/-! ## Tokens go round -/

/-- A token of `i` waits at `j`. -/
def Waiting (i j : Fin n) (net : Channels (Fin n) (Watcher n) Channel Notice) : Prop :=
  ∃ x ∈ (net.nodes j).failDet.msgQueue, x.1 = i

/-- A token of `i` is on its way to `j`, or waits there. -/
def Underway (i j : Fin n) (net : Channels (Fin n) (Watcher n) Channel Notice) : Prop :=
  net.queue i j .token ≠ [] ∨ Waiting i j net

/-- Processor `j` is about to handle a token of `i`. -/
def Handles (i j : Fin n) (net : Channels (Fin n) (Watcher n) Channel Notice)
    (l : Channels.Label (Fin n) (Action n) Channel) : Prop :=
  ∃ pendReqs b, l = .act j (.watch pendReqs) ∧
    (net.nodes j).failDet.msgQueue.head? = some (i, b)

/-- A queue only grows, until its processor handles the first token. -/
theorem msgQueue_step (hstep : (system p f nodes silent).step net l net') (j : Fin n) :
    (∃ pendReqs, l = .act j (.watch pendReqs) ∧
      (net'.nodes j).failDet.msgQueue = (net.nodes j).failDet.msgQueue.tail) ∨
    ((∀ pendReqs, l ≠ .act j (.watch pendReqs)) ∧
      (net'.nodes j).failDet.firstRun = (net.nodes j).failDet.firstRun ∧
      ∃ new, (net'.nodes j).failDet.msgQueue = (net.nodes j).failDet.msgQueue ++ new ∧
        ∀ x ∈ new, ∃ c, .token x.2 ∈ net.queue x.1 j c) := by
  have hsame : ∃ new, (net.nodes j).failDet.msgQueue = (net.nodes j).failDet.msgQueue ++ new ∧
      ∀ x ∈ new, ∃ c, .token x.2 ∈ net.queue x.1 j c :=
    ⟨[], (List.append_nil _).symm, fun _ hx => absurd hx List.not_mem_nil⟩
  cases l with
  | act k a =>
    obtain ⟨-, -, rfl⟩ := hstep
    by_cases hjk : j = k
    · subst hjk
      rw [Channels.acted_nodes_self]
      cases a with
      | watch pendReqs =>
        refine Or.inl ⟨pendReqs, rfl, ?_⟩
        show ((net.nodes j).watch p pendReqs).failDet.msgQueue = _
        rw [watch_failDet]
      | monitor order =>
        exact Or.inr ⟨fun _ heq => (by cases heq), rfl, hsame⟩
    · rw [Channels.acted_nodes_of_ne hjk]
      exact Or.inr ⟨fun _ heq => hjk (by cases heq; rfl), rfl, hsame⟩
  | deliver i k c =>
    obtain ⟨-, m, rest, hfirst, rfl⟩ := hstep
    refine Or.inr ⟨fun _ heq => (by cases heq), ?_⟩
    by_cases hjk : j = k
    · subst hjk
      rw [Channels.delivered_nodes_self]
      cases m with
      | token b =>
        refine ⟨rfl, [(i, b)], rfl, fun x hx => ⟨c, ?_⟩⟩
        rw [List.mem_singleton.mp hx, hfirst]
        exact List.mem_cons_self
      | record vcm => exact ⟨rfl, hsame⟩
    · rw [Channels.delivered_nodes_of_ne hjk]
      exact ⟨rfl, hsame⟩

/-- A token that is sent is on its way. -/
theorem underway_of_sent {pendReqs : Option (List ClientRequest)} {b : Bool}
    (hstep : (system p f nodes silent).step net (.act i (.watch pendReqs)) net')
    (hsent : (j, b) ∈ ((net.nodes i).failDet.run ((net.nodes i).fdEnv p pendReqs)).2) :
    Underway i j net' := by
  obtain ⟨-, -, rfl⟩ := hstep
  refine Or.inl (List.ne_nil_of_mem (a := .token b) ?_)
  rw [Channels.acted_queue_self]
  exact List.mem_append_right _
    (Channels.mem_addressed.mpr (List.mem_map.mpr ⟨(j, b), hsent, rfl⟩))

/-- Handling a token sends one back. -/
theorem underway_of_handles (hstep : (system p f nodes silent).step net l net')
    (h : Handles i j net l) : Underway j i net' := by
  obtain ⟨pendReqs, b, rfl, hfirst⟩ := h
  exact underway_of_sent hstep (FailureDetectorThread.mem_sent.mpr ⟨rfl, Or.inl ⟨b, hfirst⟩⟩)

/-- A token waits until it is handled. -/
theorem waiting_step (hstep : (system p f nodes silent).step net l net')
    (hnot : ¬ Handles i j net l) (h : Waiting i j net) : Waiting i j net' := by
  obtain ⟨x, hx, hxi⟩ := h
  rcases msgQueue_step hstep j with ⟨pendReqs, rfl, htail⟩ | ⟨-, -, new, hnew, -⟩
  · cases hqueue : (net.nodes j).failDet.msgQueue with
    | nil =>
      rw [hqueue] at hx
      cases hx
    | cons y rest =>
      rw [hqueue] at hx htail
      have hxy : x ≠ y := by
        rintro rfl
        exact hnot ⟨pendReqs, x.2, rfl, by rw [hqueue, ← hxi]; rfl⟩
      refine ⟨x, ?_, hxi⟩
      rw [htail]
      exact (List.mem_cons.mp hx).resolve_left hxy
  · refine ⟨x, ?_, hxi⟩
    rw [hnew]
    exact List.mem_append_left _ hx

/-- What only an iteration of Primary Monitoring changes of the own record. -/
theorem own_step (hstep : (system p f nodes silent).step net l net') (i : Fin n) :
    (∃ order, i ∉ silent ∧ Ascends f order ∧ l = .act i (.monitor order) ∧
      net'.nodes i = (net.nodes i).monitor p order) ∨
    (net'.nodes i).primMon.own = (net.nodes i).primMon.own := by
  cases l with
  | act k a =>
    obtain ⟨hk, ha, rfl⟩ := hstep
    by_cases hik : i = k
    · subst hik
      rw [Channels.acted_nodes_self]
      cases a with
      | watch pendReqs => exact Or.inr rfl
      | monitor order => exact Or.inl ⟨order, hk, ha, rfl, rfl⟩
    · rw [Channels.acted_nodes_of_ne hik]
      exact Or.inr rfl
  | deliver k i' c =>
    obtain ⟨-, m, rest, -, rfl⟩ := hstep
    by_cases hii : i = i'
    · subst hii
      rw [Channels.delivered_nodes_self]
      cases m with
      | token b => exact Or.inr rfl
      | record v => exact Or.inr (own_receiveMsg _ k v)
    · rw [Channels.delivered_nodes_of_ne hii]
      exact Or.inr rfl

/-- Only an iteration changes the module of the failure detector. -/
theorem module_step (hstep : (system p f nodes silent).step net l net') (i : Fin n) :
    (∃ pendReqs, i ∉ silent ∧ l = .act i (.watch pendReqs) ∧
      (net'.nodes i).failDet.module =
        (net.nodes i).failDet.handled ((net.nodes i).fdEnv p pendReqs)) ∨
    ((∀ pendReqs, l ≠ .act i (.watch pendReqs)) ∧
      (net'.nodes i).failDet.module = (net.nodes i).failDet.module) := by
  cases l with
  | act k a =>
    obtain ⟨hk, -, rfl⟩ := hstep
    by_cases hik : i = k
    · subst hik
      rw [Channels.acted_nodes_self]
      cases a with
      | watch pendReqs =>
        refine Or.inl ⟨pendReqs, hk, rfl, ?_⟩
        show ((net.nodes i).watch p pendReqs).failDet.module = _
        rw [watch_failDet]
      | monitor order => exact Or.inr ⟨fun _ heq => (by cases heq), rfl⟩
    · rw [Channels.acted_nodes_of_ne hik]
      exact Or.inr ⟨fun _ heq => hik (by cases heq; rfl), rfl⟩
  | deliver k i' c =>
    obtain ⟨-, m, rest, -, rfl⟩ := hstep
    refine Or.inr ⟨fun _ heq => (by cases heq), ?_⟩
    by_cases hii : i = i'
    · subst hii
      rw [Channels.delivered_nodes_self]
      cases m with
      | token b => rfl
      | record v => rfl
    · rw [Channels.delivered_nodes_of_ne hii]

/-- In the view, at least `d` tokens have come since one of the primary. -/
def Missed (p : Fin n) (d : Int) (i : Fin n) (net : Channels (Fin n) (Watcher n) Channel Notice) :
    Prop :=
  (net.nodes i).failDet.module.prim = p.val ∧ d ≤ (net.nodes i).failDet.module.beat p

/-- The suspicions of `j` that wait at `i`. -/
def waitingSusp (j i : Fin n) (net : Channels (Fin n) (Watcher n) Channel Notice) : List Bool :=
  ((net.nodes i).failDet.msgQueue.filter (·.1 = j)).map (·.2)

theorem waitingSusp_step (hstep : (system p f nodes silent).step net l net') :
    waitingSusp j i net' = waitingSusp j i net ∨
    (∃ b, waitingSusp j i net = b :: waitingSusp j i net') ∨
    ∃ new, waitingSusp j i net' = waitingSusp j i net ++ new ∧
      ∀ b ∈ new, ∃ c, .token b ∈ net.queue j i c := by
  rcases msgQueue_step hstep i with ⟨pendReqs, -, htail⟩ | ⟨-, -, new, hnew, hqueued⟩
  · cases hqueue : (net.nodes i).failDet.msgQueue with
    | nil =>
      refine Or.inl ?_
      rw [waitingSusp, waitingSusp, htail, hqueue, List.tail_nil]
    | cons y rest =>
      by_cases hyj : y.1 = j
      · refine Or.inr (Or.inl ⟨y.2, ?_⟩)
        rw [waitingSusp, waitingSusp, htail, hqueue, List.tail_cons,
          List.filter_cons_of_pos (by simpa using hyj), List.map_cons]
      · refine Or.inl ?_
        rw [waitingSusp, waitingSusp, htail, hqueue, List.tail_cons,
          List.filter_cons_of_neg (by simpa using hyj)]
  · refine Or.inr (Or.inr ⟨(new.filter (·.1 = j)).map (·.2), ?_, fun b hb => ?_⟩)
    · rw [waitingSusp, waitingSusp, hnew, List.filter_append, List.map_append]
    · obtain ⟨x, hx, rfl⟩ := List.mem_map.mp hb
      obtain ⟨hx, hxj⟩ := List.mem_filter.mp hx
      rw [← of_decide_eq_true hxj]
      exact hqueued x hx

/-! ## Enough processors -/

theorem card_correct (hcard : silent.card ≤ f) :
    (n : Int) - f ≤ (Finset.univ.filter fun k : Fin n => k ∉ silent).card := by
  have hsplit := Finset.card_filter_add_card_filter_not (s := Finset.univ)
    (fun k : Fin n => k ∈ silent)
  rw [Finset.card_univ, Fintype.card_fin, Finset.filter_univ_mem] at hsplit
  omega

/-- There are two processors that are not silent. -/
theorem exists_other (hp : p ∈ silent) (hpos : 2 * f < n) (hcard : silent.card ≤ f) (i : Fin n) :
    ∃ j, j ∉ silent ∧ i ≠ j := by
  have hsome : 0 < silent.card := Finset.card_pos.mpr ⟨p, hp⟩
  have hmany := card_correct hcard
  obtain ⟨j, hj, hji⟩ := Finset.exists_mem_ne
    (by omega : 1 < (Finset.univ.filter fun k : Fin n => k ∉ silent).card) i
  exact ⟨j, (Finset.mem_filter.mp hj).2, Ne.symm hji⟩

theorem card_le_names {m : PrimaryMonitoringModule n} {D : Finset (Fin n)}
    (h : ∀ k ∈ D, (m.vcm k).needChange = true) : D.card ≤ m.names.card := by
  have hinj : Function.Injective (ident : Fin n → Int) := by
    intro k k' heq
    simp only [ident] at heq
    exact Fin.ext (by omega)
  have hsub : D.image ident ⊆ m.names := by
    refine Finset.image_subset_image fun k hk => ?_
    exact Finset.mem_filter.mpr ⟨Finset.mem_univ k, h k hk⟩
  rw [← Finset.card_image_of_injective D hinj]
  exact Finset.card_le_card hsub

/-- Whoever is recorded to need a change is named by the next iteration. -/
theorem card_named {w : Watcher n} {order : SetOrder (Fin n)} {D : Finset (Fin n)}
    (hpos : 2 * f < n) (horder : Ascends f order) (h : Sound p f nodes silent i w)
    (hview : w.primMon.own.prim = p.val) (hstatus : w.primMon.own.vStatus ≠ .vChange)
    (hD : ∀ k ∈ D, k ≠ i → (w.primMon.vcm k).needChange = true)
    (hself : i ∈ D → w.suspected p = true) :
    D.card ≤ (w.monitor p order).primMon.own.needChgSet.card := by
  have hown := started_inView h (w.suspected p)
  have hset := (monitored hpos horder h).needChgSet
  rw [hown, if_neg hstatus] at hset
  rw [hset]
  refine card_le_names fun k hk => ?_
  by_cases hki : k = i
  · subst hki
    have hid : (w.primMon.started (envIn p (w.suspected p))).id = k :=
      (started_config _ _).1.trans h.pmId
    rw [own, hid] at hown
    rw [hown]
    exact hself hk
  · have hcur : w.primMon.getCurrentView (envIn p (w.suspected p)) w.primMon.id = p.val := by
      rw [PrimaryMonitoringModule.getCurrentView, h.pmStab]
      rfl
    rw [started_vcm _ (h.pmId.symm ▸ hki), hcur, if_pos hview]
    exact hD k hk hki

section Reachable

variable (hp : p ∈ silent) (hpos : 2 * f < n) (h : (system p f nodes silent).Reachable net)

include hp hpos h

theorem underway_step (hstep : (system p f nodes silent).step net l net')
    (hnot : ¬ Handles i j net l) (hunder : Underway i j net) : Underway i j net' := by
  rcases hunder with hne | hwaiting
  · cases l with
    | act k a =>
      obtain ⟨-, -, rfl⟩ := hstep
      refine Or.inl ?_
      by_cases hik : i = k
      · subst hik
        rw [Channels.acted_queue_self]
        exact List.append_ne_nil_of_left_ne_nil hne _
      · rw [Channels.acted_queue_of_ne hik]
        exact hne
    | deliver i' j' c =>
      obtain ⟨-, m, rest, hfirst, rfl⟩ := hstep
      by_cases hsame : i = i' ∧ j = j' ∧ Channel.token = c
      · -- the token arrives
        obtain ⟨rfl, rfl, rfl⟩ := hsame
        have hgenuine := (sound hp hpos h).2 i j .token m (hfirst ▸ List.mem_cons_self)
        cases m with
        | record vcm => exact hgenuine.elim
        | token b =>
          refine Or.inr ⟨(i, b), ?_, rfl⟩
          rw [Channels.delivered_nodes_self]
          exact List.mem_append_right _ (List.mem_singleton.mpr rfl)
      · refine Or.inl ?_
        rw [Channels.delivered_queue_of_ne hsame]
        exact hne
  · exact Or.inr (waiting_step hstep hnot hwaiting)

/-- Once one of two processors has started, there is a token between them. -/
theorem exists_underway (hi : i ∉ silent) (hj : j ∉ silent) (hij : i ≠ j)
    (hstarted : (net.nodes i).failDet.firstRun = false ∨
      (net.nodes j).failDet.firstRun = false) : Underway i j net ∨ Underway j i net := by
  induction h with
  | init hinit =>
    rw [hinit.1 i hi, hinit.1 j hj] at hstarted
    cases hstarted with
    | inl hstarted => cases hstarted
    | inr hstarted => cases hstarted
  | @step net net' l hnet _ hstep ih =>
    have hkeep : Underway i j net ∨ Underway j i net → Underway i j net' ∨ Underway j i net' := by
      intro hunder
      by_cases hhandles : Handles i j net l
      · exact Or.inr (underway_of_handles hstep hhandles)
      · by_cases hhandles' : Handles j i net l
        · exact Or.inl (underway_of_handles hstep hhandles')
        · exact hunder.imp (underway_step hp hpos hnet hstep hhandles)
            (underway_step hp hpos hnet hstep hhandles')
    by_cases hbefore : (net.nodes i).failDet.firstRun = false ∨
        (net.nodes j).failDet.firstRun = false
    · exact hkeep (ih hbefore)
    · -- the first iteration sends a token to everybody
      have hfirst : ∀ i j : Fin n, i ≠ j → i ∉ silent → (net.nodes i).failDet.firstRun ≠ false →
          (net'.nodes i).failDet.firstRun = false → Underway i j net' := by
        intro i j hij hi htrue hfalse
        rcases msgQueue_step hstep i with ⟨pendReqs, rfl, -⟩ | ⟨-, hsame, -⟩
        · have hid := handled_id hi hp ((sound hp hpos hnet).1 i hi) pendReqs
          exact underway_of_sent hstep (FailureDetectorThread.mem_sent.mpr
            ⟨rfl, Or.inr ⟨Bool.eq_true_of_not_eq_false htrue, hid.symm ▸ Ne.symm hij⟩⟩)
        · exact absurd (hsame.symm.trans hfalse) htrue
      rw [not_or] at hbefore
      cases hstarted with
      | inl hstarted => exact Or.inl (hfirst i j hij hi hbefore.1 hstarted)
      | inr hstarted => exact Or.inr (hfirst j i (Ne.symm hij) hj hbefore.2 hstarted)

/-- In the view a record stays until the next one arrives. -/
theorem vcm_step (hstep : (system p f nodes silent).step net l net') (hi : i ∉ silent)
    (hij : i ≠ j) (hview : (net.nodes i).primMon.own.prim = p.val)
    (hnot : l ≠ .deliver j i .record) :
    (net'.nodes i).primMon.vcm j = (net.nodes i).primMon.vcm j := by
  have hsound := (sound hp hpos h).1 i hi
  cases l with
  | act k a =>
    obtain ⟨-, ha, rfl⟩ := hstep
    by_cases hik : i = k
    · subst hik
      rw [Channels.acted_nodes_self]
      cases a with
      | watch pendReqs => rfl
      | monitor order =>
        show ((net.nodes i).monitor p order).primMon.vcm j = _
        rw [vcm_monitor hpos ha hsound (Ne.symm hij), if_pos hview]
    · rw [Channels.acted_nodes_of_ne hik]
  | deliver k i' c =>
    obtain ⟨-, m, rest, hfirst, rfl⟩ := hstep
    by_cases hii : i = i'
    · subst hii
      rw [Channels.delivered_nodes_self]
      have hgenuine := (sound hp hpos h).2 k i c m (hfirst ▸ List.mem_cons_self)
      cases m with
      | token b => rfl
      | record v =>
        cases c with
        | token => exact hgenuine.elim
        | record =>
          have hjk : j ≠ k := fun heq => hnot (heq ▸ rfl)
          have hkid : k ≠ (net.nodes i).primMon.id := hsound.pmId.symm ▸ hgenuine.2.1
          show ((net.nodes i).primMon.receiveMsg k v).vcm j = _
          rw [vcm_receive v hkid, if_neg hjk]
    · rw [Channels.delivered_nodes_of_ne hii]

/-- What handling a token of `j` does. -/
theorem told_of_handles (hstep : (system p f nodes silent).step net l net') (hi : i ∉ silent)
    (hhandles : Handles j i net l) : ∃ pendReqs b,
      Told p ((net.nodes i).fdEnv p pendReqs) j b (net.nodes i).failDet.module
        (net'.nodes i).failDet.module ∧
      (net'.nodes i).failDet.msgQueue = (net.nodes i).failDet.msgQueue.tail ∧
      (net.nodes i).failDet.msgQueue.head? = some (j, b) := by
  obtain ⟨pendReqs, b, rfl, hfirst⟩ := hhandles
  refine ⟨pendReqs, b, ?_, ?_, hfirst⟩
  · rcases module_step hstep i with ⟨pendReqs', -, heq, hmodule⟩ | hsame
    · cases heq
      rw [hmodule]
      rcases handled_cases hi hp ((sound hp hpos h).1 i hi) ((net.nodes i).fdEnv p pendReqs) rfl
        fun _ => rfl with ⟨hnone, -⟩ | ⟨k, b', rest, hqueue, -, -, htold⟩
      · rw [hnone] at hfirst
        cases hfirst
      · rw [hqueue] at hfirst
        cases hfirst
        exact htold
    · exact absurd rfl (hsame.1 pendReqs)
  · rcases msgQueue_step hstep i with ⟨pendReqs', -, htail⟩ | ⟨hnot, -⟩
    · exact htail
    · exact absurd rfl (hnot pendReqs)

/-- It takes the suspicion from the queue, and records it while the service goes on. -/
theorem waitingSusp_handled (hstep : (system p f nodes silent).step net l net') (hi : i ∉ silent)
    (hhandles : Handles j i net l) : ∃ b, waitingSusp j i net = b :: waitingSusp j i net' ∧
      ((net.nodes i).primMon.noViewChange = true →
        (net'.nodes i).failDet.module.primSusp j = b) := by
  obtain ⟨pendReqs, b, htold, htail, hfirst⟩ := told_of_handles hp hpos h hstep hi hhandles
  refine ⟨b, ?_, fun hcalm => ?_⟩
  · obtain ⟨rest, hqueue⟩ := List.head?_eq_some_iff.mp hfirst
    rw [waitingSusp, waitingSusp, htail, hqueue, List.tail_cons,
      List.filter_cons_of_pos (by simp), List.map_cons]
  · rw [htold.sender]
    exact if_pos hcalm

theorem missed_step {d : Int} (hstep : (system p f nodes silent).step net l net')
    (hmissed : Missed p d i net) : Missed p d i net' := by
  rcases module_step hstep i with ⟨pendReqs, hi, -, hmodule⟩ | hsame
  · rw [Missed, hmodule]
    rcases handled_cases hi hp ((sound hp hpos h).1 i hi) ((net.nodes i).fdEnv p pendReqs) rfl
      fun _ => rfl with ⟨-, hsame⟩ | ⟨k, b, rest, -, -, -, htold⟩
    · rw [hsame]
      exact hmissed
    · refine ⟨htold.prim, ?_⟩
      rw [htold.beat, if_pos hmissed.1]
      have hmany := hmissed.2
      omega
  · rw [Missed, hsame.2]
    exact hmissed

end Reachable

/-! ## Fair runs -/

section Fair

variable {s : Nat → Channels (Fin n) (Watcher n) Channel Notice}
  {e : Nat → Option (Channels.Label (Fin n) (Action n) Channel)}
  (h : (system p f nodes silent).FairRun (Channels.duty kind) s e)

include h

theorem watches (hi : i ∉ silent) (t : Nat) :
    ∃ t', t ≤ t' ∧ ∃ pendReqs, e t' = some (.act i (.watch pendReqs)) := by
  obtain ⟨t', ht, b, he, hkind⟩ := Channels.acts h hi (a := .watch none) trivial t
  cases b with
  | watch pendReqs => exact ⟨t', ht, pendReqs, he⟩
  | monitor order => cases hkind

theorem monitors (hi : i ∉ silent) (t : Nat) :
    ∃ t', t ≤ t' ∧ ∃ order, Ascends f order ∧ e t' = some (.act i (.monitor order)) := by
  obtain ⟨t', ht, b, he, hkind⟩ := Channels.acts h hi (a := .monitor .insertion)
    (ascends_insertion f) t
  cases b with
  | watch pendReqs => cases hkind
  | monitor order => exact ⟨t', ht, order, (h.step t' _ he).2.1, he⟩

/-- What is sent is what its sender holds then. -/
theorem mem_sent {t : Nat} {c : Channel} {m : Notice}
    (hm : m ∈ Channels.sent (protocol p) (s t) j i c (e t)) :
    (c = .token ∧ m = .token ((s (t + 1)).nodes j).susp) ∨
      (c = .record ∧ m = .record ((s (t + 1)).nodes j).primMon.own) := by
  cases he : e t with
  | none =>
    rw [he] at hm
    cases hm
  | some l =>
    rw [he] at hm
    cases l with
    | deliver i' j' c' => cases hm
    | act k a =>
      simp only [Channels.sent] at hm
      split at hm
      · rename_i hkj
        subst hkj
        have hsent := Channels.mem_addressed.mp hm
        rw [Channels.act_next h he]
        cases a with
        | watch pendReqs =>
          obtain ⟨⟨i', b⟩, hx, heq⟩ := List.mem_map.mp hsent
          cases heq
          exact Or.inl ⟨rfl, congrArg Notice.token (FailureDetectorThread.mem_sent.mp hx).1⟩
        | monitor order =>
          obtain ⟨i', -, heq⟩ := List.mem_map.mp hsent
          cases heq
          exact Or.inr ⟨rfl, rfl⟩
      · cases hm

/-- A token that waits is handled. -/
theorem waiting_handled (hj : j ∉ silent) {t : Nat} (hwaiting : Waiting i j (s t)) :
    ∃ t', t ≤ t' ∧ ∃ l, e t' = some l ∧ Handles i j (s t') l := by
  by_contra hnever
  have hnot : ∀ t', t ≤ t' → ∀ l, e t' = some l → ¬ Handles i j (s t') l :=
    fun t' ht l he hhandles => hnever ⟨t', ht, l, he, hhandles⟩
  have hwaits : ∀ t', t ≤ t' → Waiting i j (s t') := by
    intro t' ht
    induction ht with
    | refl => exact hwaiting
    | @step t' ht ih =>
      exact h.kept_next ih fun l he hstep => waiting_step hstep (hnot t' ht l he) ih
  -- it comes closer with each iteration
  have hcloser : ∀ t', t ≤ t' → ∀ pendReqs, e t' = some (.act j (.watch pendReqs)) →
      ∃ y rest, ((s t').nodes j).failDet.msgQueue = y :: rest ∧ y.1 ≠ i ∧
        ((s (t' + 1)).nodes j).failDet.msgQueue = rest := by
    intro t' ht pendReqs he
    obtain ⟨x, hx, -⟩ := hwaits t' ht
    obtain ⟨y, rest, hqueue⟩ := List.exists_cons_of_ne_nil (List.ne_nil_of_mem hx)
    refine ⟨y, rest, hqueue, fun hyi => hnot t' ht _ he ⟨pendReqs, y.2, rfl, ?_⟩, ?_⟩
    · rw [hqueue, ← hyi]
      rfl
    · have hnext := Channels.act_next h he
      rw [hnext]
      show (((s t').nodes j).watch p pendReqs).failDet.msgQueue = _
      rw [watch_failDet, hqueue]
      rfl
  let place : Channels (Fin n) (Watcher n) Channel Notice → Nat := fun net =>
    (net.nodes j).failDet.msgQueue.findIdx (·.1 = i)
  have hfalls : ∀ t', t ≤ t' → ∀ pendReqs, e t' = some (.act j (.watch pendReqs)) →
      place (s t') = place (s (t' + 1)) + 1 := by
    intro t' ht pendReqs he
    obtain ⟨y, rest, hqueue, hyi, hrest⟩ := hcloser t' ht pendReqs he
    simp only [place, hqueue, hrest, List.findIdx_cons, decide_eq_false hyi, cond_false]
  have hsettles : System.Settles s fun net => place net = 0 := by
    refine System.Settles.of_measure (i := t) place (fun t' ht => ?_) fun t' ht => ?_
    · refine h.kept_next (P := fun net => place net ≤ place (s t')) le_rfl fun l he hstep => ?_
      rcases msgQueue_step hstep j with ⟨pendReqs, rfl, -⟩ | ⟨-, -, new, hnew, -⟩
      · have hfall := hfalls t' ht pendReqs he
        omega
      · obtain ⟨x, hx, hxi⟩ := hwaits t' ht
        have hlt := List.findIdx_lt_length_of_exists (p := fun y => decide (y.1 = i))
          ⟨x, hx, decide_eq_true hxi⟩
        simp only [place, hnew, List.findIdx_append, hlt, if_true, le_refl]
    · obtain ⟨t'', ht'', pendReqs, he⟩ := watches h hj t'
      refine ⟨t'', ht'', Or.inr ?_⟩
      have hfall := hfalls t'' (by omega) pendReqs he
      omega
  obtain ⟨t₁, ht₁⟩ := hsettles
  obtain ⟨t₂, ht₂, pendReqs, he⟩ := watches h hj (max t t₁)
  have hfall := hfalls t₂ (by omega) pendReqs he
  have hzero := ht₁ t₂ (by omega)
  omega

/-- Tokens go round: a processor handles tokens of every other one again and again. -/
theorem handled_again (hp : p ∈ silent) (hpos : 2 * f < n) (hi : i ∉ silent) (hj : j ∉ silent)
    (hij : i ≠ j) (t : Nat) : ∃ t', t ≤ t' ∧ ∃ l, e t' = some l ∧ Handles i j (s t') l := by
  -- a token on its way arrives
  have harrives : ∀ i j : Fin n, j ∉ silent → ∀ t, Underway i j (s t) →
      ∃ t', t ≤ t' ∧ ∃ l, e t' = some l ∧ Handles i j (s t') l := by
    intro i j hj t hunder
    rcases hunder with hne | hwaiting
    · obtain ⟨t₁, ht₁, he⟩ := Channels.delivers h hj hne
      have hwaiting : Waiting i j (s (t₁ + 1)) := by
        obtain ⟨m, hqueue, hnext⟩ := Channels.deliver_next h he
        have hgenuine := (sound hp hpos (h.reachable t₁)).2 i j .token m
          (hqueue ▸ List.mem_cons_self)
        cases m with
        | record vcm => exact hgenuine.elim
        | token b =>
          refine ⟨(i, b), ?_, rfl⟩
          rw [hnext]
          exact List.mem_append_right _ (List.mem_singleton.mpr rfl)
      obtain ⟨t₂, ht₂, hhandles⟩ := waiting_handled h hj hwaiting
      exact ⟨t₂, by omega, hhandles⟩
    · exact waiting_handled h hj hwaiting
  by_contra hnever
  have hnone : ∀ t', t ≤ t' → ¬ Underway i j (s t') := by
    intro t' ht hunder
    obtain ⟨t₁, ht₁, hhandles⟩ := harrives i j hj t' hunder
    exact hnever ⟨t₁, by omega, hhandles⟩
  -- so the token is with the other one, who sends it back
  obtain ⟨t₁, ht₁, pendReqs, he⟩ := watches h hj t
  have hstarted : ((s (t₁ + 1)).nodes j).failDet.firstRun = false := by
    rw [Channels.act_next h he]
    show (((s t₁).nodes j).watch p pendReqs).failDet.firstRun = false
    rw [watch_failDet]
  have hunder := (exists_underway hp hpos (h.reachable (t₁ + 1)) hi hj hij
    (Or.inr hstarted)).resolve_left (hnone _ (by omega))
  obtain ⟨t₂, ht₂, l, he₂, hhandles⟩ := harrives j i hi _ hunder
  exact hnone (t₂ + 1) (by omega) (underway_of_handles (h.step t₂ l he₂) hhandles)

/-! ### Records -/

variable (hp : p ∈ silent) (hpos : 2 * f < n)

include hp hpos

/-- In the end everybody works in the view. -/
theorem prim_settles (hi : i ∉ silent) :
    System.Settles s fun net => (net.nodes i).primMon.own.prim = p.val := by
  have hafter : ∀ t, ∀ order, Ascends f order → e t = some (.act i (.monitor order)) →
      ((s (t + 1)).nodes i).primMon.own.prim = p.val := by
    intro t order horder he
    rw [Channels.act_next h he]
    exact (monitored hpos horder ((sound hp hpos (h.reachable t)).1 i hi)).prim
  refine System.Settles.of_kept (i := 0) (fun t _ hprim => ?_) ?_
  · refine h.kept_next (P := fun net => (net.nodes i).primMon.own.prim = (p.val : Int)) hprim
      fun l he hstep => ?_
    rcases own_step hstep i with ⟨order, -, horder, rfl, -⟩ | hsame
    · exact hafter t order horder he
    · rw [hsame]
      exact hprim
  · obtain ⟨t, -, order, horder, he⟩ := monitors h hi 0
    exact ⟨t + 1, Nat.zero_le _, hafter t order horder he⟩

/-- What a processor reports from some moment on is soon recorded by another one. -/
theorem record_settles {Q : Vcm → Prop} {t₀ : Nat} (hi : i ∉ silent) (hj : j ∉ silent)
    (hij : i ≠ j) (hown : ∀ t, t₀ ≤ t → Q ((s t).nodes j).primMon.own) :
    System.Settles s fun net => Q ((net.nodes i).primMon.vcm j) := by
  obtain ⟨t₁, ht₁⟩ := prim_settles h hp hpos hi
  refine Channels.settles_received h (i := j) (c := .record)
    (Q := fun m => ∃ v, m = .record v ∧ Q v) (R := fun w => Q (w.primMon.vcm j)) hi (max t₀ t₁)
    (fun t ht m hm => ?_) (fun t => ?_) (fun t m _ hm => ?_) fun t ht hnot hrecord => ?_
  · rcases mem_sent h hm with ⟨hc, -⟩ | ⟨-, rfl⟩
    · cases hc
    · exact ⟨_, rfl, hown (t + 1) (by omega)⟩
  · obtain ⟨t', ht', order, -, he⟩ := monitors h hj t
    refine ⟨t', ht', ?_⟩
    rw [he]
    simp only [Channels.sent, if_true]
    refine List.ne_nil_of_mem (a := .record (((s t').nodes j).monitor p order).primMon.own)
      (Channels.mem_addressed.mpr (List.mem_map.mpr ⟨i, ?_, rfl⟩))
    exact List.mem_filter.mpr ⟨List.mem_finRange i, decide_eq_true hij⟩
  · obtain ⟨v, rfl, hv⟩ := hm
    have hjid : j ≠ ((s t).nodes i).primMon.id :=
      ((sound hp hpos (h.reachable t)).1 i hi).pmId.symm ▸ Ne.symm hij
    show Q ((((s t).nodes i).primMon.receiveMsg j v).vcm j)
    rw [vcm_receive v hjid, if_pos rfl]
    exact hv
  · refine h.kept_next (P := fun net => Q ((net.nodes i).primMon.vcm j)) hrecord
      fun l he hstep => ?_
    rw [vcm_step hp hpos (h.reachable t) hstep hi hij (ht₁ t (by omega)) fun heq =>
      hnot (heq ▸ he)]
    exact hrecord

/-- When a suspicion stays, soon all tokens that wait tell it. -/
theorem waitingSusp_settles (hi : i ∉ silent) (hj : j ∉ silent) (hij : i ≠ j)
    (hsusp : System.Settles s fun net => (net.nodes j).susp = true) :
    System.Settles s fun net => ∀ b ∈ waitingSusp j i net, b = true := by
  obtain ⟨t₀, ht₀⟩ := hsusp
  -- soon no other token of `j` is on its way
  obtain ⟨t₁, ht₁⟩ := Channels.settles_queue h (i := j) (c := .token) (Q := (· = .token true)) hi t₀
    fun t ht m hm => by
      rcases mem_sent h hm with ⟨-, rfl⟩ | ⟨hc, -⟩
      · exact congrArg Notice.token (ht₀ (t + 1) (by omega))
      · cases hc
  have hsettles : System.Settles s fun net =>
      Channels.upToLast (fun b : Bool => b = true) (waitingSusp j i net) = 0 := by
    refine System.Settles.of_measure (i := t₁) _ (fun t ht => ?_) fun t ht => ?_
    · refine h.kept_next (P := fun net => Channels.upToLast (fun b : Bool => b = true)
        (waitingSusp j i net) ≤ Channels.upToLast (fun b : Bool => b = true)
          (waitingSusp j i (s t))) le_rfl fun l he hstep => ?_
      rcases waitingSusp_step hstep with hsame | ⟨b, hhead⟩ | ⟨new, hnew, hqueued⟩
      · rw [hsame]
      · rw [hhead, Channels.upToLast_tail b]
        exact Nat.sub_le _ _
      · have htrue : ∀ b ∈ new, b = true := by
          intro b hb
          obtain ⟨c, hc⟩ := hqueued b hb
          have hgenuine := (sound hp hpos (h.reachable t)).2 j i c _ hc
          cases c with
          | record => exact hgenuine.elim
          | token => exact Notice.token.inj (ht₁ t ht _ hc)
        rw [hnew, Channels.upToLast_append htrue]
    · obtain ⟨t', ht', l, he, hhandles⟩ := handled_again h hp hpos hj hi (Ne.symm hij) t
      obtain ⟨b, hwaiting, -⟩ :=
        waitingSusp_handled hp hpos (h.reachable t') (h.step t' l he) hi hhandles
      have hfall := Channels.upToLast_tail (Q := fun b : Bool => b = true)
        (l := waitingSusp j i (s (t' + 1))) b
      rw [← hwaiting] at hfall
      exact ⟨t', ht', by omega⟩
  exact hsettles.mono fun net hnone => Channels.upToLast_eq_zero.mp hnone

/-! ### While nobody has stopped the service -/

section Calm

variable (hcalm : ∀ t i, i ∉ silent → ((s t).nodes i).primMon.noViewChange = true)

include hcalm

/-- The silence of the primary is noticed. -/
theorem silence_noticed (hi : i ∉ silent) (hj : j ∉ silent) (hij : i ≠ j) :
    System.Settles s fun net => (net.nodes i).susp = true := by
  have hmany : ∀ d : Nat, ∃ t, Missed p d i (s t) := by
    intro d
    induction d with
    | zero =>
      obtain ⟨t, -, l, he, hhandles⟩ := handled_again h hp hpos hj hi (Ne.symm hij) 0
      obtain ⟨pendReqs, b, htold, -⟩ :=
        told_of_handles hp hpos (h.reachable t) (h.step t l he) hi hhandles
      exact ⟨t + 1, htold.prim, ((sound hp hpos (h.reachable (t + 1))).1 i hi).counting htold.prim⟩
    | succ d ih =>
      obtain ⟨t, hmissed⟩ := ih
      obtain ⟨t', ht', l, he, hhandles⟩ := handled_again h hp hpos hj hi (Ne.symm hij) t
      have hkept : Missed p d i (s t') :=
        h.kept_of_le (P := Missed p d i)
          (fun t l hstep => missed_step hp hpos (h.reachable t) hstep) ht' hmissed
      obtain ⟨pendReqs, b, htold, -⟩ :=
        told_of_handles hp hpos (h.reachable t') (h.step t' l he) hi hhandles
      refine ⟨t' + 1, htold.prim, ?_⟩
      rw [htold.beat, if_pos hkept.1]
      have hbeat := hkept.2
      push_cast
      omega
  -- one more token, and the count is over the threshold
  obtain ⟨t, hmissed⟩ := hmany (BEAT_THRESHOLD nodes).toNat
  obtain ⟨t', ht', l, he, hhandles⟩ := handled_again h hp hpos hj hi (Ne.symm hij) t
  have hkept : Missed p (BEAT_THRESHOLD nodes).toNat i (s t') :=
    h.kept_of_le (P := Missed p (BEAT_THRESHOLD nodes).toNat i)
      (fun t l hstep => missed_step hp hpos (h.reachable t) hstep) ht' hmissed
  obtain ⟨pendReqs, b, htold, -⟩ :=
    told_of_handles hp hpos (h.reachable t') (h.step t' l he) hi hhandles
  have hsound := (sound hp hpos (h.reachable t')).1 i hi
  have hsound' := (sound hp hpos (h.reachable (t' + 1))).1 i hi
  have hlong : BEAT_THRESHOLD ((s t').nodes i).failDet.module.nodes ≤
      ((s t').nodes i).failDet.module.beat p + 1 := by
    rw [hsound.fdNodes]
    have hbeat := hkept.2
    omega
  have hsusp : ((s (t' + 1)).nodes i).susp = true := by
    have hown := htold.silent (hcalm t' i hi) hkept.1 hlong
    rw [hsound.fdId] at hown
    rw [susp, FailureDetectorThread.primSusp, hsound'.fdId]
    exact hown
  refine System.Settles.of_kept (i := 0) (fun t _ hkept => ?_) ⟨t' + 1, Nat.zero_le _, hsusp⟩
  exact h.kept_next (P := fun net => (net.nodes i).susp = true) hkept
    fun l _ hstep => susp_mono hp hpos (h.reachable t) hstep i hkept

/-- A suspicion that stays is recorded by all others. -/
theorem primSusp_settles (hi : i ∉ silent) (hj : j ∉ silent) (hij : i ≠ j)
    (hsusp : System.Settles s fun net => (net.nodes j).susp = true) :
    System.Settles s fun net => (net.nodes i).failDet.module.primSusp j = true := by
  obtain ⟨t₀, ht₀⟩ := waitingSusp_settles h hp hpos hi hj hij hsusp
  obtain ⟨t, ht, l, he, hhandles⟩ := handled_again h hp hpos hj hi (Ne.symm hij) t₀
  obtain ⟨b, hwaiting, hprimSusp⟩ :=
    waitingSusp_handled hp hpos (h.reachable t) (h.step t l he) hi hhandles
  have htrue : b = true := ht₀ t ht b (hwaiting ▸ List.mem_cons_self)
  have hrecorded : ((s (t + 1)).nodes i).failDet.module.primSusp j = true :=
    (hprimSusp (hcalm t i hi)).trans htrue
  refine System.Settles.of_kept (i := 0) (fun t _ hkept => ?_) ⟨t + 1, Nat.zero_le _, hrecorded⟩
  exact h.kept_next (P := fun net => (net.nodes i).failDet.module.primSusp j = true) hkept
    fun l _ hstep => primSusp_mono hp hpos (h.reachable t) hstep i j hkept

/-- So everybody needs a change in the end. -/
theorem needChange_settles (hcard : silent.card ≤ f) (hi : i ∉ silent) :
    System.Settles s fun net => (net.nodes i).primMon.own.needChange = true := by
  have hsusp : ∀ k, k ∉ silent → System.Settles s fun net => (net.nodes k).susp = true := by
    intro k hk
    obtain ⟨j, hj, hkj⟩ := exists_other hp hpos hcard k
    exact silence_noticed h hp hpos hcalm hk hj hkj
  have hrecorded : System.Settles s fun net => ∀ k, k ∉ silent →
      (net.nodes i).failDet.module.primSusp k = true := by
    refine System.Settles.all fun k => ?_
    by_cases hk : k ∈ silent
    · exact .of_forall fun t hnot => absurd hk hnot
    · by_cases hik : i = k
      · subst hik
        obtain ⟨t₀, ht₀⟩ := hsusp i hi
        refine ⟨t₀, fun t ht _ => ?_⟩
        have hown : ((s t).nodes i).susp = true := ht₀ t ht
        rw [susp, FailureDetectorThread.primSusp,
          ((sound hp hpos (h.reachable t)).1 i hi).fdId] at hown
        exact hown
      · exact (primSusp_settles h hp hpos hcalm hi hk hik (hsusp k hk)).mono
          fun net hrec _ => hrec
  obtain ⟨t₀, ht₀⟩ := hrecorded
  obtain ⟨t, ht, order, horder, he⟩ := monitors h hi t₀
  have hsound := (sound hp hpos (h.reachable t)).1 i hi
  have hsuspected : ((s t).nodes i).suspected p = true := by
    rw [suspected_count hsound]
    have hmany := card_correct hcard
    have hle : (Finset.univ.filter fun k : Fin n => k ∉ silent).card ≤
        (Finset.univ.filter fun k => ((s t).nodes i).failDet.module.primSusp k = true).card :=
      Finset.card_le_card (Finset.monotone_filter_right _ fun k _ => ht₀ t ht k)
    omega
  refine System.Settles.of_kept (i := 0) (fun t _ hkept => ?_) ⟨t + 1, Nat.zero_le _, ?_⟩
  · exact h.kept_next (P := fun net => (net.nodes i).primMon.own.needChange = true) hkept
      fun l _ hstep => needChange_mono hp hpos (h.reachable t) hstep i hkept
  · rw [Channels.act_next h he]
    exact (monitored hpos horder hsound).needChange.trans hsuspected

end Calm

/-- Records of the processors in `D` that need a change arrive, and are named. -/
theorem named_settles {D : Finset (Fin n)} {t₀ : Nat} (hi : i ∉ silent)
    (hD : ∀ k ∈ D, k ∉ silent ∧
      ∀ t, t₀ ≤ t → ((s t).nodes k).primMon.own.needChange = true) :
    ∃ t, t₀ ≤ t ∧ (((s t).nodes i).primMon.own.vStatus = .vChange ∨
      D.card ≤ ((s t).nodes i).primMon.own.needChgSet.card) := by
  have hrecorded : System.Settles s fun net => ∀ k, k ∈ D → k ≠ i →
      ((net.nodes i).primMon.vcm k).needChange = true := by
    refine System.Settles.all fun k => ?_
    by_cases hk : k ∈ D ∧ k ≠ i
    · exact (record_settles h hp hpos (Q := fun v => v.needChange = true) hi (hD k hk.1).1
        (Ne.symm hk.2) (hD k hk.1).2).mono fun net hrec _ _ => hrec
    · exact .of_forall fun t hkD hki => absurd ⟨hkD, hki⟩ hk
  obtain ⟨t₁, ht₁⟩ := hrecorded.and (prim_settles h hp hpos hi)
  obtain ⟨t, ht, order, horder, he⟩ := monitors h hi (max t₀ t₁)
  obtain ⟨hrec, hview⟩ := ht₁ t (by omega)
  have hsound := (sound hp hpos (h.reachable t)).1 i hi
  by_cases hstatus : ((s t).nodes i).primMon.own.vStatus = .vChange
  · exact ⟨t, by omega, Or.inl hstatus⟩
  · refine ⟨t + 1, by omega, Or.inr ?_⟩
    rw [Channels.act_next h he]
    refine card_named hpos horder hsound hview hstatus hrec fun hself => ?_
    exact needChange_suspected hp hpos (h.reachable t) hi ((hD i hself).2 t (by omega))

/-- Some processor names enough in the end. -/
theorem enough_named (hcard : silent.card ≤ f) :
    ∃ t a, a ∉ silent ∧ (n : Int) - 2 * f ≤ ((s t).nodes a).primMon.own.needChgSet.card := by
  by_contra hnever
  have hok : ∀ t i, i ∉ silent → ((s t).nodes i).primMon.own.vStatus = .ok := by
    intro t i hi
    by_contra hstopped
    obtain ⟨a, ha, henough⟩ := stopped_cause hp hpos (h.reachable t) hi hstopped
    exact hnever ⟨t, a, ha, henough⟩
  have hcalm : ∀ t i, i ∉ silent → ((s t).nodes i).primMon.noViewChange = true :=
    fun t i hi => decide_eq_true (hok t i hi)
  obtain ⟨t₀, ht₀⟩ : System.Settles s fun net => ∀ k, k ∉ silent →
      (net.nodes k).primMon.own.needChange = true := by
    refine System.Settles.all fun k => ?_
    by_cases hk : k ∈ silent
    · exact .of_forall fun t hnot => absurd hk hnot
    · exact (needChange_settles h hp hpos hcalm hcard hk).mono fun net hneed _ => hneed
  obtain ⟨i, hi, -⟩ := exists_other hp hpos hcard p
  obtain ⟨t, -, hstatus | hmany⟩ := named_settles h hp hpos
    (D := Finset.univ.filter (· ∉ silent)) hi fun k hk =>
      have hk := (Finset.mem_filter.mp hk).2
      ⟨hk, fun t ht => ht₀ t ht k hk⟩
  · rw [hok t i hi] at hstatus
    cases hstatus
  · have hcorrect := card_correct hcard
    exact hnever ⟨t, i, hi, by omega⟩

/-! ### When enough processors are named -/

theorem needChgSet_of_le (i : Fin n) {t t' : Nat} (ht : t ≤ t') :
    ((s t).nodes i).primMon.own.needChgSet ⊆ ((s t').nodes i).primMon.own.needChgSet :=
  h.kept_of_le (P := fun net =>
    ((s t).nodes i).primMon.own.needChgSet ⊆ (net.nodes i).primMon.own.needChgSet)
    (fun t _ hstep hsub => hsub.trans (needChgSet_mono hp hpos (h.reachable t) hstep i)) ht
    subset_rfl

/-- The first processor that ever names anyone names enough in the end. -/
theorem first_naming (hcard : silent.card ≤ f) : ∃ a, a ∉ silent ∧
    (∃ t₀, ∀ t, t₀ ≤ t → (n : Int) - 2 * f ≤ ((s t).nodes a).primMon.own.needChgSet.card) ∧
    ∀ k < a, k ∉ silent → ∀ t, ((s t).nodes k).primMon.own.needChgSet = ∅ := by
  obtain ⟨t₁, b, hb, henough⟩ := enough_named h hp hpos hcard
  obtain ⟨a, ⟨ha, t₂, hne⟩, hleast⟩ := WellFounded.has_min (@wellFounded_lt (Fin n) _ _)
    {k | k ∉ silent ∧ ∃ t, ((s t).nodes k).primMon.own.needChgSet ≠ ∅}
    ⟨b, hb, t₁, fun hempty => by
      rw [hempty, Finset.card_empty] at henough
      omega⟩
  have hbefore : ∀ k < a, k ∉ silent → ∀ t, ((s t).nodes k).primMon.own.needChgSet = ∅ :=
    fun k hka hk t => by_contra fun hnamed => hleast k ⟨hk, t, hnamed⟩ hka
  refine ⟨a, ha, ?_, hbefore⟩
  -- whom the one above names needs a change for good
  have hreach := h.reachable t₁
  have hsound := (sound hp hpos hreach).1 b hb
  let D := Finset.univ.filter fun k => (((s t₁).nodes b).primMon.vcm k).needChange = true
  have hmany : (n : Int) - 2 * f ≤ D.card := by
    have hle : ((s t₁).nodes b).primMon.own.needChgSet.card ≤ D.card :=
      (Finset.card_le_card (needChgSet_subset hp hpos hreach hb)).trans Finset.card_image_le
    omega
  have hD : ∀ k ∈ D, k ∉ silent ∧
      ∀ t, max t₁ t₂ ≤ t → ((s t).nodes k).primMon.own.needChange = true := by
    intro k hk
    have hk := (Finset.mem_filter.mp hk).2
    refine ⟨fun hsilent => ?_, fun t ht => ?_⟩
    · rw [(hsound.unnamed k hsilent).1] at hk
      cases hk
    · have hthen : ((s t₁).nodes k).primMon.own.needChange = true := by
        by_cases hbk : b = k
        · subst hbk
          rw [own, hsound.pmId]
          exact hk
        · exact (vcm_le hp hpos hreach hb hbk).1 hk
      exact h.kept_of_le (P := fun net => (net.nodes k).primMon.own.needChange = true)
        (fun t _ hstep hkept => needChange_mono hp hpos (h.reachable t) hstep k hkept)
        (by omega : t₁ ≤ t) hthen
  obtain ⟨t, ht, hnamed⟩ := named_settles h hp hpos ha hD
  have hnonempty : ((s t).nodes a).primMon.own.needChgSet ≠ ∅ := by
    intro hempty
    have hsub := needChgSet_of_le h hp hpos a (by omega : t₂ ≤ t)
    rw [hempty] at hsub
    exact hne (Finset.subset_empty.mp hsub)
  refine ⟨t, fun t' ht' => ?_⟩
  have hle := Finset.card_le_card (needChgSet_of_le h hp hpos a ht')
  cases hnamed with
  | inr hnamed => omega
  | inl hstatus =>
    rcases changing_cause hp hpos (h.reachable t) ha hstatus with hnone | hown | ⟨k, hka, hk, hkne⟩
    · exact absurd hnone hnonempty
    · omega
    · exact absurd (hbefore k hka hk t) hkne

/-- In the end everybody goes by this processor. -/
theorem decisive_settles (hcard : silent.card ≤ f) (hi : i ∉ silent) :
    System.Settles s fun net => (net.nodes i).primMon.Decisive := by
  obtain ⟨a, ha, ⟨t₀, henough⟩, hbefore⟩ := first_naming h hp hpos hcard
  have hrecorded : System.Settles s fun net =>
      (n : Int) - 2 * f ≤ ((net.nodes i).primMon.vcm a).needChgSet.card := by
    by_cases hia : i = a
    · subst hia
      refine ⟨t₀, fun t ht => ?_⟩
      have hown := henough t ht
      rw [own, ((sound hp hpos (h.reachable t)).1 i hi).pmId] at hown
      exact hown
    · exact record_settles h hp hpos (Q := fun v => (n : Int) - 2 * f ≤ v.needChgSet.card) hi ha
        hia henough
  obtain ⟨t₁, ht₁⟩ := hrecorded
  refine ⟨t₁, fun t ht => ⟨a, ?_, fun k hka => ?_⟩⟩
  · have hsound := (sound hp hpos (h.reachable t)).1 i hi
    rw [Names, hsound.pmByzantine]
    exact ht₁ t ht
  · have hsound := (sound hp hpos (h.reachable t)).1 i hi
    by_cases hk : k ∈ silent
    · exact (hsound.unnamed k hk).2
    · by_cases hik : i = k
      · subst hik
        have hown := hbefore i hka hi t
        rw [own, hsound.pmId] at hown
        exact hown
      · have hle := (vcm_le hp hpos (h.reachable t) hi hik).2
        rw [hbefore k hka hk t] at hle
        exact Finset.subset_empty.mp hle

/-- Nobody has the status `OK` any more. -/
theorem status_settles (hcard : silent.card ≤ f) (hi : i ∉ silent) :
    System.Settles s fun net => (net.nodes i).primMon.own.vStatus ≠ .ok := by
  obtain ⟨t₀, ht₀⟩ := decisive_settles h hp hpos hcard hi
  have hafter : ∀ t, t₀ ≤ t → ∀ order, Ascends f order → e t = some (.act i (.monitor order)) →
      ((s (t + 1)).nodes i).primMon.own.vStatus ≠ .ok := by
    intro t ht order horder he
    have hdecisive : ((s (t + 1)).nodes i).primMon.Decisive := ht₀ (t + 1) (by omega)
    have hmon := monitored hpos horder ((sound hp hpos (h.reachable t)).1 i hi)
    rw [Channels.act_next h he] at hdecisive ⊢
    show (((s t).nodes i).monitor p order).primMon.own.vStatus ≠ .ok
    by_cases hchange : (((s t).nodes i).primMon.started
        (envIn p (((s t).nodes i).suspected p))).own.vStatus = .vChange
    · rw [hmon.stays hchange]
      exact nofun
    · rcases hmon.decisive hchange hdecisive with ⟨hstatus, -⟩ | ⟨hstatus, -⟩
      · rw [hstatus]
        exact nofun
      · rw [hstatus]
        exact nofun
  refine System.Settles.of_kept (i := t₀) (fun t ht hstopped => ?_) ?_
  · refine h.kept_next (P := fun net => (net.nodes i).primMon.own.vStatus ≠ .ok) hstopped
      fun l he hstep => ?_
    rcases own_step hstep i with ⟨order, -, horder, rfl, -⟩ | hsame
    · exact hafter t ht order horder he
    · rw [hsame]
      exact hstopped
  · obtain ⟨t, ht, order, horder, he⟩ := monitors h hi t₀
    exact ⟨t + 1, by omega, hafter t ht order horder he⟩

/-- Everybody has recorded that. -/
theorem stopped_settles (hcard : silent.card ≤ f) (hi : i ∉ silent) :
    System.Settles s fun net =>
      ∀ k, k ∉ silent → ((net.nodes i).primMon.vcm k).vStatus ≠ .ok := by
  refine System.Settles.all fun k => ?_
  by_cases hk : k ∈ silent
  · exact .of_forall fun t hnot => absurd hk hnot
  · obtain ⟨t₀, ht₀⟩ := status_settles h hp hpos hcard hk
    by_cases hik : i = k
    · subst hik
      refine ⟨t₀, fun t ht _ => ?_⟩
      have hown : ((s t).nodes i).primMon.own.vStatus ≠ .ok := ht₀ t ht
      rw [own, ((sound hp hpos (h.reachable t)).1 i hi).pmId] at hown
      exact hown
    · exact (record_settles h hp hpos (Q := fun v => v.vStatus ≠ .ok) hi hk hik ht₀).mono
        fun net hstopped _ => hstopped

omit h hp hpos in
/-- Then an iteration asks for a view change. -/
theorem asks_of_stopped {w : Watcher n} {order : SetOrder (Fin n)} (hpos : 2 * f < n)
    (hcard : silent.card ≤ f) (horder : Ascends f order) (hsound : Sound p f nodes silent i w)
    (hi : i ∉ silent) (hview : w.primMon.own.prim = p.val)
    (hstopped : ∀ k, k ∉ silent → (w.primMon.vcm k).vStatus ≠ .ok)
    (hdecisive : (w.monitor p order).primMon.Decisive) : (w.monitor p order).asked = true := by
  have hmon := monitored hpos horder hsound
  have hown := started_inView hsound (w.suspected p)
  have hid : (w.primMon.started (envIn p (w.suspected p))).id = i :=
    (started_config _ _).1.trans hsound.pmId
  have hself : w.primMon.own.vStatus ≠ .ok := by
    rw [own, hsound.pmId]
    exact hstopped i hi
  have hchange : (w.monitor p order).primMon.own.vStatus = .vChange := by
    by_cases hbefore : w.primMon.own.vStatus = .vChange
    · exact hmon.stays (by rw [hown]; exact hbefore)
    · -- too many have stopped the service to go on
      have hmany : ¬ (w.primMon.started (envIn p (w.suspected p))).Few := by
        have hcorrect := card_correct hcard
        have hcount := (List.nodup_finRange n).card_eq_countP
          (P := fun k =>
            ((w.primMon.started (envIn p (w.suspected p))).vcm k).vStatus = .noService ∨
            ((w.primMon.started (envIn p (w.suspected p))).vcm k).vStatus = .vChange)
        have hle : (Finset.univ.filter fun k : Fin n => k ∉ silent).card ≤
            (w.primMon.started (envIn p (w.suspected p))).getNumberOfProcessorsInNoService := by
          rw [getNumberOfProcessorsInNoService, ← hcount]
          refine Finset.card_le_card fun k hk => ?_
          have hk := (Finset.mem_filter.mp hk).2
          refine Finset.mem_filter.mpr ⟨List.mem_toFinset.mpr (List.mem_finRange k), ?_⟩
          have hne : ((w.primMon.started (envIn p (w.suspected p))).vcm k).vStatus ≠ .ok := by
            by_cases hki : k = i
            · subst hki
              rw [own, hid] at hown
              rw [hown]
              exact hself
            · have hcur : w.primMon.getCurrentView (envIn p (w.suspected p)) w.primMon.id =
                  p.val := by
                rw [PrimaryMonitoringModule.getCurrentView, hsound.pmStab]
                rfl
              rw [started_vcm _ (hsound.pmId.symm ▸ hki), hcur, if_pos hview]
              exact hstopped k hk
          cases hv : ((w.primMon.started (envIn p (w.suspected p))).vcm k).vStatus with
          | ok => exact absurd hv hne
          | noService => exact Or.inl rfl
          | vChange => exact Or.inr rfl
        have hbyz := (started_config w.primMon (envIn p (w.suspected p))).2.1.trans
          hsound.pmByzantine
        rw [Few, hbyz]
        omega
      have hcases := hmon.decisive (by rw [hown]; exact hbefore) hdecisive
      rw [hown] at hcases
      rcases hcases with ⟨-, hfew | hok⟩ | ⟨hstatus, -⟩
      · exact absurd hfew hmany
      · exact absurd hok hself
      · exact hstatus
  show (w.asked || (w.primMon.run (envIn p (w.suspected p)) order).2) = true
  rw [hmon.asks.mpr hchange, Bool.or_true]

/-- So does every processor in the end. -/
theorem asked_settles (hcard : silent.card ≤ f) (hi : i ∉ silent) :
    System.Settles s fun net => (net.nodes i).asked = true := by
  obtain ⟨t₀, ht₀⟩ := ((stopped_settles h hp hpos hcard hi).and
    (decisive_settles h hp hpos hcard hi)).and (prim_settles h hp hpos hi)
  obtain ⟨t, ht, order, horder, he⟩ := monitors h hi t₀
  obtain ⟨⟨hstopped, -⟩, hview⟩ := ht₀ t ht
  have hdecisive := (ht₀ (t + 1) (by omega)).1.2
  have hasked : ((s (t + 1)).nodes i).asked = true := by
    rw [Channels.act_next h he] at hdecisive ⊢
    exact asks_of_stopped hpos hcard horder ((sound hp hpos (h.reachable t)).1 i hi) hi hview
      hstopped hdecisive
  refine System.Settles.of_kept (i := 0) (fun t _ hkept => ?_) ⟨t + 1, Nat.zero_le _, hasked⟩
  refine h.kept_next (P := fun net => (net.nodes i).asked = true) hkept fun l _ hstep => ?_
  refine Channels.Step.of_local (i := i) (R := fun w w' => w.asked = true → w'.asked = true)
    hstep (fun w hw => hw) (fun a _ _ hw => ?_) (fun k c m _ _ hw => ?_) hkept
  · cases a with
    | watch pendReqs => exact hw
    | monitor order =>
      show (((s t).nodes i).asked || _) = true
      rw [hw, Bool.true_or]
  · cases m with
    | token b => exact hw
    | record v => exact hw

end Fair

/-! ## The vote -/

/-- Six new processors, of which the first is silent. -/
def sixWatchers : Channels (Fin 6) (Watcher 6) Channel Notice where
  nodes i := init i 1 6
  queue _ _ _ := []

theorem exists_fairRun_six :
    ∃ s e, (system 0 1 6 {0}).FairRun (Channels.duty kind) s e ∧ s 0 = sixWatchers := by
  have hinit : (system 0 1 6 {0}).init sixWatchers := ⟨fun _ _ => rfl, fun _ _ _ => rfl⟩
  obtain ⟨s, e, hrun, hfirst, -⟩ :=
    @System.FairRun.exists_of_init _ _ _ _ (Channels.duty kind) _ _ hinit
  exact ⟨s, e, hrun, hfirst⟩

/-- In every reachable state of the view of a silent primary, whoever asks for a view change or
    has stopped the service does so with `n - 2f` processors that are not silent and suspect the
    primary themselves. -/
theorem stopped_sound (hp : p ∈ silent) (hpos : 2 * f < n)
    (h : (system p f nodes silent).Reachable net) (hi : i ∉ silent)
    (hstopped : (net.nodes i).asked = true ∨ (net.nodes i).primMon.noViewChange = false) :
    (n : Int) - 2 * f ≤
      (Finset.univ.filter fun k => k ∉ silent ∧ (net.nodes k).susp = true).card := by
  have hstatus : (net.nodes i).primMon.own.vStatus ≠ .ok := by
    rcases hstopped with hasked | hno
    · rw [((sound hp hpos h).1 i hi).asked.mp hasked]
      exact nofun
    · exact of_decide_eq_false hno
  obtain ⟨a, ha, henough⟩ := stopped_cause hp hpos h hi hstatus
  -- one of the named processors needs a change itself
  have hnonempty : (net.nodes a).primMon.own.needChgSet.Nonempty := by
    rw [← Finset.card_pos]
    omega
  obtain ⟨v, hv⟩ := hnonempty
  obtain ⟨k, hk, -⟩ := Finset.mem_image.mp (needChgSet_subset hp hpos h ha hv)
  have hk := (Finset.mem_filter.mp hk).2
  have hsound := (sound hp hpos h).1 a ha
  have hcorrect : k ∉ silent := by
    intro hsilent
    rw [(hsound.unnamed k hsilent).1] at hk
    cases hk
  refine suspecting_of_needChange hp hpos h hcorrect ?_
  by_cases hak : a = k
  · subst hak
    rw [own, hsound.pmId]
    exact hk
  · exact (vcm_le hp hpos h ha hak).1 hk

/-- In a fair run of six processors there comes a state in which the second one has asked. -/
theorem stopped_sound_six : ∃ net, (system 0 1 6 {0}).Reachable net ∧
    (net.nodes 1).asked = true ∧
    4 ≤ (Finset.univ.filter fun k : Fin 6 =>
      k ∉ ({0} : Finset (Fin 6)) ∧ (net.nodes k).susp = true).card := by
  obtain ⟨s, e, hrun, -⟩ := exists_fairRun_six
  obtain ⟨t, ht⟩ := asked_settles hrun (by decide) (by decide) (by decide) (i := 1) (by decide)
  have hasked : ((s t).nodes 1).asked = true := ht t (Nat.le_refl t)
  have hmany := stopped_sound (by decide) (by decide) (hrun.reachable t) (i := 1) (by decide)
    (Or.inl hasked)
  exact ⟨s t, hrun.reachable t, hasked, by omega⟩

/-- In every fair run of the view of a silent primary, with at most `f` silent processors, all
    others ask for a view change in the end. -/
theorem voted_out {s : Nat → Channels (Fin n) (Watcher n) Channel Notice}
    {e : Nat → Option (Channels.Label (Fin n) (Action n) Channel)}
    (h : (system p f nodes silent).FairRun (Channels.duty kind) s e) (hp : p ∈ silent)
    (hcard : silent.card ≤ f) (hpos : 2 * f < n) :
    System.Settles s fun net => ∀ i, i ∉ silent → (net.nodes i).asked = true := by
  refine System.Settles.all fun i => ?_
  by_cases hi : i ∈ silent
  · exact .of_forall fun t hnot => absurd hi hnot
  · exact (asked_settles h hp hpos hcard hi).mono fun net hasked _ => hasked

/-- There is a fair run of six processors, and the other five vote the first one out. -/
theorem voted_out_six : ∃ s e, (system 0 1 6 {0}).FairRun (Channels.duty kind) s e ∧
    s 0 = sixWatchers ∧
    System.Settles s fun net => ∀ i : Fin 6, i ∉ ({0} : Finset (Fin 6)) →
      (net.nodes i).asked = true := by
  obtain ⟨s, e, hrun, hfirst⟩ := exists_fairRun_six
  exact ⟨s, e, hrun, hfirst, voted_out hrun (by decide) (by decide) (by decide)⟩

end BFTList.Watcher
