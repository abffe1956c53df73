import BFTList.Spec.ViewPairs

/-!
# Recovery of the view pairs

The View Establishment module is meant to recover from any state. Started with any phases, view
pairs, echoes, flags and witnesses, an entry of another processor is repaired by its next valid
message, and the own one by the next iteration.

The own entry is stale in phase 0 or 1 only. In any other phase the module neither resets nor
acts, and all others reject what it sends, until the Replication module asks for a flush.

## Key results

- `allLegit_after`: what is repaired stays so
- `stuck_after`: a processor in no valid phase
- `recovers_iff`: which states are recovered from
-/

namespace BFTList.ViewEstablishmentModule

variable {n : Nat} {m m' : ViewEstablishmentModule n} {id : Fin n} {e : Action n}
  {es : List (Action n)}

/-! ## Steps from any state -/

/-- The module after a step. -/
def next (m : ViewEstablishmentModule n) : Action n → ViewEstablishmentModule n
  | .run needFlush => m.run needFlush
  | .sendOwn => m.sendOwn
  | .receiveMsg j own about => m.receiveMsg j own about
  | .viewChange => m.viewChange

/-- The module after steps. -/
def after (m : ViewEstablishmentModule n) (es : List (Action n)) : ViewEstablishmentModule n :=
  es.foldl next m

/-- Messages come from others. -/
def Foreign (id : Fin n) : Action n → Prop
  | .receiveMsg j _ _ => j ≠ id
  | _ => True

/-- A valid message of processor `k`. -/
def ReportsValid (k : Fin n) : Action n → Prop
  | .receiveMsg j own _ => j = k ∧ valid n own = true
  | _ => False

/-- An iteration in which the Replication module asks for a flush. -/
def Flushes : Action n → Prop
  | .run needFlush => needFlush = true
  | _ => False

instance (id : Fin n) (e : Action n) : Decidable (Foreign id e) :=
  match e with
  | .receiveMsg _ _ _ => inferInstanceAs (Decidable (_ ≠ _))
  | .run _ => .isTrue trivial
  | .sendOwn => .isTrue trivial
  | .viewChange => .isTrue trivial

instance (k : Fin n) (e : Action n) : Decidable (ReportsValid k e) :=
  match e with
  | .receiveMsg _ _ _ => inferInstanceAs (Decidable (_ ∧ _))
  | .run _ => .isFalse fun h => h
  | .sendOwn => .isFalse fun h => h
  | .viewChange => .isFalse fun h => h

theorem after_append (m : ViewEstablishmentModule n) (es es' : List (Action n)) :
    m.after (es ++ es') = (m.after es).after es' := List.foldl_append

/-- The step of the transition system. -/
theorem step_next (h : Foreign m.id e) (f : Nat) : (process id f).step m e (m.next e) := by
  cases e with
  | run needFlush => exact rfl
  | sendOwn => exact rfl
  | receiveMsg j own about => exact ⟨h, rfl⟩
  | viewChange => exact rfl

/-! ## One iteration -/

/-- The own processor is in a valid phase. -/
def Phased (m : ViewEstablishmentModule n) : Prop := m.phs m.id = 0 ∨ m.phs m.id = 1

instance (m : ViewEstablishmentModule n) : Decidable m.Phased :=
  inferInstanceAs (Decidable (_ ∨ _))

/-- Only the own entry is changed, and the own phase stays valid. -/
structure OwnChange (m m' : ViewEstablishmentModule n) : Prop where
  id : m'.id = m.id
  phs : ∀ k, k ≠ m.id → m'.phs k = m.phs k
  views : ∀ k, k ≠ m.id → m'.views k = m.views k
  phased : m.Phased → m'.Phased

theorem OwnChange.refl (m : ViewEstablishmentModule n) : OwnChange m m :=
  ⟨rfl, fun _ _ => rfl, fun _ _ => rfl, fun h => h⟩

theorem OwnChange.trans {m'' : ViewEstablishmentModule n} (h : OwnChange m m')
    (h' : OwnChange m' m'') : OwnChange m m'' where
  id := h'.id.trans h.id
  phs := fun k hk => (h'.phs k (h.id ▸ hk)).trans (h.phs k hk)
  views := fun k hk => (h'.views k (h.id ▸ hk)).trans (h.views k hk)
  phased := fun hm => h'.phased (h.phased hm)

theorem ownChange_setOwnViews (m : ViewEstablishmentModule n) (vpair : VPair) :
    OwnChange m (m.setOwnViews vpair) where
  id := rfl
  phs := fun _ _ => rfl
  views := fun _ hk => Function.update_of_ne hk _ _
  phased := fun h => h

theorem ownChange_nextPhs (m : ViewEstablishmentModule n) : OwnChange m m.nextPhs where
  id := rfl
  phs := fun _ hk => Function.update_of_ne hk _ _
  views := fun _ _ => rfl
  phased := by
    intro _
    show m.nextPhs.phs m.id = 0 ∨ m.nextPhs.phs m.id = 1
    rw [nextPhs_phs, Function.update_self]
    split
    · exact Or.inl rfl
    · exact Or.inr rfl

theorem ownChange_resetVChange (m : ViewEstablishmentModule n) : OwnChange m m.resetVChange :=
  ⟨rfl, fun _ _ => rfl, fun _ _ => rfl, fun h => h⟩

/-- The automaton resets everything, or works on the own entry. -/
theorem automation_cases (m : ViewEstablishmentModule n) :
    m.automation = m.resetAll ∨ OwnChange m m.automation := by
  unfold automation
  split
  · unfold automationPhaseZero
    split
    · exact Or.inr ((ownChange_setOwnViews m _).trans (ownChange_nextPhs _))
    · split
      · split
        · exact Or.inr ((ownChange_setOwnViews m _).trans (ownChange_nextPhs _))
        · split
          · exact Or.inr (ownChange_nextPhs m)
          · exact Or.inr (.refl m)
      · split
        · exact Or.inr (.refl m)
        · exact Or.inl rfl
  · split
    · unfold automationPhaseOne
      split
      · exact Or.inr ((ownChange_setOwnViews m _).trans (ownChange_resetVChange _))
      · split
        · exact Or.inr (((ownChange_setOwnViews m _).trans (ownChange_resetVChange _)).trans
            (ownChange_nextPhs _))
        · split
          · exact Or.inr (ownChange_resetVChange m)
          · exact Or.inl rfl
    · exact Or.inr (.refl m)

/-! ## The own id -/

theorem automation_id (m : ViewEstablishmentModule n) : m.automation.id = m.id := by
  rcases automation_cases m with hreset | hown
  · rw [hreset]
    rfl
  · exact hown.id

theorem noticeWitnesses_id (m : ViewEstablishmentModule n) (needFlush : Bool) :
    (m.noticeWitnesses needFlush).id = m.id := by
  unfold noticeWitnesses
  split
  · rfl
  · rfl

theorem next_id (m : ViewEstablishmentModule n) (e : Action n) : (m.next e).id = m.id := by
  cases e with
  | run needFlush =>
    show (m.run needFlush).id = m.id
    simp only [run]
    split
    · rw [automation_id, noticeWitnesses_id]
    · exact noticeWitnesses_id m needFlush
  | sendOwn => rfl
  | receiveMsg j own about =>
    show (m.receiveMsg j own about).id = m.id
    unfold receiveMsg
    split
    · rfl
    · rfl
  | viewChange => rfl

/-! ## What is repaired -/

/-- The automaton keeps a legit table. -/
theorem allLegit_automation (hn : 2 ≤ n) (h : m.AllLegit) : m.automation.AllLegit := by
  unfold automation
  split
  · rename_i hphs
    exact allLegit_automationPhaseZero hn h hphs
  · split
    · rename_i hphs
      exact allLegit_automationPhaseOne (by omega) h hphs
    · exact h

/-- An iteration that starts with a reset repairs the table. -/
theorem allLegit_run_of_reset (hn : 2 ≤ n) {needFlush : Bool} (h : m.needReset needFlush = true) :
    (m.run needFlush).AllLegit := by
  have hnotice : (m.noticeWitnesses needFlush).AllLegit := by
    unfold noticeWitnesses
    rw [if_pos h]
    exact allLegit_resetAll (by omega) m
  simp only [run]
  split
  · exact allLegit_automation hn hnotice
  · exact hnotice

/-- An iteration without a reset at its start notices witnesses only. -/
theorem ownChange_noticeWitnesses {needFlush : Bool} (h : m.needReset needFlush = false) :
    OwnChange m (m.noticeWitnesses needFlush) := by
  unfold noticeWitnesses
  rw [h, if_neg Bool.false_ne_true]
  exact ⟨rfl, fun _ _ => rfl, fun _ _ => rfl, fun h => h⟩

/-- An iteration repairs the whole table, or works on the own entry. -/
theorem run_cases (hn : 2 ≤ n) (m : ViewEstablishmentModule n) (needFlush : Bool) :
    (m.run needFlush).AllLegit ∨
      (m.needReset needFlush = false ∧ OwnChange m (m.run needFlush)) := by
  by_cases hreset : m.needReset needFlush = true
  · exact Or.inl (allLegit_run_of_reset hn hreset)
  · rw [Bool.not_eq_true] at hreset
    have hnotice := ownChange_noticeWitnesses hreset
    rw [run]
    split
    · rcases automation_cases (m.noticeWitnesses needFlush) with hall | hown
      · rw [hall]
        exact Or.inl (allLegit_resetAll (by omega) _)
      · exact Or.inr ⟨hreset, hnotice.trans hown⟩
    · exact Or.inr ⟨hreset, hnotice⟩

theorem AllLegit.phased (h : m.AllLegit) : m.Phased := (h m.id).imp And.left And.left

/-- An entry in a valid phase that is not stale is legit. -/
theorem legit_of_not_stale {k : Fin n} (hphase : m.phs k = 0 ∨ m.phs k = 1)
    (hstale : m.staleV k = false) : Legit n (m.phs k) (m.views k) := by
  rw [staleV, Bool.or_eq_false_iff] at hstale
  rcases hphase with hzero | hone
  · have hlegit := hstale.1
    rw [hzero, decide_eq_true rfl, Bool.true_and, Bool.not_eq_false'] at hlegit
    exact Or.inl ⟨hzero, hlegit⟩
  · have hlegit := hstale.2
    rw [hone, decide_eq_true rfl, Bool.true_and, Bool.not_eq_false'] at hlegit
    exact Or.inr ⟨hone, hlegit⟩

/-- A phase stays valid, and so does an entry that is repaired. -/
theorem next_keeps (hn : 2 ≤ n) (he : Foreign m.id e) :
    (m.Phased → (m.next e).Phased) ∧
      ∀ k, k ≠ m.id → Legit n (m.phs k) (m.views k) →
        Legit n ((m.next e).phs k) ((m.next e).views k) := by
  cases e with
  | run needFlush =>
    rcases run_cases hn m needFlush with hall | ⟨-, hown⟩
    · exact ⟨fun _ => hall.phased, fun k _ _ => hall k⟩
    · refine ⟨hown.phased, fun k hk hlegit => ?_⟩
      show Legit n ((m.run needFlush).phs k) ((m.run needFlush).views k)
      rw [hown.phs k hk, hown.views k hk]
      exact hlegit
  | sendOwn => exact ⟨fun h => h, fun _ _ h => h⟩
  | receiveMsg j own about =>
    show (m.Phased → (m.receiveMsg j own about).Phased) ∧ ∀ k, k ≠ m.id → _ →
      Legit n ((m.receiveMsg j own about).phs k) ((m.receiveMsg j own about).views k)
    unfold receiveMsg
    split
    · rename_i hvalid
      constructor
      · intro hphased
        show Function.update m.phs j own.phs m.id = 0 ∨ Function.update m.phs j own.phs m.id = 1
        rw [Function.update_of_ne (Ne.symm he)]
        exact hphased
      · intro k _ hlegit
        show Legit n (Function.update m.phs j own.phs k) (Function.update m.views j own.views k)
        by_cases hkj : k = j
        · subst hkj
          rw [Function.update_self, Function.update_self]
          exact (valid_iff own).mp hvalid
        · rw [Function.update_of_ne hkj, Function.update_of_ne hkj]
          exact hlegit
    · exact ⟨fun h => h, fun _ _ h => h⟩
  | viewChange => exact ⟨fun h => h, fun _ _ h => h⟩

/-- A valid message repairs the entry of its sender. -/
theorem legit_of_reportsValid {k : Fin n} (h : ReportsValid k e) :
    Legit n ((m.next e).phs k) ((m.next e).views k) := by
  cases e with
  | receiveMsg j own about =>
    obtain ⟨rfl, hvalid⟩ := h
    show Legit n ((m.receiveMsg j own about).phs j) ((m.receiveMsg j own about).views j)
    rw [receiveMsg, if_pos hvalid]
    show Legit n (Function.update m.phs j own.phs j) (Function.update m.views j own.views j)
    rw [Function.update_self, Function.update_self]
    exact (valid_iff own).mp hvalid
  | run needFlush => exact h.elim
  | sendOwn => exact h.elim
  | viewChange => exact h.elim

/-! ## Runs from any state -/

theorem after_id (m : ViewEstablishmentModule n) (es : List (Action n)) :
    (m.after es).id = m.id := by
  induction es generalizing m with
  | nil => rfl
  | cons e es ih => exact (ih (m.next e)).trans (next_id m e)

/-- A table that is legit stays so. -/
theorem allLegit_after (hn : 2 ≤ n) (hes : ∀ e ∈ es, Foreign m.id e) (h : m.AllLegit) :
    (m.after es).AllLegit := by
  induction es generalizing m with
  | nil => exact h
  | cons e es ih =>
    refine ih (fun e' he' => ?_) ?_
    · rw [next_id]
      exact hes e' (List.mem_cons_of_mem _ he')
    · have hstep : (process m.id 0).step m e (m.next e) := step_next (hes e List.mem_cons_self) 0
      exact allLegit_step hn h hstep

/-- So does a valid phase, and every entry that is repaired on the way. -/
theorem after_keeps (hn : 2 ≤ n) (hes : ∀ e ∈ es, Foreign m.id e) :
    (m.Phased → (m.after es).Phased) ∧
      ∀ k, k ≠ m.id → (Legit n (m.phs k) (m.views k) ∨ ∃ e ∈ es, ReportsValid k e) →
        Legit n ((m.after es).phs k) ((m.after es).views k) := by
  induction es generalizing m with
  | nil => exact ⟨fun h => h, fun k _ h => h.resolve_right fun ⟨_, he, _⟩ => by cases he⟩
  | cons e es ih =>
    have hkeep := next_keeps hn (hes e List.mem_cons_self)
    have hlater := ih (m := m.next e) fun e' he' => by
      rw [next_id]
      exact hes e' (List.mem_cons_of_mem _ he')
    refine ⟨fun h => hlater.1 (hkeep.1 h), fun k hk h => ?_⟩
    refine hlater.2 k (by rw [next_id]; exact hk) ?_
    rcases h with hlegit | ⟨e', he', hreports⟩
    · exact Or.inl (hkeep.2 k hk hlegit)
    · rcases List.mem_cons.mp he' with rfl | he'
      · exact Or.inl (legit_of_reportsValid hreports)
      · exact Or.inr ⟨e', he', hreports⟩

/-- A flush repairs the whole table. -/
theorem allLegit_of_flushes (hn : 2 ≤ n) (hes : ∀ e ∈ es, Foreign m.id e)
    (h : ∃ e ∈ es, Flushes e) : (m.after es).AllLegit := by
  obtain ⟨e, he, hflush⟩ := h
  obtain ⟨before, later, rfl⟩ := List.append_of_mem he
  cases e with
  | run needFlush =>
    subst hflush
    rw [after_append]
    show (((m.after before).run true).after later).AllLegit
    refine allLegit_after hn (fun e' he' => ?_) (allLegit_run_of_reset hn ?_)
    · have hid : ((m.after before).run true).id = m.id :=
        (next_id (m.after before) (.run true)).trans (after_id m before)
      rw [hid]
      exact hes e' (List.mem_append_right _ (List.mem_cons_of_mem _ he'))
    · rw [needReset, Bool.or_true]
  | sendOwn => exact hflush.elim
  | receiveMsg j own about => exact hflush.elim
  | viewChange => exact hflush.elim

/-- A processor in no valid phase stays there without a flush. -/
theorem stuck_after (hes : ∀ e ∈ es, Foreign m.id e) (hphase : ¬ m.Phased)
    (hflush : ∀ e ∈ es, ¬ Flushes e) : ¬ (m.after es).Phased := by
  induction es generalizing m with
  | nil => exact hphase
  | cons e es ih =>
    have hforeign := hes e List.mem_cons_self
    have hnot := hflush e List.mem_cons_self
    have hsame : (m.next e).phs m.id = m.phs m.id := by
      cases e with
      | run needFlush =>
        have hfalse : needFlush = false := Bool.eq_false_of_not_eq_true hnot
        subst hfalse
        -- in no valid phase a pair is not stale, and the automaton rests
        have hzero : m.phs m.id ≠ 0 := fun h => hphase (Or.inl h)
        have hone : m.phs m.id ≠ 1 := fun h => hphase (Or.inr h)
        have hreset : m.needReset false = false := by
          simp only [needReset, staleV, hzero, hone, decide_false, Bool.false_and, Bool.or_false]
        have hnotice : (m.noticeWitnesses false).phs = m.phs := by
          unfold noticeWitnesses
          rw [hreset, if_neg Bool.false_ne_true]
        show (m.run false).phs m.id = m.phs m.id
        simp only [run]
        split
        · rw [automation, noticeWitnesses_id, hnotice, if_neg hzero, if_neg hone, hnotice]
        · rw [hnotice]
      | sendOwn => rfl
      | receiveMsg j own about =>
        show (m.receiveMsg j own about).phs m.id = m.phs m.id
        unfold receiveMsg
        split
        · exact Function.update_of_ne (Ne.symm hforeign) _ _
        · rfl
      | viewChange => rfl
    refine ih (fun e' he' => ?_) ?_ fun e' he' => hflush e' (List.mem_cons_of_mem _ he')
    · rw [next_id]
      exact hes e' (List.mem_cons_of_mem _ he')
    · rw [Phased, next_id, hsame]
      exact hphase

/-- From any state: when valid messages of all others have come and the module has iterated
    since, the whole table is legit, then and ever after, just if the own phase was 0 or 1 at the
    start or the Replication module has asked for a flush. Otherwise others reject what the
    processor sends. -/
theorem recovers_iff (hn : 2 ≤ n) (m : ViewEstablishmentModule n) {before later : List (Action n)}
    {needFlush : Bool} (hforeign : ∀ e ∈ before ++ .run needFlush :: later, Foreign m.id e)
    (hreports : ∀ k, k ≠ m.id → ∃ e ∈ before, ReportsValid k e) :
    ((m.after (before ++ .run needFlush :: later)).AllLegit ↔
      m.Phased ∨ ∃ e ∈ before ++ .run needFlush :: later, Flushes e) ∧
    ((m.after (before ++ .run needFlush :: later)).AllLegit ∨
      valid n (m.after (before ++ .run needFlush :: later)).ownData = false) := by
  have hgood : (m.Phased ∨ ∃ e ∈ before ++ .run needFlush :: later, Flushes e) →
      (m.after (before ++ .run needFlush :: later)).AllLegit := by
    rintro (hphased | hflush)
    · have hbefore := @after_keeps n m before hn fun e he =>
        hforeign e (List.mem_append_left _ he)
      rw [after_append]
      show (((m.after before).run needFlush).after later).AllLegit
      have hid : ((m.after before).run needFlush).id = m.id :=
        (next_id (m.after before) (.run needFlush)).trans (after_id m before)
      refine allLegit_after hn (fun e he => ?_) ?_
      · rw [hid]
        exact hforeign e (List.mem_append_right _ (List.mem_cons_of_mem _ he))
      · cases hreset : (m.after before).needReset needFlush with
        | true => exact allLegit_run_of_reset hn hreset
        | false =>
          refine legit_run hn (fun k => ?_) needFlush
          by_cases hk : k = m.id
          · -- the own pair is not stale, and its phase is valid
            rw [hk, ← after_id m before]
            exact legit_of_not_stale (hbefore.1 hphased) (Bool.or_eq_false_iff.mp hreset).1
          · exact hbefore.2 k hk (Or.inr (hreports k hk))
    · exact allLegit_of_flushes hn hforeign hflush
  by_cases hcond : m.Phased ∨ ∃ e ∈ before ++ .run needFlush :: later, Flushes e
  · exact ⟨iff_of_true (hgood hcond) hcond, Or.inl (hgood hcond)⟩
  · rw [not_or] at hcond
    have hstuck := stuck_after hforeign hcond.1 fun e he hflush => hcond.2 ⟨e, he, hflush⟩
    refine ⟨iff_of_false (fun hall => hstuck hall.phased) fun hor => ?_, Or.inr ?_⟩
    · exact hor.elim hcond.1 hcond.2
    · rw [Bool.eq_false_iff, ne_eq, valid_iff]
      exact fun hlegit => hstuck (hlegit.imp And.left And.left)

/-! ## Three processors -/

/-- All three in phase 1 with a pair for phase 0, and the first one with views out of range. -/
def corrupted : ViewEstablishmentModule 3 :=
  { init 0 0 with
    phs := fun _ => 1
    views := fun k => if k = 0 then ⟨7, 9⟩ else ⟨2, 2⟩ }

/-- Two messages and an iteration repair them. -/
theorem recovers_iff_three : (corrupted.after ([.receiveMsg 1 ⟨0, false, ⟨2, 2⟩, false⟩
    ⟨none, 0, none, none⟩, .receiveMsg 2 ⟨0, false, ⟨2, 2⟩, false⟩ ⟨none, 0, none, none⟩] ++
      .run false :: [.sendOwn])).AllLegit :=
  ((recovers_iff (by decide) corrupted (by decide) (by decide)).1).mpr (Or.inl (by decide))

end BFTList.ViewEstablishmentModule
