import BFTList.ForStd.Quorum
import BFTList.Native.FailureDetector
import Mathlib.Data.List.Induction

/-!
# When the primary is suspected

The failure detector of one processor, token by token. In a stable view a processor
suspects another one that is primary after too many tokens in a row from others, or after
too many tokens from the primary itself since it last made progress.

A change of view starts the counts again, but the set of processors that were heard of is
computed before the change is noticed. A new primary that was silent for long enough is
suspected with the first token.

## Key results

- `mem_fdSet`: who was heard of
- `uponTokenFromPj_stable`: one token in a stable view
- `suspected_iff`: when the primary of a stable view is suspected, and for how long
- `unsuspected_iff`: when a new primary is not
-/

namespace BFTList.FailureDetectorModule

variable {n : Nat} {env : FdEnv n} {m : FailureDetectorModule n} {j k p : Fin n} {b : Bool}

/-! ## What a token changes -/

/-- Processor `j` sent the token, or the id is that of a processor that was heard of in
    fewer tokens than the threshold. -/
def HeardOf (m : FailureDetectorModule n) (j : Fin n) (v : Int) : Prop :=
  ∃ k : Fin n, (k.val : Int) = v ∧
    (k = j ∨ k = m.id ∨ m.beat k + 1 < BEAT_THRESHOLD m.nodes)

instance (v : Int) : Decidable (m.HeardOf j v) :=
  inferInstanceAs (Decidable (∃ k : Fin n, (k.val : Int) = v ∧ _))

/-- The processors in `fd_set`. -/
theorem mem_fdSet {v : Int} : v ∈ (m.updateBeat j).fdSet ↔ m.HeardOf j v := by
  simp only [updateBeat, HeardOf, Finset.mem_image, Finset.mem_filter, Finset.mem_univ, true_and]
  constructor
  · intro ⟨k, hk, hv⟩
    refine ⟨k, hv, ?_⟩
    by_cases hown : k = j ∨ k = m.id
    · exact hown.imp_right Or.inl
    · rw [if_neg hown] at hk
      exact hk
  · intro ⟨k, hv, hk⟩
    refine ⟨k, ?_, hv⟩
    by_cases hown : k = j ∨ k = m.id
    · exact hown.imp_right Or.inl
    · rw [if_neg hown]
      exact hk

@[simp] theorem setPrimSusp_primSusp (m : FailureDetectorModule n) :
    (m.setPrimSusp k b).primSusp = Function.update m.primSusp k b := rfl

/-- The requests are checked when the primary sends the token, its progress resets the
    count, and only a token of another processor brings a suspicion along. -/
theorem checkToken_eq (m : FailureDetectorModule n) : m.checkToken env j b =
    { m with
      cnt :=
        if m.prim = m.id.val then 0
        else if m.prim = j.val then if m.existProgress env then 0 else m.cnt + 1
        else m.cnt
      curCheckReq :=
        if m.prim = j.val ∧ m.existProgress env then getPendReqs env else m.curCheckReq
      primSusp :=
        if m.prim ≠ j.val ∧ m.prim = m.getCurrentView env j then Function.update m.primSusp j b
        else m.primSusp } := by
  have hreset : ∀ s : FailureDetectorModule n,
      (if s.prim = s.id.val then { s with cnt := 0 } else s) =
        { s with cnt := if s.prim = s.id.val then 0 else s.cnt } := by
    intro s
    split
    · rfl
    · rfl
  unfold checkToken
  dsimp only
  rw [hreset]
  by_cases hj : m.prim = j.val
  · unfold checkProgressByPrim
    by_cases hprogress : m.existProgress env
    · simp [hj, hprogress]
    · simp [hj, hprogress]
  · by_cases hview : m.prim = m.getCurrentView env j
    · rw [if_neg hj, if_pos hview]
      simp only [hj, false_and, if_false, ne_eq, not_false_eq_true, true_and, if_pos hview]
      rfl
    · simp [hj, hview]

/-- The primary is suspected from then on, or when it was not heard of or the count is
    above the threshold. -/
theorem suspectPrim_eq (m : FailureDetectorModule n) : m.suspectPrim =
    m.setPrimSusp m.id (m.primSusp m.id ||
      (m.prim ∉ m.fdSet || m.cnt > CNT_THRESHOLD m.nodes)) := by
  unfold suspectPrim
  by_cases hown : m.primSusp m.id = true
  · have hsame : Function.update m.primSusp m.id true = m.primSusp := by
      rw [← hown, Function.update_eq_self]
    simp [hown, setPrimSusp, hsame]
  · rw [if_neg hown, Bool.eq_false_iff.mpr hown, Bool.false_or]

/-- When the own suspicion is not raised. -/
theorem unsuspected_checkToken (m : FailureDetectorModule n) :
    (m.checkToken env j b).suspectPrim.primSusp m.id = false ↔
      (m.checkToken env j b).primSusp m.id = false ∧ m.prim ∈ m.fdSet ∧
        (m.checkToken env j b).cnt ≤ CNT_THRESHOLD m.nodes := by
  have hid : (m.checkToken env j b).id = m.id := by rw [checkToken_eq]
  have hprim : (m.checkToken env j b).prim = m.prim := by rw [checkToken_eq]
  have hfdSet : (m.checkToken env j b).fdSet = m.fdSet := by rw [checkToken_eq]
  have hnodes : (m.checkToken env j b).nodes = m.nodes := by rw [checkToken_eq]
  rw [suspectPrim_eq, setPrimSusp_primSusp, hid, Function.update_self, hprim, hfdSet, hnodes]
  simp only [Bool.or_eq_false_iff, decide_eq_false_iff_not, not_not, gt_iff_lt, not_lt]

/-- The state in which the rest of a token is handled: the beats are counted, and what was
    counted is forgotten when the view has changed. -/
def noteView (m : FailureDetectorModule n) (env : FdEnv n) (j : Fin n) : FailureDetectorModule n :=
  if m.prim = m.getCurrentView env m.id then m.updateBeat j
  else { (m.updateBeat j).reset with prim := m.getCurrentView env m.id }

theorem uponTokenFromPj_eq (m : FailureDetectorModule n) : m.uponTokenFromPj env j b =
    if m.allowService env = false then (m.noteView env j).reset
    else if env.noViewChange then ((m.noteView env j).checkToken env j b).suspectPrim
    else m.noteView env j := by
  have hview : (m.updateBeat j).getCurrentView env (m.updateBeat j).id =
      m.getCurrentView env m.id := rfl
  have hprim : (m.updateBeat j).prim = m.prim := rfl
  have hserve : ∀ v, ({ m.updateBeat j with prim := v }).allowService env = m.allowService env :=
    fun _ => rfl
  have hserve' : ∀ v, ({ (m.updateBeat j).reset with prim := v }).allowService env =
      m.allowService env := fun _ => rfl
  -- nothing before the service check touches what it and the views depend on
  unfold uponTokenFromPj noteView
  simp only [hview, hprim]
  by_cases hsame : m.prim = m.getCurrentView env m.id
  · have hnote : ({ m.updateBeat j with prim := m.getCurrentView env m.id }) = m.updateBeat j := by
      rw [← hsame]
      rfl
    simp only [hsame, ne_eq, not_true_eq_false, if_false, if_true, hserve, hnote]
    cases m.allowService env <;> simp
  · simp only [hsame, ne_eq, not_false_eq_true, if_true, if_false, hserve']
    cases m.allowService env <;> simp

/-! ## A stable view -/

/-- A token as it is taken from the queue, with what the other modules answer meanwhile. -/
structure Token (n : Nat) where
  sender : Fin n
  primSusp : Bool
  env : FdEnv n

/-- Handle one token after the other. -/
def after (m : FailureDetectorModule n) (ts : List (Token n)) : FailureDetectorModule n :=
  ts.foldl (fun s t => s.uponTokenFromPj t.env t.sender t.primSusp) m

/-- A token of another processor in view `p`, with service and no view change. -/
structure Stable (m : FailureDetectorModule n) (p : Fin n) (t : Token n) : Prop where
  other : t.sender ≠ m.id
  view : m.getCurrentView t.env m.id = p.val
  service : m.allowService t.env = true
  noViewChange : t.env.noViewChange = true

/-- The list of checked requests is empty, or has lost a member from the pending requests. -/
def Progress (m : FailureDetectorModule n) (env : FdEnv n) : Prop :=
  m.curCheckReq = [] ∨ ∃ req ∈ m.curCheckReq, req ∉ getPendReqs env

/-- `BEAT_THRESHOLD` consecutive tokens came from processors other than `p`. -/
def Silent (m : FailureDetectorModule n) (p : Fin n) (ts : List (Token n)) : Prop :=
  ∃ run, run <:+: ts ∧ (run.length : Int) = BEAT_THRESHOLD m.nodes ∧ ∀ t ∈ run, t.sender ≠ p

/-- A token of `p` upon which there was progress, and the tokens since then, with no
    progress upon those of `p`. -/
structure SinceProgress (m : FailureDetectorModule n) (p : Fin n) (done : List (Token n))
    (t : Token n) (rest : List (Token n)) : Prop where
  sender : t.sender = p
  progress : (m.after done).Progress t.env
  noProgress : ∀ early u late, rest = early ++ u :: late → u.sender = p →
    ¬ (m.after (done ++ t :: early)).Progress u.env

/-- More than `CNT_THRESHOLD` tokens from `p` arrived since the last one upon which there
    was progress. -/
def Stalled (m : FailureDetectorModule n) (p : Fin n) (ts : List (Token n)) : Prop :=
  ∃ done t rest, done ++ t :: rest <+: ts ∧ m.SinceProgress p done t rest ∧
    CNT_THRESHOLD m.nodes < rest.countP (·.sender = p)

/-! ### One token -/

/-- The state of the same processor, with primary `p`. -/
structure Watches (m : FailureDetectorModule n) (p : Fin n) (s : FailureDetectorModule n) :
    Prop where
  id : s.id = m.id
  nodes : s.nodes = m.nodes
  selfStab : s.selfStab = m.selfStab
  prim : s.prim = p.val

theorem existProgress_iff : m.existProgress env = true ↔ m.Progress env := by
  simp [existProgress, Progress]

theorem Watches.getCurrentView {s : FailureDetectorModule n} (hs : m.Watches p s) :
    s.getCurrentView env s.id = m.getCurrentView env m.id := by
  simp only [FailureDetectorModule.getCurrentView, hs.selfStab, hs.id]

theorem Watches.allowService {s : FailureDetectorModule n} (hs : m.Watches p s) :
    s.allowService env = m.allowService env := by
  simp only [FailureDetectorModule.allowService, hs.selfStab]

theorem BEAT_THRESHOLD_pos (nodes : Int) : 0 < BEAT_THRESHOLD nodes := by
  unfold BEAT_THRESHOLD
  split
  · decide
  · decide

theorem CNT_THRESHOLD_nonneg (nodes : Int) : 0 ≤ CNT_THRESHOLD nodes := by
  unfold CNT_THRESHOLD
  split
  · decide
  · decide

/-- Another processor was heard of when its beat is below the threshold. -/
theorem heardOf_iff (hp : p ≠ m.id) :
    m.HeardOf j p.val ↔ (if j = p then 0 else m.beat p + 1) < BEAT_THRESHOLD m.nodes := by
  have hpos := BEAT_THRESHOLD_pos m.nodes
  constructor
  · intro ⟨k, hk, hheard⟩
    have hkp : k = p := Fin.ext (by omega)
    subst hkp
    split
    · exact hpos
    · rename_i hj
      exact (hheard.resolve_left (Ne.symm hj)).resolve_left hp
  · intro h
    refine ⟨p, rfl, ?_⟩
    split at h
    · rename_i hj
      exact Or.inl hj.symm
    · exact Or.inr (Or.inr h)

/-- A token of another processor raises the own suspicion when a count is over its threshold. -/
theorem suspected_checkToken (hp : p ≠ m.id) {s : FailureDetectorModule n} (hs : m.Watches p s)
    (hj : j ≠ m.id) :
    ((s.updateBeat j).checkToken env j b).suspectPrim.primSusp m.id = true ↔
      s.primSusp m.id = true ∨
        BEAT_THRESHOLD m.nodes ≤ (if j = p then 0 else s.beat p + 1) ∨
        CNT_THRESHOLD m.nodes < ((s.updateBeat j).checkToken env j b).cnt := by
  -- the token brings the suspicion of its sender, not the own one
  have hcheck : ((s.updateBeat j).checkToken env j b).primSusp m.id = s.primSusp m.id := by
    rw [checkToken_eq]
    show (if _ then Function.update s.primSusp j b else s.primSusp) m.id = _
    split
    · exact Function.update_of_ne (Ne.symm hj) _ _
    · rfl
  have hid : (s.updateBeat j).id = m.id := hs.id
  have hprim : (s.updateBeat j).prim = p.val := hs.prim
  have hnodes : (s.updateBeat j).nodes = m.nodes := hs.nodes
  have hown := @unsuspected_checkToken n env j b (s.updateBeat j)
  rw [hid, hcheck, hprim, mem_fdSet, heardOf_iff (hs.id ▸ hp), hs.nodes, hnodes] at hown
  rw [← Bool.not_eq_false, hown, ← Bool.not_eq_false (s.primSusp m.id)]
  simp only [not_and_or, not_lt, not_le]

/-- What a token in a stable view changes: the counts, the checked requests, and the own
    suspicion when one of the counts is over its threshold. -/
structure StableStep (m : FailureDetectorModule n) (p : Fin n) (s : FailureDetectorModule n)
    (t : Token n) (s' : FailureDetectorModule n) : Prop where
  watches : m.Watches p s'
  beat : s'.beat p = if t.sender = p then 0 else s.beat p + 1
  cnt : s'.cnt = if t.sender = p then if s.existProgress t.env then 0 else s.cnt + 1 else s.cnt
  curCheckReq : s'.curCheckReq =
    if t.sender = p ∧ s.existProgress t.env then getPendReqs t.env else s.curCheckReq
  suspected : s'.primSusp m.id = true ↔ s.primSusp m.id = true ∨
    BEAT_THRESHOLD m.nodes ≤ s'.beat p ∨ CNT_THRESHOLD m.nodes < s'.cnt

/-- One token in a stable view. -/
theorem uponTokenFromPj_stable (hp : p ≠ m.id) {s : FailureDetectorModule n}
    (hs : m.Watches p s) {t : Token n} (ht : m.Stable p t) :
    m.StableStep p s t (s.uponTokenFromPj t.env t.sender t.primSusp) := by
  have hcast : ∀ k : Fin n, (p.val : Int) = k.val ↔ k = p := by
    intro k
    rw [Nat.cast_inj, Fin.val_inj, eq_comm]
  have hnote : s.noteView t.env t.sender = s.updateBeat t.sender := by
    rw [noteView, if_pos]
    rw [hs.getCurrentView, ht.view, hs.prim]
  rw [uponTokenFromPj_eq, hs.allowService, ht.service, ht.noViewChange, hnote,
    if_neg (by decide), if_pos rfl]
  have hsusp := @suspected_checkToken n t.env m t.sender p t.primSusp hp s hs ht.other
  -- the count is not reset, since the processor is not primary itself
  have hne : s.prim ≠ s.id.val := by
    rw [hs.prim, hs.id, ne_eq, hcast]
    exact Ne.symm hp
  have hsender : s.prim = t.sender.val ↔ t.sender = p := by rw [hs.prim, hcast]
  have hbeat : (s.updateBeat t.sender).beat p = if t.sender = p then 0 else s.beat p + 1 := by
    show (if p = t.sender ∨ p = s.id then 0 else s.beat p + 1) = _
    simp only [hs.id, hp, or_false, eq_comm (a := p)]
  rw [← hbeat] at hsusp
  rw [suspectPrim_eq] at hsusp ⊢
  rw [checkToken_eq] at hsusp ⊢
  constructor
  · exact ⟨hs.id, hs.nodes, hs.selfStab, hs.prim⟩
  · exact hbeat
  · simp [setPrimSusp, updateBeat, hne, hsender, existProgress]
  · simp [setPrimSusp, updateBeat, hsender, existProgress]
  · exact hsusp

/-! ### A run of tokens -/

/-- Nothing is counted, and `p` is the recorded primary. -/
structure Cleared (m : FailureDetectorModule n) (p : Fin n) : Prop where
  prim : m.prim = p.val
  beat : m.beat p = 0
  cnt : m.cnt = 0
  curCheckReq : m.curCheckReq = []
  unsuspected : m.primSusp m.id = false

theorem reset_cleared (h : m.prim = p.val) : m.reset.Cleared p := ⟨h, rfl, rfl, rfl, rfl⟩

variable {ts : List (Token n)} {t : Token n}

theorem after_concat (m : FailureDetectorModule n) : m.after (ts ++ [t]) =
    (m.after ts).uponTokenFromPj t.env t.sender t.primSusp := by
  simp only [after, List.foldl_append, List.foldl_cons, List.foldl_nil]

theorem watches_after (hp : p ≠ m.id) (h : m.prim = p.val) (hts : ∀ t ∈ ts, m.Stable p t) :
    m.Watches p (m.after ts) := by
  induction ts using List.reverseRecOn with
  | nil => exact ⟨rfl, rfl, rfl, h⟩
  | append_singleton ts t ih =>
    rw [List.forall_mem_append] at hts
    have ht := hts.2 t (List.mem_singleton.mpr rfl)
    rw [after_concat]
    exact (uponTokenFromPj_stable hp (ih hts.1) ht).watches

/-- The last token of a run in a stable view. -/
theorem stable_concat (hp : p ≠ m.id) (h : m.prim = p.val)
    (hts : ∀ u ∈ ts ++ [t], m.Stable p u) :
    (∀ u ∈ ts, m.Stable p u) ∧ m.StableStep p (m.after ts) t (m.after (ts ++ [t])) := by
  rw [List.forall_mem_append] at hts
  have ht := hts.2 t (List.mem_singleton.mpr rfl)
  rw [after_concat]
  exact ⟨hts.1, uponTokenFromPj_stable hp (watches_after hp h hts.1) ht⟩

/-- The beat of the primary is the number of tokens since its last one. -/
theorem le_beat_iff (hp : p ≠ m.id) (h : m.Cleared p) (hts : ∀ t ∈ ts, m.Stable p t) {k : Nat} :
    k ≤ (m.after ts).beat p ↔
      ∃ run, run <:+ ts ∧ run.length = k ∧ ∀ t ∈ run, t.sender ≠ p := by
  induction ts using List.reverseRecOn generalizing k with
  | nil =>
    show (k : Int) ≤ m.beat p ↔ _
    rw [h.beat]
    constructor
    · intro hk
      exact ⟨[], List.suffix_refl _, by simp; omega, by simp⟩
    · intro ⟨run, hrun, hlength, _⟩
      rw [List.suffix_nil.mp hrun, List.length_nil] at hlength
      omega
  | append_singleton ts t ih =>
    obtain ⟨hbefore, hstep⟩ := stable_concat hp h.prim hts
    have hih : ∀ {k : Nat}, _ := @ih hbefore
    rw [hstep.beat]
    cases k with
    | zero =>
      have hnonneg : (0 : Nat) ≤ (m.after ts).beat p :=
        hih.mpr ⟨[], List.nil_suffix, rfl, by simp⟩
      refine iff_of_true ?_ ⟨[], List.nil_suffix, rfl, by simp⟩
      split
      · exact Int.le_refl 0
      · omega
    | succ k =>
      constructor
      · intro hk
        split at hk
        · omega
        · rename_i hother
          obtain ⟨run, hrun, hlength, hall⟩ := (hih (k := k)).mp (by omega)
          have hsuffix : run ++ [t] <:+ ts ++ [t] :=
            List.suffix_concat_iff.mpr (Or.inr ⟨run, rfl, hrun⟩)
          refine ⟨run ++ [t], hsuffix, by simp [hlength], ?_⟩
          rw [List.forall_mem_append]
          exact ⟨hall, fun u hu => List.mem_singleton.mp hu ▸ hother⟩
      · intro ⟨run, hrun, hlength, hall⟩
        -- a run that is not empty ends with the last token
        rcases List.suffix_concat_iff.mp hrun with rfl | ⟨early, rfl, hearly⟩
        · cases hlength
        · rw [List.forall_mem_append] at hall
          have hk := (hih (k := k)).mpr ⟨early, hearly, by simpa using hlength, hall.1⟩
          rw [if_neg (hall.2 t (List.mem_singleton.mpr rfl))]
          omega

/-- One token more, upon which there is no progress if `p` sent it. -/
theorem sinceProgress_concat {done rest : List (Token n)} {t u : Token n} :
    m.SinceProgress p done t (rest ++ [u]) ↔ m.SinceProgress p done t rest ∧
      (u.sender = p → ¬ (m.after (done ++ t :: rest)).Progress u.env) := by
  constructor
  · intro h
    refine ⟨⟨h.sender, h.progress, ?_⟩, h.noProgress rest u [] rfl⟩
    intro early v late heq
    exact h.noProgress early v (late ++ [u]) (by simp [heq])
  · intro ⟨h, hu⟩
    refine ⟨h.sender, h.progress, ?_⟩
    intro early v late heq
    -- the token is the last one, or was there before
    rcases List.eq_nil_or_concat late with rfl | ⟨late, w, rfl⟩
    · obtain ⟨rfl, hlast⟩ := List.append_inj' heq rfl
      cases hlast
      exact hu
    · rw [List.concat_eq_append, ← List.cons_append, ← List.append_assoc] at heq
      exact h.noProgress early v late (List.append_inj' heq rfl).1

/-- The count is 0 until the primary sends its first token. From then on there is a last
    token upon which it made progress. -/
theorem exists_sinceProgress (hp : p ≠ m.id) (h : m.Cleared p) (hts : ∀ t ∈ ts, m.Stable p t) :
    ((m.after ts).cnt = 0 ∧ (m.after ts).curCheckReq = []) ∨
      ∃ done t rest, ts = done ++ t :: rest ∧ m.SinceProgress p done t rest := by
  induction ts using List.reverseRecOn with
  | nil => exact Or.inl ⟨h.cnt, h.curCheckReq⟩
  | append_singleton ts t ih =>
    obtain ⟨hbefore, hstep⟩ := stable_concat hp h.prim hts
    rw [hstep.cnt, hstep.curCheckReq]
    by_cases hnew : t.sender = p ∧ (m.after ts).Progress t.env
    · refine Or.inr ⟨ts, t, [], rfl, hnew.1, hnew.2, ?_⟩
      intro early u late heq
      simp at heq
    · cases ih hbefore with
      | inl hnone =>
        -- without a checked request a token of the primary is progress
        have hsender : t.sender ≠ p := fun hsender => hnew ⟨hsender, Or.inl hnone.2⟩
        rw [if_neg hsender, if_neg fun hand => hsender hand.1]
        exact Or.inl hnone
      | inr hsince =>
        obtain ⟨done, u, rest, rfl, hsince⟩ := hsince
        refine Or.inr ⟨done, u, rest ++ [t], by simp, sinceProgress_concat.mpr ⟨hsince, ?_⟩⟩
        exact fun hsender hprogress => hnew ⟨hsender, hprogress⟩

/-- The count is the number of tokens of the primary since it made progress. -/
theorem cnt_eq_countP (hp : p ≠ m.id) (h : m.prim = p.val) {done rest : List (Token n)}
    {t : Token n} (hsince : m.SinceProgress p done t rest)
    (hts : ∀ u ∈ done ++ t :: rest, m.Stable p u) :
    (m.after (done ++ t :: rest)).cnt = rest.countP (·.sender = p) := by
  induction rest using List.reverseRecOn with
  | nil =>
    obtain ⟨-, hstep⟩ := stable_concat hp h hts
    rw [hstep.cnt, if_pos hsince.sender, if_pos (existProgress_iff.mpr hsince.progress)]
    rfl
  | append_singleton rest u ih =>
    rw [← List.cons_append, ← List.append_assoc] at hts ⊢
    obtain ⟨hsince, hu⟩ := sinceProgress_concat.mp hsince
    obtain ⟨hbefore, hstep⟩ := stable_concat hp h hts
    rw [hstep.cnt, ih hsince hbefore, List.countP_append]
    by_cases hsender : u.sender = p
    · rw [if_pos hsender, if_neg fun hprogress => hu hsender (existProgress_iff.mp hprogress)]
      simp [hsender]
    · simp [hsender]

/-- The own suspicion is raised after some tokens iff one of the counts has reached its
    threshold at some point. -/
theorem primSusp_iff (hp : p ≠ m.id) (h : m.Cleared p) (hts : ∀ t ∈ ts, m.Stable p t) :
    (m.after ts).primSusp m.id = true ↔
      ∃ done, done <+: ts ∧ (BEAT_THRESHOLD m.nodes ≤ (m.after done).beat p ∨
        CNT_THRESHOLD m.nodes < (m.after done).cnt) := by
  induction ts using List.reverseRecOn with
  | nil =>
    have hbeat := BEAT_THRESHOLD_pos m.nodes
    have hcnt := CNT_THRESHOLD_nonneg m.nodes
    -- without a token both counts are 0, which is not over a threshold
    show m.primSusp m.id = true ↔ _
    refine iff_of_false (by simp [h.unsuspected]) ?_
    intro ⟨done, hdone, hreached⟩
    rw [List.prefix_nil.mp hdone, after, List.foldl_nil, h.beat, h.cnt] at hreached
    omega
  | append_singleton ts t ih =>
    obtain ⟨hbefore, hstep⟩ := stable_concat hp h.prim hts
    rw [hstep.suspected, ih hbefore]
    constructor
    · intro hreached
      cases hreached with
      | inl hreached =>
        obtain ⟨done, hdone, hreached⟩ := hreached
        exact ⟨done, hdone.trans (List.prefix_append ts [t]), hreached⟩
      | inr hreached => exact ⟨ts ++ [t], List.prefix_refl _, hreached⟩
    · intro ⟨done, hdone, hreached⟩
      cases List.prefix_concat_iff.mp hdone with
      | inl heq => exact Or.inr (heq ▸ hreached)
      | inr hdone => exact Or.inl ⟨done, hdone, hreached⟩

/-- The beat reaches its threshold when there were enough tokens in a row from others. -/
theorem silent_iff (hp : p ≠ m.id) (h : m.Cleared p) (hts : ∀ t ∈ ts, m.Stable p t) :
    (∃ done, done <+: ts ∧ BEAT_THRESHOLD m.nodes ≤ (m.after done).beat p) ↔ m.Silent p ts := by
  obtain ⟨k, hk⟩ := Int.eq_ofNat_of_zero_le (Int.le_of_lt (BEAT_THRESHOLD_pos m.nodes))
  have hbeat : ∀ done, done <+: ts → (k ≤ (m.after done).beat p ↔
      ∃ run, run <:+ done ∧ run.length = k ∧ ∀ t ∈ run, t.sender ≠ p) :=
    fun done hdone => le_beat_iff hp h fun t ht => hts t (hdone.subset ht)
  simp only [Silent, hk, Nat.cast_inj]
  constructor
  · intro ⟨done, hdone, hreached⟩
    obtain ⟨run, hrun, hlength, hall⟩ := (hbeat done hdone).mp hreached
    exact ⟨run, hrun.isInfix.trans hdone.isInfix, hlength, hall⟩
  · intro ⟨run, hrun, hlength, hall⟩
    obtain ⟨early, late, heq⟩ := hrun
    have hdone : early ++ run <+: ts := ⟨late, heq⟩
    exact ⟨early ++ run, hdone, (hbeat _ hdone).mpr ⟨run, List.suffix_append _ _, hlength, hall⟩⟩

/-- The count exceeds its threshold when there were enough tokens of the primary without
    progress. -/
theorem stalled_iff (hp : p ≠ m.id) (h : m.Cleared p) (hts : ∀ t ∈ ts, m.Stable p t) :
    (∃ done, done <+: ts ∧ CNT_THRESHOLD m.nodes < (m.after done).cnt) ↔ m.Stalled p ts := by
  constructor
  · intro ⟨done, hdone, hreached⟩
    have hstable : ∀ t ∈ done, m.Stable p t := fun t ht => hts t (hdone.subset ht)
    rcases exists_sinceProgress hp h hstable with ⟨hzero, -⟩ | ⟨early, t, rest, rfl, hsince⟩
    · have hnonneg := CNT_THRESHOLD_nonneg m.nodes
      omega
    · rw [cnt_eq_countP hp h.prim hsince hstable] at hreached
      exact ⟨early, t, rest, hdone, hsince, hreached⟩
  · intro ⟨early, t, rest, hdone, hsince, hmany⟩
    refine ⟨early ++ t :: rest, hdone, ?_⟩
    rw [cnt_eq_countP hp h.prim hsince fun u hu => hts u (hdone.subset hu)]
    exact hmany

/-- In a stable view the primary is suspected iff it was silent or stalled at some point,
    and from then on. -/
theorem suspected_iff (hp : p ≠ m.id) (hprim : m.prim = p.val) (hts : ∀ t ∈ ts, m.Stable p t) :
    ((m.reset.after ts).primSusp m.id = true ↔ m.reset.Silent p ts ∨ m.reset.Stalled p ts) ∧
      ∀ done, done <+: ts → (m.reset.after done).primSusp m.id = true →
        (m.reset.after ts).primSusp m.id = true := by
  have h := reset_cleared hprim
  have hstable : ∀ t ∈ ts, m.reset.Stable p t := fun t ht =>
    ⟨(hts t ht).other, (hts t ht).view, (hts t ht).service, (hts t ht).noViewChange⟩
  have hreached : ∀ done, done <+: ts → ((m.reset.after done).primSusp m.id = true ↔ _) :=
    fun done hdone => primSusp_iff (m := m.reset) hp h fun t ht => hstable t (hdone.subset ht)
  constructor
  · rw [hreached ts (List.prefix_refl _), ← silent_iff (m := m.reset) hp h hstable,
      ← stalled_iff (m := m.reset) hp h hstable, ← exists_or]
    simp only [and_or_left]
  · intro done hdone hsusp
    obtain ⟨early, hearly, hcount⟩ := (hreached done hdone).mp hsusp
    exact (hreached ts (List.prefix_refl _)).mpr ⟨early, hearly.trans hdone, hcount⟩

/-- Processor 1 is primary of the current view, which is served. -/
def viewOne : FdEnv 6 :=
  { allowService := true, noViewChange := true, currentView := fun _ => 1, pendReqs := some [] }

/-- Processor 0 suspects primary 1 after fifty tokens from processor 2. -/
theorem suspected_iff_silent :
    ((({ init 0 6 true with prim := 1 } : FailureDetectorModule 6).reset.after
      (List.replicate 50 ⟨2, false, viewOne⟩)).primSusp 0) = true := by
  apply (suspected_iff (p := 1) (by decide) rfl ?_).1.mpr
  · refine Or.inl ⟨_, List.infix_refl _, by rw [List.length_replicate]; rfl, ?_⟩
    intro t ht
    rw [List.eq_of_mem_replicate ht]
    decide
  · intro t ht
    rw [List.eq_of_mem_replicate ht]
    exact ⟨by decide, rfl, rfl, rfl⟩

/-! ## A new primary -/

/-- With nothing counted a suspicion comes from the own token, or from not having heard of
    the primary. -/
theorem unsuspected_of_reset {s : FailureDetectorModule n} (hcnt : s.cnt = 0)
    (hreq : s.curCheckReq = []) (hsusp : s.primSusp s.id = false) :
    (s.checkToken env j b).suspectPrim.primSusp s.id = false ↔ s.prim ∈ s.fdSet ∧
      ¬ (j = s.id ∧ s.prim ≠ j.val ∧ s.prim = s.getCurrentView env j ∧ b = true) := by
  have hzero : (s.checkToken env j b).cnt = 0 := by
    simp [checkToken_eq, existProgress, hreq, hcnt]
  have hown : (s.checkToken env j b).primSusp s.id = false ↔
      ¬ (j = s.id ∧ s.prim ≠ j.val ∧ s.prim = s.getCurrentView env j ∧ b = true) := by
    rw [checkToken_eq]
    by_cases hj : j = s.id
    · subst hj
      by_cases hother : s.prim ≠ s.id.val ∧ s.prim = s.getCurrentView env s.id
      · simp [hother.1, ← hother.2]
      · rw [if_neg hother]
        simp only [hsusp, true_and, true_iff]
        exact fun h => hother ⟨h.1, h.2.1⟩
    · simp only [hj, false_and, not_false_eq_true, iff_true]
      split
      · rw [Function.update_of_ne (Ne.symm hj), hsusp]
      · exact hsusp
  rw [unsuspected_checkToken, hzero, hown]
  have hle := CNT_THRESHOLD_nonneg s.nodes
  tauto

/-- When the view has changed, the processor does not suspect the new primary iff it does
    not serve, or it has heard of the new primary recently enough before the change, and
    was not told the suspicion by itself. -/
theorem unsuspected_iff (hchange : m.prim ≠ m.getCurrentView env m.id) :
    (m.uponTokenFromPj env j b).primSusp m.id = false ↔
      (m.allowService env = true → env.noViewChange = true →
        m.HeardOf j (m.getCurrentView env m.id) ∧
          ¬ (j = m.id ∧ m.getCurrentView env m.id ≠ j.val ∧ b = true)) := by
  rw [uponTokenFromPj_eq, noteView, if_neg hchange]
  cases hserve : m.allowService env with
  | false => simp [reset]
  | true =>
    cases hno : env.noViewChange with
    | false => simp [reset]
    | true =>
      rw [if_neg (by decide), if_pos rfl]
      -- the counts are those of a reset, but `fd_set` is that of the old beats
      refine (unsuspected_of_reset rfl rfl rfl).trans ?_
      show m.getCurrentView env m.id ∈ (m.updateBeat j).fdSet ∧
        ¬ (j = m.id ∧ m.getCurrentView env m.id ≠ j.val ∧
          m.getCurrentView env m.id = m.getCurrentView env j ∧ b = true) ↔ _
      rw [mem_fdSet]
      constructor
      · intro ⟨hheard, hown⟩ _ _
        exact ⟨hheard, fun ⟨hj, hother, hb⟩ => hown ⟨hj, hother, by rw [hj], hb⟩⟩
      · intro h
        obtain ⟨hheard, hown⟩ := h rfl rfl
        exact ⟨hheard, fun ⟨hj, hother, _, hb⟩ => hown ⟨hj, hother, hb⟩⟩

/-- Processor 0 in view 5, after `beat` tokens in a row from processor 5. -/
def inViewFive (beat : Int) : FailureDetectorModule 6 :=
  { init 0 6 true with beat := fun k => if k = 0 ∨ k = 5 then 0 else beat, prim := 5 }

/-- A new primary that was heard of lately is not suspected. -/
theorem unsuspected_iff_heardOf :
    (inViewFive 1).prim ≠ (inViewFive 1).getCurrentView viewOne (inViewFive 1).id ∧
      ((inViewFive 1).uponTokenFromPj viewOne 2 false).primSusp (inViewFive 1).id = false := by
  have hchange : (inViewFive 1).prim ≠ (inViewFive 1).getCurrentView viewOne (inViewFive 1).id := by
    decide
  refine ⟨hchange, (unsuspected_iff hchange).mpr fun _ _ => ⟨?_, by decide⟩⟩
  decide

/-- A new primary that was silent before the view changed is suspected with the first
    token. -/
theorem suspected_at_once : ¬ ∀ (n : Nat) (env : FdEnv n) (m : FailureDetectorModule n) (j : Fin n)
    (b : Bool), m.prim ≠ m.getCurrentView env m.id →
      (m.uponTokenFromPj env j b).primSusp m.id = false := by
  intro h
  have hold := h 6 viewOne (inViewFive 49) 2 false (by decide)
  revert hold
  decide

end BFTList.FailureDetectorModule
