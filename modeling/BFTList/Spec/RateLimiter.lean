import BFTList.ForStd.Counter
import BFTList.Spec.RequestReply

/-!
# The rate limiter

A thread that has seen each queue of its processor below the limit puts at most one message in
each of them before it looks again. Three threads do so at the same time, so a queue exceeds the
limit by at most three.

No thread goes on while a queue is full, whichever processor the queue is for. A processor that
has crashed takes no more messages, so the queue for it fills up, and the modules stop at every
processor that sends to it.

## Key results

- `exactly_once`: what every link does in every run, and how long the queues get
- `goes_on_iff`: some thread of a processor goes on for ever if no one that it sends to crashes,
  and none does otherwise
-/

namespace BFTList

namespace ZeroMq

variable {δ : Type*} {n : Nat} {i j : Fin n} {m : RunThread}

/-! ## One thread -/

@[simp] theorem mem_otherNodes : j ∈ otherNodes i ↔ j ≠ i := by
  simp [otherNodes]

theorem nodup_otherNodes (i : Fin n) : (otherNodes i).Nodup :=
  (List.nodup_finRange n).filter _

theorem ne_unresponsive {b : ByzBehavior} (h : b.sendsTo j) : b ≠ .unresponsive := by
  intro heq
  rw [heq] at h
  cases h

/-- What a thread does next, given which queues are full. -/
inductive ThreadStep (full : Fin n → Prop) (i : Fin n) (m : RunThread) :
    ThreadState n → ThreadState n → Prop
  | send (j : Fin n) (rest : List (Fin n)) (k : Nat) :
    ThreadStep full i m ⟨.sending (j :: rest), k⟩ ⟨.sending rest, k⟩
  | sent (k : Nat) : ThreadStep full i m ⟨.sending [], k⟩ ⟨.checking (otherNodes i), k⟩
  | wait (j : Fin n) (rest : List (Fin n)) (k : Nat) (hfull : full j) :
    ThreadStep full i m ⟨.checking (j :: rest), k⟩ ⟨.checking (otherNodes i), k⟩
  | pass (j : Fin n) (rest : List (Fin n)) (k : Nat) (hfull : ¬ full j) :
    ThreadStep full i m ⟨.checking (j :: rest), k⟩ ⟨.checking rest, k⟩
  | iterate (k : Nat) : ThreadStep full i m ⟨.checking [], k⟩ ⟨m.sending i, k + 1⟩

namespace ThreadState

variable {full : Fin n → Prop} {t t' : ThreadState n}

/-- The nodes that a thread is still about to send to, or to look at. -/
def rest (t : ThreadState n) : List (Fin n) :=
  match t.phase with
  | .sending rest | .checking rest => rest

/-- A thread between two nodes; only those that send have nodes to send to. -/
structure Orderly (i : Fin n) (m : RunThread) (t : ThreadState n) : Prop where
  suffix : t.rest <:+ otherNodes i
  sends : ∀ j rest, t.phase = .sending (j :: rest) → m.sends = true

theorem orderly_sending (i : Fin n) (m : RunThread) (k : Nat) :
    Orderly i m ⟨m.sending i, k⟩ := by
  by_cases hsends : m.sends = true
  · exact ⟨by simp [rest, RunThread.sending, hsends], fun _ _ _ => hsends⟩
  · refine ⟨by simp [rest, RunThread.sending, hsends], fun j rest h => ?_⟩
    simp [RunThread.sending, hsends] at h

theorem Orderly.step (h : t.Orderly i m) (hstep : ThreadStep full i m t t') :
    t'.Orderly i m := by
  cases hstep with
  | send j rest k =>
    refine ⟨(List.suffix_cons j rest).trans h.suffix, fun _ _ _ => h.sends j rest rfl⟩
  | sent k => exact ⟨List.suffix_refl _, fun _ _ h => (nomatch h)⟩
  | wait j rest k hfull => exact ⟨List.suffix_refl _, fun _ _ h => (nomatch h)⟩
  | pass j rest k hfull =>
    exact ⟨(List.suffix_cons j rest).trans h.suffix, fun _ _ h => (nomatch h)⟩
  | iterate k => exact orderly_sending i m (k + 1)

theorem Orderly.notMem (h : t.Orderly i m) {rest : List (Fin n)} (hrest : t.rest = j :: rest) :
    j ∉ rest := by
  have hnodup := (nodup_otherNodes i).sublist h.suffix.sublist
  rw [hrest, List.nodup_cons] at hnodup
  exact hnodup.1

/-- How many messages a thread may put in the queue for `j` before it looks at it again. -/
def permits (m : RunThread) (j : Fin n) (t : ThreadState n) : Nat :=
  if m.sends then
    match t.phase with
    | .sending rest => if j ∈ rest then 1 else 0
    | .checking rest => if j ∈ rest then 0 else 1
  else 0

/-- How many messages a thread has put in the queue for `j`. -/
def sentTo (m : RunThread) (j : Fin n) (t : ThreadState n) : Nat :=
  if m.sends then
    match t.phase with
    | .sending rest => if j ∈ rest then t.iterations else t.iterations + 1
    | .checking _ => t.iterations + 1
  else 0

theorem permits_le (m : RunThread) (j : Fin n) (t : ThreadState n) :
    permits m j t ≤ if m.sends then 1 else 0 := by
  simp only [permits]
  split
  · split <;> split <;> omega
  · exact Nat.le_refl 0

/-- A thread comes to put more messages in a queue only when it has seen that it is not full. -/
theorem Orderly.permits_step (h : t.Orderly i m) (hj : j ≠ i)
    (hstep : ThreadStep full i m t t') : permits m j t' ≤ permits m j t ∨ ¬ full j := by
  have hmem : j ∈ otherNodes i := mem_otherNodes.mpr hj
  cases hstep with
  | send j' rest k =>
    refine Or.inl ?_
    simp only [permits, h.sends j' rest rfl, if_true, List.mem_cons]
    by_cases hrest : j ∈ rest
    · simp [hrest]
    · simp [hrest]
  | sent | wait => exact Or.inl (by simp [permits, hmem])
  | pass j' rest k hfull =>
    by_cases hjj : j = j'
    · exact Or.inr (hjj ▸ hfull)
    · exact Or.inl (by simp [permits, hjj])
  | iterate k =>
    by_cases hsends : m.sends = true
    · exact Or.inl (by simp [permits, RunThread.sending, hsends, hmem])
    · exact Or.inl (by simp [permits, hsends])

/-- A message that is put in a queue uses up the permit for it. -/
theorem Orderly.permits_send (h : t.Orderly i m) (hstep : ThreadStep full i m t t')
    {rest : List (Fin n)} (hphase : t.phase = .sending (j :: rest)) :
    permits m j t' + 1 = permits m j t := by
  have hsends := h.sends j rest hphase
  cases hstep with
  | send j' rest' k =>
    cases hphase
    have hnot : j ∉ rest := h.notMem rfl
    simp [permits, hsends, hnot]
  | sent | wait | pass | iterate => cases hphase

/-- A message that is put in a queue counts. -/
theorem Orderly.sentTo_send (h : t.Orderly i m) (hstep : ThreadStep full i m t t')
    {rest : List (Fin n)} (hphase : t.phase = .sending (j :: rest)) :
    sentTo m j t' = sentTo m j t + 1 := by
  have hsends := h.sends j rest hphase
  cases hstep with
  | send j' rest' k =>
    cases hphase
    have hnot : j ∉ rest := h.notMem rfl
    simp [sentTo, hsends, hnot]
  | sent | wait | pass | iterate => cases hphase

/-- Nothing else does. -/
theorem sentTo_eq (hj : j ≠ i) (hstep : ThreadStep full i m t t')
    (hphase : ∀ rest, t.phase ≠ .sending (j :: rest)) : sentTo m j t' = sentTo m j t := by
  have hmem : j ∈ otherNodes i := mem_otherNodes.mpr hj
  cases hstep with
  | send j' rest k =>
    have hjj : j ≠ j' := fun heq => hphase rest (heq ▸ rfl)
    simp [sentTo, hjj]
  | sent | wait | pass => simp [sentTo]
  | iterate k =>
    by_cases hsends : m.sends = true
    · simp [sentTo, hsends, RunThread.sending, hmem]
    · simp [sentTo, hsends]

/-- A thread that sends has put one message in each queue for every iteration, and another one
    in those that it has got to. -/
theorem sentTo_le (m : RunThread) (j : Fin n) (t : ThreadState n) :
    sentTo m j t ≤ t.iterations + 1 := by
  simp only [sentTo]
  split
  · split
    · split <;> omega
    · exact Nat.le_refl _
  · exact Nat.zero_le _

theorem le_sentTo (hsends : m.sends = true) (j : Fin n) (t : ThreadState n) :
    t.iterations ≤ sentTo m j t := by
  simp only [sentTo, if_pos hsends]
  split
  · split <;> omega
  · omega

/-- How many nodes a thread has to go through before its next iteration. -/
def steps (i : Fin n) (t : ThreadState n) : Nat :=
  match t.phase with
  | .sending rest => rest.length + (otherNodes i).length + 1
  | .checking rest => rest.length

/-- Without full queues every step brings a thread closer to its next iteration. -/
theorem steps_step (hstep : ThreadStep full i m t t') (hfull : ∀ j, j ≠ i → ¬ full j)
    (h : t.Orderly i m) : t'.iterations = t.iterations + 1 ∨
      (t'.iterations = t.iterations ∧ t'.steps i < t.steps i) := by
  cases hstep with
  | send j rest k => exact Or.inr ⟨rfl, by simp [steps]⟩
  | sent k => exact Or.inr ⟨rfl, by simp [steps]⟩
  | wait j rest k hj =>
    have hmem : j ∈ otherNodes i := h.suffix.subset List.mem_cons_self
    exact absurd hj (hfull j (mem_otherNodes.mp hmem))
  | pass j rest k => exact Or.inr ⟨rfl, by simp [steps]⟩
  | iterate k => exact Or.inl rfl

theorem iterations_le (hstep : ThreadStep full i m t t') : t.iterations ≤ t'.iterations := by
  cases hstep with
  | send | sent | wait | pass => exact Nat.le_refl _
  | iterate => exact Nat.le_succ _

/-- The iterations of a thread, with the one that it may begin without another look at the queue
    for `j`. -/
def credit (j : Fin n) (t : ThreadState n) : Nat :=
  match t.phase with
  | .sending _ => t.iterations
  | .checking rest => if j ∈ rest then t.iterations else t.iterations + 1

theorem iterations_le_credit (j : Fin n) (t : ThreadState n) : t.iterations ≤ t.credit j := by
  simp only [credit]
  split
  · exact Nat.le_refl _
  · split <;> omega

/-- As long as the queue for `j` is full, a thread begins one more iteration at most. -/
theorem credit_step (hj : j ≠ i) (hfull : full j) (hstep : ThreadStep full i m t t') :
    t'.credit j ≤ t.credit j := by
  have hmem : j ∈ otherNodes i := mem_otherNodes.mpr hj
  cases hstep with
  | send j' rest k => exact Nat.le_refl _
  | sent k => simp [credit, hmem]
  | wait j' rest k =>
    simp only [credit, hmem, if_true]
    split <;> omega
  | pass j' rest k hfull' =>
    have hjj : j ≠ j' := fun heq => hfull' (heq ▸ hfull)
    simp [credit, hjj]
  | iterate k => simp [credit, RunThread.sending]

end ThreadState

/-! ## All processors -/

namespace Mesh

open ThreadState

variable {behavior : Fin n → ByzBehavior} {net net' : Mesh n δ} {a : Label n δ}

/-- The queue from `i` to `j` is considered full. -/
def Full (net : Mesh n δ) (i j : Fin n) : Prop := MAX_QUEUE_SIZE < (net.links i j).qsize

theorem setThread_self (t : ThreadState n) : (net.setThread i m t).threads i m = t := by
  simp [setThread]

theorem threadStep_runThread (b : ByzBehavior) (i : Fin n) (m : RunThread) (msg : δ) :
    ThreadStep (net.Full i) i m (net.threads i m) ((net.runThread b i m msg).threads i m) := by
  have hthread : net.threads i m = ⟨(net.threads i m).phase, (net.threads i m).iterations⟩ := rfl
  cases hphase : (net.threads i m).phase with
  | sending rest =>
    rw [hphase] at hthread
    cases rest with
    | nil =>
      simp only [runThread, hphase, setThread_self]
      rw [hthread]
      exact .sent _
    | cons j rest =>
      simp only [runThread, hphase, setThread_self]
      rw [hthread]
      exact .send j rest _
  | checking rest =>
    rw [hphase] at hthread
    cases rest with
    | nil =>
      simp only [runThread, hphase, setThread_self]
      rw [hthread]
      exact .iterate _
    | cons j rest =>
      simp only [runThread, hphase, setThread_self]
      rw [hthread]
      split
      · rename_i hfull
        exact .wait j rest _ hfull
      · rename_i hfull
        exact .pass j rest _ hfull

theorem threads_runThread_of_ne (b : ByzBehavior) (msg : δ) {k : Fin n} {m' : RunThread}
    (h : ¬ (k = i ∧ m' = m)) : (net.runThread b i m msg).threads k m' = net.threads k m' := by
  have hset : ∀ (net : Mesh n δ) t, (net.setThread i m t).threads k m' = net.threads k m' := by
    intro net t
    by_cases hk : k = i
    · subst hk
      simp [setThread, Function.update_of_ne fun hm => h ⟨rfl, hm⟩]
    · simp [setThread, Function.update_of_ne hk]
  cases hphase : (net.threads i m).phase with
  | sending rest =>
    cases rest with
    | nil => simp only [runThread, hphase, hset]
    | cons j rest =>
      simp only [runThread, hphase, hset]
      split <;> rfl
  | checking rest =>
    cases rest with
    | nil => simp only [runThread, hphase, hset]
    | cons j rest => simp only [runThread, hphase, hset]

theorem crashed_runThread (b : ByzBehavior) (msg : δ) :
    (net.runThread b i m msg).crashed = net.crashed := by
  cases hphase : (net.threads i m).phase with
  | sending rest =>
    cases rest with
    | nil =>
      simp only [runThread, hphase]
      rfl
    | cons j rest =>
      simp only [runThread, hphase]
      split <;> rfl
  | checking rest =>
    cases rest with
    | nil =>
      simp only [runThread, hphase]
      rfl
    | cons j rest =>
      simp only [runThread, hphase]
      rfl

variable [EmptyCollection δ]

/-- One thread of a processor takes its turn, or none does. -/
theorem threads_next (h : net.next behavior a = some net') (i : Fin n) :
    ((∀ m msg, a ≠ .thread i m msg) ∧ net'.threads i = net.threads i) ∨
      ∃ m msg, a = .thread i m msg ∧ (∀ m', m' ≠ m → net'.threads i m' = net.threads i m') ∧
        ThreadStep (net.Full i) i m (net.threads i m) (net'.threads i m) := by
  cases a with
  | thread k m msg =>
    simp only [Mesh.next, Option.ite_none_right_eq_some, Option.some.injEq] at h
    obtain ⟨-, rfl⟩ := h
    by_cases hik : i = k
    · subst hik
      exact Or.inr ⟨m, msg, rfl, fun m' hm => threads_runThread_of_ne _ msg fun h => hm h.2,
        threadStep_runThread (behavior i) i m msg⟩
    · refine Or.inl ⟨fun m' msg' heq => hik ?_, ?_⟩
      · cases heq
        rfl
      · funext m'
        exact threads_runThread_of_ne _ msg fun h => hik h.1
  | link i' j' e =>
    simp only [Mesh.next, Option.ite_none_right_eq_some, Option.map_eq_some_iff] at h
    obtain ⟨-, l, -, rfl⟩ := h
    exact Or.inl ⟨fun _ _ heq => (by cases heq), rfl⟩
  | crash k =>
    simp only [Mesh.next, Option.some.injEq] at h
    exact Or.inl ⟨fun _ _ heq => (by cases heq), h ▸ rfl⟩

/-- What holds of the threads and queues of all processors. -/
structure Limited (behavior : Fin n → ByzBehavior) (net : Mesh n δ) : Prop where
  orderly : ∀ i m, (net.threads i m).Orderly i m
  qsize : ∀ i j, j ≠ i →
    (net.links i j).qsize + ∑ m, permits m j (net.threads i m) ≤ MAX_QUEUE_SIZE + 3
  sent : ∀ i j, j ≠ i → (behavior i).sendsTo j →
    (net.links i j).sent.length = ∑ m, sentTo m j (net.threads i m)
  unsent : ∀ i j, j ≠ i → ¬ (behavior i).sendsTo j → (net.links i j).sent = []

/-- Three threads send. -/
theorem sum_permits_le (j : Fin n) (t : RunThread → ThreadState n) :
    ∑ m, permits m j (t m) ≤ 3 := by
  calc ∑ m, permits m j (t m) ≤ ∑ m : RunThread, if m.sends then 1 else 0 :=
        Finset.sum_le_sum fun m _ => permits_le m j (t m)
    _ = 3 := by decide

omit [EmptyCollection δ] in
theorem limited_init (behavior : Fin n → ByzBehavior) : Limited behavior (.init : Mesh n δ) where
  orderly i m := orderly_sending i m 0
  qsize i j hj := by
    have hle := sum_permits_le j fun m => ((.init : Mesh n δ).threads i m)
    simp only [init, Link.qsize, List.length_nil] at hle ⊢
    omega
  sent i j hj _ := by
    have hmem : j ∈ otherNodes i := mem_otherNodes.mpr hj
    have hzero : ∀ m, sentTo m j (⟨m.sending i, 0⟩ : ThreadState n) = 0 := by
      intro m
      by_cases hsends : m.sends = true
      · simp [sentTo, RunThread.sending, hsends, hmem]
      · simp [sentTo, hsends]
    simp only [init, List.length_nil, hzero, Finset.sum_const_zero]
  unsent _ _ _ _ := rfl

/-- A step of its own does not fill the queue of a link. -/
theorem qsize_next {l l' : Link δ} {id : Int} {e : Event} (h : l.next id e = some l') :
    l'.qsize ≤ l.qsize := by
  cases e with
  | getMsgFromQueue =>
    simp only [Link.next, Option.map_eq_some_iff] at h
    obtain ⟨s, hs, rfl⟩ := h
    simp only [Sender.getMsgFromQueue] at hs
    split at hs
    · rename_i msg msgQueue _ hqueue
      cases hs
      simp [Link.qsize, hqueue]
    · cases hs
  | send =>
    simp only [Link.next, Option.map_eq_some_iff] at h
    obtain ⟨r, hr, rfl⟩ := h
    simp only [Sender.send] at hr
    split at hr
    · cases hr
      exact Nat.le_refl _
    · cases hr
  | serve =>
    simp only [Link.next, Option.map_eq_some_iff] at h
    obtain ⟨msg, -, rfl⟩ := h
    exact Nat.le_refl _
  | recv =>
    simp only [Link.next, Option.bind_eq_some_iff, Option.map_eq_some_iff] at h
    obtain ⟨reply, -, s, hs, rfl⟩ := h
    simp only [Sender.recv] at hs
    split at hs
    · split at hs
      · cases hs
        exact Nat.le_refl _
      · cases hs
        exact Nat.le_refl _
    · cases hs

/-- Only the receiver dispatches. -/
theorem dispatched_next {l l' : Link δ} {id : Int} {e : Event} (h : l.next id e = some l')
    (hserve : e ≠ .serve) : l'.dispatched = l.dispatched := by
  cases e with
  | getMsgFromQueue | send =>
    simp only [Link.next, Option.map_eq_some_iff] at h
    obtain ⟨_, -, rfl⟩ := h
    rfl
  | serve => exact absurd rfl hserve
  | recv =>
    simp only [Link.next, Option.bind_eq_some_iff, Option.map_eq_some_iff] at h
    obtain ⟨_, -, _, -, rfl⟩ := h
    rfl

/-- Only a crash makes a processor crash. -/
theorem crashed_eq (h : net.next behavior a = some net') (hkind : kind a ≠ none) :
    net'.crashed = net.crashed := by
  cases a with
  | thread k m msg =>
    simp only [Mesh.next, Option.ite_none_right_eq_some, Option.some.injEq] at h
    obtain ⟨-, rfl⟩ := h
    exact crashed_runThread (behavior k) msg
  | link i' j' e =>
    simp only [Mesh.next, Option.ite_none_right_eq_some, Option.map_eq_some_iff] at h
    obtain ⟨-, l, -, rfl⟩ := h
    rfl
  | crash k => exact absurd rfl hkind

/-- Who has crashed does not come back. -/
theorem crashed_next (h : net.next behavior a = some net') (hj : j ∈ net.crashed) :
    j ∈ net'.crashed := by
  cases a with
  | thread | link =>
    rw [crashed_eq h (Option.some_ne_none _)]
    exact hj
  | crash k =>
    simp only [Mesh.next, Option.some.injEq] at h
    subst h
    exact Finset.mem_insert_of_mem hj

/-- A message is put in the queue from `i` to `j`. -/
structure Put (net net' : Mesh n δ) (i j : Fin n) : Prop where
  qsize : (net'.links i j).qsize = (net.links i j).qsize + 1
  sent : (net'.links i j).sent.length = (net.links i j).sent.length + 1
  permits : ∑ m, permits m j (net'.threads i m) + 1 = ∑ m, permits m j (net.threads i m)
  sentTo : ∑ m, sentTo m j (net'.threads i m) = ∑ m, sentTo m j (net.threads i m) + 1

/-- No message is put in the queue from `i` to `j`. -/
structure NoPut (net net' : Mesh n δ) (i j : Fin n) (sends : Bool) : Prop where
  qsize : (net'.links i j).qsize ≤ (net.links i j).qsize
  sent : (net'.links i j).sent = (net.links i j).sent
  permits : ∑ m, permits m j (net'.threads i m) ≤ ∑ m, permits m j (net.threads i m) ∨
    ¬ net.Full i j
  sentTo : sends → ∑ m, sentTo m j (net'.threads i m) = ∑ m, sentTo m j (net.threads i m)

/-- What a step does to the queue from `i` to `j`. -/
theorem queue_next (horderly : ∀ m, (net.threads i m).Orderly i m)
    (hsound : (net.links i j).Sound) (hnext : net.next behavior a = some net') (hj : j ≠ i) :
    ((behavior i).sendsTo j ∧ Put net net' i j) ∨ NoPut net net' i j ((behavior i).sendsTo j) := by
  cases links_next hnext i j with
  | put m msg rest hsends hphase hlink =>
    rcases threads_next hnext i with ⟨hnot, -⟩ | ⟨m', msg', heq, hothers, hstep⟩
    · exact absurd rfl (hnot m msg)
    · cases heq
      have hpermits := (horderly m).permits_send hstep hphase
      have hsent := (horderly m).sentTo_send hstep hphase
      have hpermits' := Counter.sum_add_of_ne (f := fun m => permits m j (net.threads i m))
        (g := fun m => permits m j (net'.threads i m)) fun m' hm => by rw [hothers m' hm]
      have hsent' := Counter.sum_add_of_ne (f := fun m => sentTo m j (net.threads i m))
        (g := fun m => sentTo m j (net'.threads i m)) fun m' hm => by rw [hothers m' hm]
      refine Or.inl ⟨hsends, ?_, ?_, by omega, by omega⟩
      · rw [hlink]
        simp [Link.qsize, Link.addMsgToQueue, Sender.addMsgToQueue]
      · rw [hlink]
        simp [Link.addMsgToQueue]
  | own e hactor hlink =>
    rcases threads_next hnext i with ⟨-, hthreads⟩ | ⟨m', msg', heq, -⟩
    · have hsent := (hsound.next hlink).2.2.2
      exact Or.inr ⟨qsize_next hlink, hsent, Or.inl (by rw [hthreads]), fun _ => by rw [hthreads]⟩
    · cases heq
  | none _ hother hthread hlink =>
    rcases threads_next hnext i with ⟨-, hthreads⟩ | ⟨m, msg, heq, hothers, hstep⟩
    · exact Or.inr ⟨by rw [hlink], by rw [hlink], Or.inl (by rw [hthreads]),
        fun _ => by rw [hthreads]⟩
    · have hpermits' := Counter.sum_add_of_ne (f := fun m => permits m j (net.threads i m))
        (g := fun m => permits m j (net'.threads i m)) fun m' hm => by rw [hothers m' hm]
      have hsent' := Counter.sum_add_of_ne (f := fun m => sentTo m j (net.threads i m))
        (g := fun m => sentTo m j (net'.threads i m)) fun m' hm => by rw [hothers m' hm]
      refine Or.inr ⟨by rw [hlink], by rw [hlink], ?_, fun hsends => ?_⟩
      · exact ((horderly m).permits_step hj hstep).imp_left fun hle => by omega
      · have hsent := sentTo_eq hj hstep fun rest hphase => hthread m msg rest heq hphase hsends
        omega

theorem limited (h : (system behavior).Reachable net) : Limited behavior net := by
  induction h with
  | init hinit =>
    simp only [system] at hinit
    subst hinit
    exact limited_init behavior
  | @step net net' a hr _ hstep ih =>
    refine ⟨fun i m => ?_, fun i j hj => ?_, fun i j hj hsends => ?_, fun i j hj hsends => ?_⟩
    · rcases threads_next hstep i with ⟨-, hthreads⟩ | ⟨m', msg, -, hothers, hstep'⟩
      · rw [hthreads]
        exact ih.orderly i m
      · by_cases hm : m = m'
        · exact hm ▸ (ih.orderly i m').step hstep'
        · rw [hothers m hm]
          exact ih.orderly i m
    · have hsize := ih.qsize i j hj
      rcases queue_next (ih.orderly i) (sound hr i j) hstep hj with ⟨-, hput⟩ | hput
      · have hqsize := hput.qsize
        have hpermits := hput.permits
        omega
      · have hqsize := hput.qsize
        cases hput.permits with
        | inl hpermits => omega
        | inr hfull =>
          -- the queue is not full, and the permits are three at most
          have hthree := sum_permits_le j (net'.threads i)
          simp only [Full] at hfull
          omega
    · have hsent := ih.sent i j hj hsends
      rcases queue_next (ih.orderly i) (sound hr i j) hstep hj with ⟨-, hput⟩ | hput
      · rw [hput.sent, hput.sentTo, hsent]
      · rw [hput.sent, hput.sentTo hsends, hsent]
    · rcases queue_next (ih.orderly i) (sound hr i j) hstep hj with ⟨hsends', -⟩ | hput
      · exact absurd hsends' hsends
      · rw [hput.sent]
        exact ih.unsent i j hj hsends

omit [EmptyCollection δ] in
/-- Few iterations make few messages. -/
theorem Limited.sent_le (h : Limited behavior net) (hj : j ≠ i) {k : Nat}
    (hbound : ∀ m : RunThread, m.sends → (net.threads i m).iterations ≤ k) :
    (net.links i j).sent.length ≤ 4 * (k + 1) := by
  by_cases hsends : (behavior i).sendsTo j = true
  · have hle : ∀ m, sentTo m j (net.threads i m) ≤ k + 1 := by
      intro m
      by_cases hm : m.sends = true
      · have hone := sentTo_le m j (net.threads i m)
        have hmany := hbound m hm
        omega
      · simp [sentTo, hm]
    rw [h.sent i j hj hsends]
    calc ∑ m, sentTo m j (net.threads i m) ≤ ∑ _m : RunThread, (k + 1) :=
          Finset.sum_le_sum fun m _ => hle m
      _ = 4 * (k + 1) := by
          rw [Finset.sum_const, smul_eq_mul]
          rfl
  · rw [h.unsent i j hj hsends]
    exact Nat.zero_le _

/-- In every run, no sender raises an exception, though its counter grows with every message and
    never wraps around; what was put in a queue is dispatched in this order and once, or is in the
    queue, but for at most one message; and the queue holds at most three messages more than the
    limit. -/
theorem exactly_once (h : (system behavior).Reachable net) (hij : i ≠ j) :
    (net.links i j).sender.phase ≠ .failed ∧
      ((net.links i j).dispatched.length : Int) ≤ (net.links i j).sender.counter ∧
      (∃ onTheWay, onTheWay.length ≤ 1 ∧ (net.links i j).sent =
        (net.links i j).dispatched ++ onTheWay ++ (net.links i j).sender.msgQueue) ∧
      (net.links i j).qsize ≤ MAX_QUEUE_SIZE + 3 := by
  have hsound := sound h i j
  have hsize := (limited h).qsize i j hij.symm
  have hstage : (net.links i j).sender.phase ≠ .failed ∧
      ((net.links i j).dispatched.length : Int) ≤ (net.links i j).sender.counter := by
    cases hsound.stage with
    | waiting hphase hrequest hreply hcounter => exact ⟨by simp [hphase], by omega⟩
    | holding data hphase hrequest hreply hcounter => exact ⟨by simp [hphase], by omega⟩
    | requested m hphase hrequest hreply hcounter => exact ⟨by simp [hphase], by omega⟩
    | replied m hphase hrequest hreply hcounter => exact ⟨by simp [hphase], by omega⟩
  exact ⟨hstage.1, hstage.2, hsound.sent, by omega⟩

/-- The threads of processor `i` iterate three times, and one of them once more. By then each has
    seen its queues below the limit and sends again. -/
def overfull (i : Fin n) (msg : δ) : List (Label n δ) :=
  let turns (m : RunThread) (k : Nat) : List (Label n δ) := List.replicate k (.thread i m msg)
  (List.replicate 3 (turns .viewEstablishment 4 ++ turns .replication 4 ++
    turns .primaryMonitoring 4)).flatten ++ turns .viewEstablishment 5 ++ turns .replication 1 ++
    turns .primaryMonitoring 1

/-- The bound on a queue is reached. -/
theorem exactly_once_two : ∃ net : Mesh 2 (List Nat),
    (system fun _ => .none).Reachable net ∧ (net.links 0 1).qsize = MAX_QUEUE_SIZE + 3 ∧
      (net.links 0 1).sender.phase ≠ .failed := by
  have hinit : (system fun _ : Fin 2 => .none).Reachable (.init : Mesh 2 (List Nat)) := .init rfl
  have hexec : (System.exec (fun net : Mesh 2 (List Nat) => net.next fun _ => .none) .init
      (overfull 0 [1])).any (fun net => (net.links 0 1).qsize = MAX_QUEUE_SIZE + 3) = true := by
    decide
  obtain ⟨net, hnet, hsize⟩ :=
    System.Run.exists_of_exec (fun _ _ _ h => ⟨trivial, h⟩) hinit hexec
  exact ⟨net, hnet, of_decide_eq_true hsize, (exactly_once hnet (by decide)).1⟩

/-! ## Fair runs -/

section Fair

variable {s : Nat → Mesh n δ} {e : Nat → Option (Label n δ)}
  (h : (system behavior).FairRun kind s e)

include h

/-- A thread iterates more and more often. -/
theorem iterations_mono (i : Fin n) (m : RunThread) {t t' : Nat} (htt' : t ≤ t') :
    ((s t).threads i m).iterations ≤ ((s t').threads i m).iterations := by
  apply h.of_le (I := fun net net' =>
    (net.threads i m).iterations ≤ (net'.threads i m).iterations)
    (fun _ => Nat.le_refl _) (fun _ _ _ => Nat.le_trans) _ htt'
  intro t a _ hstep
  rcases threads_next hstep i with ⟨-, hthreads⟩ | ⟨m', msg, -, hothers, hstep'⟩
  · rw [hthreads]
  · by_cases hm : m = m'
    · subst hm
      exact iterations_le hstep'
    · rw [hothers m hm]

/-- A thread whose processor has no full queue iterates again. -/
theorem iterates (hi : ∀ t, i ∉ (s t).crashed) (m : RunThread) {t₀ : Nat}
    (hfull : ∀ t, t₀ ≤ t → ∀ j, j ≠ i → ¬ (s t).Full i j) {t : Nat} (ht : t₀ ≤ t) :
    ∃ t', t ≤ t' ∧ ((s t).threads i m).iterations < ((s t').threads i m).iterations := by
  by_contra hnever
  have hsame : ∀ t', t ≤ t' →
      ((s t').threads i m).iterations = ((s t).threads i m).iterations := by
    intro t' htt'
    have hle := iterations_mono h i m htt'
    have hnot : ¬ ((s t).threads i m).iterations < ((s t').threads i m).iterations :=
      fun hlt => hnever ⟨t', htt', hlt⟩
    omega
  -- then every turn of the thread brings it closer to the next iteration
  have hturn : ∀ t', t ≤ t' → ∀ msg, e t' = some (.thread i m msg) →
      ((s (t' + 1)).threads i m).steps i < ((s t').threads i m).steps i := by
    intro t' htt' msg he
    have horderly := (limited (h.reachable t')).orderly i m
    rcases threads_next (h.step t' _ he) i with ⟨hnot, -⟩ | ⟨m', msg', heq, -, hstep⟩
    · exact absurd rfl (hnot m msg)
    · cases heq
      have h₀ := hsame t' htt'
      have h₁ := hsame (t' + 1) (by omega)
      cases steps_step hstep (hfull t' (by omega)) horderly with
      | inl hiterates => omega
      | inr hcloser => exact hcloser.2
  have htaken : ∀ t', ∃ t'', t' ≤ t'' ∧ ∃ msg, e t'' = some (.thread i m msg) := by
    intro t'
    obtain ⟨t'', htt'', a, ha, hkind⟩ := h.fair t' (.thread i m) fun t'' _ =>
      ⟨.thread i m ∅, _, rfl, by
        show (s t'').next behavior _ = _
        rw [Mesh.next, if_pos (hi t'')]⟩
    cases a with
    | thread i' m' msg =>
      cases hkind
      exact ⟨t'', htt'', msg, ha⟩
    | link | crash => cases hkind
  have hzero : System.Settles s fun net => (net.threads i m).steps i = 0 := by
    apply System.Settles.of_measure (i := t)
    · intro t' htt'
      apply h.kept_next (P := fun net =>
        (net.threads i m).steps i ≤ ((s t').threads i m).steps i) (Nat.le_refl _)
      intro a he hstep
      rcases threads_next hstep i with ⟨-, hthreads⟩ | ⟨m', msg, heq, hothers, -⟩
      · rw [hthreads]
      · by_cases hm : m = m'
        · subst hm
          exact Nat.le_of_lt (hturn t' htt' msg (heq ▸ he))
        · rw [hothers m hm]
    · intro t' htt'
      obtain ⟨t'', htt'', msg, he⟩ := htaken t'
      exact ⟨t'', htt'', Or.inr (hturn t'' (by omega) msg he)⟩
  obtain ⟨t₁, ht₁⟩ := hzero
  obtain ⟨t', htt', msg, he⟩ := htaken (max t t₁)
  have hcloser := hturn t' (by omega) msg he
  have hnone := ht₁ t' (by omega)
  omega

/-- A queue that gets no new message gets no longer. -/
theorem qsize_le (hj : j ≠ i) {t : Nat}
    (hsent : ((s (t + 1)).links i j).sent.length = ((s t).links i j).sent.length) :
    ((s (t + 1)).links i j).qsize ≤ ((s t).links i j).qsize := by
  cases he : e t with
  | none => rw [h.idle t he]
  | some a =>
    have horderly := (limited (h.reachable t)).orderly i
    rcases queue_next horderly (sound (h.reachable t) i j) (h.step t a he) hj with ⟨-, hput⟩ | hput
    · have hmore := hput.sent
      omega
    · exact hput.qsize

/-- From some moment on no message is put in a queue that gets only so many. -/
theorem sent_settles {b : Nat} (hb : ∀ t, ((s t).links i j).sent.length ≤ b) :
    ∃ v, System.Settles s fun net => (net.links i j).sent.length = v :=
  System.Settles.of_bounded (fun net : Mesh n δ => (net.links i j).sent.length)
    (fun t => sent_le h i j (Nat.le_succ t)) hb

/-- If only so many messages are put in a queue, and both processors work, it is full no more. -/
theorem queue_settles (hi : ∀ t, i ∉ (s t).crashed) (hj : ∀ t, j ∉ (s t).crashed)
    (hij : j ≠ i) (hresponsive : behavior i ≠ .unresponsive) {b : Nat}
    (hb : ∀ t, ((s t).links i j).sent.length ≤ b) :
    System.Settles s fun net => ¬ net.Full i j := by
  obtain ⟨v, t₀, ht₀⟩ := sent_settles h hb
  apply System.Settles.of_kept (i := t₀)
  · intro t ht hfull
    have hsent : ((s (t + 1)).links i j).sent.length = ((s t).links i j).sent.length := by
      rw [ht₀ t ht, ht₀ (t + 1) (by omega)]
    have hle := qsize_le h hij hsent
    simp only [Full] at hfull ⊢
    omega
  · -- the last message is dispatched, and then the queue is empty
    have hall : ∃ t, t₀ ≤ t ∧ v ≤ ((s t).links i j).dispatched.length := by
      by_cases hv : v = 0
      · exact ⟨t₀, Nat.le_refl t₀, by omega⟩
      · have hlast := ht₀ t₀ (Nat.le_refl t₀)
        obtain ⟨t, ht, hlt⟩ := dispatched_of_sent h hi hj hij.symm hresponsive (v - 1) t₀ (by omega)
        exact ⟨t, ht, by omega⟩
    obtain ⟨t, ht, hdispatched⟩ := hall
    refine ⟨t, ht, ?_⟩
    obtain ⟨onTheWay, -, hsent⟩ := (sound (h.reachable t) i j).sent
    have hlength := congrArg List.length hsent
    rw [ht₀ t ht, List.length_append, List.length_append] at hlength
    simp only [Full, Link.qsize, MAX_QUEUE_SIZE]
    omega

/-- Every thread of a processor that comes to have no full queue iterates for ever. -/
theorem iterations_of_settles (hi : ∀ t, i ∉ (s t).crashed) (m : RunThread)
    (hfull : System.Settles s fun net => ∀ j, j ≠ i → ¬ net.Full i j) (c : Nat) :
    ∃ t, c ≤ ((s t).threads i m).iterations := by
  obtain ⟨t₀, ht₀⟩ := hfull
  have hmore : ∃ t, t₀ ≤ t ∧ c ≤ ((s t).threads i m).iterations := by
    induction c with
    | zero => exact ⟨t₀, Nat.le_refl t₀, Nat.zero_le _⟩
    | succ c ih =>
      obtain ⟨t, ht, hc⟩ := ih
      obtain ⟨t', htt', hlt⟩ := iterates h hi m ht₀ ht
      exact ⟨t', by omega, by omega⟩
  obtain ⟨t, -, hc⟩ := hmore
  exact ⟨t, hc⟩

/-- A processor that works goes on for ever if all it sends to do so. -/
theorem iterations_unbounded (hi : ∀ t, i ∉ (s t).crashed)
    (hothers : ∀ j, j ≠ i → (behavior i).sendsTo j → ∀ t, j ∉ (s t).crashed) (k : Nat) :
    ∃ t, k ≤ ∑ m, ((s t).threads i m).iterations := by
  by_contra hnever
  have hbound : ∀ t m, ((s t).threads i m).iterations ≤ k := by
    intro t m
    have hle := Finset.single_le_sum (f := fun m => ((s t).threads i m).iterations)
      (fun _ _ => Nat.zero_le _) (Finset.mem_univ m)
    have hlt : ¬ k ≤ ∑ m, ((s t).threads i m).iterations := fun hk => hnever ⟨t, hk⟩
    omega
  -- so only so many messages are put in the queues, which empty
  have hfull : System.Settles s fun net => ∀ j, j ≠ i → ¬ net.Full i j := by
    apply System.Settles.all
    intro j
    by_cases hj : j = i
    · exact .of_forall fun _ hji => absurd hj hji
    · by_cases hsends : (behavior i).sendsTo j = true
      · have hresponsive := ne_unresponsive hsends
        have hsent : ∀ t, ((s t).links i j).sent.length ≤ 4 * (k + 1) := fun t =>
          (limited (h.reachable t)).sent_le hj fun m _ => hbound t m
        exact (queue_settles h hi (hothers j hj hsends) hj hresponsive hsent).mono
          fun _ hnot _ => hnot
      · -- nothing is ever put in this queue
        refine .of_forall fun t _ => ?_
        obtain ⟨onTheWay, -, hnone⟩ := (sound (h.reachable t) i j).sent
        rw [(limited (h.reachable t)).unsent i j hj hsends] at hnone
        have hlength := congrArg List.length hnone
        simp only [List.length_nil, List.length_append] at hlength
        simp only [Full, Link.qsize, MAX_QUEUE_SIZE]
        omega
  -- then a thread iterates more often than that
  obtain ⟨t, hlt⟩ := iterations_of_settles h hi .replication hfull (k + 1)
  have hle := hbound t .replication
  omega

/-- A crashed processor dispatches nothing. -/
theorem dispatched_of_crashed {t₀ t : Nat} (hj : j ∈ (s t₀).crashed) (ht : t₀ ≤ t) :
    j ∈ (s t).crashed ∧ ((s t).links i j).dispatched = ((s t₀).links i j).dispatched := by
  apply h.kept_of_le (P := fun net =>
    j ∈ net.crashed ∧ (net.links i j).dispatched = ((s t₀).links i j).dispatched) _ ht ⟨hj, rfl⟩
  intro t a hstep ⟨hcrashed, hsame⟩
  refine ⟨crashed_next hstep hcrashed, ?_⟩
  cases links_next hstep i j with
  | put m msg rest hsends hphase hlink =>
    rw [hlink]
    exact hsame
  | own e hactor hlink =>
    have hserve : e ≠ .serve := by
      intro heq
      rw [heq] at hactor
      exact hactor hcrashed
    rw [dispatched_next hlink hserve]
    exact hsame
  | none _ hother hthread hlink =>
    rw [hlink]
    exact hsame

/-- As long as a queue is full, each thread begins one more iteration at most. -/
theorem credit_le (hj : j ≠ i) (m : RunThread) {t₀ : Nat} (hfull : ∀ t, t₀ ≤ t → (s t).Full i j)
    {t : Nat} (ht : t₀ ≤ t) :
    ((s t).threads i m).credit j ≤ ((s t₀).threads i m).credit j := by
  induction ht with
  | refl => exact Nat.le_refl _
  | @step t ht ih =>
    apply h.kept_next (P := fun net =>
      (net.threads i m).credit j ≤ ((s t₀).threads i m).credit j) ih
    intro a _ hstep
    rcases threads_next hstep i with ⟨-, hthreads⟩ | ⟨m', msg, -, hothers, hstep'⟩
    · rw [hthreads]
      exact ih
    · by_cases hm : m = m'
      · subst hm
        exact (credit_step hj (hfull t ht) hstep').trans ih
      · rw [hothers m hm]
        exact ih

/-- A processor that sends to one that has crashed comes to a halt. -/
theorem iterations_bounded (hi : ∀ t, i ∉ (s t).crashed) (hj : j ≠ i)
    (hsends : (behavior i).sendsTo j) {t₀ : Nat} (hcrashed : j ∈ (s t₀).crashed) :
    ∃ b, ∀ t, ∑ m, ((s t).threads i m).iterations ≤ b := by
  -- only so many messages are put in the queue for the crashed processor
  have hsent : ∃ b, ∀ t, ((s t).links i j).sent.length ≤ b := by
    refine ⟨((s t₀).links i j).dispatched.length + 1 + (MAX_QUEUE_SIZE + 3), fun t => ?_⟩
    have hmono := sent_le h i j (Nat.le_max_left t t₀)
    have hdispatched := (dispatched_of_crashed h (i := i) hcrashed (Nat.le_max_right t t₀)).2
    obtain ⟨onTheWay, hone, hsent⟩ := (sound (h.reachable (max t t₀)) i j).sent
    have hsize := (limited (h.reachable (max t t₀))).qsize i j hj
    have hlength := congrArg List.length hsent
    rw [List.length_append, List.length_append, hdispatched] at hlength
    simp only [Link.qsize] at hsize
    omega
  obtain ⟨b, hb⟩ := hsent
  have hsenders : ∀ t (m : RunThread), m.sends → ((s t).threads i m).iterations ≤ b := by
    intro t m hm
    have hone := le_sentTo hm j ((s t).threads i m)
    have hle := Finset.single_le_sum (f := fun m => sentTo m j ((s t).threads i m))
      (fun _ _ => Nat.zero_le _) (Finset.mem_univ m)
    have hsent := (limited (h.reachable t)).sent i j hj hsends
    have hbound := hb t
    omega
  -- so from some moment on no message is put in any queue
  have hquiet : ∃ t₁, ∀ t, t₁ ≤ t → ∀ k, k ≠ i →
      ((s (t + 1)).links i k).sent.length = ((s t).links i k).sent.length := by
    have hsettles : ∀ k, ∃ v, System.Settles s fun net =>
        k ≠ i → (net.links i k).sent.length = v := by
      intro k
      by_cases hk : k = i
      · exact ⟨0, .of_forall fun _ hki => absurd hk hki⟩
      · obtain ⟨v, hv⟩ := sent_settles h (b := 4 * (b + 1)) fun t =>
          (limited (h.reachable t)).sent_le hk (hsenders t)
        exact ⟨v, System.Settles.mono hv fun _ hsent _ => hsent⟩
    choose v hv using hsettles
    obtain ⟨t₁, ht₁⟩ := System.Settles.all hv
    exact ⟨t₁, fun t ht k hk => by rw [ht₁ t ht k hk, ht₁ (t + 1) (by omega) k hk]⟩
  obtain ⟨t₁, ht₁⟩ := hquiet
  by_cases hclear : ∀ k, k ≠ i → ∃ t, t₁ ≤ t ∧ ¬ (s t).Full i k
  · -- without a full queue, a thread that sends would go on
    have hsettles : System.Settles s fun net => ∀ k, k ≠ i → ¬ net.Full i k := by
      apply System.Settles.all
      intro k
      by_cases hk : k = i
      · exact .of_forall fun _ hki => absurd hk hki
      · obtain ⟨t, ht, hnot⟩ := hclear k hk
        apply System.Settles.of_kept (i := t₁) _ ⟨t, ht, fun _ => hnot⟩
        intro t' ht' hbefore _
        have hbefore' := hbefore hk
        have hle := qsize_le h hk (ht₁ t' ht' k hk)
        simp only [Full] at hbefore' ⊢
        omega
    obtain ⟨t, hlt⟩ := iterations_of_settles h hi .replication hsettles (b + 1)
    have hle := hsenders t .replication rfl
    omega
  · -- a queue stays full, and no thread gets past it
    obtain ⟨k, hk⟩ := not_forall.mp hclear
    obtain ⟨hki, hfull⟩ := Classical.not_imp.mp hk
    refine ⟨∑ m, ((s t₁).threads i m).credit k, fun t => Finset.sum_le_sum fun m _ => ?_⟩
    have hstays : ∀ t', t₁ ≤ t' → (s t').Full i k := fun t' ht' =>
      not_not.mp fun hnot => hfull ⟨t', ht', hnot⟩
    have hcredit := credit_le h hki m hstays (Nat.le_max_right t t₁)
    have hmono := iterations_mono h i m (Nat.le_max_left t t₁)
    exact hmono.trans ((iterations_le_credit k _).trans hcredit)

end Fair

/-- In every fair run, a processor that does not crash gets its messages through to all others
    that do not; and its threads together iterate without bound, so that some module goes on for
    ever, just if nobody crashes that it sends to. -/
theorem goes_on_iff {s : Nat → Mesh n δ} {e : Nat → Option (Label n δ)}
    (h : (system behavior).FairRun kind s e) (hi : ∀ t, i ∉ (s t).crashed) :
    (∀ j, j ≠ i → (behavior i).sendsTo j → (∀ t, j ∉ (s t).crashed) → ∀ k,
      System.LeadsTo s (fun net => k < (net.links i j).sent.length)
        fun net => k < (net.links i j).dispatched.length) ∧
    ((∀ k, ∃ t, k ≤ ∑ m, ((s t).threads i m).iterations) ↔
      ∀ j, j ≠ i → (behavior i).sendsTo j → ∀ t, j ∉ (s t).crashed) := by
  refine ⟨fun j hj hsends hjt k => ?_, fun hgoes j hj hsends t hcrashed => ?_,
    fun hothers k => iterations_unbounded h hi hothers k⟩
  · exact dispatched_of_sent h hi hjt hj.symm (ne_unresponsive hsends) k
  · obtain ⟨b, hb⟩ := iterations_bounded h hi hj hsends hcrashed
    obtain ⟨t', ht'⟩ := hgoes (b + 1)
    have hle := hb t'
    omega

/-- Three processors of which the last one is unresponsive have a fair run without a crash, and
    the threads of the first one come to a hundred iterations. -/
theorem goes_on_iff_three : ∃ (s : Nat → Mesh 3 (List Nat)) (e : Nat → Option (Label 3 (List Nat))),
    (system fun i => if i = 2 then .unresponsive else .none).FairRun kind s e ∧
      ∃ t, 100 ≤ ∑ m, ((s t).threads 0 m).iterations := by
  obtain ⟨s, e, hrun, hfirst, hlabels⟩ := @System.FairRun.exists_of_init _ _ _
    (system fun i : Fin 3 => if i = 2 then .unresponsive else .none) kind _
    (.init : Mesh 3 (List Nat)) rfl
  have hnone : ∀ t, (s t).crashed = ∅ := by
    intro t
    induction t with
    | zero => rw [hfirst, init]
    | succ t ih =>
      apply hrun.kept_next (P := fun net => net.crashed = ∅) ih
      intro a he hstep
      rw [← ih]
      exact crashed_eq hstep (hlabels t a he)
  have halive : ∀ (i : Fin 3) t, i ∉ (s t).crashed := by
    intro i t
    rw [hnone t]
    exact Finset.notMem_empty i
  exact ⟨s, e, hrun, (goes_on_iff hrun (halive 0)).2.mpr (fun j _ _ => halive j) 100⟩

end Mesh

end ZeroMq

end BFTList
