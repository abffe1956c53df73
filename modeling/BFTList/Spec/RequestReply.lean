import BFTList.ForStd.Fairness
import BFTList.Native.ZeroMq
import Mathlib.Data.List.Basic
import Mathlib.Tactic.DeriveCountable

/-!
# Request and reply

A sender and the receiver at the other end take turns: a message is taken from the queue, sent,
dispatched and acknowledged before the next one is taken. So the counters always agree, and what
is dispatched is what was put in the queue, in the same order and once, up to the one message on
its way.

## Key results

- `Link.Sound.next`: one step of a link
- `Mesh.sound`: every link in every run
- `Mesh.dispatched_of_sent`: in a fair run, every message reaches a processor that does not crash
-/

namespace BFTList

namespace ZeroMq

variable {δ : Type*} [EmptyCollection δ] {n : Nat}

/-! ## One link -/

namespace Link

variable {l l' : Link δ} {id : Int} {e : Event} {msg : δ}

/-- Where a link is between two messages. -/
inductive Stage (l : Link δ) : Prop
  | waiting (hphase : l.sender.phase = .waiting) (hrequest : l.request = none)
      (hreply : l.reply = none) (hcounter : l.sender.counter = l.dispatched.length + 1)
      (hsent : l.sent = l.dispatched ++ l.sender.msgQueue)
  | holding (data : δ) (hphase : l.sender.phase = .holding data) (hrequest : l.request = none)
      (hreply : l.reply = none) (hcounter : l.sender.counter = l.dispatched.length + 1)
      (hsent : l.sent = l.dispatched ++ data :: l.sender.msgQueue)
  | requested (m : Message δ) (hphase : l.sender.phase = .awaiting) (hrequest : l.request = some m)
      (hreply : l.reply = none) (hcounter : l.sender.counter = l.dispatched.length + 1)
      (hsame : m.counter = l.sender.counter)
      (hsent : l.sent = l.dispatched ++ m.data :: l.sender.msgQueue)
  | replied (m : Message δ) (hphase : l.sender.phase = .awaiting) (hrequest : l.request = none)
      (hreply : l.reply = some m) (hcounter : l.sender.counter = l.dispatched.length)
      (hsame : m.counter = l.sender.counter) (hsent : l.sent = l.dispatched ++ l.sender.msgQueue)

/-- A link in working order. -/
structure Sound (l : Link δ) : Prop where
  cap : l.sender.cap = 2147483648
  stage : l.Stage

/-- The step that is due, if there is anything to do. -/
def due (l : Link δ) : Option Event :=
  match l.sender.phase with
  | .waiting => if l.sender.msgQueue = [] then none else some .getMsgFromQueue
  | .holding _ => some .send
  | .awaiting => if l.reply = none then some .serve else some .recv
  | .failed => none

/-- How many steps the link has taken. -/
def position (l : Link δ) : Nat :=
  4 * l.dispatched.length +
    match l.sender.phase with
    | .waiting => 1
    | .holding _ => 2
    | .awaiting => if l.reply = none then 3 else 0
    | .failed => 0

omit [EmptyCollection δ] in
theorem sound_init (id : Int) : ({ sender := { id := id } } : Link δ).Sound :=
  ⟨rfl, .waiting rfl rfl rfl rfl rfl⟩

omit [EmptyCollection δ] in
theorem Sound.addMsgToQueue (h : l.Sound) (msg : δ) : (l.addMsgToQueue msg).Sound := by
  refine ⟨h.cap, ?_⟩
  cases h.stage with
  | waiting hphase hrequest hreply hcounter hsent =>
    exact .waiting hphase hrequest hreply hcounter
      (by simp [Link.addMsgToQueue, Sender.addMsgToQueue, hsent])
  | holding data hphase hrequest hreply hcounter hsent =>
    exact .holding data hphase hrequest hreply hcounter
      (by simp [Link.addMsgToQueue, Sender.addMsgToQueue, hsent])
  | requested m hphase hrequest hreply hcounter hsame hsent =>
    exact .requested m hphase hrequest hreply hcounter hsame
      (by simp [Link.addMsgToQueue, Sender.addMsgToQueue, hsent])
  | replied m hphase hrequest hreply hcounter hsame hsent =>
    exact .replied m hphase hrequest hreply hcounter hsame
      (by simp [Link.addMsgToQueue, Sender.addMsgToQueue, hsent])

/-- Only the step that is due is possible; it keeps the link in working order and brings it one
    step on, without a new message. -/
theorem Sound.next (h : l.Sound) (hnext : l.next id e = some l') :
    l'.Sound ∧ l.due = some e ∧ l'.position = l.position + 1 ∧ l'.sent = l.sent := by
  obtain ⟨hcap, hstage⟩ := h
  cases hstage with
  | waiting hphase hrequest hreply hcounter hsent =>
    cases e with
    | getMsgFromQueue =>
      cases hqueue : l.sender.msgQueue with
      | nil => simp [Link.next, Sender.getMsgFromQueue, hphase, hqueue] at hnext
      | cons msg msgQueue =>
        simp only [Link.next, Sender.getMsgFromQueue, hphase, hqueue, Option.map_some,
          Option.some.injEq] at hnext
        subst hnext
        refine ⟨⟨hcap, .holding msg rfl hrequest hreply hcounter (hqueue ▸ hsent)⟩, ?_, ?_, rfl⟩
        · simp [due, hphase, hqueue]
        · simp [position, hphase]
    | send => simp [Link.next, Sender.send, hphase] at hnext
    | serve => simp [Link.next, hrequest] at hnext
    | recv => simp [Link.next, hreply] at hnext
  | holding data hphase hrequest hreply hcounter hsent =>
    cases e with
    | getMsgFromQueue => simp [Link.next, Sender.getMsgFromQueue, hphase] at hnext
    | send =>
      simp only [Link.next, Sender.send, hphase, Option.map_some, Option.some.injEq] at hnext
      subst hnext
      refine ⟨⟨hcap, .requested _ rfl rfl hreply hcounter rfl hsent⟩, ?_, ?_, rfl⟩
      · simp [due, hphase]
      · simp [position, hphase, hreply]
    | serve => simp [Link.next, hrequest] at hnext
    | recv => simp [Link.next, hreply] at hnext
  | requested m hphase hrequest hreply hcounter hsame hsent =>
    cases e with
    | getMsgFromQueue => simp [Link.next, Sender.getMsgFromQueue, hphase] at hnext
    | send => simp [Link.next, Sender.send, hphase] at hnext
    | serve =>
      simp only [Link.next, hrequest, Option.map_some, Option.some.injEq] at hnext
      subst hnext
      refine ⟨⟨hcap, .replied _ hphase rfl rfl ?_ hsame ?_⟩, ?_, ?_, rfl⟩
      · simp [hcounter]
      · simp [hsent]
      · simp [due, hphase, hreply]
      · simp only [position, hphase, hreply, List.length_append, List.length_singleton,
          if_true, if_neg (Option.some_ne_none _)]
        omega
    | recv => simp [Link.next, hreply] at hnext
  | replied m hphase hrequest hreply hcounter hsame hsent =>
    cases e with
    | getMsgFromQueue => simp [Link.next, Sender.getMsgFromQueue, hphase] at hnext
    | send => simp [Link.next, Sender.send, hphase] at hnext
    | serve => simp [Link.next, hrequest] at hnext
    | recv =>
      -- the counters agree, so nothing is raised
      simp only [Link.next, hreply, Option.bind_some, Sender.recv, hphase, hsame, ne_eq,
        not_true_eq_false, if_false, Option.map_some, Option.some.injEq] at hnext
      subst hnext
      have hone : Int.fmod 1 l.sender.cap = 1 := by
        rw [hcap]
        decide
      refine ⟨⟨hcap, .waiting rfl hrequest rfl ?_ hsent⟩, ?_, ?_, rfl⟩
      · simp only [hone, hcounter]
      · simp [due, hphase, hreply]
      · simp [position, hphase, hreply]

/-- The step that is due is possible. -/
theorem Sound.isSome_next (h : l.Sound) (hdue : l.due = some e) (id : Int) :
    (l.next id e).isSome := by
  cases h.stage with
  | waiting hphase hrequest hreply hcounter hsent =>
    cases hqueue : l.sender.msgQueue with
    | nil => simp [due, hphase, hqueue] at hdue
    | cons msg msgQueue =>
      simp only [due, hphase, hqueue, if_neg (List.cons_ne_nil _ _), Option.some.injEq] at hdue
      subst hdue
      simp [Link.next, Sender.getMsgFromQueue, hphase, hqueue]
  | holding data hphase hrequest hreply hcounter hsent =>
    simp only [due, hphase, Option.some.injEq] at hdue
    subst hdue
    simp [Link.next, Sender.send, hphase]
  | requested m hphase hrequest hreply hcounter hsame hsent =>
    simp only [due, hphase, hreply, if_true, Option.some.injEq] at hdue
    subst hdue
    simp [Link.next, hrequest]
  | replied m hphase hrequest hreply hcounter hsame hsent =>
    simp only [due, hphase, hreply, if_neg (Option.some_ne_none _), Option.some.injEq] at hdue
    subst hdue
    simp [Link.next, hreply, Sender.recv, hphase, hsame]

omit [EmptyCollection δ] in
@[simp] theorem position_addMsgToQueue : (l.addMsgToQueue msg).position = l.position := rfl

omit [EmptyCollection δ] in
/-- A new message changes nothing about the step that is due. -/
theorem due_addMsgToQueue (h : l.due = some e) : (l.addMsgToQueue msg).due = some e := by
  cases hphase : l.sender.phase with
  | waiting =>
    cases hqueue : l.sender.msgQueue with
    | nil => simp [due, hphase, hqueue] at h
    | cons first rest =>
      simp only [due, hphase, hqueue, if_neg (List.cons_ne_nil _ _)] at h
      simp [due, Link.addMsgToQueue, Sender.addMsgToQueue, hphase, h]
  | holding data =>
    simp only [due, hphase] at h
    simp [due, Link.addMsgToQueue, Sender.addMsgToQueue, hphase, h]
  | awaiting =>
    simp only [due, hphase] at h
    simp [due, Link.addMsgToQueue, Sender.addMsgToQueue, hphase, h]
  | failed => simp [due, hphase] at h

omit [EmptyCollection δ] in
/-- As long as a message is not dispatched, something is due. -/
theorem Sound.exists_due (h : l.Sound) (hlt : l.dispatched.length < l.sent.length) :
    ∃ e, l.due = some e := by
  cases h.stage with
  | waiting hphase hrequest hreply hcounter hsent =>
    cases hqueue : l.sender.msgQueue with
    | nil => simp [hsent, hqueue] at hlt
    | cons msg msgQueue => exact ⟨.getMsgFromQueue, by simp [due, hphase, hqueue]⟩
  | holding data hphase => exact ⟨.send, by simp [due, hphase]⟩
  | requested m hphase hrequest hreply => exact ⟨.serve, by simp [due, hphase, hreply]⟩
  | replied m hphase hrequest hreply => exact ⟨.recv, by simp [due, hphase, hreply]⟩

omit [EmptyCollection δ] in
/-- From the number of steps to the number of messages. -/
theorem dispatched_of_position {k : Nat} (hk : 4 * k ≤ l.position) :
    k ≤ l.dispatched.length := by
  cases hphase : l.sender.phase with
  | waiting | holding | failed =>
    simp only [position, hphase] at hk
    omega
  | awaiting =>
    simp only [position, hphase] at hk
    split at hk <;> omega

omit [EmptyCollection δ] in
/-- All but the queue is dispatched, or the one message on its way. -/
theorem Sound.sent (h : l.Sound) : ∃ onTheWay, onTheWay.length ≤ 1 ∧
    l.sent = l.dispatched ++ onTheWay ++ l.sender.msgQueue := by
  cases h.stage with
  | waiting hphase hrequest hreply hcounter hsent => exact ⟨[], by simp, by simp [hsent]⟩
  | holding data hphase hrequest hreply hcounter hsent => exact ⟨[data], by simp, by simp [hsent]⟩
  | requested m hphase hrequest hreply hcounter hsame hsent =>
    exact ⟨[m.data], by simp, by simp [hsent]⟩
  | replied m hphase hrequest hreply hcounter hsame hsent => exact ⟨[], by simp, by simp [hsent]⟩

end Link

/-! ## All links -/

deriving instance Countable for Event, RunThread

/-- The kinds of steps that sooner or later are taken: those of the threads and of the two loops
    of a link. -/
inductive Duty (n : Nat) where
  | thread (i : Fin n) (m : RunThread)
  | link (i j : Fin n) (e : Event)
  deriving Countable

/-- Nobody has to crash. -/
def kind : Label n δ → Option (Duty n)
  | .thread i m _ => some (.thread i m)
  | .link i j e => some (.link i j e)
  | .crash _ => none

namespace Mesh

variable {behavior : Fin n → ByzBehavior} {net net' : Mesh n δ} {a : Label n δ} {i j k : Fin n}
  {m : RunThread}

omit [EmptyCollection δ] in
@[simp] theorem setLink_self (l : Link δ) : (net.setLink i j l).links i j = l := by
  simp [setLink]

omit [EmptyCollection δ] in
theorem setLink_of_ne {i' j' : Fin n} (l : Link δ) (h : ¬ (i' = i ∧ j' = j)) :
    (net.setLink i j l).links i' j' = net.links i' j' := by
  by_cases hi : i' = i
  · subst hi
    simp [setLink, Function.update_of_ne fun hj => h ⟨rfl, hj⟩]
  · simp [setLink, Function.update_of_ne hi]

/-- The runs of all processors, from the moment when the threads have been started. -/
def system (behavior : Fin n → ByzBehavior) : System (Mesh n δ) (Label n δ) where
  init net := net = .init
  step net a net' := net.next behavior a = some net'

omit [EmptyCollection δ] in
/-- A thread that is about to send to `j` puts the message in the queue. -/
theorem links_runThread_put {b : ByzBehavior} (msg : δ) {rest : List (Fin n)}
    (hsends : b.sendsTo j) (hphase : (net.threads i m).phase = .sending (j :: rest)) :
    (net.runThread b i m msg).links i j = (net.links i j).addMsgToQueue msg := by
  simp only [runThread, hphase, if_pos hsends]
  exact setLink_self _

omit [EmptyCollection δ] in
/-- A thread leaves all other links alone. -/
theorem links_runThread_same {b : ByzBehavior} (msg : δ)
    (h : ∀ rest, k = i → (net.threads i m).phase = .sending (j :: rest) → ¬ b.sendsTo j) :
    (net.runThread b i m msg).links k j = net.links k j := by
  cases hphase : (net.threads i m).phase with
  | sending rest =>
    cases rest with
    | nil =>
      simp only [runThread, hphase]
      rfl
    | cons j' rest =>
      simp only [runThread, hphase]
      split
      · rename_i hsends
        refine setLink_of_ne _ fun hkj => ?_
        obtain ⟨hk, rfl⟩ := hkj
        exact h rest hk hphase hsends
      · rfl
  | checking rest =>
    cases rest with
    | nil =>
      simp only [runThread, hphase]
      rfl
    | cons j' rest =>
      simp only [runThread, hphase]
      rfl

/-- How the link from `i` to `j` changes in a step. -/
inductive LinkStep (behavior : Fin n → ByzBehavior) (net net' : Mesh n δ) (i j : Fin n) :
    Label n δ → Prop
  | put (m : RunThread) (msg : δ) (rest : List (Fin n)) (hsends : (behavior i).sendsTo j)
      (hphase : (net.threads i m).phase = .sending (j :: rest))
      (hlink : net'.links i j = (net.links i j).addMsgToQueue msg) :
      LinkStep behavior net net' i j (.thread i m msg)
  | own (e : Event) (hactor : e.actor i j ∉ net.crashed)
      (hlink : (net.links i j).next j e = some (net'.links i j)) :
      LinkStep behavior net net' i j (.link i j e)
  | none (a : Label n δ) (hother : ∀ e, a ≠ .link i j e)
      (hthread : ∀ m msg rest, a = .thread i m msg →
        (net.threads i m).phase = .sending (j :: rest) → ¬ (behavior i).sendsTo j)
      (hlink : net'.links i j = net.links i j) : LinkStep behavior net net' i j a

/-- A link gets a message, takes a step of its own, or stays as it is. -/
theorem links_next (h : net.next behavior a = some net') (i j : Fin n) :
    LinkStep behavior net net' i j a := by
  cases a with
  | thread k m msg =>
    simp only [Mesh.next, Option.ite_none_right_eq_some, Option.some.injEq] at h
    obtain ⟨-, rfl⟩ := h
    by_cases hput : i = k ∧ (behavior i).sendsTo j ∧
        ∃ rest, (net.threads i m).phase = .sending (j :: rest)
    · obtain ⟨rfl, hsends, rest, hphase⟩ := hput
      exact .put m msg rest hsends hphase (links_runThread_put msg hsends hphase)
    · refine .none _ (fun _ heq => by cases heq) (fun m' msg' rest heq hphase hsends => ?_)
        (links_runThread_same msg fun rest hik hphase hsends => ?_)
      · cases heq
        exact hput ⟨rfl, hsends, rest, hphase⟩
      · subst hik
        exact hput ⟨rfl, hsends, rest, hphase⟩
  | link i' j' e =>
    simp only [Mesh.next, Option.ite_none_right_eq_some, Option.map_eq_some_iff] at h
    obtain ⟨⟨hactor, -⟩, l, hl, rfl⟩ := h
    by_cases hij : i = i' ∧ j = j'
    · obtain ⟨rfl, rfl⟩ := hij
      exact .own e hactor (by rw [setLink_self, hl])
    · refine .none _ (fun e' heq => hij ?_) (fun _ _ _ heq => by cases heq) (setLink_of_ne l hij)
      cases heq
      exact ⟨rfl, rfl⟩
  | crash k =>
    simp only [Mesh.next, Option.some.injEq] at h
    exact .none _ (fun _ heq => by cases heq) (fun _ _ _ heq => by cases heq) (h ▸ rfl)

/-- Every link is in working order in every run. -/
theorem sound (h : (system behavior).Reachable net) (i j : Fin n) : (net.links i j).Sound := by
  refine System.Run.invariant (I := fun net => ∀ i j, (net.links i j).Sound) ?_ ?_ h i j
  · intro net hinit i j
    simp only [system] at hinit
    subst hinit
    exact Link.sound_init i
  · intro net a net' hsound _ hstep i j
    cases links_next hstep i j with
    | put m msg rest hsends hphase hlink => exact hlink ▸ (hsound i j).addMsgToQueue msg
    | own e hactor hlink => exact ((hsound i j).next hlink).1
    | none _ hother hthread hlink => exact hlink ▸ hsound i j

/-! ## Fair runs -/

section Fair

variable {s : Nat → Mesh n δ} {e : Nat → Option (Label n δ)}
  (h : (system behavior).FairRun kind s e)

include h

/-- More and more messages are put in a queue. -/
theorem sent_le (i j : Fin n) {t t' : Nat} (htt' : t ≤ t') :
    ((s t).links i j).sent.length ≤ ((s t').links i j).sent.length := by
  apply h.of_le (I := fun net net' => (net.links i j).sent.length ≤ (net'.links i j).sent.length)
    (fun _ => Nat.le_refl _) (fun _ _ _ => Nat.le_trans) _ htt'
  intro t a _ hstep
  cases links_next hstep i j with
  | put m msg rest hsends hphase hlink =>
    rw [hlink]
    simp [Link.addMsgToQueue]
  | own e hactor hlink => rw [((sound (h.reachable t) i j).next hlink).2.2.2]
  | none _ hother hthread hlink => rw [hlink]

/-- The step that is due is taken. -/
theorem position_of_due (hi : ∀ t, i ∉ (s t).crashed) (hj : ∀ t, j ∉ (s t).crashed)
    (hij : i ≠ j) (hresponsive : behavior i ≠ .unresponsive) (p : Nat) (d : Event) :
    System.LeadsTo s (fun net => (net.links i j).position = p ∧ (net.links i j).due = some d)
      fun net => p < (net.links i j).position := by
  apply h.ensures (.link i j d)
  · intro t ⟨_, hdue⟩ _
    have hsome := (sound (h.reachable t) i j).isSome_next hdue j
    obtain ⟨l, hl⟩ := Option.isSome_iff_exists.mp hsome
    have hactor : d.actor i j ∉ (s t).crashed := by
      simp only [Event.actor]
      split
      · exact hj t
      · exact hi t
    refine ⟨.link i j d, (s t).setLink i j l, rfl, ?_⟩
    show (s t).next behavior (.link i j d) = _
    have hcan : d.actor i j ∉ (s t).crashed ∧ i ≠ j ∧
        (d = .send → behavior i ≠ .unresponsive) := ⟨hactor, hij, fun _ => hresponsive⟩
    rw [Mesh.next, if_pos hcan, hl, Option.map_some]
  · intro t a ⟨hp, hdue⟩ _ _ hstep
    cases links_next hstep i j with
    | put m msg rest hsends hphase hlink =>
      refine Or.inr ⟨fun hkind => ?_, hlink ▸ ⟨hp, Link.due_addMsgToQueue hdue⟩⟩
      cases hkind
    | own e hactor hlink =>
      have hposition := ((sound (h.reachable t) i j).next hlink).2.2.1
      exact Or.inl (by omega)
    | none _ hother hthread hlink =>
      refine Or.inr ⟨fun hkind => ?_, hlink ▸ ⟨hp, hdue⟩⟩
      cases a with
      | link i' j' e =>
        cases hkind
        exact hother _ rfl
      | thread | crash => cases hkind

/-- Between processors that do not crash, every message put in the queue is dispatched. -/
theorem dispatched_of_sent (hi : ∀ t, i ∉ (s t).crashed) (hj : ∀ t, j ∉ (s t).crashed)
    (hij : i ≠ j) (hresponsive : behavior i ≠ .unresponsive) (k : Nat) :
    System.LeadsTo s (fun net => k < (net.links i j).sent.length)
      fun net => k < (net.links i j).dispatched.length := by
  apply System.LeadsTo.of_measure fun net => 4 * (k + 1) - (net.links i j).position
  intro d t ⟨hk, hd⟩
  by_cases hlt : k < ((s t).links i j).dispatched.length
  · exact ⟨t, Nat.le_refl t, Or.inl hlt⟩
  · obtain ⟨d', hdue⟩ := (sound (h.reachable t) i j).exists_due (by omega)
    obtain ⟨t', htt', hposition⟩ :=
      position_of_due h hi hj hij hresponsive _ d' t ⟨rfl, hdue⟩
    refine ⟨t', htt', ?_⟩
    have hk' := sent_le h i j htt'
    by_cases hdone : 4 * (k + 1) ≤ ((s t').links i j).position
    · exact Or.inl (Link.dispatched_of_position hdone)
    · exact Or.inr ⟨by omega, by omega⟩

end Fair

end Mesh

end ZeroMq

end BFTList
