import BFTList.ForStd.Fairness
import BFTList.ForStd.List
import BFTList.Spec.TokenLink

/-!
# What a fault-free link delivers

A link whose channels lose, duplicate and reorder nothing. A message that was sent arrives
in its turn, however late; the sender may so still send a message again. In every fair run
the receiver accepts each payload that is put in the queue.

The counter that goes with the payloads is meant to stay below `cap`, but `1 % cap` is
added to it where its sum with 1 should be reduced. It is the number of payloads taken so
far and never wraps.

## Key results

- `FaultFree.system`: the runs of a fault-free link
- `inOrder`: what is still on its way, in every reachable state
- `accepted_of_queued`: every payload is sent and accepted
- `bounded_iff`: the runs whose counter stays below `cap`
-/

namespace BFTList

namespace Udp

variable {δ : Type*} [DecidableEq δ] [EmptyCollection δ]

/-! ## Between two payloads -/

namespace Sender

/-- What a sender keeps until it takes the next payload. -/
structure Between (s s' : Sender δ) : Prop where
  id : s'.id = s.id
  cap : s'.cap = s.cap
  msgCounter : s'.msgCounter = s.msgCounter
  msgQueue : s.msgQueue <+: s'.msgQueue
  lastSentMsg : s.lastSentMsg.isSome → s'.lastSentMsg.isSome

variable {s s' : Sender δ} {msg : Message δ}

omit [DecidableEq δ] [EmptyCollection δ] in
theorem addMsgToQueue_between (payload : δ) : s.Between (s.addMsgToQueue payload) :=
  ⟨rfl, rfl, rfl, List.prefix_append _ _, fun h => h⟩

omit [DecidableEq δ] in
theorem start_between {r : Sender δ × Message δ} (h : s.start = some r) :
    s.Between r.1 ∧ r.1.lastSentMsg.isSome := by
  simp only [start, Option.ite_none_right_eq_some, Option.some.injEq] at h
  obtain ⟨-, rfl⟩ := h
  exact ⟨⟨rfl, rfl, rfl, List.prefix_refl _, fun _ => rfl⟩, rfl⟩

omit [DecidableEq δ] [EmptyCollection δ] in
/-- The wait for the token ends iff the message that came back is current. -/
theorem recv_between {r : Sender δ × List (Message δ)} (h : s.recv msg = some r) :
    s.Between r.1 ∧
      r.1.phase = if s.msgCounter ≤ msg.msgCounter then .sending else .receiving := by
  simp only [recv, Option.ite_none_right_eq_some] at h
  obtain ⟨hphase, h⟩ := h
  split at h
  · rename_i hcurrent
    simp only [Option.some.injEq] at h
    subst h
    exact ⟨⟨rfl, rfl, rfl, List.prefix_refl _, fun h => h⟩, (if_pos hcurrent).symm⟩
  · rename_i hold
    rw [Option.map_eq_some_iff] at h
    obtain ⟨last, -, rfl⟩ := h
    exact ⟨⟨rfl, rfl, rfl, List.prefix_refl _, fun _ => rfl⟩, hphase.trans (if_neg hold).symm⟩

omit [EmptyCollection δ] in
theorem tokenReturned_between (h : s.tokenReturned msg = some s') : s.Between s' := by
  simp only [tokenReturned, Option.ite_none_right_eq_some, Option.some.injEq] at h
  obtain ⟨-, rfl⟩ := h
  exact ⟨rfl, rfl, rfl, List.prefix_refl _, fun h => h⟩

omit [EmptyCollection δ] in
theorem timeOut_between (h : s.timeOut msg = some s') : s.Between s' := by
  simp only [timeOut, Option.ite_none_right_eq_some, Option.some.injEq] at h
  obtain ⟨-, rfl⟩ := h
  exact ⟨rfl, rfl, rfl, List.prefix_refl _, fun _ => rfl⟩

omit [DecidableEq δ] [EmptyCollection δ] in
/-- The payload taken is the first of the queue. -/
theorem sendNext_queue {r : Sender δ × Message δ} (h : s.sendNext = some r) :
    s.msgQueue = r.2.payload :: r.1.msgQueue ∧ r.1.lastSentMsg.isSome := by
  rw [sendNext] at h
  split at h
  · rename_i payload msgQueue hphase hqueue
    rw [Option.ite_none_left_eq_some, Option.some.injEq] at h
    obtain ⟨-, rfl⟩ := h
    exact ⟨hqueue, rfl⟩
  · cases h

end Sender

/-! ## Channels without faults -/

/-- A link with the number of messages that have arrived in either direction. -/
structure FaultFree (δ : Type*) where
  link : Link δ
  arrivedForward : Nat
  arrivedBack : Nat

/-- What has to happen sooner or later, once it stays possible. -/
inductive Kind where
  | start
  | recv
  | sendNext
  | listen
  | onMessageRecv
  deriving DecidableEq, Repr

/-- Nobody has to put a payload in the queue; a thread of `check_timeout` may end or send
    its message again at any time. -/
def kind : Event δ → Option Kind
  | .start => some .start
  | .recv _ => some .recv
  | .sendNext => some .sendNext
  | .listen _ => some .listen
  | .onMessageRecv => some .onMessageRecv
  | .addMsgToQueue _ | .tokenReturned _ | .timeOut _ => none

namespace FaultFree

/-- The link after an event, if it is possible. Messages arrive in the order in which they
    were sent, each of them once. -/
def next (c : FaultFree δ) : Event δ → Option (FaultFree δ)
  | .listen msg =>
    if c.link.forward.reverse[c.arrivedForward]? = some msg then
      (c.link.next (.listen msg)).map fun l =>
        { c with link := l, arrivedForward := c.arrivedForward + 1 }
    else none
  | .recv msg =>
    if c.link.back.reverse[c.arrivedBack]? = some msg then
      (c.link.next (.recv msg)).map fun l => { c with link := l, arrivedBack := c.arrivedBack + 1 }
    else none
  | e => (c.link.next e).map fun l => { c with link := l }

/-- All runs of a fault-free link, starting fresh. -/
def system : System (FaultFree δ) (Event δ) where
  init c := c.link.Fresh ∧ c.arrivedForward = 0 ∧ c.arrivedBack = 0
  step c e c' := c.next e = some c'

variable {c c' : FaultFree δ} {e : Event δ}

/-- A fault-free link is a link. -/
theorem link_next (h : c.next e = some c') : c.link.next e = some c'.link := by
  cases e with
  | listen msg =>
    simp only [next, Option.ite_none_right_eq_some, Option.map_eq_some_iff] at h
    obtain ⟨-, l, hl, rfl⟩ := h
    exact hl
  | recv msg =>
    simp only [next, Option.ite_none_right_eq_some, Option.map_eq_some_iff] at h
    obtain ⟨-, l, hl, rfl⟩ := h
    exact hl
  | addMsgToQueue payload | start | sendNext | tokenReturned msg | timeOut msg | onMessageRecv =>
    simp only [next, Option.map_eq_some_iff] at h
    obtain ⟨l, hl, rfl⟩ := h
    exact hl

/-- What holds in every reachable state of a link holds on a fault-free link. -/
theorem link_reachable (h : (system : System (FaultFree δ) (Event δ)).Reachable c) :
    (Link.system : System (Link δ) (Event δ)).Reachable c.link := by
  induction h with
  | init h => exact .init h.1
  | step _ _ h ih => exact .step ih trivial (link_next h)

/-! ## What an event does -/

/-- The sender goes on between two payloads, and sends something again or nothing. -/
def goOn (c : FaultFree δ) (s : Sender δ) (sent : List (Message δ)) : FaultFree δ :=
  { c with link := { c.link with sender := s, forward := sent ++ c.link.forward } }

/-- The events of a fault-free link, one by one. -/
inductive Step (c : FaultFree δ) : Event δ → FaultFree δ → Prop
  | quiet {e : Event δ} {s : Sender δ} {sent : List (Message δ)} (hkind : kind e = none)
      (hs : c.link.sender.Between s) (hphase : s.phase = c.link.sender.phase) :
      Step c e (c.goOn s sent)
  | start {s : Sender δ} (hbefore : c.link.sender.phase = .starting)
      (hs : c.link.sender.Between s) (hphase : s.phase = .receiving)
      (hlast : s.lastSentMsg.isSome) :
      Step c .start (c.goOn s [⟨c.link.sender.id, c.link.sender.msgCounter, ∅⟩])
  | recv {msg : Message δ} {s : Sender δ} {sent : List (Message δ)}
      (hbefore : c.link.sender.phase = .receiving)
      (hturn : c.link.back.reverse[c.arrivedBack]? = some msg) (hs : c.link.sender.Between s)
      (hphase : s.phase =
        if c.link.sender.msgCounter ≤ msg.msgCounter then .sending else .receiving) :
      Step c (.recv msg) { c.goOn s sent with arrivedBack := c.arrivedBack + 1 }
  | sendNext {s : Sender δ} {msg : Message δ} (hbefore : c.link.sender.phase = .sending)
      (hphase : s.phase = .receiving) (hid : s.id = c.link.sender.id)
      (hcap : s.cap = c.link.sender.cap) (hcounter : s.msgCounter = c.link.sender.msgCounter + 1)
      (hlast : s.lastSentMsg.isSome) (hqueue : c.link.sender.msgQueue = msg.payload :: s.msgQueue)
      (hmsg : msg = ⟨c.link.sender.id, c.link.sender.msgCounter + 1, msg.payload⟩) :
      Step c .sendNext { c with link := { c.link with
        sender := s, forward := msg :: c.link.forward, taken := c.link.taken ++ [msg.payload] } }
  | listen {msg : Message δ} {r : Receiver δ}
      (hturn : c.link.forward.reverse[c.arrivedForward]? = some msg)
      (hfree : c.link.receiver.handing = none) :
      Step c (.listen msg) { c with
        link := { c.link with receiver := r, back := msg :: c.link.back }
        arrivedForward := c.arrivedForward + 1 }
  | onMessageRecv {r : Receiver δ} {msg : Message δ}
      (hbusy : c.link.receiver.handing = some msg) (hfree : r.handing = none) :
      Step c .onMessageRecv { c with
        link := { c.link with receiver := r, handed := c.link.handed ++ [msg] } }

/-- Every event is one of these. -/
theorem step_of_next (hcap : 1 < c.link.sender.cap) (h : c.next e = some c') : c.Step e c' := by
  cases e with
  | addMsgToQueue payload =>
    cases h
    show c.Step _ (c.goOn _ [])
    exact .quiet rfl (Sender.addMsgToQueue_between payload) rfl
  | start =>
    simp only [next, Link.next, Option.map_map, Option.map_eq_some_iff] at h
    obtain ⟨r, hr, rfl⟩ := h
    obtain ⟨hphase, hmsg, hphase', -⟩ := Sender.start_keeps hr
    obtain ⟨hs, hlast⟩ := Sender.start_between hr
    have hstart := Step.start hphase hs hphase' hlast
    rw [← hmsg] at hstart
    exact hstart
  | recv msg =>
    simp only [next, Link.next, Option.ite_none_right_eq_some, Option.map_eq_some_iff] at h
    obtain ⟨hturn, l, ⟨-, r, hr, rfl⟩, rfl⟩ := h
    obtain ⟨hs, hphase⟩ := Sender.recv_between hr
    exact .recv (Sender.recv_keeps hr).1 hturn hs hphase
  | sendNext =>
    simp only [next, Link.next, Option.map_map, Option.map_eq_some_iff] at h
    obtain ⟨r, hr, rfl⟩ := h
    obtain ⟨hbefore, hphase, hid, hcap', hcounter, hmsg, -⟩ := Sender.sendNext_spec hcap hr
    obtain ⟨hqueue, hlast⟩ := Sender.sendNext_queue hr
    exact .sendNext hbefore hphase hid hcap' hcounter hlast hqueue hmsg
  | tokenReturned msg =>
    simp only [next, Link.next, Option.map_map, Option.map_eq_some_iff] at h
    obtain ⟨s, hs, rfl⟩ := h
    show c.Step _ (c.goOn s [])
    exact .quiet rfl (Sender.tokenReturned_between hs) (Sender.tokenReturned_keeps hs).1
  | timeOut msg =>
    simp only [next, Link.next, Option.map_map, Option.map_eq_some_iff] at h
    obtain ⟨s, hs, rfl⟩ := h
    show c.Step _ (c.goOn s [msg])
    exact .quiet rfl (Sender.timeOut_between hs) (Sender.timeOut_keeps hs).2.1
  | listen msg =>
    simp only [next, Link.next, Option.ite_none_right_eq_some, Option.map_eq_some_iff] at h
    obtain ⟨hturn, l, ⟨-, r, hr, rfl⟩, rfl⟩ := h
    exact .listen hturn (Receiver.listen_spec hr).1
  | onMessageRecv =>
    simp only [next, Link.next, Option.map_map, Option.map_eq_some_iff] at h
    obtain ⟨r, hr, rfl⟩ := h
    obtain ⟨hbusy, hfree, -⟩ := Receiver.onMessageRecv_spec hr
    exact .onMessageRecv hbusy hfree

/-! ## What is on its way -/

/-- What every run keeps: messages that were sent arrive in their turn, and while the sender
    waits for the token, it has received older ones only. -/
structure InOrder (c : FaultFree δ) : Prop where
  sound : c.link.Sound
  sent : c.link.sender.phase ≠ .starting → ∀ msg, c.link.Genuine msg → msg ∈ c.link.forward
  boundForward : c.arrivedForward ≤ c.link.forward.length
  boundBack : c.arrivedBack ≤ c.link.back.length
  arrived : ∀ msg ∈ c.link.forward.reverse.take c.arrivedForward, msg ∈ c.link.back
  starting : c.link.sender.phase = .starting → c.arrivedBack = 0
  last : c.link.sender.phase = .receiving → c.link.sender.lastSentMsg.isSome
  old : c.link.sender.phase = .receiving →
    ∀ msg ∈ c.link.back.reverse.take c.arrivedBack, msg.msgCounter < c.link.sender.msgCounter

theorem inOrder_of_init (h : c.link.Fresh ∧ c.arrivedForward = 0 ∧ c.arrivedBack = 0) :
    c.InOrder := by
  obtain ⟨hfresh, hforward, hback⟩ := h
  exact {
    sound := hfresh.sound
    sent := fun hphase => absurd hfresh.phase hphase
    boundForward := by omega
    boundBack := by omega
    arrived := by simp [hforward]
    starting := fun _ => hback
    last := fun hphase => by simp [hfresh.phase] at hphase
    old := by simp [hback] }

omit [DecidableEq δ] in
theorem goOn_genuine {s : Sender δ} {sent : List (Message δ)} {msg : Message δ}
    (hs : c.link.sender.Between s) : (c.goOn s sent).link.Genuine msg ↔ c.link.Genuine msg :=
  Link.genuine_congr hs.id rfl

/-- Messages sent later do not change what has arrived. -/
theorem InOrder.of_suffix (h : c.InOrder) {sent l : List (Message δ)}
    (hl : l = sent ++ c.link.forward) : c.arrivedForward ≤ l.length ∧
      ∀ msg ∈ l.reverse.take c.arrivedForward, msg ∈ c.link.back := by
  subst hl
  have hle := h.boundForward
  rw [List.take_reverse_append hle, List.length_append]
  exact ⟨by omega, h.arrived⟩

/-- Every event keeps the order. -/
theorem InOrder.next (h : c.InOrder) (hnext : c.next e = some c') : c'.InOrder := by
  have hsound := h.sound.next (link_next hnext)
  cases step_of_next h.sound.cap hnext with
  | quiet hkind hs hphase =>
    exact {
      sound := hsound
      sent := fun hnot msg hmsg =>
        List.mem_append_right _ (h.sent (hphase ▸ hnot) msg ((goOn_genuine hs).mp hmsg))
      boundForward := (h.of_suffix rfl).1
      boundBack := h.boundBack
      arrived := (h.of_suffix rfl).2
      starting := fun hstarting => h.starting (hphase ▸ hstarting)
      last := fun hreceiving => hs.lastSentMsg (h.last (hphase ▸ hreceiving))
      old := by
        simp only [goOn, hs.msgCounter, hphase]
        exact h.old }
  | @start s hbefore hs hphase hlast =>
    have hnot : s.phase ≠ .starting := by simp [hphase]
    exact {
      sound := hsound
      sent := by
        intro _ msg hmsg
        -- nothing was taken yet, so the first message is the only one
        have htaken := h.sound.starting hbefore
        have hcounter := h.sound.msgCounter
        rcases (goOn_genuine hs).mp hmsg with rfl | ⟨k, p, hk, -⟩
        · rw [htaken] at hcounter
          simp [goOn, Link.message, hcounter]
        · simp [htaken] at hk
      boundForward := (h.of_suffix rfl).1
      boundBack := h.boundBack
      arrived := (h.of_suffix rfl).2
      starting := fun hstarting => absurd hstarting hnot
      last := fun _ => hlast
      old := by simp [goOn, h.starting hbefore] }
  | @recv msg s sent hbefore hturn hs hphase =>
    have hnot : s.phase ≠ .starting := by
      rw [hphase]
      split
      · decide
      · decide
    have hlt := (List.getElem?_eq_some_iff.mp hturn).1
    rw [List.length_reverse] at hlt
    exact {
      sound := hsound
      sent := fun _ m hm =>
        List.mem_append_right _ (h.sent (by simp [hbefore]) m ((goOn_genuine hs).mp hm))
      boundForward := (h.of_suffix rfl).1
      boundBack := hlt
      arrived := (h.of_suffix rfl).2
      starting := fun hstarting => absurd hstarting hnot
      last := fun _ => hs.lastSentMsg (h.last hbefore)
      old := by
        intro hreceiving m hm
        show m.msgCounter < s.msgCounter
        have hreceiving' : s.phase = .receiving := hreceiving
        rw [hs.msgCounter]
        cases (List.mem_take_succ hturn).mp hm with
        | inl hm => exact h.old hbefore m hm
        | inr hm =>
          -- the current token would have ended the wait
          rw [hphase] at hreceiving'
          split at hreceiving'
          · cases hreceiving'
          · rename_i hold
            rw [hm]
            omega }
  | @sendNext s msg hbefore hphase hid hcap hcounter hlast hqueue hmsg =>
    have hnot : s.phase ≠ .starting := by simp [hphase]
    exact {
      sound := hsound
      sent := by
        intro _ m hm
        rcases (Link.genuine_concat (l := c.link) hid rfl).mp hm with hm | rfl
        · exact List.mem_cons_of_mem _ (h.sent (by simp [hbefore]) m hm)
        · rw [hmsg, h.sound.msgCounter]
          exact List.mem_cons_self
      boundForward := (h.of_suffix List.singleton_append.symm).1
      boundBack := h.boundBack
      arrived := (h.of_suffix List.singleton_append.symm).2
      starting := fun hstarting => absurd hstarting hnot
      last := fun _ => hlast
      old := by
        intro _ m hm
        -- no counter is above that of the payload taken before
        have hback := List.mem_reverse.mp (List.mem_of_mem_take hm)
        have hle := (h.sound.back m hback).bounds.2.2
        have hlength := h.sound.msgCounter
        show m.msgCounter < s.msgCounter
        omega }
  | @listen msg r hturn hfree =>
    have hlt := (List.getElem?_eq_some_iff.mp hturn).1
    rw [List.length_reverse] at hlt
    exact {
      sound := hsound
      sent := h.sent
      boundForward := hlt
      boundBack := by
        have hle := h.boundBack
        simp only [List.length_cons]
        omega
      arrived := by
        intro m hm
        cases (List.mem_take_succ hturn).mp hm with
        | inl hm => exact List.mem_cons_of_mem _ (h.arrived m hm)
        | inr hm => exact hm ▸ List.mem_cons_self
      starting := h.starting
      last := h.last
      old := by
        intro hreceiving m hm
        have hmem : m ∈ ([msg] ++ c.link.back).reverse.take c.arrivedBack := hm
        rw [List.take_reverse_append h.boundBack] at hmem
        exact h.old hreceiving m hmem }
  | onMessageRecv =>
    exact {
      h with
      sound := hsound }

theorem inOrder (h : (system : System (FaultFree δ) (Event δ)).Reachable c) : c.InOrder := by
  apply System.Run.invariant ?_ ?_ h
  · exact fun c hc => inOrder_of_init hc
  · exact fun c e c' hc _ hnext => hc.next hnext

/-! ## What is possible -/

theorem enabled_of_next {k : Kind} (hkind : kind e = some k) (h : (c.next e).isSome) :
    (system : System (FaultFree δ) (Event δ)).Enabled kind k c := by
  obtain ⟨c', h⟩ := Option.isSome_iff_exists.mp h
  exact ⟨e, c', hkind, h⟩

theorem enabled_start (h : c.link.sender.phase = .starting) :
    (system : System (FaultFree δ) (Event δ)).Enabled kind .start c := by
  apply enabled_of_next (e := .start) rfl
  simp [next, Link.next, Sender.start, h]

theorem enabled_sendNext (hcap : c.link.sender.cap ≠ 0) (h : c.link.sender.phase = .sending)
    (hqueue : c.link.sender.msgQueue ≠ []) :
    (system : System (FaultFree δ) (Event δ)).Enabled kind .sendNext c := by
  obtain ⟨payload, rest, hcons⟩ := List.exists_cons_of_ne_nil hqueue
  apply enabled_of_next (e := .sendNext) rfl
  simp [next, Link.next, Sender.sendNext, h, hcons, hcap]

theorem enabled_onMessageRecv (h : c.link.receiver.handing ≠ none) :
    (system : System (FaultFree δ) (Event δ)).Enabled kind .onMessageRecv c := by
  obtain ⟨msg, hmsg⟩ := Option.ne_none_iff_exists'.mp h
  apply enabled_of_next (e := .onMessageRecv) rfl
  simp [next, Link.next, Receiver.onMessageRecv, hmsg]

theorem enabled_listen (h : c.arrivedForward < c.link.forward.length)
    (hfree : c.link.receiver.handing = none) :
    (system : System (FaultFree δ) (Event δ)).Enabled kind .listen c := by
  rw [← List.length_reverse] at h
  have hturn := List.getElem?_eq_getElem h
  have hmem := List.mem_reverse.mp (List.getElem_mem h)
  generalize c.link.forward.reverse[c.arrivedForward] = msg at hturn hmem
  apply enabled_of_next (e := .listen msg) rfl
  simp only [next, Link.next, hturn, hmem, if_true, Option.isSome_map, Receiver.listen, hfree]
  split
  · rfl
  · rfl

/-- The thread does not raise, since it has a last message to send again. -/
theorem enabled_recv (h : c.InOrder) (hphase : c.link.sender.phase = .receiving)
    (hlt : c.arrivedBack < c.link.back.length) :
    (system : System (FaultFree δ) (Event δ)).Enabled kind .recv c := by
  rw [← List.length_reverse] at hlt
  have hturn := List.getElem?_eq_getElem hlt
  have hmem := List.mem_reverse.mp (List.getElem_mem hlt)
  generalize c.link.back.reverse[c.arrivedBack] = msg at hturn hmem
  obtain ⟨last, hlast⟩ := Option.isSome_iff_exists.mp (h.last hphase)
  apply enabled_of_next (e := .recv msg) rfl
  simp only [next, Link.next, hturn, hmem, if_true, Option.isSome_map, Sender.recv, hphase, hlast]
  split
  · rfl
  · rfl

/-! ## What only grows -/

/-- Every payload put in the queue so far. -/
def queued (c : FaultFree δ) : List δ := c.link.taken ++ c.link.sender.msgQueue

omit [DecidableEq δ] in
theorem Step.id_cap (h : c.Step e c') :
    c'.link.sender.id = c.link.sender.id ∧ c'.link.sender.cap = c.link.sender.cap := by
  cases h with
  | quiet _ hs _ => exact ⟨hs.id, hs.cap⟩
  | start _ hs _ _ => exact ⟨hs.id, hs.cap⟩
  | recv _ _ hs _ => exact ⟨hs.id, hs.cap⟩
  | sendNext _ _ hid hcap => exact ⟨hid, hcap⟩
  | listen | onMessageRecv => exact ⟨rfl, rfl⟩

omit [DecidableEq δ] in
theorem Step.forward (h : c.Step e c') :
    c.link.forward.reverse <+: c'.link.forward.reverse := by
  rw [List.reverse_prefix]
  cases h with
  | quiet | start | recv => exact List.suffix_append _ _
  | sendNext => exact List.suffix_cons _ _
  | listen | onMessageRecv => exact List.suffix_refl _

omit [DecidableEq δ] in
theorem Step.back (h : c.Step e c') : c.link.back.reverse <+: c'.link.back.reverse := by
  rw [List.reverse_prefix]
  cases h with
  | quiet | start | recv | sendNext | onMessageRecv => exact List.suffix_refl _
  | listen => exact List.suffix_cons _ _

omit [DecidableEq δ] in
theorem Step.queued (h : c.Step e c') : c.queued <+: c'.queued := by
  cases h with
  | quiet _ hs _ => exact (List.prefix_append_right_inj _).mpr hs.msgQueue
  | start _ hs _ _ => exact (List.prefix_append_right_inj _).mpr hs.msgQueue
  | recv _ _ hs _ => exact (List.prefix_append_right_inj _).mpr hs.msgQueue
  | sendNext _ _ _ _ _ _ hqueue => simp [FaultFree.queued, hqueue]
  | listen | onMessageRecv => exact List.prefix_refl _

/-! ## Where the phases end -/

omit [DecidableEq δ] in
/-- The next message arrives at a receiver that has nothing to hand over. -/
theorem Step.arrivedForward (h : c.Step e c') :
    (kind e = some .listen ∧ c.link.receiver.handing = none ∧
      c'.arrivedForward = c.arrivedForward + 1) ∨
    (kind e ≠ some .listen ∧ c'.arrivedForward = c.arrivedForward ∧
      (c'.link.receiver.handing = none ∨ (kind e ≠ some .onMessageRecv ∧
        c'.link.receiver.handing = c.link.receiver.handing))) := by
  cases h with
  | quiet hkind => exact Or.inr ⟨by simp [hkind], rfl, Or.inr ⟨by simp [hkind], rfl⟩⟩
  | start | recv | sendNext => exact Or.inr ⟨by simp [kind], rfl, Or.inr ⟨by simp [kind], rfl⟩⟩
  | listen _ hfree => exact Or.inl ⟨rfl, hfree, rfl⟩
  | onMessageRecv _ hfree => exact Or.inr ⟨by simp [kind], rfl, Or.inl hfree⟩

omit [DecidableEq δ] in
theorem Step.of_starting (h : c.Step e c') (hphase : c.link.sender.phase = .starting) :
    c'.link.taken = c.link.taken ∧
      (c'.link.sender.phase = .receiving ∨
        (kind e ≠ some .start ∧ c'.link.sender.phase = .starting)) := by
  cases h with
  | quiet hkind _ hsame => exact ⟨rfl, Or.inr ⟨by simp [hkind], hsame.trans hphase⟩⟩
  | start _ _ hafter => exact ⟨rfl, Or.inl hafter⟩
  | recv hbefore | sendNext hbefore => simp [hbefore] at hphase
  | listen | onMessageRecv => exact ⟨rfl, Or.inr ⟨by simp [kind], hphase⟩⟩

omit [DecidableEq δ] in
/-- The wait for the token goes on until a message comes back, or longer. -/
theorem Step.of_receiving (h : c.Step e c') (hphase : c.link.sender.phase = .receiving) :
    c'.link.taken = c.link.taken ∧
      (c'.link.sender.phase = .sending ∨ (c'.link.sender.phase = .receiving ∧
        (c'.arrivedBack = c.arrivedBack + 1 ∨
          (kind e ≠ some .recv ∧ c'.arrivedBack = c.arrivedBack)))) := by
  cases h with
  | quiet hkind _ hsame =>
    exact ⟨rfl, Or.inr ⟨hsame.trans hphase, Or.inr ⟨by simp [hkind], rfl⟩⟩⟩
  | start hbefore | sendNext hbefore => simp [hbefore] at hphase
  | recv _ _ _ hafter =>
    refine ⟨rfl, ?_⟩
    split at hafter
    · exact Or.inl hafter
    · exact Or.inr ⟨hafter, Or.inl rfl⟩
  | listen | onMessageRecv => exact ⟨rfl, Or.inr ⟨hphase, Or.inr ⟨by simp [kind], rfl⟩⟩⟩

omit [DecidableEq δ] in
/-- The wait for a new message ends with the message. -/
theorem Step.of_sending (h : c.Step e c') (hphase : c.link.sender.phase = .sending) :
    c'.link.taken.length = c.link.taken.length + 1 ∨
      (kind e ≠ some .sendNext ∧ c'.link.sender.phase = .sending ∧
        c'.link.taken = c.link.taken) := by
  cases h with
  | quiet hkind _ hsame => exact Or.inr ⟨by simp [hkind], hsame.trans hphase, rfl⟩
  | start hbefore | recv hbefore => simp [hbefore] at hphase
  | sendNext => exact Or.inl (by simp)
  | listen | onMessageRecv => exact Or.inr ⟨by simp [kind], hphase, rfl⟩

/-! ## What happens sooner or later -/

/-- An infinite run of a fault-free link, fair to everything but timeouts and new payloads. -/
abbrev FairRun (s : Nat → FaultFree δ) (ev : Nat → Option (Event δ)) : Prop :=
  system.FairRun kind s ev

variable {s : Nat → FaultFree δ} {ev : Nat → Option (Event δ)}

theorem FairRun.inOrder (h : FairRun s ev) (i : Nat) : (s i).InOrder :=
  FaultFree.inOrder (h.reachable i)

theorem FairRun.step_of (h : FairRun s ev) {i : Nat} (he : ev i = some e) :
    (s i).Step e (s (i + 1)) :=
  step_of_next (h.inOrder i).sound.cap (h.step i e he)

/-- What every event keeps, every moment of a run keeps. -/
theorem FairRun.keeps (h : FairRun s ev) {I : FaultFree δ → FaultFree δ → Prop}
    (hrefl : ∀ c, I c c) (hstep : ∀ c e c', Step c e c' → I c c') (i : Nat) :
    I (s i) (s (i + 1)) :=
  h.next hrefl (fun _ _ he _ => hstep _ _ _ (h.step_of he)) i

/-- What waits to be handed over does not keep the next message away for ever. -/
theorem listen_next (h : FairRun s ev) (turn : List (Message δ)) (a : Nat)
    (ha : a < turn.length) :
    System.LeadsTo s (fun c => turn <+: c.link.forward.reverse ∧ c.arrivedForward = a)
      fun c => turn <+: c.link.forward.reverse ∧ a < c.arrivedForward := by
  have hfree : System.LeadsTo s
      (fun c => turn <+: c.link.forward.reverse ∧ c.arrivedForward = a)
      fun c => turn <+: c.link.forward.reverse ∧ (a < c.arrivedForward ∨
        (c.arrivedForward = a ∧ c.link.receiver.handing = none)) := by
    apply h.ensures .onMessageRecv
    · intro i ⟨hturn, harrived⟩ hnot
      exact enabled_onMessageRecv fun hnone => hnot ⟨hturn, Or.inr ⟨harrived, hnone⟩⟩
    · intro i e ⟨hturn, harrived⟩ _ he _
      have hstep := h.step_of he
      have hturn' := hturn.trans hstep.forward
      rcases hstep.arrivedForward with ⟨-, -, hnext⟩ | ⟨-, hsame, hnone | ⟨hkind, -⟩⟩
      · exact Or.inl ⟨hturn', Or.inl (by omega)⟩
      · exact Or.inl ⟨hturn', Or.inr ⟨by omega, hnone⟩⟩
      · exact Or.inr ⟨hkind, hturn', by omega⟩
  have hlisten : System.LeadsTo s
      (fun c => turn <+: c.link.forward.reverse ∧ (a < c.arrivedForward ∨
        (c.arrivedForward = a ∧ c.link.receiver.handing = none)))
      fun c => turn <+: c.link.forward.reverse ∧ a < c.arrivedForward := by
    apply h.ensures .listen
    · intro i ⟨hturn, hnext⟩ hnot
      have hle := hturn.length_le
      rw [List.length_reverse] at hle
      obtain ⟨harrived, hnone⟩ := hnext.resolve_left fun hlt => hnot ⟨hturn, hlt⟩
      exact enabled_listen (by omega) hnone
    · intro i e ⟨hturn, hnext⟩ hnot he _
      have hstep := h.step_of he
      have hturn' := hturn.trans hstep.forward
      obtain ⟨harrived, hnone⟩ := hnext.resolve_left fun hlt => hnot ⟨hturn, hlt⟩
      rcases hstep.arrivedForward with ⟨-, -, hnext⟩ | ⟨hkind, hsame, hhanding⟩
      · exact Or.inl ⟨hturn', by omega⟩
      · refine Or.inr ⟨hkind, hturn', Or.inr ⟨by omega, ?_⟩⟩
        exact hhanding.elim id fun hhanding => hhanding.2.trans hnone
  exact hfree.trans hlisten

/-- Every message that was sent arrives at the receiver. -/
theorem listen_of_forward (h : FairRun s ev) (msg : Message δ) :
    System.LeadsTo s (fun c => msg ∈ c.link.forward) fun c => msg ∈ c.link.back := by
  intro i hi
  obtain ⟨early, late, heq⟩ := List.append_of_mem (List.mem_reverse.mpr hi)
  -- the measure is how many messages are to arrive before this one
  have harrives : System.LeadsTo s (fun c => early ++ [msg] <+: c.link.forward.reverse)
      fun c => msg ∈ c.link.back := by
    apply System.LeadsTo.of_measure fun c => early.length + 1 - c.arrivedForward
    intro d j ⟨hturn, hd⟩
    by_cases hlt : early.length < (s j).arrivedForward
    · have hback := (h.inOrder j).arrived msg (List.mem_take_of_prefix hturn hlt)
      exact ⟨j, Nat.le_refl j, Or.inl hback⟩
    · obtain ⟨k, hjk, hturn', hnext⟩ := listen_next h (early ++ [msg]) (s j).arrivedForward
        (by simp; omega) j ⟨hturn, rfl⟩
      exact ⟨k, hjk, Or.inr ⟨hturn', by omega⟩⟩
  exact harrives i ⟨late, by rw [heq, List.append_assoc]; rfl⟩

/-! ### From payload to payload -/

/-- The sender is in the phase, after `k` payloads. -/
def At (phase : SenderPhase) (k : Nat) (c : FaultFree δ) : Prop :=
  c.link.sender.phase = phase ∧ c.link.taken.length = k

theorem receiving_of_starting (h : FairRun s ev) (k : Nat) :
    System.LeadsTo s (At .starting k) (At .receiving k) := by
  apply h.ensures .start
  · intro i hi _
    exact enabled_start hi.1
  · intro i e ⟨hphase, hk⟩ _ he _
    obtain ⟨htaken, hafter⟩ := (h.step_of he).of_starting hphase
    rw [← hk, ← htaken]
    exact hafter.imp (fun hafter => ⟨hafter, rfl⟩) fun hafter => ⟨hafter.1, hafter.2, rfl⟩

/-- The wait for the token ends in no other way than with the token. -/
theorem receiving_unless (h : FairRun s ev) (k : Nat) (i : Nat) (hi : At .receiving k (s i)) :
    At .receiving k (s (i + 1)) ∨ At .sending k (s (i + 1)) := by
  have hstep : ∀ (c : FaultFree δ) e c', c.Step e c' → At .receiving k c →
      At .receiving k c' ∨ At .sending k c' := by
    intro c e c' hstep ⟨hphase, hk⟩
    obtain ⟨htaken, hafter⟩ := hstep.of_receiving hphase
    rw [← htaken] at hk
    cases hafter with
    | inl hafter => exact Or.inr ⟨hafter, hk⟩
    | inr hafter => exact Or.inl ⟨hafter.1, hk⟩
  exact h.keeps (I := fun c c' => At .receiving k c → At .receiving k c' ∨ At .sending k c')
    (fun _ hc => Or.inl hc) hstep i hi

/-- While the sender waits for the token, that of the current message is on its way back. -/
theorem InOrder.not_received (h : c.InOrder) {early : List (Message δ)} {msg : Message δ}
    {k : Nat} (hc : At .receiving k c) (hk : k ≤ msg.msgCounter)
    (hturn : early ++ [msg] <+: c.link.back.reverse) : c.arrivedBack ≤ early.length := by
  by_contra hlt
  have hold := h.old hc.1 msg (List.mem_take_of_prefix hturn (by omega))
  have hcounter := h.sound.msgCounter
  rw [hc.2] at hcounter
  omega

/-- A token that is on its way back ends the wait. -/
theorem sending_of_back (h : FairRun s ev) {msg : Message δ} {k : Nat}
    (hk : k ≤ msg.msgCounter) :
    System.LeadsTo s (fun c => msg ∈ c.link.back ∧ At .receiving k c) (At .sending k) := by
  intro i ⟨hback, hi⟩
  obtain ⟨early, late, heq⟩ := List.append_of_mem (List.mem_reverse.mpr hback)
  -- the measure is how many older tokens come back before this one
  have hreturns : System.LeadsTo s
      (fun c => early ++ [msg] <+: c.link.back.reverse ∧ At .receiving k c) (At .sending k) := by
    apply System.LeadsTo.of_measure fun c => early.length - c.arrivedBack
    intro d
    apply h.ensures .recv
    · intro i ⟨⟨hturn, hi⟩, _⟩ _
      -- the token has not come back yet, so something is on its way
      have hle := hturn.length_le
      have harrived := (h.inOrder i).not_received hi hk hturn
      rw [List.length_reverse, List.length_append, List.length_singleton] at hle
      exact enabled_recv (h.inOrder i) hi.1 (by omega)
    · intro i e ⟨⟨hturn, hi⟩, hd⟩ _ he _
      have hstep := h.step_of he
      have hturn' := hturn.trans hstep.back
      obtain ⟨htaken, hafter⟩ := hstep.of_receiving hi.1
      have hk' : (s (i + 1)).link.taken.length = k := by rw [htaken, hi.2]
      rcases hafter with hsending | ⟨hreceiving, hnext | ⟨hkind, hsame⟩⟩
      · exact Or.inl (Or.inl ⟨hsending, hk'⟩)
      · -- an older token came back
        have harrived := (h.inOrder (i + 1)).not_received ⟨hreceiving, hk'⟩ hk hturn'
        exact Or.inl (Or.inr ⟨⟨hturn', hreceiving, hk'⟩, by omega⟩)
      · exact Or.inr ⟨hkind, ⟨hturn', hreceiving, hk'⟩, by omega⟩
  exact hreturns i ⟨⟨late, by rw [heq, List.append_assoc]; rfl⟩, hi⟩

/-- The token of the current message comes back. -/
theorem sending_of_receiving (h : FairRun s ev) (k : Nat) :
    System.LeadsTo s (At .receiving k) (At .sending k) := by
  intro i hi
  have hcurrent : ∃ msg, (s i).link.Genuine msg ∧ (k : Int) ≤ msg.msgCounter := by
    cases k with
    | zero => exact ⟨_, Or.inl rfl, Int.le_refl 0⟩
    | succ k =>
      have hlt : k < (s i).link.taken.length := by
        rw [hi.2]
        exact Nat.lt_succ_self k
      exact ⟨_, Or.inr ⟨k, _, List.getElem?_eq_getElem hlt, rfl⟩, Int.le_refl _⟩
  obtain ⟨msg, hgenuine, hk⟩ := hcurrent
  -- the current message was sent: it arrives, and its token returns, unless the wait is over
  have hsent := (h.inOrder i).sent (by simp [hi.1]) msg hgenuine
  have harrives := (listen_of_forward h msg).unless (receiving_unless h k)
  exact harrives.trans_or (sending_of_back h hk) (.of_imp fun _ hj => hj) i ⟨hsent, hi⟩

/-- The sender takes the next payload of the queue. -/
theorem taken_of_sending (h : FairRun s ev) (k : Nat) :
    System.LeadsTo s (fun c => At .sending k c ∧ k < c.queued.length)
      fun c => k < c.link.taken.length := by
  apply h.ensures .sendNext
  · intro i ⟨hi, hqueued⟩ _
    have hcap := (h.inOrder i).sound.cap
    apply enabled_sendNext (by omega) hi.1
    -- more payloads were put in the queue than taken
    intro hempty
    rw [queued, hempty, List.append_nil, hi.2] at hqueued
    exact Nat.lt_irrefl k hqueued
  · intro i e ⟨hi, hqueued⟩ _ he _
    have hstep := h.step_of he
    have hle := hstep.queued.length_le
    rcases hstep.of_sending hi.1 with hnext | ⟨hkind, hphase, hsame⟩
    · have hk := hi.2
      exact Or.inl (by omega)
    · exact Or.inr ⟨hkind, ⟨hphase, hsame ▸ hi.2⟩, by omega⟩

/-- As long as there are payloads in the queue, the sender takes one after the other. -/
theorem taken_of_queued (h : FairRun s ev) (k : Nat) :
    System.LeadsTo s (fun c => k < c.queued.length) fun c => k < c.link.taken.length := by
  have hstable : ∀ i k, k < (s i).queued.length → k < (s (i + 1)).queued.length := by
    intro i k hi
    have hle := h.keeps (I := fun c c' => c.queued.length ≤ c'.queued.length)
      (fun _ => Nat.le_refl _) (fun _ _ _ hstep => hstep.queued.length_le) i
    omega
  -- the sender goes through its phases until the next payload is taken
  have hone : ∀ k phase, System.LeadsTo s (fun c => At phase k c ∧ k < c.queued.length)
      fun c => k < c.link.taken.length := by
    intro k phase
    have hsending := taken_of_sending h k
    have hreceiving := ((sending_of_receiving h k).and_stable fun i => hstable i k).trans hsending
    cases phase with
    | sending => exact hsending
    | receiving => exact hreceiving
    | starting =>
      exact ((receiving_of_starting h k).and_stable fun i => hstable i k).trans hreceiving
  apply System.LeadsTo.of_measure fun c => k + 1 - c.link.taken.length
  intro d i ⟨hqueued, hd⟩
  by_cases hlt : k < (s i).link.taken.length
  · exact ⟨i, Nat.le_refl i, Or.inl hlt⟩
  · have hnext := (hone (s i).link.taken.length (s i).link.sender.phase).and_stable
      (R := fun c => k < c.queued.length) fun i => hstable i k
    obtain ⟨j, hij, htaken, hqueued'⟩ := hnext i ⟨⟨⟨rfl, rfl⟩, by omega⟩, hqueued⟩
    exact ⟨j, hij, Or.inr ⟨hqueued', by omega⟩⟩

/-! ## What the receiver accepts -/

/-- The receiver accepts the message at a moment of the run. -/
def AcceptedAt (s : Nat → FaultFree δ) (ev : Nat → Option (Event δ)) (msg : Message δ) (i : Nat) :
    Prop :=
  ev i = some (.listen msg) ∧
    msg.msgCounter ≠ (s i).link.receiver.lastCounter msg.senderId

/-- Every payload put in the queue is sent and accepted. -/
def AllAccepted (s : Nat → FaultFree δ) (ev : Nat → Option (Event δ)) : Prop :=
  ∀ i k p, (s i).queued[k]? = some p → ∃ j,
    (s 0).link.message (k + 1) p ∈ (s j).link.forward ∧
      AcceptedAt s ev ((s 0).link.message (k + 1) p) j

omit [DecidableEq δ] in
/-- A message that has come to be on its way back has just arrived. -/
theorem Step.listen_of_back (h : c.Step e c') {msg : Message δ} (hbefore : msg ∉ c.link.back)
    (hafter : msg ∈ c'.link.back) : e = .listen msg ∧ msg ∈ c.link.forward := by
  cases h with
  | quiet | start | recv | sendNext | onMessageRecv => exact absurd hafter hbefore
  | listen hturn =>
    cases List.mem_cons.mp hafter with
    | inl heq =>
      subst heq
      exact ⟨rfl, List.mem_reverse.mp (List.mem_of_getElem? hturn)⟩
    | inr hmem => exact absurd hmem hbefore

/-- The first time that it arrives a message is accepted. -/
theorem accepted_of_forward (h : FairRun s ev) {i : Nat} {msg : Message δ}
    (hsent : msg ∈ (s i).link.forward) :
    ∃ j, msg ∈ (s j).link.forward ∧ AcceptedAt s ev msg j := by
  obtain ⟨j, -, hback⟩ := listen_of_forward h msg i hsent
  have hfirst : msg ∉ (s 0).link.back := by
    rw [h.init.1.back]
    exact List.not_mem_nil
  obtain ⟨k, -, hbefore, hafter⟩ := System.exists_begins
    (T := fun k => msg ∈ (s k).link.back) hfirst hback
  cases he : ev k with
  | none => exact absurd (h.idle k he ▸ hafter) hbefore
  | some e =>
    obtain ⟨rfl, hforward⟩ := (h.step_of he).listen_of_back hbefore hafter
    have hsound := (h.inOrder k).sound
    have hgenuine := hsound.forward msg hforward
    refine ⟨k, hforward, he, fun hlast => ?_⟩
    rw [hgenuine.bounds.1] at hlast
    -- a message with this counter would have arrived before
    cases hsound.last with
    | inl hnone =>
      have hpos := hgenuine.bounds.2.1
      omega
    | inr hother =>
      obtain ⟨other, hother, hcounter⟩ := hother
      have heq := hgenuine.eq (hsound.back other hother) (hlast.trans hcounter.symm)
      exact hbefore (heq ▸ hother)

/-- What every event keeps holds between an earlier and a later moment. -/
theorem FairRun.of_le (h : FairRun s ev) {i j : Nat} (hij : i ≤ j) :
    (s j).link.sender.id = (s i).link.sender.id ∧
      (s j).link.sender.cap = (s i).link.sender.cap ∧ (s i).queued <+: (s j).queued := by
  apply System.FairRun.of_le h (I := fun c c' => c'.link.sender.id = c.link.sender.id ∧
    c'.link.sender.cap = c.link.sender.cap ∧ c.queued <+: c'.queued) ?_ ?_ ?_ hij
  · exact fun c => ⟨rfl, rfl, List.prefix_refl _⟩
  · intro x y z hxy hyz
    exact ⟨hyz.1.trans hxy.1, hyz.2.1.trans hxy.2.1, hxy.2.2.trans hyz.2.2⟩
  · intro i e he _
    have hstep := h.step_of he
    exact ⟨hstep.id_cap.1, hstep.id_cap.2, hstep.queued⟩

/-- Every payload put in the queue is sent and accepted. -/
theorem accepted_of_queued (h : FairRun s ev) : AllAccepted s ev := by
  intro i k p hp
  have hlt := (List.getElem?_eq_some_iff.mp hp).1
  obtain ⟨j, hij, htaken⟩ := taken_of_queued h k i hlt
  have hinOrder := h.inOrder j
  -- payloads keep their places when they are taken from the queue
  have hk : (s j).link.taken[k]? = some p := by
    obtain ⟨late, hlate⟩ := (h.of_le hij).2.2
    have hqueued : (s j).queued[k]? = (s j).link.taken[k]? := List.getElem?_append_left htaken
    rw [← hqueued, ← hlate, List.getElem?_append_left hlt, hp]
  have hphase : (s j).link.sender.phase ≠ .starting := by
    intro hstarting
    rw [hinOrder.sound.starting hstarting] at htaken
    exact Nat.not_lt_zero k htaken
  have hsent := hinOrder.sent hphase _ (Or.inr ⟨k, p, hk, rfl⟩)
  rw [Link.message, (h.of_le (Nat.zero_le j)).1] at hsent
  exact accepted_of_forward h hsent

/-- The counter stays below `cap` iff fewer than `cap` payloads are put in the queue. -/
theorem bounded_iff (h : FairRun s ev) :
    ((∀ i, 0 ≤ (s i).link.sender.msgCounter ∧
        (s i).link.sender.msgCounter < (s i).link.sender.cap) ∧ AllAccepted s ev) ↔
      ∀ i, ((s i).queued.length : Int) < (s i).link.sender.cap := by
  have hcounter : ∀ i, (s i).link.sender.msgCounter = (s i).link.taken.length :=
    fun i => (h.inOrder i).sound.msgCounter
  constructor
  · intro ⟨hbounded, _⟩ i
    by_contra hmany
    have hcap := (h.inOrder i).sound.cap
    -- as many payloads as `cap` are taken in the end
    obtain ⟨j, hij, htaken⟩ := taken_of_queued h ((s i).link.sender.cap.toNat - 1) i (by omega)
    have hlt := (hbounded j).2
    rw [hcounter, (h.of_le hij).2.1] at hlt
    omega
  · intro hfew
    refine ⟨fun i => ?_, accepted_of_queued h⟩
    have hlt := hfew i
    rw [queued, List.length_append] at hlt
    rw [hcounter]
    omega

/-! ### A link that comes to rest -/

/-- Nothing has to happen any more: all payloads are taken and all messages have arrived. -/
structure AtRest (c : FaultFree δ) : Prop where
  cap : 1 < c.link.sender.cap
  phase : c.link.sender.phase = .sending
  msgQueue : c.link.sender.msgQueue = []
  handing : c.link.receiver.handing = none
  arrivedForward : c.link.forward.length ≤ c.arrivedForward

theorem AtRest.not_enabled (h : c.AtRest) (k : Kind) :
    ¬ (system : System (FaultFree δ) (Event δ)).Enabled kind k c := by
  intro ⟨e, c', hk, hnext⟩
  cases step_of_next h.cap hnext with
  | quiet hkind => simp [hkind] at hk
  | start hbefore | recv hbefore => simp [h.phase] at hbefore
  | sendNext _ _ _ _ _ _ hqueue => simp [h.msgQueue] at hqueue
  | listen hturn =>
    have hlt := (List.getElem?_eq_some_iff.mp hturn).1
    rw [List.length_reverse] at hlt
    have hle := h.arrivedForward
    omega
  | onMessageRecv hbusy => simp [h.handing] at hbusy

/-- A fresh link whose counter should stay below `cap`. -/
def freshWith (cap : Int) (queue : List (List Int)) : FaultFree (List Int) where
  link := { Link.fresh with sender := { id := 0, cap := cap, msgQueue := queue } }
  arrivedForward := 0
  arrivedBack := 0

/-- Events that bring this link to rest are a fair run. -/
theorem exists_fairRun {cap : Int} (hcap : 1 < cap) (queue : List (List Int))
    (events : List (Event (List Int))) (p : FaultFree (List Int) → Bool)
    (h : (System.exec next (freshWith cap queue) events).any (fun c =>
      1 < c.link.sender.cap ∧ c.link.sender.phase = .sending ∧ c.link.sender.msgQueue = [] ∧
        c.link.receiver.handing = none ∧ c.link.forward.length ≤ c.arrivedForward ∧ p c) = true) :
    ∃ s ev last, FairRun s ev ∧ (∀ i, events.length ≤ i → s i = last) ∧ p last = true := by
  obtain ⟨last, hexec, hlast⟩ := (Option.any_eq_true ..).mp h
  obtain ⟨hcap', hphase, hqueue, hhanding, harrived, hp⟩ := of_decide_eq_true hlast
  have hrest : last.AtRest := ⟨hcap', hphase, hqueue, hhanding, harrived⟩
  have hfresh : (freshWith cap queue).link.Fresh :=
    ⟨hcap, rfl, rfl, rfl, rfl, rfl, rfl, rfl, rfl, rfl, rfl⟩
  obtain ⟨s, ev, hrun, -, hend⟩ := System.FairRun.exists_of_exec (S := system)
    (fun _ _ _ h => h) ⟨hfresh, rfl, rfl⟩ hexec hrest.not_enabled
  exact ⟨s, ev, last, hrun, hend, hp⟩

/-- The events of a run that hands over two payloads. -/
def twoPayloads : List (Event (List Int)) :=
  [.start, .listen (Link.nth 0), .recv (Link.nth 0), .sendNext, .listen (Link.nth 1),
    .onMessageRecv, .recv (Link.nth 1), .sendNext, .listen (Link.nth 2), .onMessageRecv,
    .recv (Link.nth 2)]

/-- Two payloads and a counter that should stay below 3. -/
theorem bounded_iff_two :
    ∃ (s : Nat → FaultFree (List Int)) (ev : Nat → Option (Event (List Int))),
      FairRun s ev ∧ (∃ i, (s i).link.sender.msgCounter = 2) ∧
      (∀ i, 0 ≤ (s i).link.sender.msgCounter ∧
        (s i).link.sender.msgCounter < (s i).link.sender.cap) ∧ AllAccepted s ev := by
  obtain ⟨s, ev, last, hrun, hend, hlast⟩ := exists_fairRun (by decide : (1 : Int) < 3)
    [[1], [2]] twoPayloads
    (fun c => c.link.sender.msgCounter = 2 ∧ c.queued.length = 2 ∧ c.link.sender.cap = 3)
    (by decide)
  obtain ⟨hcounter, htwo, hcap⟩ := of_decide_eq_true hlast
  refine ⟨s, ev, hrun, ⟨11, by rw [hend 11 (Nat.le_refl 11), hcounter]⟩,
    (bounded_iff hrun).mpr fun i => ?_⟩
  have hle := hrun.of_le (Nat.le_add_right i 11)
  rw [hend (i + 11) (Nat.le_add_left 11 i)] at hle
  have hlength := hle.2.2.length_le
  rw [← hle.2.1, hcap]
  omega

/-- With `cap` 2 the second payload makes the counter reach it. -/
theorem bounded_not_two : ¬ ∀ (s : Nat → FaultFree (List Int))
    (ev : Nat → Option (Event (List Int))), FairRun s ev →
      (∀ i, 0 ≤ (s i).link.sender.msgCounter ∧
        (s i).link.sender.msgCounter < (s i).link.sender.cap) ∧ AllAccepted s ev := by
  intro h
  obtain ⟨s, ev, last, hrun, hend, hlast⟩ := exists_fairRun (by decide : (1 : Int) < 2)
    [[1], [2]] twoPayloads
    (fun c => c.link.sender.msgCounter = 2 ∧ c.link.sender.cap = 2) (by decide)
  obtain ⟨hcounter, hcap⟩ := of_decide_eq_true hlast
  have hbounded := ((h s ev hrun).1 11).2
  rw [hend 11 (Nat.le_refl 11), hcounter, hcap] at hbounded
  omega

end FaultFree

end Udp

end BFTList
