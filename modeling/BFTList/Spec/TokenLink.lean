import BFTList.ForStd.Transition
import BFTList.Native.Udp

/-!
# What the communication link delivers

A sender and a receiver, joined by channels that lose, duplicate, delay and
reorder messages. The sender takes a payload from its queue when the token of the
one before is back, which the receiver has then accepted, though perhaps not yet
handed over.

## Key results

- `Link.system`: the runs of a link
- `handedOver_of_sendNext`: nothing is lost, and first deliveries are in queue order
- `handed_increasing`: nothing is delivered twice while no message is overtaken
- `sendNext_before_handedOver`, `handed_again`: without these provisos
-/

namespace BFTList

namespace Udp

variable {δ : Type*} [DecidableEq δ] [EmptyCollection δ]

/-! ## What a sender may send again -/

namespace Sender

/-- The messages that a sender may send again. -/
def Knows (s : Sender δ) (msg : Message δ) : Prop := s.lastSentMsg = some msg ∨ msg ∈ s.timers

/-- What a sender does between two payloads: besides what it knew it sends `sent`. -/
structure Keeps (s s' : Sender δ) (sent : List (Message δ)) : Prop where
  id : s'.id = s.id
  cap : s'.cap = s.cap
  msgCounter : s'.msgCounter = s.msgCounter
  starting : s'.phase = .starting → s.phase = .starting
  knows : ∀ msg, s'.Knows msg → msg ∈ sent ∨ s.Knows msg

variable {s s' : Sender δ} {msg : Message δ}

omit [DecidableEq δ] [EmptyCollection δ] in
theorem Knows.of_send (s : Sender δ) (timeout : Bool) {m : Message δ}
    (h : (s.send msg timeout).Knows m) : m = msg ∨ s.Knows m := by
  cases h with
  | inl h =>
    simp only [send, Option.some.injEq] at h
    exact Or.inl h.symm
  | inr h =>
    cases timeout with
    | false => exact Or.inr (Or.inr h)
    | true =>
      cases List.mem_cons.mp h with
      | inl h => exact Or.inl h
      | inr h => exact Or.inr (Or.inr h)

omit [DecidableEq δ] [EmptyCollection δ] in
theorem addMsgToQueue_keeps (payload : δ) : s.Keeps (s.addMsgToQueue payload) [] :=
  ⟨rfl, rfl, rfl, fun h => h, fun _ h => Or.inr h⟩

omit [DecidableEq δ] in
theorem start_keeps {r : Sender δ × Message δ} (h : s.start = some r) :
    s.phase = .starting ∧ r.2 = ⟨s.id, s.msgCounter, ∅⟩ ∧ r.1.phase = .receiving ∧
      s.Keeps r.1 [r.2] := by
  simp only [start, Option.ite_none_right_eq_some, Option.some.injEq] at h
  obtain ⟨hphase, rfl⟩ := h
  refine ⟨hphase, rfl, rfl, rfl, rfl, rfl, fun _ => hphase, fun m hm => ?_⟩
  rw [List.mem_singleton]
  exact Knows.of_send s true hm

omit [DecidableEq δ] [EmptyCollection δ] in
/-- Only the current token, or a later one, ends the wait for the token. -/
theorem recv_keeps {r : Sender δ × List (Message δ)} (h : s.recv msg = some r) :
    s.phase = .receiving ∧ (∀ m ∈ r.2, s.Knows m) ∧ s.Keeps r.1 r.2 ∧
      (r.1.phase = .sending → s.msgCounter ≤ msg.msgCounter) := by
  simp only [recv, Option.ite_none_right_eq_some] at h
  obtain ⟨hphase, h⟩ := h
  split at h
  · rename_i hcurrent
    simp only [Option.some.injEq] at h
    subst h
    refine ⟨hphase, by simp, ⟨rfl, rfl, rfl, ?_, fun m hm => Or.inr hm⟩, fun _ => hcurrent⟩
    intro hstart
    cases hstart
  · -- an older token: the last message goes out again
    rw [Option.map_eq_some_iff] at h
    obtain ⟨last, hlast, rfl⟩ := h
    refine ⟨hphase, ?_, ⟨rfl, rfl, rfl, fun h => h, ?_⟩, ?_⟩
    · intro m hm
      rw [List.mem_singleton] at hm
      exact Or.inl (hm ▸ hlast)
    · intro m hm
      rw [List.mem_singleton]
      exact Knows.of_send { s with lastRecvMsgCounter := msg.msgCounter } true hm
    · intro hsending
      have hreceiving : s.phase = .sending := hsending
      rw [hphase] at hreceiving
      cases hreceiving

omit [EmptyCollection δ] in
theorem tokenReturned_keeps (h : s.tokenReturned msg = some s') :
    s'.phase = s.phase ∧ s.Keeps s' [] := by
  simp only [tokenReturned, Option.ite_none_right_eq_some, Option.some.injEq] at h
  obtain ⟨-, rfl⟩ := h
  refine ⟨rfl, rfl, rfl, rfl, fun h => h, fun m hm => Or.inr ?_⟩
  cases hm with
  | inl hm => exact Or.inl hm
  | inr hm => exact Or.inr (List.mem_of_mem_erase hm)

omit [EmptyCollection δ] in
theorem timeOut_keeps (h : s.timeOut msg = some s') :
    s.Knows msg ∧ s'.phase = s.phase ∧ s.Keeps s' [msg] := by
  simp only [timeOut, Option.ite_none_right_eq_some, Option.some.injEq] at h
  obtain ⟨hmsg, rfl⟩ := h
  refine ⟨Or.inr hmsg, rfl, rfl, rfl, rfl, fun h => h, fun m hm => ?_⟩
  rw [List.mem_singleton]
  exact Knows.of_send s false hm

omit [DecidableEq δ] [EmptyCollection δ] in
/-- Taking a payload counts up, when `cap` is greater than 1. -/
theorem sendNext_spec (hcap : 1 < s.cap) {r : Sender δ × Message δ} (h : s.sendNext = some r) :
    s.phase = .sending ∧ r.1.phase = .receiving ∧ r.1.id = s.id ∧ r.1.cap = s.cap ∧
      r.1.msgCounter = s.msgCounter + 1 ∧ r.2 = ⟨s.id, s.msgCounter + 1, r.2.payload⟩ ∧
      ∀ msg, r.1.Knows msg → msg = r.2 ∨ s.Knows msg := by
  -- `1 % cap`, where `%` binds more tightly than `+=`
  have hone : Int.fmod 1 s.cap = 1 := by
    rw [Int.fmod_eq_emod_of_nonneg 1 (by omega)]
    exact Int.emod_eq_of_lt (by decide) hcap
  rw [sendNext] at h
  split at h
  · rename_i payload msgQueue hphase hqueue
    rw [if_neg (by omega), hone, Option.some.injEq] at h
    subst h
    refine ⟨hphase, rfl, rfl, rfl, rfl, rfl, fun m hm => ?_⟩
    exact Knows.of_send { s with msgQueue := msgQueue, msgCounter := s.msgCounter + 1 } true hm
  · cases h

end Sender

/-! ## What a receiver accepts -/

namespace Receiver

variable {r r' : Receiver δ} {msg : Message δ}

/-- A message that arrives becomes the last one; it is accepted unless it already was. -/
theorem listen_spec (h : r.listen msg = some r') :
    r.handing = none ∧ r'.lastCounter msg.senderId = msg.msgCounter ∧
      ((msg.msgCounter ≠ r.lastCounter msg.senderId ∧
          r'.handing = if msg.hasPayload then some msg else none) ∨
        (msg.msgCounter = r.lastCounter msg.senderId ∧ r'.handing = none)) := by
  simp only [listen, Option.ite_none_right_eq_some] at h
  obtain ⟨hfree, h⟩ := h
  split at h
  · rename_i hnew
    simp only [Option.some.injEq] at h
    subst h
    refine ⟨hfree, ?_, Or.inl ⟨hnew, rfl⟩⟩
    simp [lastCounter]
  · rename_i hold
    simp only [Option.some.injEq] at h
    subst h
    -- the counter is stored again, or for the first time
    have heq : msg.msgCounter = r.lastCounter msg.senderId := Decidable.of_not_not hold
    refine ⟨hfree, ?_, Or.inr ⟨heq, hfree⟩⟩
    simp [lastCounter, heq]

/-- Only what arrives, has a payload and is not the last one is handed over. -/
theorem handing_of_listen (h : r.listen msg = some r') {m : Message δ}
    (hm : r'.handing = some m) :
    msg = m ∧ m.hasPayload ∧ msg.msgCounter ≠ r.lastCounter msg.senderId := by
  rcases (listen_spec h).2.2 with ⟨hne, hnew⟩ | ⟨-, hnone⟩
  · rw [hnew, Option.ite_none_right_eq_some, Option.some.injEq] at hm
    obtain ⟨hpayload, rfl⟩ := hm
    exact ⟨rfl, hpayload, hne⟩
  · rw [hnone] at hm
    cases hm

omit [DecidableEq δ] [EmptyCollection δ] in
theorem onMessageRecv_spec {x : Receiver δ × Message δ} (h : r.onMessageRecv = some x) :
    r.handing = some x.2 ∧ x.1.handing = none ∧ x.1.msgCounters = r.msgCounters := by
  obtain ⟨msg, hmsg, rfl⟩ := Option.map_eq_some_iff.mp h
  exact ⟨hmsg, rfl, rfl⟩

end Receiver

/-! ## Runs of a link -/

namespace Link

/-- A fresh sender, with anything in its queue, and a receiver that has no counter for
    it. Counters grow when `cap` is greater than 1, as the default is. -/
structure Fresh (l : Link δ) : Prop where
  cap : 1 < l.sender.cap
  msgCounter : l.sender.msgCounter = 0
  lastSentMsg : l.sender.lastSentMsg = none
  timers : l.sender.timers = []
  phase : l.sender.phase = .starting
  noCounter : l.receiver.msgCounters l.sender.id = none
  handing : l.receiver.handing = none
  forward : l.forward = []
  back : l.back = []
  taken : l.taken = []
  handed : l.handed = []

/-- All runs of a link. -/
def system : System (Link δ) (Event δ) where
  init := Fresh
  step l e l' := l.next e = some l'

/-- The `k`-th payload taken from the queue, as it is sent. -/
def message (l : Link δ) (k : Nat) (payload : δ) : Message δ := ⟨l.sender.id, k, payload⟩

/-- A message of the link: the first one, or a payload with its place in the queue. -/
def Genuine (l : Link δ) (msg : Message δ) : Prop :=
  msg = l.message 0 ∅ ∨ ∃ k p, l.taken[k]? = some p ∧ msg = l.message (k + 1) p

/-- Whatever is handed over, all payloads before it were handed over earlier. -/
def InQueueOrder (l : Link δ) : Prop :=
  ∀ done, done <+: l.handed → ∀ msg ∈ done, ∀ k p, l.taken[k]? = some p → p ≠ ∅ →
    (k + 1 : Nat) < msg.msgCounter → l.message (k + 1) p ∈ done

variable {l l' : Link δ} {msg msg' : Message δ}

/-! ## Genuine messages -/

omit [DecidableEq δ] in
theorem Genuine.bounds (h : l.Genuine msg) :
    msg.senderId = l.sender.id ∧ 0 ≤ msg.msgCounter ∧ msg.msgCounter ≤ l.taken.length := by
  rcases h with rfl | ⟨k, p, hk, rfl⟩
  · simp [message]
  · have hlt := (List.getElem?_eq_some_iff.mp hk).1
    simp only [message]
    exact ⟨trivial, by omega, by omega⟩

omit [DecidableEq δ] in
/-- A genuine message is determined by its counter. -/
theorem Genuine.eq (h : l.Genuine msg) (h' : l.Genuine msg')
    (hcounter : msg.msgCounter = msg'.msgCounter) : msg = msg' := by
  rcases h with rfl | ⟨k, p, hk, rfl⟩
  · rcases h' with rfl | ⟨k', p', hk', rfl⟩
    · rfl
    · simp only [message] at hcounter
      omega
  · rcases h' with rfl | ⟨k', p', hk', rfl⟩
    · simp only [message] at hcounter
      omega
    · simp only [message] at hcounter
      have hkk : k = k' := by omega
      subst hkk
      rw [hk, Option.some.injEq] at hk'
      rw [hk']

omit [DecidableEq δ] in
theorem genuine_congr (hid : l'.sender.id = l.sender.id) (htaken : l'.taken = l.taken) :
    l'.Genuine msg ↔ l.Genuine msg := by
  simp only [Genuine, message, hid, htaken]

omit [DecidableEq δ] in
/-- Taking a payload makes one more message genuine. -/
theorem genuine_concat {p : δ} (hid : l'.sender.id = l.sender.id)
    (htaken : l'.taken = l.taken ++ [p]) :
    l'.Genuine msg ↔ l.Genuine msg ∨ msg = l.message (l.taken.length + 1) p := by
  simp only [Genuine, message, hid, htaken]
  constructor
  · rintro (h | ⟨k, p', hk, rfl⟩)
    · exact Or.inl (Or.inl h)
    · by_cases hlt : k < l.taken.length
      · rw [List.getElem?_append_left hlt] at hk
        exact Or.inl (Or.inr ⟨k, p', hk, rfl⟩)
      -- the only place beyond the old ones is the last
      · obtain ⟨hle, heq⟩ := List.getElem?_eq_some_iff.mp hk
        have hkk : k = l.taken.length := by
          simp only [List.length_append, List.length_singleton] at hle
          omega
        subst hkk
        simp only [List.getElem_concat_length] at heq
        rw [heq]
        exact Or.inr rfl
  · rintro ((h | ⟨k, p', hk, rfl⟩) | rfl)
    · exact Or.inl h
    · have hlt := (List.getElem?_eq_some_iff.mp hk).1
      exact Or.inr ⟨k, p', by rw [List.getElem?_append_left hlt, hk], rfl⟩
    · exact Or.inr ⟨l.taken.length, p, by simp, rfl⟩

/-! ## What every run keeps -/

/-- What holds between sender, receiver and everything on its way. -/
structure Sound (l : Link δ) : Prop where
  cap : 1 < l.sender.cap
  msgCounter : l.sender.msgCounter = l.taken.length
  starting : l.sender.phase = .starting → l.taken = []
  known : ∀ msg, l.sender.Knows msg → l.Genuine msg
  forward : ∀ msg ∈ l.forward, l.Genuine msg
  back : ∀ msg ∈ l.back, l.Genuine msg
  returned : ∀ msg, l.Genuine msg →
    msg.msgCounter < l.sender.msgCounter ∨ l.sender.phase = .sending → msg ∈ l.back
  last : l.receiver.lastCounter l.sender.id = -1 ∨
    ∃ msg ∈ l.back, msg.msgCounter = l.receiver.lastCounter l.sender.id
  accepted : ∀ msg ∈ l.back, msg.hasPayload →
    msg ∈ l.handed ∨ l.receiver.handing = some msg
  handing : ∀ msg, l.receiver.handing = some msg → msg ∈ l.back ∧ msg.hasPayload
  again : ∀ msg, l.receiver.handing = some msg →
    ∀ msg' ∈ l.back, msg.msgCounter < msg'.msgCounter → msg ∈ l.handed
  handed : ∀ msg ∈ l.handed, msg ∈ l.back ∧ msg.hasPayload
  inOrder : l.InQueueOrder

theorem Fresh.sound (h : l.Fresh) : l.Sound where
  cap := h.cap
  msgCounter := by simp [h.msgCounter, h.taken]
  starting _ := h.taken
  known msg hmsg := by simp [Sender.Knows, h.lastSentMsg, h.timers] at hmsg
  forward msg hmsg := by simp [h.forward] at hmsg
  back msg hmsg := by simp [h.back] at hmsg
  returned msg hmsg hlt := by
    have hpos := hmsg.bounds.2.1
    rw [h.msgCounter, h.phase] at hlt
    cases hlt with
    | inl hlt => omega
    | inr hlt => cases hlt
  last := Or.inl (by rw [Receiver.lastCounter, h.noCounter, Option.getD_none])
  accepted msg hmsg := by simp [h.back] at hmsg
  handing msg hmsg := by simp [h.handing] at hmsg
  again msg hmsg := by simp [h.handing] at hmsg
  handed msg hmsg := by simp [h.handed] at hmsg
  inOrder done hdone msg hmsg := by
    rw [h.handed, List.prefix_nil] at hdone
    simp [hdone] at hmsg

/-- Between two payloads the sender sends genuine messages only, and waits for a
    payload only after the token of the last one. -/
theorem Sound.of_keeps (h : l.Sound) {s : Sender δ} {sent : List (Message δ)}
    (hs : l.sender.Keeps s sent) (hsent : ∀ msg ∈ sent, l.Genuine msg)
    (hsending : s.phase = .sending → l.sender.phase = .sending ∨
      ∃ msg ∈ l.back, l.sender.msgCounter ≤ msg.msgCounter) :
    Sound { l with sender := s, forward := sent ++ l.forward } := by
  have hgenuine : ∀ msg, Genuine { l with sender := s, forward := sent ++ l.forward } msg ↔
      l.Genuine msg := fun msg => genuine_congr hs.id rfl
  have hcounter : l.sender.msgCounter = l.taken.length := h.msgCounter
  exact {
    cap := hs.cap ▸ h.cap
    msgCounter := hs.msgCounter ▸ hcounter
    starting := fun hstarting => h.starting (hs.starting hstarting)
    known := fun msg hmsg => (hgenuine msg).mpr <| by
      cases hs.knows msg hmsg with
      | inl hmsg => exact hsent msg hmsg
      | inr hmsg => exact h.known msg hmsg
    forward := fun msg hmsg => (hgenuine msg).mpr <| by
      cases List.mem_append.mp hmsg with
      | inl hmsg => exact hsent msg hmsg
      | inr hmsg => exact h.forward msg hmsg
    back := fun msg hmsg => (hgenuine msg).mpr (h.back msg hmsg)
    returned := by
      intro msg hmsg hlt
      rw [hgenuine] at hmsg
      simp only [hs.msgCounter] at hlt
      by_cases hless : msg.msgCounter < l.sender.msgCounter
      · exact h.returned msg hmsg (Or.inl hless)
      · cases hsending (hlt.resolve_left hless) with
        | inl hphase => exact h.returned msg hmsg (Or.inr hphase)
        | inr htoken =>
          -- the token that came back is that of this message
          obtain ⟨token, htoken, hle⟩ := htoken
          have hbound := (h.back token htoken).bounds.2.2
          have hbound' := hmsg.bounds.2.2
          have heq : msg = token := hmsg.eq (h.back token htoken) (by omega)
          exact heq ▸ htoken
    last := by
      simp only [hs.id]
      exact h.last
    accepted := h.accepted
    handing := h.handing
    again := h.again
    handed := h.handed
    inOrder := by
      simp only [InQueueOrder, message, hs.id]
      exact h.inOrder }

/-- The next payload is taken when the token of every message so far is back. -/
theorem Sound.sendNext (h : l.Sound) {r : Sender δ × Message δ} (hr : l.sender.sendNext = some r) :
    Sound { l with sender := r.1, forward := r.2 :: l.forward,
                   taken := l.taken ++ [r.2.payload] } := by
  obtain ⟨hsending, hphase, hid, hcap, hcounter, hmsg, hknows⟩ := Sender.sendNext_spec h.cap hr
  -- the new message is the next one of the queue
  have hlength := h.msgCounter
  have hgenuine : ∀ msg, Genuine { l with sender := r.1, forward := r.2 :: l.forward,
                                          taken := l.taken ++ [r.2.payload] } msg ↔
      l.Genuine msg ∨ msg = r.2 := by
    intro msg
    rw [genuine_concat (l := l) hid rfl, hmsg, message, hlength]
    rfl
  exact {
    cap := hcap ▸ h.cap
    msgCounter := by
      simp only [hcounter, hlength, List.length_append, List.length_singleton]
      omega
    starting := fun hstarting => by
      rw [hphase] at hstarting
      cases hstarting
    known := fun msg hknown => (hgenuine msg).mpr <| by
      cases hknows msg hknown with
      | inl hnew => exact Or.inr hnew
      | inr hknown => exact Or.inl (h.known msg hknown)
    forward := fun msg hforward => (hgenuine msg).mpr <| by
      cases List.mem_cons.mp hforward with
      | inl hnew => exact Or.inr hnew
      | inr hforward => exact Or.inl (h.forward msg hforward)
    back := fun msg hback => (hgenuine msg).mpr (Or.inl (h.back msg hback))
    returned := by
      intro msg hgen hlt
      -- the old messages are all back, and the new one is not asked for
      simp only [hcounter, hphase, reduceCtorEq, or_false] at hlt
      cases (hgenuine msg).mp hgen with
      | inl hold => exact h.returned msg hold (Or.inr hsending)
      | inr hnew =>
        rw [hnew, hmsg] at hlt
        exact absurd hlt (by simp)
    last := by
      simp only [hid]
      exact h.last
    accepted := h.accepted
    handing := h.handing
    again := h.again
    handed := h.handed
    inOrder := by
      intro done hdone msg hin k p hk hp hlt
      -- what was handed over came before the new payload
      have hold := (h.back msg (h.handed msg (hdone.subset hin)).1).bounds.2.2
      have hlen : k < l.taken.length := by omega
      simp only [List.getElem?_append_left hlen] at hk
      simp only [message, hid]
      exact h.inOrder done hdone msg hin k p hk hp hlt }

/-- Whatever arrives at the receiver has been accepted when it goes back. -/
theorem Sound.listen (h : l.Sound) (hmsg : msg ∈ l.forward) {r : Receiver δ}
    (hr : l.receiver.listen msg = some r) :
    Sound { l with receiver := r, back := msg :: l.back } := by
  obtain ⟨hfree, hlast, hcases⟩ := Receiver.listen_spec hr
  have hgen := h.forward msg hmsg
  have hid : msg.senderId = l.sender.id := hgen.bounds.1
  rw [hid] at hlast hcases
  -- nothing is waiting to be handed over while the receiver listens
  have hdone : ∀ m ∈ l.back, m.hasPayload → m ∈ l.handed := by
    intro m hm hpayload
    apply (h.accepted m hm hpayload).resolve_right
    simp [hfree]
  exact {
    h with
    back := fun m hm => by
      cases List.mem_cons.mp hm with
      | inl heq => exact heq ▸ hgen
      | inr hm => exact h.back m hm
    returned := fun m hm hlt => List.mem_cons_of_mem _ (h.returned m hm hlt)
    last := Or.inr ⟨msg, List.mem_cons_self, hlast.symm⟩
    accepted := by
      intro m hm hpayload
      show m ∈ l.handed ∨ r.handing = some m
      cases List.mem_cons.mp hm with
      | inr hm => exact Or.inl (hdone m hm hpayload)
      | inl heq =>
        subst heq
        rcases hcases with ⟨-, hnew⟩ | ⟨hold, -⟩
        · rw [hnew, if_pos hpayload]
          exact Or.inr rfl
        · -- the last message again, which is back already
          have hpos := hgen.bounds.2.1
          rcases h.last with hnone | ⟨m', hm', heq⟩
          · omega
          · have hsame : m = m' := hgen.eq (h.back m' hm') (by omega)
            rw [← hsame] at hm'
            exact Or.inl (hdone m hm' hpayload)
    handing := by
      intro m hm
      obtain ⟨rfl, hpayload, -⟩ := Receiver.handing_of_listen hr hm
      exact ⟨List.mem_cons_self, hpayload⟩
    again := by
      intro m hm m' hm' hlt
      obtain ⟨rfl, hpayload, -⟩ := Receiver.handing_of_listen hr hm
      show msg ∈ l.handed
      cases List.mem_cons.mp hm' with
      | inl heq =>
        rw [heq] at hlt
        exact absurd hlt (Int.lt_irrefl _)
      | inr hm' =>
        -- a later message is back, so this one arrives once more
        have hbound := (h.back m' hm').bounds.2.2
        have hlength := h.msgCounter
        exact hdone msg (h.returned msg hgen (Or.inl (by omega))) hpayload
    handed := fun m hm => (h.handed m hm).imp_left (List.mem_cons_of_mem _) }

/-- When a payload is handed over, all before it have been. -/
theorem Sound.onMessageRecv (h : l.Sound) {r : Receiver δ × Message δ}
    (hr : l.receiver.onMessageRecv = some r) :
    Sound { l with receiver := r.1, handed := l.handed ++ [r.2] } := by
  obtain ⟨hhanding, hfree, hcounters⟩ := Receiver.onMessageRecv_spec hr
  have hback := h.handing r.2 hhanding
  have hhanded : ∀ m ∈ l.handed ++ [r.2], m ∈ l.back ∧ m.hasPayload := by
    intro m hm
    rw [List.mem_append, List.mem_singleton] at hm
    cases hm with
    | inl hm => exact h.handed m hm
    | inr heq => exact heq ▸ hback
  -- what is back was handed over before, or is just now
  have haccepted : ∀ m ∈ l.back, m.hasPayload → m ∈ l.handed ++ [r.2] := by
    intro m hm hpayload
    rw [List.mem_append, List.mem_singleton]
    apply (h.accepted m hm hpayload).imp_right
    intro heq
    rw [hhanding, Option.some.injEq] at heq
    exact heq.symm
  exact {
    h with
    last := by
      simp only [Receiver.lastCounter, hcounters]
      exact h.last
    accepted := fun m hm hpayload => Or.inl (haccepted m hm hpayload)
    handing := fun m hm => by
      rw [hfree] at hm
      cases hm
    again := fun m hm => by
      rw [hfree] at hm
      cases hm
    handed := hhanded
    inOrder := by
      intro done hdone m hm k p hk hp hlt
      show l.message (k + 1) p ∈ done
      cases List.prefix_concat_iff.mp hdone with
      | inr hdone => exact h.inOrder done hdone m hm k p hk hp hlt
      | inl hdone =>
        subst hdone
        -- an earlier message than one that is back is back as well
        have hbound := (h.back m (hhanded m hm).1).bounds.2.2
        have hlength := h.msgCounter
        apply haccepted _ (h.returned _ (Or.inr ⟨k, p, hk, rfl⟩) (Or.inl ?_))
        · exact decide_eq_true hp
        · show ((k + 1 : Nat) : Int) < l.sender.msgCounter
          omega }

/-- What an event does: the sender goes on between two payloads, or takes one; a
    message arrives at the receiver, or its payload is handed over. -/
theorem Sound.next_cases (h : l.Sound) {e : Event δ} (hnext : l.next e = some l') :
    (∃ s sent, l.sender.Keeps s sent ∧ (∀ msg ∈ sent, l.Genuine msg) ∧
      (s.phase = .sending → l.sender.phase = .sending ∨
        ∃ msg ∈ l.back, l.sender.msgCounter ≤ msg.msgCounter) ∧
      l' = { l with sender := s, forward := sent ++ l.forward }) ∨
    (∃ r, l.sender.sendNext = some r ∧ l' = { l with
      sender := r.1, forward := r.2 :: l.forward, taken := l.taken ++ [r.2.payload] }) ∨
    (∃ msg r, e = .listen msg ∧ msg ∈ l.forward ∧ l.receiver.listen msg = some r ∧
      l' = { l with receiver := r, back := msg :: l.back }) ∨
    ∃ r, l.receiver.onMessageRecv = some r ∧
      l' = { l with receiver := r.1, handed := l.handed ++ [r.2] } := by
  cases e with
  | addMsgToQueue payload =>
    cases hnext
    exact Or.inl ⟨_, [], Sender.addMsgToQueue_keeps payload, by simp, Or.inl, rfl⟩
  | start =>
    obtain ⟨r, hr, rfl⟩ := Option.map_eq_some_iff.mp hnext
    obtain ⟨hphase, hmsg, hphase', hkeeps⟩ := Sender.start_keeps hr
    refine Or.inl ⟨r.1, [r.2], hkeeps, ?_, ?_, rfl⟩
    · intro msg hin
      have hcounter := h.msgCounter
      -- nothing was taken yet, so the counter is 0
      rw [h.starting hphase] at hcounter
      rw [List.mem_singleton.mp hin, hmsg, hcounter]
      exact Or.inl rfl
    · intro hsending
      rw [hphase'] at hsending
      cases hsending
  | recv msg =>
    simp only [Link.next, Option.ite_none_right_eq_some, Option.map_eq_some_iff] at hnext
    obtain ⟨hback, r, hr, rfl⟩ := hnext
    obtain ⟨-, hsent, hkeeps, htoken⟩ := Sender.recv_keeps hr
    refine Or.inl ⟨r.1, r.2, hkeeps, ?_, ?_, rfl⟩
    · exact fun m hm => h.known m (hsent m hm)
    -- only the current token ends the wait
    · exact fun hsending => Or.inr ⟨msg, hback, htoken hsending⟩
  | sendNext =>
    obtain ⟨r, hr, rfl⟩ := Option.map_eq_some_iff.mp hnext
    exact Or.inr (Or.inl ⟨r, hr, rfl⟩)
  | tokenReturned msg =>
    obtain ⟨s, hs, rfl⟩ := Option.map_eq_some_iff.mp hnext
    obtain ⟨hphase, hkeeps⟩ := Sender.tokenReturned_keeps hs
    refine Or.inl ⟨s, [], hkeeps, by simp, ?_, rfl⟩
    exact fun hsending => Or.inl (hphase ▸ hsending)
  | timeOut msg =>
    obtain ⟨s, hs, rfl⟩ := Option.map_eq_some_iff.mp hnext
    obtain ⟨hknown, hphase, hkeeps⟩ := Sender.timeOut_keeps hs
    refine Or.inl ⟨s, [msg], hkeeps, ?_, ?_, rfl⟩
    · intro m hm
      rw [List.mem_singleton.mp hm]
      exact h.known msg hknown
    · exact fun hsending => Or.inl (hphase ▸ hsending)
  | listen msg =>
    simp only [Link.next, Option.ite_none_right_eq_some, Option.map_eq_some_iff] at hnext
    obtain ⟨hmsg, r, hr, rfl⟩ := hnext
    exact Or.inr (Or.inr (Or.inl ⟨msg, r, rfl, hmsg, hr, rfl⟩))
  | onMessageRecv =>
    obtain ⟨r, hr, rfl⟩ := Option.map_eq_some_iff.mp hnext
    exact Or.inr (Or.inr (Or.inr ⟨r, hr, rfl⟩))

/-- Every event keeps what holds on the link. -/
theorem Sound.next (h : l.Sound) {e : Event δ} (hnext : l.next e = some l') : l'.Sound := by
  rcases h.next_cases hnext with ⟨s, sent, hs, hsent, hsending, rfl⟩ | ⟨r, hr, rfl⟩ |
    ⟨msg, r, -, hmsg, hr, rfl⟩ | ⟨r, hr, rfl⟩
  · exact h.of_keeps hs hsent hsending
  · exact h.sendNext hr
  · exact h.listen hmsg hr
  · exact h.onMessageRecv hr

theorem reachable_sound (h : (system : System (Link δ) (Event δ)).Reachable l) : l.Sound := by
  apply System.Run.invariant ?_ ?_ h
  · exact fun l hfresh => Fresh.sound hfresh
  · exact fun l e l' hsound _ hnext => hsound.next hnext

/-! ## Nothing is lost -/

/-- First deliveries are in queue order. When the sender takes another payload, all
    payloads before it have been handed over, but the last one may be about to be. -/
theorem handedOver_of_sendNext (h : (system : System (Link δ) (Event δ)).Reachable l) :
    l.InQueueOrder ∧ ∀ l', system.step l .sendNext l' → ∀ k p, l.taken[k]? = some p → p ≠ ∅ →
      l.message (k + 1) p ∈ l.handed ∨
        (k + 1 = l.taken.length ∧ l.receiver.handing = some (l.message (k + 1) p)) := by
  have hsound := reachable_sound h
  refine ⟨hsound.inOrder, fun l' hstep k p hk hp => ?_⟩
  obtain ⟨r, hr, -⟩ := Option.map_eq_some_iff.mp hstep
  have hsending := (Sender.sendNext_spec hsound.cap hr).1
  -- the sender waits for a payload, so every token is back
  have hback : ∀ j q, l.taken[j]? = some q → l.message (j + 1) q ∈ l.back := by
    intro j q hj
    exact hsound.returned _ (Or.inr ⟨j, q, hj, rfl⟩) (Or.inr hsending)
  cases hsound.accepted _ (hback k p hk) (decide_eq_true hp) with
  | inl hhanded => exact Or.inl hhanded
  | inr hhanding =>
    have hlt := (List.getElem?_eq_some_iff.mp hk).1
    by_cases hlast : k + 1 = l.taken.length
    · exact Or.inr ⟨hlast, hhanding⟩
    · -- the next message is back, so this one is handed over once more
      have hnext : k + 1 < l.taken.length := by omega
      apply Or.inl
      apply hsound.again _ hhanding _ (hback (k + 1) _ (List.getElem?_eq_getElem hnext))
      simp only [message]
      omega

/-- A link between fresh processes, the sender being processor 0. -/
def fresh : Link (List Int) :=
  { sender := { id := 0 }, receiver := {}, forward := [], back := [], taken := [], handed := [] }

theorem fresh_isFresh : fresh.Fresh :=
  ⟨by decide, rfl, rfl, rfl, rfl, rfl, rfl, rfl, rfl, rfl, rfl⟩

/-- What holds after some events on a fresh link holds in a reachable state. -/
theorem exists_of_events (events : List (Event (List Int))) (p : Link (List Int) → Bool)
    (h : (System.exec next fresh events).any p = true) :
    ∃ l, System.Reachable (system : System (Link (List Int)) _) l ∧ p l = true :=
  System.Run.exists_of_exec (fun _ _ _ hnext => ⟨trivial, hnext⟩) (.init fresh_isFresh) h

/-- The `k`-th message of the fresh link, with the payload `[k]`. -/
def nth (k : Nat) : Message (List Int) := ⟨0, k, if k = 0 then [] else [(k : Int)]⟩

/-- Two payloads were taken and the second is about to be handed over, when the
    sender takes a third. -/
theorem handedOver_of_sendNext_two : ∃ l l' : Link (List Int), system.step l .sendNext l' ∧
    l.taken = [[1], [2]] ∧ l.InQueueOrder ∧ nth 1 ∈ l.handed ∧
      (nth 2 ∈ l.handed ∨ l.receiver.handing = some (nth 2)) := by
  obtain ⟨l, hr, hp⟩ := exists_of_events
    [.addMsgToQueue [1], .addMsgToQueue [2], .addMsgToQueue [3], .start, .listen (nth 0),
      .recv (nth 0), .sendNext, .timeOut (nth 0), .listen (nth 1), .onMessageRecv,
      .recv (nth 1), .sendNext, .timeOut (nth 1), .listen (nth 2), .recv (nth 2)]
    (fun l => (l.next .sendNext).isSome ∧ l.taken = [[1], [2]] ∧ l.sender.id = 0)
    (by decide)
  obtain ⟨hnext, htaken, hid⟩ := of_decide_eq_true hp
  obtain ⟨l', hl'⟩ := Option.isSome_iff_exists.mp hnext
  obtain ⟨horder, hhanded⟩ := handedOver_of_sendNext hr
  have hnth : ∀ k : Nat, l.message (k + 1) [(k + 1 : Int)] = nth (k + 1) := by
    intro k
    simp [message, nth, hid]
  refine ⟨l, l', hl', htaken, horder, ?_, ?_⟩
  · have hone := hhanded l' hl' 0 [1] (by rw [htaken]; rfl) (by decide)
    rw [htaken] at hone
    rw [← hnth]
    exact hone.resolve_right fun hlast => absurd hlast.1 (by decide)
  · have htwo := hhanded l' hl' 1 [2] (by rw [htaken]; rfl) (by decide)
    rw [← hnth]
    exact htwo.imp_right And.right

/-- The sender takes the second payload before the first has been handed over. -/
theorem sendNext_before_handedOver : ∃ l l' : Link (List Int),
    System.Reachable system l ∧ system.step l .sendNext l' ∧ l.taken = [[1]] ∧ l.handed = [] := by
  obtain ⟨l, hr, hp⟩ := exists_of_events
    [.addMsgToQueue [1], .addMsgToQueue [2], .start, .listen (nth 0), .recv (nth 0), .sendNext,
      .listen (nth 1), .recv (nth 1)]
    (fun l => (l.next .sendNext).isSome ∧ l.taken = [[1]] ∧ l.handed = [])
    (by decide)
  obtain ⟨hnext, htaken, hhanded⟩ := of_decide_eq_true hp
  obtain ⟨l', hl'⟩ := Option.isSome_iff_exists.mp hnext
  exact ⟨l, l', hr, hl', htaken, hhanded⟩

/-! ## Nothing is delivered twice -/

/-- No message arrives after a later one was accepted. -/
def NotOvertaken (l : Link δ) : Event δ → Prop
  | .listen msg => l.receiver.lastCounter msg.senderId ≤ msg.msgCounter
  | _ => True

instance (l : Link δ) (e : Event δ) : Decidable (l.NotOvertaken e) :=
  match e with
  | .listen msg => inferInstanceAs (Decidable (l.receiver.lastCounter msg.senderId ≤ _))
  | .addMsgToQueue _ | .start | .recv _ | .sendNext | .tokenReturned _ | .timeOut _
  | .onMessageRecv => .isTrue trivial

/-- The messages handed over and the one about to be, in increasing order up to the
    last counter that was accepted. -/
structure Increasing (l : Link δ) : Prop where
  sorted : ((l.handed ++ l.receiver.handing.toList).map (·.msgCounter)).Pairwise (· < ·)
  below : ∀ msg ∈ l.handed ++ l.receiver.handing.toList,
    msg.msgCounter ≤ l.receiver.lastCounter l.sender.id

/-- Events that no message overtakes keep the order. -/
theorem Increasing.next (h : l.Increasing) (hsound : l.Sound) {e : Event δ}
    (hok : l.NotOvertaken e) (hnext : l.next e = some l') : l'.Increasing := by
  rcases hsound.next_cases hnext with ⟨s, sent, hs, hsent, hsending, rfl⟩ | ⟨r, hr, rfl⟩ |
    ⟨msg, r, rfl, hmsg, hr, rfl⟩ | ⟨r, hr, rfl⟩
  · exact ⟨h.sorted, by simpa only [hs.id] using h.below⟩
  · have hid := (Sender.sendNext_spec hsound.cap hr).2.2.1
    exact ⟨h.sorted, by simpa only [hid] using h.below⟩
  · obtain ⟨hfree, hlast, -⟩ := Receiver.listen_spec hr
    have hid : msg.senderId = l.sender.id := (hsound.forward msg hmsg).bounds.1
    have hle : l.receiver.lastCounter msg.senderId ≤ msg.msgCounter := hok
    rw [hid] at hlast hle
    obtain ⟨hsorted, hbelow⟩ := h
    simp only [hfree, Option.toList_none, List.append_nil] at hsorted hbelow
    -- what is about to be handed over just arrived, and is not the last one
    have hnew : ∀ m ∈ r.handing.toList, msg = m ∧
        msg.msgCounter ≠ l.receiver.lastCounter l.sender.id := by
      intro m hm
      have hnew := Receiver.handing_of_listen hr (Option.mem_toList.mp hm)
      exact ⟨hnew.1, hid ▸ hnew.2.2⟩
    constructor
    · show ((l.handed ++ r.handing.toList).map (·.msgCounter)).Pairwise (· < ·)
      rw [List.map_append, List.pairwise_append]
      refine ⟨hsorted, ?_, ?_⟩
      · cases r.handing with
        | none => simp
        | some m => simp
      · -- the new message is later than all that were handed over
        simp only [List.mem_map]
        rintro _ ⟨m, hm, rfl⟩ _ ⟨m', hm', rfl⟩
        obtain ⟨rfl, hne⟩ := hnew m' hm'
        have hmle := hbelow m hm
        omega
    · intro m hm
      show m.msgCounter ≤ r.lastCounter l.sender.id
      rw [hlast]
      cases List.mem_append.mp hm with
      | inl hm => exact Int.le_trans (hbelow m hm) hle
      | inr hm => rw [← (hnew m hm).1]
  · obtain ⟨hhanding, hfree, hcounters⟩ := Receiver.onMessageRecv_spec hr
    obtain ⟨hsorted, hbelow⟩ := h
    rw [hhanding] at hsorted hbelow
    constructor
    -- the order of deliveries is the order in which they were due
    · simpa [hfree] using hsorted
    · simpa [hfree, Receiver.lastCounter, hcounters] using hbelow

/-- While no message is overtaken, payloads are handed over in queue order, each of
    them at most once. -/
theorem handed_increasing (h : system.Run NotOvertaken l) :
    (l.handed.map (·.msgCounter)).Pairwise (· < ·) ∧
      ∀ msg ∈ l.handed, ∃ k : Nat, l.taken[k]? = some msg.payload ∧ msg.msgCounter = k + 1 := by
  have hsound := reachable_sound h.reachable
  have hincreasing : l.Sound ∧ l.Increasing := by
    apply System.Run.invariant ?_ ?_ h
    · intro l hfresh
      refine ⟨Fresh.sound hfresh, ?_⟩
      constructor
      · simp [hfresh.handed, hfresh.handing]
      · simp [hfresh.handed, hfresh.handing]
    · exact fun l e l' hl hok hnext => ⟨hl.1.next hnext, hl.2.next hl.1 hok hnext⟩
  constructor
  · have hsorted := hincreasing.2.sorted
    rw [List.map_append, List.pairwise_append] at hsorted
    exact hsorted.1
  · intro msg hmsg
    obtain ⟨hback, hpayload⟩ := hsound.handed msg hmsg
    rcases hsound.back msg hback with heq | ⟨k, p, hk, rfl⟩
    · -- the first message has no payload
      rw [heq] at hpayload
      exact absurd rfl (of_decide_eq_true hpayload)
    · exact ⟨k, hk, rfl⟩

/-- Two payloads, each message of which arrives twice. -/
theorem handed_increasing_two : ∃ l : Link (List Int), System.Run system NotOvertaken l ∧
    l.handed = [nth 1, nth 2] ∧ (l.handed.map (·.msgCounter)).Pairwise (· < ·) ∧
      ∀ msg ∈ l.handed, ∃ k : Nat, l.taken[k]? = some msg.payload ∧ msg.msgCounter = k + 1 := by
  have hnext : ∀ (l : Link (List Int)) e l',
      (if l.NotOvertaken e then l.next e else none) = some l' →
        l.NotOvertaken e ∧ system.step l e l' := by
    intro l e l' h
    exact Option.ite_none_right_eq_some.mp h
  have hexec : (System.exec (fun l e => if NotOvertaken l e then next l e else none) fresh
      [.addMsgToQueue [1], .addMsgToQueue [2], .start, .listen (nth 0), .recv (nth 0),
        .sendNext, .listen (nth 1), .onMessageRecv, .timeOut (nth 1), .listen (nth 1),
        .recv (nth 1), .sendNext, .recv (nth 1), .listen (nth 2), .onMessageRecv,
        .listen (nth 2)]).any (fun l => l.handed = [nth 1, nth 2]) = true := by
    decide
  obtain ⟨l, hr, hp⟩ := System.Run.exists_of_exec hnext (.init fresh_isFresh) hexec
  exact ⟨l, hr, of_decide_eq_true hp, handed_increasing hr⟩

/-- After the second payload the first is handed over again. -/
theorem handed_again : ∃ l : Link (List Int), System.Reachable system l ∧
    l.taken = [[1], [2]] ∧ l.handed = [nth 1, nth 2, nth 1] := by
  obtain ⟨l, hr, hp⟩ := exists_of_events
    [.addMsgToQueue [1], .addMsgToQueue [2], .start, .listen (nth 0), .recv (nth 0), .sendNext,
      .listen (nth 1), .onMessageRecv, .recv (nth 1), .sendNext, .listen (nth 2),
      .onMessageRecv, .listen (nth 1), .onMessageRecv]
    (fun l => l.taken = [[1], [2]] ∧ l.handed = [nth 1, nth 2, nth 1])
    (by decide)
  exact ⟨l, hr, of_decide_eq_true hp⟩

end Link

end Udp

end BFTList
