import BFTList.Native.ReplicaStructure
import Mathlib.Logic.Function.Basic

/-!
# The self-stabilizing communication link

`communication/udp`: a sender passes a token, the counter of its messages, back
and forth with the receiver at the other end. A payload, a dictionary, goes with
the token; the empty dictionary counts as none.

The loops are split where a thread waits. A datagram is the message it encodes, and
the channels lose, duplicate, delay and reorder datagrams.
-/

namespace BFTList

namespace Udp

variable {δ : Type*} [DecidableEq δ] [EmptyCollection δ]

/-- A message sent over the self-stabilizing communication link. -/
structure Message (δ : Type*) where
  senderId : Int
  msgCounter : Int
  payload : δ
  deriving DecidableEq, Repr

/-- True if a payload is attached to the message. -/
def Message.hasPayload (msg : Message δ) : Bool := msg.payload ≠ ∅

/-! ## Sender -/

/-- Where the main loop of a sender waits: for `check_ready`, for the token, or
    for a new message to send. -/
inductive SenderPhase where
  | starting
  | receiving
  | sending
  deriving DecidableEq, Repr

/-- A sender, with the messages that a thread of `check_timeout` may send again. -/
structure Sender (δ : Type*) where
  id : Int
  cap : Int := MAXINT
  msgCounter : Int := 0
  msgQueue : List δ := []
  lastSentMsg : Option (Message δ) := none
  lastRecvMsgCounter : Int := -1
  timers : List (Message δ) := []
  phase : SenderPhase := .starting

namespace Sender

/-- Adds the message to the FIFO queue for this sender channel. -/
def addMsgToQueue (s : Sender δ) (msg : δ) : Sender δ :=
  { s with msgQueue := s.msgQueue ++ [msg] }

/-- Sends a message, and starts a thread that sends it again unless told not to. -/
def send (s : Sender δ) (msg : Message δ) (timeout : Bool) : Sender δ :=
  { s with
    lastSentMsg := some msg
    timers := if timeout then msg :: s.timers else s.timers }

/-- The first message, which has no payload. -/
def start (s : Sender δ) : Option (Sender δ × Message δ) :=
  if s.phase = .starting then
    let msg : Message δ := ⟨s.id, s.msgCounter, ∅⟩
    some ({ s.send msg true with phase := .receiving }, msg)
  else none

/-- A message comes back: the current token, or an older one, upon which the last
    message goes out again. Without a last message the thread raises. -/
def recv (s : Sender δ) (msg : Message δ) : Option (Sender δ × List (Message δ)) :=
  if s.phase = .receiving then
    let s := { s with lastRecvMsgCounter := msg.msgCounter }
    if msg.msgCounter ≥ s.msgCounter then some ({ s with phase := .sending }, [])
    else s.lastSentMsg.map fun last => (s.send last true, [last])
  else none

/-- The next message of the queue goes out with the next counter. A `cap` of 0
    raises. -/
def sendNext (s : Sender δ) : Option (Sender δ × Message δ) :=
  match s.phase, s.msgQueue with
  | .sending, payload :: msgQueue =>
    if s.cap = 0 then none
    else
      let msgCounter := s.msgCounter + Int.fmod 1 s.cap
      let msg : Message δ := ⟨s.id, msgCounter, payload⟩
      let s := { s with msgQueue := msgQueue, msgCounter := msgCounter }
      some ({ s.send msg true with phase := .receiving }, msg)
  | _, _ => none

/-- A thread of `check_timeout` sees that the token has returned, and ends. -/
def tokenReturned (s : Sender δ) (msg : Message δ) : Option (Sender δ) :=
  if msg ∈ s.timers ∧ s.lastRecvMsgCounter ≥ msg.msgCounter then
    some { s with timers := s.timers.erase msg }
  else none

/-- A thread of `check_timeout` sends its message again. -/
def timeOut (s : Sender δ) (msg : Message δ) : Option (Sender δ) :=
  if msg ∈ s.timers then some (s.send msg false) else none

end Sender

/-! ## Receiver -/

/-- A receiver, with the message whose payload it is about to hand to
    `on_message_recv`. -/
structure Receiver (δ : Type*) where
  msgCounters : Int → Option Int := fun _ => none
  handing : Option (Message δ) := none

namespace Receiver

/-- The last counter accepted from a sender. -/
def lastCounter (r : Receiver δ) (senderId : Int) : Int := (r.msgCounters senderId).getD (-1)

/-- A message arrives: it is accepted unless its counter is the last one. Either way
    it is sent back, before its payload is handed over. -/
def listen (r : Receiver δ) (msg : Message δ) : Option (Receiver δ) :=
  if r.handing = none then
    let counter := r.lastCounter msg.senderId
    let r := { r with msgCounters := Function.update r.msgCounters msg.senderId (some counter) }
    if msg.msgCounter ≠ counter then
      some {
        msgCounters := Function.update r.msgCounters msg.senderId (some msg.msgCounter)
        handing := if msg.hasPayload then some msg else none }
    else some r
  else none

/-- The payload of an accepted message is handed to `on_message_recv`. -/
def onMessageRecv (r : Receiver δ) : Option (Receiver δ × Message δ) :=
  r.handing.map fun msg => ({ r with handing := none }, msg)

end Receiver

/-! ## Link -/

/-- A sender and a receiver with every message that was sent in either direction,
    the payloads taken from the queue and the messages handed over so far. -/
structure Link (δ : Type*) where
  sender : Sender δ
  receiver : Receiver δ
  forward : List (Message δ)
  back : List (Message δ)
  taken : List δ
  handed : List (Message δ)

/-- What happens next on a link. A message may arrive at any time after it was
    sent, any number of times or never. -/
inductive Event (δ : Type*) where
  | addMsgToQueue (payload : δ)
  | start
  | recv (msg : Message δ)
  | sendNext
  | tokenReturned (msg : Message δ)
  | timeOut (msg : Message δ)
  | listen (msg : Message δ)
  | onMessageRecv

namespace Link

/-- The link after an event, if it is possible. -/
def next (l : Link δ) : Event δ → Option (Link δ)
  | .addMsgToQueue payload => some { l with sender := l.sender.addMsgToQueue payload }
  | .start => l.sender.start.map fun r => { l with sender := r.1, forward := r.2 :: l.forward }
  | .recv msg =>
    if msg ∈ l.back then
      (l.sender.recv msg).map fun r => { l with sender := r.1, forward := r.2 ++ l.forward }
    else none
  | .sendNext => l.sender.sendNext.map fun r =>
      { l with sender := r.1, forward := r.2 :: l.forward, taken := l.taken ++ [r.2.payload] }
  | .tokenReturned msg => (l.sender.tokenReturned msg).map fun s => { l with sender := s }
  | .timeOut msg => (l.sender.timeOut msg).map fun s =>
      { l with sender := s, forward := msg :: l.forward }
  | .listen msg =>
    if msg ∈ l.forward then
      (l.receiver.listen msg).map fun r => { l with receiver := r, back := msg :: l.back }
    else none
  | .onMessageRecv => l.receiver.onMessageRecv.map fun r =>
      { l with receiver := r.1, handed := l.handed ++ [r.2] }

end Link

end Udp

end BFTList
