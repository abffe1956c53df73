import Mathlib.Data.Finset.Insert
import Mathlib.Data.Fintype.Basic
import Mathlib.Data.List.FinRange
import Mathlib.Logic.Function.Basic

/-!
# The request-reply links and their rate limiter

`communication/zeromq`: a sender takes a message from its queue, sends it as a request with a
counter, and waits for the reply before it takes the next one. The receiver dispatches the
message and replies with the counter. The modules put messages in the queues and then wait
until no queue of their processor is full.

The loops are split where a thread waits, and the loops over the nodes at every node, since the
threads of a processor share the queues. A socket carries its messages unchanged; a request
waits until the receiver takes it.
-/

namespace BFTList

/-- Max allowed amount of messages in send queue. -/
def MAX_QUEUE_SIZE : Nat := 10

/-! ## Byzantine behaviour -/

/-- The configured behaviour of a processor; `other` stands for those that change what the
    modules do or say. -/
inductive ByzBehavior where
  | none
  | unresponsive
  | unresponsiveToHalf
  | other
  deriving DecidableEq, Repr

/-- The guard of `send_to_node`: an unresponsive processor sends nothing, another one nothing to
    the nodes with odd ids. -/
def ByzBehavior.sendsTo {n : Nat} (behavior : ByzBehavior) (nodeId : Fin n) : Bool :=
  match behavior with
  | .unresponsive => false
  | .unresponsiveToHalf => nodeId.val % 2 = 0
  | .none | .other => true

namespace ZeroMq

variable {δ : Type*} [EmptyCollection δ]

/-- The two message types. -/
inductive MessageEnum where
  | senderMessage
  | receiverMessage
  deriving DecidableEq, Repr

/-- A message sent over the communication channels. -/
structure Message (δ : Type*) where
  type : MessageEnum
  counter : Int
  senderId : Int
  data : δ
  deriving DecidableEq, Repr

/-! ## Sender -/

/-- Where the main loop of a sender waits: for a message in its queue, for the processor to
    respond, or for the reply. After an exception it waits no more. -/
inductive SenderPhase (δ : Type*) where
  | waiting
  | holding (msg : δ)
  | awaiting
  | failed
  deriving DecidableEq, Repr

/-- A sender channel; its `cap` is `2**31`. -/
structure Sender (δ : Type*) where
  id : Int
  msgQueue : List δ := []
  counter : Int := 1
  cap : Int := 2147483648
  phase : SenderPhase δ := .waiting

namespace Sender

/-- Adds the message to the FIFO queue for this sender channel. -/
def addMsgToQueue (s : Sender δ) (msg : δ) : Sender δ :=
  { s with msgQueue := s.msgQueue ++ [msg] }

/-- Gets the next message from the queue, if there is one. -/
def getMsgFromQueue (s : Sender δ) : Option (Sender δ) :=
  match s.phase, s.msgQueue with
  | .waiting, msg :: msgQueue => some { s with msgQueue := msgQueue, phase := .holding msg }
  | _, _ => none

/-- Sends the message over the channel. -/
def send (s : Sender δ) : Option (Sender δ × Message δ) :=
  match s.phase with
  | .holding data =>
    some ({ s with phase := .awaiting }, ⟨.senderMessage, s.counter, s.id, data⟩)
  | _ => none

/-- The reply arrives. Another counter than the own one raises; else the own one is increased by
    `1 % cap`, for `%` binds tighter than `+=`. -/
def recv (s : Sender δ) (reply : Message δ) : Option (Sender δ) :=
  match s.phase with
  | .awaiting =>
    if reply.counter ≠ s.counter then some { s with phase := .failed }
    else some { s with counter := s.counter + Int.fmod 1 s.cap, phase := .waiting }
  | _ => none

end Sender

/-! ## Receiver -/

/-- The reply of receiver `id`. -/
def ack (id counter : Int) : Message δ := ⟨.receiverMessage, counter, id, ∅⟩

/-! ## Link -/

/-- A sender with its socket, the messages put in its queue and those that the receiver
    dispatched so far. -/
structure Link (δ : Type*) where
  sender : Sender δ
  request : Option (Message δ) := none
  reply : Option (Message δ) := none
  sent : List δ := []
  dispatched : List δ := []

/-- The steps of the two loops. -/
inductive Event where
  | getMsgFromQueue
  | send
  | serve
  | recv
  deriving DecidableEq, Repr

namespace Link

/-- A module puts a message in the queue. -/
def addMsgToQueue (l : Link δ) (msg : δ) : Link δ :=
  { l with sender := l.sender.addMsgToQueue msg, sent := l.sent ++ [msg] }

/-- The number of messages in the queue. -/
def qsize (l : Link δ) : Nat := l.sender.msgQueue.length

/-- The link to receiver `id` after a step of one of the loops, if it does not wait. -/
def next (id : Int) (l : Link δ) : Event → Option (Link δ)
  | .getMsgFromQueue => l.sender.getMsgFromQueue.map fun s => { l with sender := s }
  | .send => l.sender.send.map fun r => { l with sender := r.1, request := some r.2 }
  | .serve => l.request.map fun msg =>
      { l with
        request := none
        reply := some (ack id msg.counter)
        dispatched := l.dispatched ++ [msg.data] }
  | .recv => l.reply.bind fun msg =>
      (l.sender.recv msg).map fun s => { l with sender := s, reply := none }

end Link

/-! ## All processors -/

/-- The threads that use the rate limiter, one for each module. -/
inductive RunThread where
  | viewEstablishment
  | replication
  | primaryMonitoring
  | failureDetector
  deriving DecidableEq, Repr

instance : Fintype RunThread where
  elems := {.viewEstablishment, .replication, .primaryMonitoring, .failureDetector}
  complete := by
    intro m
    cases m <;> decide

/-- The failure detector sends over UDP. -/
def RunThread.sends (m : RunThread) : Bool := m ≠ .failureDetector

/-- What a thread is about to do: send to some nodes, or check the queues of some nodes before
    the next iteration. -/
inductive ThreadPhase (n : Nat) where
  | sending (rest : List (Fin n))
  | checking (rest : List (Fin n))
  deriving DecidableEq, Repr

/-- A thread, with its iterations after the first one. -/
structure ThreadState (n : Nat) where
  phase : ThreadPhase n
  iterations : Nat
  deriving DecidableEq, Repr

/-- All processors; the crashed ones have stopped. -/
structure Mesh (n : Nat) (δ : Type*) where
  links : Fin n → Fin n → Link δ
  threads : Fin n → RunThread → ThreadState n
  crashed : Finset (Fin n)

/-- What happens next. The message that a thread may be about to put in a queue is arbitrary. -/
inductive Label (n : Nat) (δ : Type*) where
  | thread (i : Fin n) (m : RunThread) (msg : δ)
  | link (i j : Fin n) (e : Event)
  | crash (i : Fin n)

/-- The nodes that a processor has senders for. -/
def otherNodes {n : Nat} (i : Fin n) : List (Fin n) := (List.finRange n).filter (· ≠ i)

/-- A thread at the end of an iteration of its module. -/
def RunThread.sending {n : Nat} (m : RunThread) (i : Fin n) : ThreadPhase n :=
  .sending (if m.sends then otherNodes i else [])

/-- Which processor takes the step: the receiver's or the sender's. -/
def Event.actor {n : Nat} (e : Event) (i j : Fin n) : Fin n := if e = .serve then j else i

namespace Mesh

variable {n : Nat} (net : Mesh n δ)

/-- The processors when the threads have been started. -/
def init : Mesh n δ where
  links := fun i _ => { sender := { id := i } }
  threads := fun i m => ⟨m.sending i, 0⟩
  crashed := ∅

/-- Replace the link from `i` to `j`. -/
def setLink (i j : Fin n) (l : Link δ) : Mesh n δ :=
  { net with links := Function.update net.links i (Function.update (net.links i) j l) }

/-- Replace thread `m` of processor `i`. -/
def setThread (i : Fin n) (m : RunThread) (t : ThreadState n) : Mesh n δ :=
  { net with threads := Function.update net.threads i (Function.update (net.threads i) m t) }

/-- A thread puts one message in a queue, or `queues_are_full` looks at one. -/
def runThread (behavior : ByzBehavior) (i : Fin n) (m : RunThread) (msg : δ) : Mesh n δ :=
  let t := net.threads i m
  match t.phase with
  | .sending (j :: rest) =>
    let net :=
      if behavior.sendsTo j then net.setLink i j ((net.links i j).addMsgToQueue msg) else net
    net.setThread i m { t with phase := .sending rest }
  | .sending [] => net.setThread i m { t with phase := .checking (otherNodes i) }
  | .checking (j :: rest) =>
    -- after a full queue, `sleep` begins again
    let rest := if MAX_QUEUE_SIZE < (net.links i j).qsize then otherNodes i else rest
    net.setThread i m { t with phase := .checking rest }
  | .checking [] => net.setThread i m ⟨m.sending i, t.iterations + 1⟩

/-- The processors after a step, if it is possible. An unresponsive processor holds the message
    that it would send. -/
def next (behavior : Fin n → ByzBehavior) : Label n δ → Option (Mesh n δ)
  | .thread i m msg => if i ∉ net.crashed then some (net.runThread (behavior i) i m msg) else none
  | .link i j e =>
    if e.actor i j ∉ net.crashed ∧ i ≠ j ∧ (e = .send → behavior i ≠ .unresponsive) then
      ((net.links i j).next j e).map (net.setLink i j)
    else none
  | .crash i => some { net with crashed := insert i net.crashed }

end Mesh

end ZeroMq

end BFTList
