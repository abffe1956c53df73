import Mathlib.Data.Fintype.Basic
import Mathlib.Data.List.FinRange
import Mathlib.Logic.Function.Basic

/-!
# Event-driven failure detector

A processor sends a token to all others and waits until enough of them have sent it back
several times (`modules/event_driven_fd/module.py`). Those are correct for the round, and the
next round has a new token.

The loop of `run()` takes no lock, so messages arrive between its statements.
-/

namespace BFTList

/-- Times a token has to be sent back. -/
def K_ADMISSIBILITY_THRESHOLD : Nat := 5

/-- The data of a message: a token and the processor it belongs to. -/
structure OwnedToken (n : Nat) where
  token : Int
  ownerId : Fin n
  deriving DecidableEq, Repr

/-- The next statement of the loop. -/
inductive EventFdStatement where
  | broadcast
  | wait
  | resetCounters
  | incrementToken
  deriving DecidableEq, Repr

/-- The variables of the failure detector of one processor out of `n`; it has no counter for
    itself. -/
structure EventDrivenFDModule (n : Nat) where
  id : Fin n
  numberOfByzantine : Nat
  token : Int
  counters : Fin n → Nat
  lastCorrectProcessors : Option (Int × List (Fin n))
  statement : EventFdStatement

namespace EventDrivenFDModule

variable {n : Nat} (self : EventDrivenFDModule n)

/-- The module after construction. -/
def init (id : Fin n) (f : Nat) : EventDrivenFDModule n where
  id := id
  numberOfByzantine := f
  token := 0
  counters := fun _ => 0
  lastCorrectProcessors := none
  statement := .broadcast

/-- The other processors. -/
def others : List (Fin n) := (List.finRange n).filter (· ≠ self.id)

/-- Processors that have sent the current token back often enough. -/
def getCorrectProcessors : List (Fin n) :=
  self.others.filter fun k => K_ADMISSIBILITY_THRESHOLD ≤ self.counters k

/-- At least `n - 2f` of them. -/
def correctProcessorsHaveReplied : Bool :=
  (n : Int) - 2 * self.numberOfByzantine ≤ self.getCorrectProcessors.length

/-- The messages of `broadcast()`. -/
def broadcast : List (Fin n × OwnedToken n) := self.others.map (·, ⟨self.token, self.id⟩)

/-- A message of processor `sender`, and what is sent back. -/
def onMsgRecv (sender : Fin n) (msg : OwnedToken n) :
    EventDrivenFDModule n × List (Fin n × OwnedToken n) :=
  if msg.ownerId = self.id then
    if msg.token = self.token then
      ({ self with
        counters := Function.update self.counters sender (self.counters sender + 1) },
        [(sender, msg)])
    -- a token of another round is not sent back
    else (self, [])
  else (self, [(sender, msg)])

/-- The next statement of `run()`, and the messages it sends. Counters are not reset while the
    loop reads them, so it has waited long enough when the processors are stored. -/
def run : EventDrivenFDModule n × List (Fin n × OwnedToken n) :=
  match self.statement with
  | .broadcast => ({ self with statement := .wait }, self.broadcast)
  | .wait =>
    if self.correctProcessorsHaveReplied then
      ({ self with
        lastCorrectProcessors := some (self.token, self.getCorrectProcessors)
        statement := .resetCounters }, [])
    else (self, [])
  | .resetCounters => ({ self with counters := fun _ => 0, statement := .incrementToken }, [])
  | .incrementToken => ({ self with token := self.token + 1, statement := .broadcast }, [])

end EventDrivenFDModule

end BFTList
