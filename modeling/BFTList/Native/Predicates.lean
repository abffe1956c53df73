import Mathlib.Data.Finset.Card
import Mathlib.Data.Fintype.Card
import Mathlib.Data.Finset.Union
import Mathlib.Data.Fintype.Basic
import Mathlib.Logic.Function.Basic

/-!
# View Establishment module: predicates and actions

The tables of phases, view pairs and view change flags
(`modules/view_establishment/predicates.py`), with the echo and witness
variables of the module that owns them (`module.py`), since both are one state.

`self.echo[self.id]` is built from the very dictionary `self.views[self.id]`, so
an action that writes into the own view pair also writes into the own echo
until a reset installs new dictionaries; `echoShared` records that they are one.
-/

namespace BFTList

/-- No view. -/
def TEE : Int := -1

/-- The view a reset starts from. -/
def DF_VIEW : Int := 0

/-- A view pair. -/
@[ext] structure VPair where
  current : Int
  next : Int
  deriving DecidableEq, Repr

/-- The pair a reset installs. -/
def RST_PAIR : VPair := ⟨TEE, DF_VIEW⟩

/-- What a processor reported to have last heard; fields that were never set are absent. -/
structure Echo where
  views : Option VPair
  phase : Int
  witnesses : Option Bool
  vChange : Option Bool
  deriving DecidableEq, Repr

/-- Phase, witness flag, view pair and view change flag of the sender. -/
structure OwnData where
  phs : Int
  witness : Bool
  views : VPair
  vChange : Bool
  deriving DecidableEq, Repr

/-- The modes of `transition_cases`. -/
inductive Mode where
  | follow
  | remain
  deriving DecidableEq, Repr

/-- The variables of the View Establishment module of one processor out of `n`. -/
structure ViewEstablishmentModule (n : Nat) where
  id : Fin n
  numberOfByzantine : Nat
  phs : Fin n → Int
  views : Fin n → VPair
  vChange : Fin n → Bool
  witnesses : Fin n → Bool
  witnessesSet : Finset (Fin n)
  echo : Fin n → Echo
  echoShared : Bool

namespace ViewEstablishmentModule

variable {n : Nat} (self : ViewEstablishmentModule n)

/-- The module after construction. -/
def init (id : Fin n) (f : Nat) : ViewEstablishmentModule n where
  id := id
  numberOfByzantine := f
  phs := fun _ => 0
  views := fun _ => RST_PAIR
  vChange := fun _ => false
  witnesses := fun _ => false
  witnessesSet := ∅
  echo := fun _ => ⟨none, 0, none, none⟩
  echoShared := false

/-! ## Macros -/

/-- No illegal view numbers in the pair. -/
def typeCheck (n : Nat) (vpair : VPair) : Bool :=
  vpair.next ≠ TEE ∧ (vpair.next = DF_VIEW ∨ (0 ≤ vpair.next ∧ vpair.next ≤ n - 1)) ∧
    (vpair.current = TEE ∨ vpair.current = DF_VIEW ∨
      (0 ≤ vpair.current ∧ vpair.current ≤ n - 1))

/-- It is legit to be in phase 0 with the pair. -/
def legitPhsZero (n : Nat) (vpair : VPair) : Bool :=
  (vpair.current = vpair.next ∨ vpair = RST_PAIR) && typeCheck n vpair

/-- It is legit to be in phase 1 with the pair. -/
def legitPhsOne (n : Nat) (vpair : VPair) : Bool :=
  vpair.current ≠ vpair.next && typeCheck n vpair

/-- Processor `k` is in a phase that its view pair does not allow. -/
def staleV (k : Fin n) : Bool :=
  (self.phs k = 0 && !legitPhsZero n (self.views k)) ||
    (self.phs k = 1 && !legitPhsOne n (self.views k))

/-- The data of a message is not stale. -/
def valid (n : Nat) (msg : OwnData) : Bool :=
  (msg.phs = 0 && legitPhsZero n msg.views) || (msg.phs = 1 && legitPhsOne n msg.views)

/-- Processors with the view pair of `j`, in the phase if one is given. -/
def sameVSet (j : Fin n) (phase : Option Int) : Finset (Fin n) :=
  Finset.univ.filter fun k =>
    -- in phase 1 a pair without current view goes with every pair of the same next view
    (phase = some 1 ∧ ((self.views k).current = TEE ∨ (self.views j).current = TEE) ∧
      (self.views k).next = (self.views j).next) ∨
    ((phase = none ∨ phase = some (self.phs k)) ∧ self.views k = self.views j ∧
      self.staleV k = false)

/-- The three cases of a transition supported by a view pair. -/
def transitionCases (j : Fin n) (vpair : VPair) (phase : Int) : Mode → Bool
  | .remain => vpair.next = (self.views j).current
  | .follow =>
    if phase = 0 then
      if (self.views j).current ≠ TEE then vpair.next = ((self.views j).current + 1) % n
      else vpair.next = DF_VIEW
    else if phase = 1 then vpair.current = (self.views j).next
    else false

/-- Processors in another phase that support the transition of `j`. -/
def transitSet (j : Fin n) (phase : Int) (mode : Mode) : Finset (Fin n) :=
  Finset.univ.filter fun k =>
    self.phs k ≠ phase ∧ self.transitionCases j (self.views k) phase mode ∧
      self.staleV k = false

/-- `n - 2f` processors remain in or transit to the phase. -/
def transitAdopble (j : Fin n) (phase : Int) (mode : Mode) : Bool :=
  (n : Int) - 2 * self.numberOfByzantine ≤
    (self.sameVSet j (some (self.phs j)) ∪ self.transitSet j phase mode).card

/-- The two sets of processors willing to move add up to `n - f`. -/
def establishable (phase : Int) (mode : Mode) : Bool :=
  (n : Int) - self.numberOfByzantine ≤
    (self.sameVSet self.id (some (self.phs self.id))).card +
      (self.transitSet self.id phase mode).card

/-- Enough view change flags, counted with the processors already on the way. -/
def changeable : Bool :=
  (n : Int) - self.numberOfByzantine ≤
    (Finset.univ.filter fun k => self.vChange k).card +
      (Finset.univ.filter fun k =>
        (self.views k).next = ((self.views self.id).current + 1) % n).card

/-! ## Witnesses -/

/-- Processor `k` echoes the own view pair, phase and flag. -/
def echoNoWitn (k : Fin n) : Bool :=
  some (self.views self.id) = (self.echo k).views ∧ self.phs self.id = (self.echo k).phase ∧
    some (self.vChange self.id) = (self.echo k).vChange

/-- `n - f` processors have noticed the recent value. -/
def noticedRecentValue : Bool :=
  (n : Int) - self.numberOfByzantine ≤ (Finset.univ.filter fun k => self.echoNoWitn k).card

/-- Processors known to have been witnessed. -/
def getWitnesses : Finset (Fin n) := Finset.univ.filter fun k => self.witnesses k

/-- The processor has been witnessed, and `n - f` witnesses echo the same. -/
def witnesSeen : Bool :=
  self.witnesses self.id &&
    (n : Int) - self.numberOfByzantine ≤
      (self.witnessesSet.filter fun k => self.echo self.id = self.echo k).card

/-! ## Interface functions -/

/-- `n - 2f` processors have the own view pair, and no view change is under way. -/
def allowService : Bool :=
  ((n : Int) - 2 * self.numberOfByzantine ≤
    (self.sameVSet self.id (some (self.phs self.id))).card) &&
    self.phs self.id = 0 && (self.views self.id).current = (self.views self.id).next

/-- The most recent reported current view of `j`. -/
def getCurrentView (j : Fin n) : Int :=
  if j = self.id ∧ self.phs self.id = 0 ∧ self.witnesSeen then
    if self.allowService then (self.views self.id).current else TEE
  else (self.views j).current

/-- The own pair is stale, or the Replication module asks for a flush. -/
def needReset (needFlush : Bool) : Bool := self.staleV self.id || needFlush

/-- Reset the tables; the echoes are kept. -/
def resetAll : ViewEstablishmentModule n :=
  { self with
    views := fun _ => RST_PAIR
    vChange := fun _ => false
    phs := fun _ => 0
    witnesses := fun _ => false
    witnessesSet := ∅
    echoShared := false }

/-- Primary Monitoring asks for a view change. -/
def viewChange : ViewEstablishmentModule n :=
  { self with vChange := Function.update self.vChange self.id true }

/-! ## Actions -/

/-- Write into the own view pair. -/
def setOwnViews (vpair : VPair) : ViewEstablishmentModule n :=
  { self with
    views := Function.update self.views self.id vpair
    echo :=
      if self.echoShared then
        Function.update self.echo self.id { self.echo self.id with views := some vpair }
      else self.echo }

/-- Adopt the next view of a pair. -/
def adopt (vpair : VPair) : ViewEstablishmentModule n :=
  self.setOwnViews { self.views self.id with next := vpair.next }

/-- Make the next view the current one. -/
def establish : ViewEstablishmentModule n :=
  self.setOwnViews { self.views self.id with current := (self.views self.id).next }

/-- Go for the upcoming view. -/
def nextView : ViewEstablishmentModule n :=
  self.setOwnViews { self.views self.id with
    next := if (self.views self.id).current = TEE then DF_VIEW
      else ((self.views self.id).current + 1) % n }

/-- The processor is no longer in a view change. -/
def resetVChange : ViewEstablishmentModule n :=
  { self with vChange := Function.update self.vChange self.id false }

/-- From phase 0 to 1, or from 1 to 0. -/
def nextPhs : ViewEstablishmentModule n :=
  { self with
    phs := Function.update self.phs self.id (if self.phs self.id = 1 then 0 else 1) }

/-! ## The automaton -/

/-- The view pair of case 0 in phase 0: the first one that may be adopted. -/
def pairToAdoptZero : Option VPair :=
  ((List.finRange n).find? fun k =>
    k ≠ self.id ∧ (self.views self.id).current ≠ (self.views k).next ∧
      ((self.views self.id).next ≠ (self.views k).next ∨ self.views self.id = RST_PAIR) ∧
      self.transitAdopble k 0 .follow).map self.views

/-- The view pair of case 0 in phase 1. -/
def pairToAdoptOne : Option VPair :=
  ((List.finRange n).find? fun k =>
    k ≠ self.id ∧ (self.views self.id).current ≠ (self.views k).next ∧
      (self.views self.id).next ≠ (self.views k).next ∧
      self.transitAdopble k 1 .follow).map self.views

/-- Predicate of case 1 in phase 0. -/
def caseOneZero : Bool :=
  (self.changeable && self.establishable 0 .follow) ||
    (self.views self.id = RST_PAIR && self.establishable 0 .follow)

/-- Predicate of case 2 in phase 0. -/
def caseTwoZero : Bool :=
  self.transitAdopble self.id 0 .remain || self.views self.id = RST_PAIR

/-- The action of the first case of phase 0 whose predicate holds. -/
def automationPhaseZero : ViewEstablishmentModule n :=
  match self.pairToAdoptZero with
  | some vpair => (self.adopt vpair).nextPhs
  | none =>
    if self.caseOneZero then
      if self.changeable then self.nextView.nextPhs
      else if self.views self.id = RST_PAIR then self.nextPhs
      else self
    else if self.caseTwoZero then self
    else self.resetAll

/-- The action of the first case of phase 1 whose predicate holds. -/
def automationPhaseOne : ViewEstablishmentModule n :=
  match self.pairToAdoptOne with
  | some vpair => (self.adopt vpair).resetVChange
  | none =>
    if self.establishable 1 .follow then self.establish.resetVChange.nextPhs
    else if self.transitAdopble self.id 1 .remain then self.resetVChange
    else self.resetAll

/-- No case but the full reset applies. -/
def resets (m : ViewEstablishmentModule n) : Bool :=
  (m.phs m.id = 0 && m.pairToAdoptZero.isNone && !m.caseOneZero && !m.caseTwoZero) ||
    (m.phs m.id = 1 && m.pairToAdoptOne.isNone && !m.establishable 1 .follow &&
      !m.transitAdopble m.id 1 .remain)

/-- The automaton; in no valid phase no case applies. -/
def automation : ViewEstablishmentModule n :=
  if self.phs self.id = 0 then self.automationPhaseZero
  else if self.phs self.id = 1 then self.automationPhaseOne
  else self

/-! ## The loop and its messages -/

/-- Lines before the automaton: reset if needed, then update the witnesses. -/
def noticeWitnesses (needFlush : Bool) : ViewEstablishmentModule n :=
  let self := if self.needReset needFlush then self.resetAll else self
  let self := { self with
    witnesses := Function.update self.witnesses self.id self.noticedRecentValue }
  { self with witnessesSet := self.witnessesSet ∪ self.getWitnesses }

/-- One iteration of `run()`. -/
def run (needFlush : Bool) : ViewEstablishmentModule n :=
  let self := self.noticeWitnesses needFlush
  if self.witnesSeen then self.automation else self

/-- `reset_all()` is called in the iteration. -/
def runResets (needFlush : Bool) : Bool :=
  self.needReset needFlush ||
    ((self.noticeWitnesses needFlush).witnesSeen && (self.noticeWitnesses needFlush).resets)

/-- `own_data` of the messages. -/
def ownData : OwnData :=
  ⟨self.phs self.id, self.witnesses self.id, self.views self.id, self.vChange self.id⟩

/-- `about_data` of the message to `j`. -/
def aboutData (j : Fin n) : Echo :=
  ⟨some (self.views j), self.phs j, some (self.witnesses j), some (self.vChange j)⟩

/-- The own part of `send_msg`: the own echo takes the own data. -/
def sendOwn : ViewEstablishmentModule n :=
  { self with
    echo := Function.update self.echo self.id (self.aboutData self.id)
    echoShared := true }

/-- Store a message of processor `j`, if its data is valid. -/
def receiveMsg (j : Fin n) (own : OwnData) (about : Echo) : ViewEstablishmentModule n :=
  if valid n own then
    { self with
      echo := Function.update self.echo j about
      phs := Function.update self.phs j own.phs
      witnesses := Function.update self.witnesses j own.witness
      views := Function.update self.views j own.views
      vChange := Function.update self.vChange j own.vChange }
  else self

end ViewEstablishmentModule

end BFTList
