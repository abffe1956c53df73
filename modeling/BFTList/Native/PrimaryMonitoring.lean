import BFTList.Native.Python
import Mathlib.Data.Finset.Card
import Mathlib.Data.Fintype.Basic
import Mathlib.Data.List.FinRange

/-!
# Primary Monitoring module

The status machine that asks for view changes
(`modules/primary_monitoring/module.py`). One iteration sees one answer of each
of the other modules.
-/

namespace BFTList

/-- The values of `v_status`. -/
inductive PrimaryMonitoringEnums where
  | ok
  | noService
  | vChange
  deriving DecidableEq, Repr

/-- The record a processor reports about itself. -/
structure Vcm where
  vStatus : PrimaryMonitoringEnums
  prim : Int
  needChange : Bool
  needChgSet : Finset Int
  deriving DecidableEq

/-- What the other modules answer during one iteration. -/
structure PrimMonEnv (n : Nat) where
  currentView : Fin n → Int
  allowService : Bool
  suspected : Bool

/-- The variables of the Primary Monitoring module of one processor out of `n`. -/
structure PrimaryMonitoringModule (n : Nat) where
  id : Fin n
  numberOfByzantine : Nat
  selfStab : Bool
  vcm : Fin n → Vcm

namespace PrimaryMonitoringModule

variable {n : Nat} (env : PrimMonEnv n) (order : SetOrder (Fin n))
  (self : PrimaryMonitoringModule n)

/-- The module after construction. -/
def init (id : Fin n) (f : Nat) (selfStab : Bool) : PrimaryMonitoringModule n where
  id := id
  numberOfByzantine := f
  selfStab := selfStab
  vcm := fun _ => ⟨.ok, -1, false, ∅⟩

/-- The own record. -/
def own : Vcm := self.vcm self.id

/-- Replace the own record. -/
def setOwn (v : Vcm) : PrimaryMonitoringModule n :=
  { self with vcm := Function.update self.vcm self.id v }

/-- The current view of a processor; mocked without self-stabilization. -/
def getCurrentView (k : Fin n) : Int := if self.selfStab then env.currentView k else 0

/-- Change every record to the default. -/
def cleanState : PrimaryMonitoringModule n :=
  { self with vcm := fun k => ⟨.ok, self.getCurrentView env k, false, ∅⟩ }

/-- Number of processors in `NO_SERVICE` or `V_CHANGE`. -/
def getNumberOfProcessorsInNoService : Nat :=
  (List.finRange n).countP fun k =>
    (self.vcm k).vStatus = .noService ∨ (self.vcm k).vStatus = .vChange

/-- Record the processors in the own view that need a change. -/
def updateNeedChgSet : PrimaryMonitoringModule n :=
  let set := (Finset.univ.filter fun k : Fin n =>
    (self.vcm k).needChange ∧ self.getCurrentView env self.id = self.getCurrentView env k).image
      fun k => (k.val : Int)
  self.setOwn { self.own with needChgSet := set }

/-- Put a processor with those that report the same primary. -/
def addToGroup (dct : List (Int × List (Fin n))) (k : Fin n) : List (Int × List (Fin n)) :=
  match dictGet dct (self.vcm k).prim with
  | .ok set => dictSet dct (self.vcm k).prim (setAdd set k)
  | .error _ => dictSet dct (self.vcm k).prim [k]

/-- Processors by reported primary, in order of first occurrence. -/
def primDct : List (Int × List (Fin n)) := (List.finRange n).foldl self.addToGroup []

/-- The set the loop over a group ends with: the first one that is not empty,
    since the result of `intersection` is not kept. -/
def needChgSetIntersection (processors : List (Fin n)) : Finset Int :=
  (order.iter processors).foldl (fun set k => if set = ∅ then (self.vcm k).needChgSet else set) ∅

/-- The loop over the groups; a group that is too small leaves the set of the last one. -/
def supChangeLoop (size : Int) : List (Fin n) → List (Int × List (Fin n)) → Bool
  | _, [] => false
  | processorSet, (_, group) :: rest =>
    let processorSet := if size ≤ group.length then group else processorSet
    if (n : Int) - 2 * self.numberOfByzantine ≤
        (self.needChgSetIntersection order processorSet).card then true
    else supChangeLoop size processorSet rest

/-- Enough processors with one primary support a change. -/
def supChange (size : Int) : Bool := self.supChangeLoop order size [] self.primDct

/-- The status is `OK`. -/
def noViewChange : Bool := self.own.vStatus = .ok

/-- Lines 9-13: the status of a processor that is not in `V_CHANGE`, and whether
    it asks for a view change. -/
def updateStatus : PrimaryMonitoringModule n × Bool :=
  let self := self.updateNeedChgSet env
  let self :=
    if (self.getNumberOfProcessorsInNoService : Int) < n - 3 * self.numberOfByzantine then
      self.setOwn { self.own with vStatus := .ok }
    else self
  if self.own.vStatus = .ok ∧ self.supChange order (n - 2 * self.numberOfByzantine) then
    (self.setOwn { self.own with vStatus := .noService }, false)
  else if self.supChange order (n - self.numberOfByzantine) then
    (self.setOwn { self.own with vStatus := .vChange }, self.selfStab)
  else (self, false)

/-- One iteration of `run()`, and whether it calls `VIEW_CHANGE`. -/
def run : PrimaryMonitoringModule n × Bool :=
  let view := self.getCurrentView env self.id
  let self := if self.own.prim ≠ view then self.cleanState env else self
  let self := self.setOwn { self.own with prim := view, needChange := env.suspected }
  if env.allowService ∨ self.selfStab = false then
    if self.own.prim = view ∧ self.own.vStatus ≠ .vChange then self.updateStatus env order
    else if self.own.prim = view ∧ self.own.vStatus = .vChange then (self, true)
    else (self.cleanState env, false)
  else (self, false)

/-- Store the record of processor `j`. -/
def receiveMsg (j : Fin n) (vcm : Vcm) : PrimaryMonitoringModule n :=
  if j ≠ self.id then { self with vcm := Function.update self.vcm j vcm } else self

end PrimaryMonitoringModule

end BFTList
