import BFTList.ForStd.Transition
import Mathlib.Logic.Function.Basic
import Mathlib.Data.List.Basic

/-!
# One sequential log and the replicas that apply it

The specification of a replicated state machine: a log that only grows, and for
every replica the number of entries it has applied. What a replica holds is the
result of applying that many entries from the start.

## Key results

- `Reachable.advance`: appending entries and letting one replica catch up is a run
- `result_prefix`: results of operations that only extend are prefixes of each other
-/

/-- A log and the number of entries each replica has applied. -/
structure SequentialLog (ι κ : Type*) where
  log : List κ
  applied : ι → Nat

namespace SequentialLog

variable {ι κ β : Type*} [DecidableEq ι]

/-- Appending an entry, and one replica applying its next entry. -/
inductive Event (ι κ : Type*) where
  | append (x : κ)
  | apply (i : ι)

/-- The log starts empty. -/
def system (ι κ : Type*) [DecidableEq ι] : System (SequentialLog ι κ) (Event ι κ) where
  init s := s = ⟨[], fun _ => 0⟩
  step s e s' :=
    match e with
    | .append x => s' = { s with log := s.log ++ [x] }
    | .apply i => s.applied i < s.log.length ∧
        s' = { s with applied := Function.update s.applied i (s.applied i + 1) }

theorem Reachable.append {s : SequentialLog ι κ} (h : (system ι κ).Reachable s) (xs : List κ) :
    (system ι κ).Reachable { s with log := s.log ++ xs } := by
  induction xs generalizing s with
  | nil => simpa using h
  | cons x xs ih =>
    have hone : (system ι κ).Reachable { s with log := s.log ++ [x] } :=
      .step (a := .append x) h trivial rfl
    have hrest := ih hone
    rwa [List.append_assoc, List.singleton_append] at hrest

theorem Reachable.catchUp {s : SequentialLog ι κ} (h : (system ι κ).Reachable s) (i : ι)
    (d : Nat) (hd : s.applied i + d ≤ s.log.length) :
    (system ι κ).Reachable
      { s with applied := Function.update s.applied i (s.applied i + d) } := by
  induction d with
  | zero => simpa using h
  | succ d ih =>
    refine .step (a := .apply i) (ih (by omega)) trivial ⟨?_, ?_⟩
    · simp only [Function.update_self]
      omega
    · simp only [Function.update_self, Function.update_idem, Nat.add_assoc]

/-- Appending entries and letting one replica catch up is a run. -/
theorem Reachable.advance {s : SequentialLog ι κ} (h : (system ι κ).Reachable s) (xs : List κ)
    (i : ι) {a : Nat} (hle : s.applied i ≤ a) (ha : a ≤ (s.log ++ xs).length) :
    (system ι κ).Reachable ⟨s.log ++ xs, Function.update s.applied i a⟩ := by
  have hcatch := Reachable.catchUp (Reachable.append h xs) i (a - s.applied i) (by
    show s.applied i + (a - s.applied i) ≤ (s.log ++ xs).length
    omega)
  have heq : s.applied i + (a - s.applied i) = a := by omega
  rwa [heq] at hcatch

/-! ## Results -/

variable (exec : κ → β → β) (start : β)

/-- The result of applying the first `a` entries. -/
def result (log : List κ) (a : Nat) : β := (log.take a).foldl (fun s x => exec x s) start

/-- A longer log gives the same result for the entries that were there before. -/
theorem result_append (log xs : List κ) {a : Nat} (ha : a ≤ log.length) :
    result exec start (log ++ xs) a = result exec start log a := by
  rw [result, result, List.take_append_of_le_length ha]

/-- Applying the next entry. -/
theorem result_succ {log : List κ} {a : Nat} {x : κ} (hx : log[a]? = some x) :
    result exec start log (a + 1) = exec x (result exec start log a) := by
  simp only [result, List.take_add_one, hx, Option.toList_some, List.foldl_append, List.foldl_cons,
    List.foldl_nil]

/-- When every operation extends the state, fewer entries give a prefix. -/
theorem result_prefix {γ : Type*} {exec : κ → List γ → List γ} {start : List γ}
    (hexec : ∀ x s, s <+: exec x s) (log : List κ) {a b : Nat} (hab : a ≤ b) :
    result exec start log a <+: result exec start log b := by
  induction b with
  | zero =>
    obtain rfl := Nat.le_zero.mp hab
    exact List.prefix_rfl
  | succ b ih =>
    by_cases heq : a = b + 1
    · subst heq
      exact List.prefix_rfl
    · have hgrow := ih (by omega)
      cases hx : log[b]? with
      | none =>
        have hlen : log.length ≤ b := List.getElem?_eq_none_iff.mp hx
        rw [result, result, List.take_of_length_le (Nat.le_succ_of_le hlen)]
        rwa [result, result, List.take_of_length_le hlen] at hgrow
      | some x =>
        rw [result_succ _ _ hx]
        exact hgrow.trans (hexec x _)

end SequentialLog
