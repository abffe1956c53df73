import Mathlib.Logic.Basic

/-!
# Runs of a transition system

A system is a set of initial states and a labelled step relation. A run may be
restricted to steps that meet a side condition on the state before the step and
on its label; with the trivial condition a run is any run at all.

## Key results

- `Run.invariant`: what holds initially and survives every allowed step holds
  in every state of every such run
- `Run.mono`: a weaker side condition allows more runs
- `Run.refine`: a mapping under which every step is one of another system, or none
- `Run.exec`, `Run.exists_of_exec`: executing a list of labels of a deterministic system is a
  run
-/

/-- Initial states and labelled steps. -/
structure System (σ α : Type*) where
  init : σ → Prop
  step : σ → α → σ → Prop

namespace System

variable {σ α : Type*} {S : System σ α} {ok ok' : σ → α → Prop}

/-- States reached by runs all of whose steps meet `ok`. -/
inductive Run (S : System σ α) (ok : σ → α → Prop) : σ → Prop
  | init {s : σ} (h : S.init s) : Run S ok s
  | step {s s' : σ} {a : α} (hr : Run S ok s) (hok : ok s a) (h : S.step s a s') : Run S ok s'

/-- States reached by any run. -/
def Reachable (S : System σ α) : σ → Prop := S.Run fun _ _ => True

/-- What holds initially and survives every allowed step holds in every state
    of every allowed run. -/
theorem Run.invariant {I : σ → Prop} (hinit : ∀ s, S.init s → I s)
    (hstep : ∀ s a s', I s → ok s a → S.step s a s' → I s') {s : σ} (h : S.Run ok s) : I s := by
  induction h with
  | init h => exact hinit _ h
  | step _ hok h ih => exact hstep _ _ _ ih hok h

/-- A weaker side condition allows more runs. -/
theorem Run.mono (hle : ∀ s a, ok s a → ok' s a) {s : σ} (h : S.Run ok s) : S.Run ok' s := by
  induction h with
  | init h => exact .init h
  | step _ hok h ih => exact .step ih (hle _ _ hok) h

/-- Every restricted run is a run. -/
theorem Run.reachable {s : σ} (h : S.Run ok s) : S.Reachable s := h.mono fun _ _ _ => trivial

/-- A mapping of the states under which every step is an allowed one of another system, or
    changes nothing, takes runs to runs. -/
theorem Run.refine {σ' α' : Type*} {T : System σ' α'} {okT : σ' → α' → Prop} (g : σ → σ')
    (hinit : ∀ s, S.init s → T.init (g s))
    (hstep : ∀ s a s', S.Run ok s → ok s a → S.step s a s' →
      g s' = g s ∨ ∃ b, okT (g s) b ∧ T.step (g s) b (g s'))
    {s : σ} (h : S.Run ok s) : T.Run okT (g s) := by
  induction h with
  | init h => exact .init (hinit _ h)
  | step hr hok h ih =>
    cases hstep _ _ _ hr hok h with
    | inl hsame => exact hsame ▸ ih
    | inr hmatch =>
      obtain ⟨b, hb, hnext⟩ := hmatch
      exact .step ih hb hnext

/-- Execute a list of labels with a partial transition function. -/
def exec (next : σ → α → Option σ) : σ → List α → Option σ
  | s, [] => some s
  | s, a :: as => (next s a).bind (exec next · as)

/-- Executing labels one after the other is a run, when every executed step is
    one and meets `ok`. -/
theorem Run.exec {next : σ → α → Option σ}
    (hnext : ∀ s a s', next s a = some s' → ok s a ∧ S.step s a s')
    {s s' : σ} {as : List α} (hr : S.Run ok s) (h : exec next s as = some s') : S.Run ok s' := by
  induction as generalizing s with
  | nil =>
    simp only [System.exec, Option.some.injEq] at h
    exact h ▸ hr
  | cons a as ih =>
    simp only [System.exec, Option.bind_eq_some_iff] at h
    obtain ⟨t, ht, hrest⟩ := h
    obtain ⟨hok, hstep⟩ := hnext _ _ _ ht
    exact ih (.step hr hok hstep) hrest

/-- What holds after executing such labels holds in a state of a run. -/
theorem Run.exists_of_exec {next : σ → α → Option σ}
    (hnext : ∀ s a s', next s a = some s' → ok s a ∧ S.step s a s')
    {s : σ} {as : List α} {p : σ → Bool} (hr : S.Run ok s)
    (h : (System.exec next s as).any p = true) : ∃ s', S.Run ok s' ∧ p s' = true := by
  obtain ⟨s', hexec, hp⟩ := (Option.any_eq_true ..).mp h
  exact ⟨s', hr.exec hnext hexec, hp⟩

end System
