import BFTList.ForStd.Transition
import Mathlib.Data.Finset.Lattice.Fold
import Mathlib.Data.Fintype.Basic
import Mathlib.Data.Nat.Pairing
import Mathlib.Data.Option.Basic
import Mathlib.Logic.Encodable.Basic
import Mathlib.Tactic.Choose

/-!
# Fair runs of a transition system

An infinite run takes one step at a time, or none. Its labels fall into kinds, and the run is
weakly fair: a kind that stays enabled is taken. What it must eventually do is stated by
`LeadsTo`, between predicates on states.

## Key results

- `FairRun.reachable`: every state of a fair run is reachable
- `FairRun.ensures`: one fair kind leads from `P` to `Q`, while all other steps stay in `P`
- `LeadsTo.trans`, `LeadsTo.unless`, `LeadsTo.of_measure`: how these compose
- `Settles.of_measure`: what never rises and always falls again settles at 0
- `FairRun.exists_of_exec`: a finite run after which nothing is enabled goes on as a fair run
- `FairRun.exists_of_init`: every initial state has a fair run
-/

namespace System

variable {σ α κ : Type*} {S : System σ α} {kind : α → Option κ}

/-- Some step of the kind is possible. -/
def Enabled (S : System σ α) (kind : α → Option κ) (k : κ) (s : σ) : Prop :=
  ∃ a s', kind a = some k ∧ S.step s a s'

/-- An infinite run that is fair to every kind of label. -/
structure FairRun (S : System σ α) (kind : α → Option κ) (s : Nat → σ) (e : Nat → Option α) :
    Prop where
  init : S.init (s 0)
  step : ∀ i a, e i = some a → S.step (s i) a (s (i + 1))
  idle : ∀ i, e i = none → s (i + 1) = s i
  fair : ∀ i k, (∀ j, i ≤ j → S.Enabled kind k (s j)) →
    ∃ j, i ≤ j ∧ ∃ a, e j = some a ∧ kind a = some k

/-- Whenever `P` holds, `Q` holds then or later. -/
def LeadsTo (s : Nat → σ) (P Q : σ → Prop) : Prop := ∀ i, P (s i) → ∃ j, i ≤ j ∧ Q (s j)

variable {s : Nat → σ} {e : Nat → Option α} {P Q R B : σ → Prop}

/-! ## What leads to what -/

theorem LeadsTo.of_imp (h : ∀ i, P (s i) → Q (s i)) : LeadsTo s P Q :=
  fun i hi => ⟨i, Nat.le_refl i, h i hi⟩

theorem LeadsTo.trans (hPQ : LeadsTo s P Q) (hQR : LeadsTo s Q R) : LeadsTo s P R := by
  intro i hi
  obtain ⟨j, hij, hj⟩ := hPQ i hi
  obtain ⟨k, hjk, hk⟩ := hQR j hj
  exact ⟨k, Nat.le_trans hij hjk, hk⟩

/-- What leads to one of two goals leads to a third one that both lead to. -/
theorem LeadsTo.trans_or (h : LeadsTo s P fun x => Q x ∨ B x) (hQ : LeadsTo s Q R)
    (hB : LeadsTo s B R) : LeadsTo s P R := by
  apply h.trans
  intro i hi
  cases hi with
  | inl hi => exact hQ i hi
  | inr hi => exact hB i hi

/-- While `R` holds until `B`, what `P` leads to comes under `R`, or `B` does. -/
theorem LeadsTo.unless (h : LeadsTo s P Q)
    (hR : ∀ i, R (s i) → R (s (i + 1)) ∨ B (s (i + 1))) :
    LeadsTo s (fun x => P x ∧ R x) fun x => (Q x ∧ R x) ∨ B x := by
  intro i ⟨hP, hRi⟩
  obtain ⟨j, hij, hQ⟩ := h i hP
  -- `R` holds until `j`, or `B` before
  have hstays : ∀ d, R (s (i + d)) ∨ ∃ k, i ≤ k ∧ B (s k) := by
    intro d
    induction d with
    | zero => exact Or.inl hRi
    | succ d ih =>
      cases ih with
      | inl hd => exact (hR (i + d) hd).imp_right fun hB => ⟨i + d + 1, by omega, hB⟩
      | inr hB => exact Or.inr hB
  cases hstays (j - i) with
  | inl hRj =>
    rw [Nat.add_sub_cancel' hij] at hRj
    exact ⟨j, hij, Or.inl ⟨hQ, hRj⟩⟩
  | inr hB =>
    obtain ⟨k, hik, hB⟩ := hB
    exact ⟨k, hik, Or.inr hB⟩

/-- What holds forever holds of the goal. -/
theorem LeadsTo.and_stable (h : LeadsTo s P Q) (hR : ∀ i, R (s i) → R (s (i + 1))) :
    LeadsTo s (fun x => P x ∧ R x) fun x => Q x ∧ R x := by
  have hunless := h.unless (R := R) (B := fun _ => False) fun i hi => Or.inl (hR i hi)
  exact hunless.trans (LeadsTo.of_imp fun _ hi => hi.resolve_right id)

/-- Induction on a measure that goes down as long as the goal is not reached. -/
theorem LeadsTo.of_measure (measure : σ → Nat)
    (h : ∀ d, LeadsTo s (fun x => P x ∧ measure x = d)
      fun x => Q x ∨ (P x ∧ measure x < d)) : LeadsTo s P Q := by
  have hle : ∀ d, LeadsTo s (fun x => P x ∧ measure x = d) Q := by
    intro d
    induction d using Nat.strongRecOn with
    | ind d ih =>
      apply (h d).trans_or (LeadsTo.of_imp fun _ hi => hi)
      intro i ⟨hP, hlt⟩
      exact ih (measure (s i)) hlt i ⟨hP, rfl⟩
  exact fun i hi => hle (measure (s i)) i ⟨hi, rfl⟩

/-! ## What holds from some moment on -/

/-- From some moment on `P` holds. -/
def Settles (s : Nat → σ) (P : σ → Prop) : Prop := ∃ i, ∀ j, i ≤ j → P (s j)

theorem Settles.of_forall (h : ∀ i, P (s i)) : Settles s P := ⟨0, fun j _ => h j⟩

theorem Settles.and (hP : Settles s P) (hQ : Settles s Q) : Settles s fun x => P x ∧ Q x := by
  obtain ⟨i, hi⟩ := hP
  obtain ⟨j, hj⟩ := hQ
  exact ⟨max i j, fun k hk => ⟨hi k (by omega), hj k (by omega)⟩⟩

theorem Settles.mono (h : Settles s P) (hPQ : ∀ x, P x → Q x) : Settles s Q := by
  obtain ⟨i, hi⟩ := h
  exact ⟨i, fun j hj => hPQ _ (hi j hj)⟩

/-- Finitely many predicates that settle have a common moment. -/
theorem Settles.all {ι : Type*} [Fintype ι] {P : ι → σ → Prop} (h : ∀ k, Settles s (P k)) :
    Settles s fun x => ∀ k, P k x := by
  choose i hi using h
  exact ⟨Finset.univ.sup i, fun j hj k => hi k j ((Finset.le_sup (Finset.mem_univ k)).trans hj)⟩

/-- What comes to hold after a moment from which on it is kept. -/
theorem Settles.of_kept {i : Nat} (hkeep : ∀ j, i ≤ j → P (s j) → P (s (j + 1)))
    (h : ∃ j, i ≤ j ∧ P (s j)) : Settles s P := by
  obtain ⟨j, hij, hj⟩ := h
  refine ⟨j, fun k hk => ?_⟩
  induction hk with
  | refl => exact hj
  | @step k hjk ih => exact hkeep k (Nat.le_trans hij hjk) ih

/-- A measure that never rises, and falls again and again unless it is 0, settles at 0. -/
theorem Settles.of_measure {i : Nat} (measure : σ → Nat)
    (hle : ∀ j, i ≤ j → measure (s (j + 1)) ≤ measure (s j))
    (hlt : ∀ j, i ≤ j →
      ∃ k, j ≤ k ∧ (measure (s k) = 0 ∨ measure (s (k + 1)) < measure (s k))) :
    Settles s fun x => measure x = 0 := by
  have hfalls : ∀ j k, i ≤ j → j ≤ k → measure (s k) ≤ measure (s j) := by
    intro j k hij hjk
    induction hjk with
    | refl => exact Nat.le_refl _
    | @step k hjk ih => exact Nat.le_trans (hle k (Nat.le_trans hij hjk)) ih
  have hzero : ∀ d j, i ≤ j → measure (s j) = d → ∃ k, i ≤ k ∧ measure (s k) = 0 := by
    intro d
    induction d using Nat.strongRecOn with
    | ind d ih =>
      intro j hij hd
      obtain ⟨k, hjk, hk⟩ := hlt j hij
      cases hk with
      | inl hnone => exact ⟨k, Nat.le_trans hij hjk, hnone⟩
      | inr hk =>
        have hle' := hfalls j k hij hjk
        exact ih _ (by omega) (k + 1) (by omega) rfl
  refine Settles.of_kept (i := i) (fun j hij hj => ?_) (hzero _ i (Nat.le_refl i) rfl)
  have hle' := hle j hij
  omega

/-- A measure that never falls and stays below a bound settles. -/
theorem Settles.of_bounded (measure : σ → Nat) (hle : ∀ i, measure (s i) ≤ measure (s (i + 1)))
    {b : Nat} (hb : ∀ i, measure (s i) ≤ b) : ∃ v, Settles s fun x => measure x = v := by
  obtain ⟨_, ⟨i, rfl⟩, hmin⟩ :=
    Nat.lt_wfRel.wf.has_min (Set.range fun i => b - measure (s i)) ⟨_, 0, rfl⟩
  refine ⟨measure (s i), i, fun j hij => ?_⟩
  have hmono := monotone_nat_of_le_succ hle hij
  have hnot := hmin _ ⟨j, rfl⟩
  have hbound := hb j
  simp only [WellFoundedRelation.rel] at hnot
  omega

/-! ## Fair runs -/

/-- What holds before and after each step holds before and after each moment of a run. -/
theorem FairRun.next (h : S.FairRun kind s e) {I : σ → σ → Prop} (hrefl : ∀ x, I x x)
    (hstep : ∀ i a, e i = some a → S.step (s i) a (s (i + 1)) → I (s i) (s (i + 1))) (i : Nat) :
    I (s i) (s (i + 1)) := by
  cases he : e i with
  | none => exact (h.idle i he).symm ▸ hrefl (s i)
  | some a => exact hstep i a he (h.step i a he)

/-- What every step keeps holds between an earlier and a later state. -/
theorem FairRun.of_le (h : S.FairRun kind s e) {I : σ → σ → Prop} (hrefl : ∀ x, I x x)
    (htrans : ∀ x y z, I x y → I y z → I x z)
    (hstep : ∀ i a, e i = some a → S.step (s i) a (s (i + 1)) → I (s i) (s (i + 1))) {i j : Nat}
    (hij : i ≤ j) : I (s i) (s j) := by
  induction hij with
  | refl => exact hrefl (s i)
  | step _ ih => exact htrans _ _ _ ih (h.next hrefl hstep _)

/-- What a step keeps, a moment of rest keeps. -/
theorem FairRun.kept_next (h : S.FairRun kind s e) {i : Nat} (hP : P (s i))
    (hstep : ∀ a, e i = some a → S.step (s i) a (s (i + 1)) → P (s (i + 1))) :
    P (s (i + 1)) := by
  cases he : e i with
  | none =>
    rw [h.idle i he]
    exact hP
  | some a => exact hstep a he (h.step i a he)

/-- What every step keeps, holds from then on. -/
theorem FairRun.kept_of_le (h : S.FairRun kind s e) {i j : Nat}
    (hstep : ∀ i a, S.step (s i) a (s (i + 1)) → P (s i) → P (s (i + 1))) (hij : i ≤ j)
    (hP : P (s i)) : P (s j) := by
  induction hij with
  | refl => exact hP
  | @step j _ ih => exact h.kept_next ih fun a _ hs => hstep j a hs ih

theorem FairRun.reachable (h : S.FairRun kind s e) (i : Nat) : S.Reachable (s i) := by
  induction i with
  | zero => exact .init h.init
  | succ i ih =>
    cases he : e i with
    | none => exact (h.idle i he).symm ▸ ih
    | some a => exact .step ih trivial (h.step i a he)

/-- A kind that is enabled until `Q` holds leads from `P` to `Q`, if its steps get there and
    all other steps stay in `P`. -/
theorem FairRun.ensures (h : S.FairRun kind s e) (k : κ)
    (henabled : ∀ i, P (s i) → ¬ Q (s i) → S.Enabled kind k (s i))
    (hstep : ∀ i a, P (s i) → ¬ Q (s i) → e i = some a → S.step (s i) a (s (i + 1)) →
      Q (s (i + 1)) ∨ (kind a ≠ some k ∧ P (s (i + 1)))) : LeadsTo s P Q := by
  intro i hi
  by_contra hnever
  have hnot : ∀ j, i ≤ j → ¬ Q (s j) := fun j hij hQ => hnever ⟨j, hij, hQ⟩
  -- as long as `Q` does not hold, no step leaves `P`
  have hstays : ∀ d, P (s (i + d)) := by
    intro d
    induction d with
    | zero => exact hi
    | succ d ih =>
      cases he : e (i + d) with
      | none =>
        rw [← Nat.add_assoc, h.idle _ he]
        exact ih
      | some a =>
        cases hstep _ a ih (hnot _ (by omega)) he (h.step _ a he) with
        | inl hQ => exact absurd hQ (hnot _ (by omega))
        | inr hP => exact hP.2
  have hP : ∀ j, i ≤ j → P (s j) := by
    intro j hij
    rw [← Nat.add_sub_cancel' hij]
    exact hstays (j - i)
  -- the kind stays enabled, so it is taken
  obtain ⟨j, hij, a, he, hk⟩ := h.fair i k fun j hij => henabled j (hP j hij) (hnot j hij)
  cases hstep j a (hP j hij) (hnot j hij) he (h.step j a he) with
  | inl hQ => exact hnot (j + 1) (by omega) hQ
  | inr hother => exact hother.1 hk

/-- What holds at some time but not at first begins to hold. -/
theorem exists_begins {T : Nat → Prop} (hfirst : ¬ T 0) {j : Nat} (hj : T j) :
    ∃ i, i < j ∧ ¬ T i ∧ T (i + 1) := by
  induction j with
  | zero => exact absurd hj hfirst
  | succ j ih =>
    by_cases hbefore : T j
    · obtain ⟨i, hij, hi⟩ := ih hbefore
      exact ⟨i, by omega, hi⟩
    · exact ⟨j, Nat.lt_succ_self j, hbefore, hj⟩

/-! ## Finite runs -/

theorem exec_append {next : σ → α → Option σ} {x : σ} {as bs : List α} :
    exec next x (as ++ bs) = (exec next x as).bind (exec next · bs) := by
  induction as generalizing x with
  | nil => rfl
  | cons a as ih =>
    simp only [List.cons_append, exec, ih]
    cases next x a with
    | none => rfl
    | some y => rfl

/-- A finite run after which no kind is enabled goes on as a fair run that rests. -/
theorem FairRun.exists_of_exec {next : σ → α → Option σ}
    (hnext : ∀ x a y, next x a = some y → S.step x a y) {x y : σ} {as : List α} (hinit : S.init x)
    (hexec : exec next x as = some y) (hend : ∀ k, ¬ S.Enabled kind k y) :
    ∃ s e, S.FairRun kind s e ∧ s 0 = x ∧ ∀ i, as.length ≤ i → s i = y := by
  -- every initial part of the run can be executed
  have hsome : ∀ i, ∃ z, exec next x (as.take i) = some z := by
    intro i
    rw [← List.take_append_drop i as, exec_append, Option.bind_eq_some_iff] at hexec
    obtain ⟨z, hz, -⟩ := hexec
    exact ⟨z, hz⟩
  choose s hs using hsome
  have hfirst : s 0 = x := by
    have h := hs 0
    simp only [List.take_zero, exec, Option.some.injEq] at h
    exact h.symm
  have hlast : ∀ i, as.length ≤ i → s i = y := by
    intro i hi
    have h := hs i
    rw [List.take_of_length_le hi, hexec, Option.some.injEq] at h
    exact h.symm
  refine ⟨s, fun i => as[i]?, ⟨hfirst ▸ hinit, ?_, ?_, ?_⟩, hfirst, hlast⟩
  · intro i a ha
    have h := hs (i + 1)
    rw [List.take_add_one, ha, exec_append, hs i] at h
    simp only [Option.toList_some, Option.bind_some, exec, Option.bind_fun_some] at h
    exact hnext _ _ _ h
  · intro i hi
    have hle := List.getElem?_eq_none_iff.mp hi
    rw [hlast i hle, hlast (i + 1) (by omega)]
  · intro i k henabled
    have h := henabled (max i as.length) (Nat.le_max_left _ _)
    rw [hlast _ (Nat.le_max_right _ _)] at h
    exact absurd h (hend k)

/-- A schedule that comes back to every kind. -/
theorem exists_schedule (κ : Type*) [Countable κ] :
    ∃ schedule : Nat → Option κ, ∀ (k : κ) (i : Nat), ∃ j, i ≤ j ∧ schedule j = some k := by
  have := Encodable.ofCountable κ
  refine ⟨fun i => Encodable.decode i.unpair.1,
    fun k i => ⟨Nat.pair (Encodable.encode k) i, ?_, ?_⟩⟩
  · exact Nat.right_le_pair _ _
  · show Encodable.decode (Nat.pair (Encodable.encode k) i).unpair.1 = some k
    rw [Nat.unpair_pair]
    exact Encodable.encodek k

/-- Every initial state has a fair run: it takes the kinds by turns, whenever they are
    enabled, and no other labels. -/
theorem FairRun.exists_of_init [Countable κ] {x : σ} (hinit : S.init x) :
    ∃ s e, S.FairRun kind s e ∧ s 0 = x ∧ ∀ i a, e i = some a → kind a ≠ none := by
  classical
  obtain ⟨schedule, hschedule⟩ := exists_schedule κ
  -- one step of the kind whose turn it is
  have hstep : ∀ (i : Nat) (y : σ), ∃ r : Option α × σ,
      (∀ a, r.1 = some a → S.step y a r.2) ∧ (r.1 = none → r.2 = y) ∧
        (∀ k, schedule i = some k → S.Enabled kind k y → ∃ a, r.1 = some a ∧ kind a = some k) ∧
        ∀ a, r.1 = some a → kind a ≠ none := by
    intro i y
    by_cases henabled : ∃ k, schedule i = some k ∧ S.Enabled kind k y
    · obtain ⟨k, hk, a, z, hkind, hz⟩ := henabled
      refine ⟨(some a, z), fun b hb => ?_, fun hnone => ?_, fun k' hk' _ => ⟨a, rfl, ?_⟩,
        fun b hb => ?_⟩
      · cases hb
        exact hz
      · cases hnone
      · rw [hkind, ← hk, hk']
      · cases hb
        rw [hkind]
        exact Option.some_ne_none k
    · exact ⟨(none, y), fun _ hb => (by cases hb), fun _ => rfl,
        fun k hk hen => absurd ⟨k, hk, hen⟩ henabled, fun _ hb => (by cases hb)⟩
  choose next hnext using hstep
  let s : Nat → σ := Nat.rec x fun i y => (next i y).2
  refine ⟨s, fun i => (next i (s i)).1, ⟨hinit, ?_, ?_, ?_⟩, rfl, ?_⟩
  · exact fun i a ha => (hnext i (s i)).1 a ha
  · exact fun i hi => (hnext i (s i)).2.1 hi
  · intro i k henabled
    obtain ⟨j, hij, hj⟩ := hschedule k i
    exact ⟨j, hij, (hnext j (s j)).2.2.1 k hj (henabled j hij)⟩
  · exact fun i a ha => (hnext i (s i)).2.2.2 a ha

end System
