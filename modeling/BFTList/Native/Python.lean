import Mathlib.Data.List.Induction
import Mathlib.Data.List.Nodup
import Mathlib.Data.List.Perm.Basic

/-!
# The parts of Python the modules rely on

Exceptions, list indexing and slicing with negative positions, dictionaries in
insertion order, and the iteration order of sets, which the language leaves open.
-/

/-- Exceptions a modelled function can raise. -/
inductive PyError where
  | indexError
  | keyError
  | valueError
  | attributeError
  deriving DecidableEq, Repr

/-- A computation that may raise. -/
abbrev Py := Except PyError

/-- Whatever the computation returns satisfies `P`. -/
def Py.Returns {α : Type*} (x : Py α) (P : α → Prop) : Prop := ∀ a, x = .ok a → P a

theorem Py.returns_iff {α : Type*} {x : Py α} {a : α} (h : x = .ok a) (P : α → Prop) :
    Py.Returns x P ↔ P a := by
  subst h
  exact ⟨fun hret => hret a rfl, fun ha b hb => Except.ok.inj hb ▸ ha⟩

instance {α : Type*} (x : Py α) (P : α → Prop) [DecidablePred P] : Decidable (Py.Returns x P) :=
  match x with
  | .ok a => decidable_of_iff (P a) ⟨fun h _ heq => Except.ok.inj heq ▸ h, fun h => h a rfl⟩
  | .error _ => .isTrue fun _ heq => nomatch heq

instance {α : Type*} (x : Py α) (P : α → Prop) [DecidablePred P] :
    Decidable (∃ a, x = .ok a ∧ P a) :=
  match x with
  | .ok a => decidable_of_iff (P a) ⟨fun h => ⟨a, rfl, h⟩, fun ⟨_, heq, h⟩ => Except.ok.inj heq ▸ h⟩
  | .error _ => .isFalse fun ⟨_, heq, _⟩ => nomatch heq

theorem Py.exists_of_any {α : Type*} {x : Py α} {p : α → Bool} (h : x.toOption.any p = true) :
    ∃ a, x = .ok a ∧ p a = true := by
  cases x with
  | error e => exact absurd h Bool.false_ne_true
  | ok a => exact ⟨a, rfl, h⟩

/-- The computation does not raise. -/
def Py.Completes {α : Type*} (x : Py α) : Prop := ∃ a, x = .ok a

/-- What a sequence returns, its second part returns for the result of the first. -/
theorem Py.of_bind {α β : Type} {x : Py α} {f : α → Py β} {b : β} (h : x >>= f = .ok b) :
    ∃ a, x = .ok a ∧ f a = .ok b := by
  cases x with
  | error e => cases h
  | ok a => exact ⟨a, rfl, h⟩

theorem Py.Completes.bind {α β : Type} {x : Py α} {f : α → Py β} (hx : x.Completes)
    (hf : ∀ a, x = .ok a → (f a).Completes) : Py.Completes (x >>= f) := by
  obtain ⟨a, rfl⟩ := hx
  exact hf a rfl

theorem Py.Completes.map {α β : Type*} {x : Py α} (hx : x.Completes) (f : α → β) :
    Py.Completes (x.map f) := by
  obtain ⟨a, rfl⟩ := hx
  exact ⟨f a, rfl⟩

/-- Position that `l[i]` reads in a list of length `n`: a negative `i` counts
    from the end, and anything else outside the list raises. -/
def pyIndex (n : Nat) (i : Int) : Py (Fin n) :=
  if h : 0 ≤ i ∧ i < n then .ok ⟨i.toNat, by omega⟩
  else if h : -n ≤ i ∧ i < 0 then .ok ⟨(i + n).toNat, by omega⟩
  else .error .indexError

/-- An index that is a position reads that position. -/
@[simp] theorem pyIndex_val {n : Nat} (i : Fin n) : pyIndex n i.val = .ok i := by
  have h : 0 ≤ (i.val : Int) ∧ (i.val : Int) < n := by omega
  rw [pyIndex, dif_pos h]
  congr 1

/-- Exactly these indices do not raise. -/
theorem pyIndex_completes {n : Nat} {i : Int} :
    (pyIndex n i).Completes ↔ -(n : Int) ≤ i ∧ i < n := by
  rw [pyIndex]
  split
  · rename_i h
    exact iff_of_true ⟨_, rfl⟩ ⟨by omega, h.2⟩
  · split
    · rename_i h
      exact iff_of_true ⟨_, rfl⟩ ⟨h.1, by omega⟩
    · constructor
      · rintro ⟨p, hp⟩
        cases hp
      · intro h
        omega

/-- The slice `l[i:]`. -/
def sliceFrom {α : Type*} (l : List α) (i : Int) : List α :=
  if 0 ≤ i then l.drop i.toNat else l.drop (l.length + i).toNat

/-- `d[k] = v` on a dictionary in insertion order. -/
def dictSet {κ υ : Type*} [DecidableEq κ] : List (κ × υ) → κ → υ → List (κ × υ)
  | [], k, v => [(k, v)]
  | (k', v') :: d, k, v => if k' = k then (k, v) :: d else (k', v') :: dictSet d k v

/-- `d[k]`, which raises when `k` is no key. -/
def dictGet {κ υ : Type*} [DecidableEq κ] : List (κ × υ) → κ → Py υ
  | [], _ => .error .keyError
  | (k', v) :: d, k => if k' = k then .ok v else dictGet d k

/-- Assignment replaces the value of its key and keeps every other item. -/
theorem mem_dictSet {κ υ : Type*} [DecidableEq κ] {d : List (κ × υ)} (hd : (d.map Prod.fst).Nodup)
    {k k' : κ} {v v' : υ} :
    (k', v') ∈ dictSet d k v ↔ (k' = k ∧ v' = v) ∨ (k' ≠ k ∧ (k', v') ∈ d) := by
  induction d with
  | nil => simp [dictSet]
  | cons e d ih =>
    obtain ⟨a, b⟩ := e
    obtain ⟨ha, hd⟩ := List.nodup_cons.mp hd
    by_cases hk : a = k
    · subst hk
      rw [dictSet, if_pos rfl, List.mem_cons, List.mem_cons, Prod.mk.injEq, Prod.mk.injEq]
      constructor
      · intro h
        cases h with
        | inl h => exact Or.inl h
        | inr h =>
          refine Or.inr ⟨fun heq => ha ?_, Or.inr h⟩
          exact heq ▸ List.mem_map.mpr ⟨(k', v'), h, rfl⟩
      · intro h
        rcases h with h | ⟨hne, ⟨heq, -⟩ | h⟩
        · exact Or.inl h
        · exact absurd heq hne
        · exact Or.inr h
    · rw [dictSet, if_neg hk, List.mem_cons, List.mem_cons, ih hd, Prod.mk.injEq]
      constructor
      · intro h
        rcases h with ⟨heq, hv⟩ | h | h
        · exact Or.inr ⟨heq ▸ hk, Or.inl ⟨heq, hv⟩⟩
        · exact Or.inl h
        · exact Or.inr ⟨h.1, Or.inr h.2⟩
      · intro h
        rcases h with h | ⟨hne, h | h⟩
        · exact Or.inr (Or.inl h)
        · exact Or.inl h
        · exact Or.inr (Or.inr ⟨hne, h⟩)

/-- An item after an assignment is the assigned one or an old one. -/
theorem mem_of_mem_dictSet {κ υ : Type*} [DecidableEq κ] {d : List (κ × υ)} {k : κ} {v : υ}
    {e : κ × υ} (h : e ∈ dictSet d k v) : e = (k, v) ∨ e ∈ d := by
  induction d with
  | nil => exact Or.inl (List.mem_singleton.mp h)
  | cons e' d ih =>
    rw [dictSet] at h
    split at h
    · exact (List.mem_cons.mp h).imp id (List.mem_cons_of_mem _)
    · cases List.mem_cons.mp h with
      | inl heq => exact Or.inr (heq ▸ List.mem_cons_self)
      | inr hmem => exact (ih hmem).imp id (List.mem_cons_of_mem _)

theorem mem_keys_dictSet {κ υ : Type*} [DecidableEq κ] {d : List (κ × υ)} {k k' : κ} {v : υ} :
    k' ∈ (dictSet d k v).map Prod.fst ↔ k' = k ∨ k' ∈ d.map Prod.fst := by
  induction d with
  | nil => simp [dictSet]
  | cons e d ih =>
    by_cases hk : e.1 = k
    · simp [dictSet, hk]
    · rw [dictSet, if_neg hk, List.map_cons, List.map_cons, List.mem_cons, List.mem_cons, ih,
        or_left_comm]

/-- Keys stay distinct. -/
theorem nodup_dictSet {κ υ : Type*} [DecidableEq κ] {d : List (κ × υ)}
    (hd : (d.map Prod.fst).Nodup) (k : κ) (v : υ) : ((dictSet d k v).map Prod.fst).Nodup := by
  induction d with
  | nil => exact List.nodup_singleton k
  | cons e d ih =>
    obtain ⟨ha, hd'⟩ := List.nodup_cons.mp hd
    by_cases hk : e.1 = k
    · rw [dictSet, if_pos hk]
      subst hk
      exact hd
    · rw [dictSet, if_neg hk, List.map_cons, List.nodup_cons]
      refine ⟨fun hmem => ?_, ih hd'⟩
      cases mem_keys_dictSet.mp hmem with
      | inl h => exact hk h
      | inr h => exact ha h

/-- What a lookup finds is an item. -/
theorem dictGet_eq_ok {κ υ : Type*} [DecidableEq κ] {d : List (κ × υ)} {k : κ} {v : υ}
    (h : dictGet d k = .ok v) : (k, v) ∈ d := by
  induction d with
  | nil => cases h
  | cons e d ih =>
    by_cases hk : e.1 = k
    · rw [dictGet, if_pos hk] at h
      cases h
      exact hk ▸ List.mem_cons_self
    · rw [dictGet, if_neg hk] at h
      exact List.mem_cons_of_mem _ (ih h)

/-- A lookup that raises shows that the key is absent. -/
theorem not_mem_of_dictGet_eq_error {κ υ : Type*} [DecidableEq κ] {d : List (κ × υ)} {k : κ}
    {e : PyError} (h : dictGet d k = .error e) (v : υ) : (k, v) ∉ d := by
  induction d with
  | nil => exact List.not_mem_nil
  | cons e' d ih =>
    by_cases hk : e'.1 = k
    · rw [dictGet, if_pos hk] at h
      cases h
    · rw [dictGet, if_neg hk] at h
      intro hmem
      cases List.mem_cons.mp hmem with
      | inl heq => exact hk (congrArg Prod.fst heq).symm
      | inr hmem => exact ih h hmem

/-- A lookup of a key completes. -/
theorem dictGet_completes {κ υ : Type*} [DecidableEq κ] {d : List (κ × υ)} {k : κ}
    (h : k ∈ d.map Prod.fst) : (dictGet d k).Completes := by
  obtain ⟨e, he, rfl⟩ := List.mem_map.mp h
  cases hget : dictGet d e.1 with
  | ok v => exact ⟨v, rfl⟩
  | error err => exact absurd he (not_mem_of_dictGet_eq_error hget e.2)

/-- An assignment is what a lookup of its key finds; other keys are not affected. -/
theorem dictGet_dictSet {κ υ : Type*} [DecidableEq κ] (d : List (κ × υ)) (k k' : κ) (v : υ) :
    dictGet (dictSet d k v) k' = if k' = k then .ok v else dictGet d k' := by
  induction d with
  | nil => simp only [dictSet, dictGet, eq_comm]
  | cons e d ih =>
    by_cases hk : e.1 = k
    · simp only [dictSet, dictGet, hk, if_true, eq_comm]
      by_cases hk' : k = k'
      · simp only [hk', if_true]
      · simp only [hk', if_false]
    · simp only [dictSet, dictGet, hk, if_false, ih]
      by_cases hk' : e.1 = k'
      · simp only [hk', if_true, if_neg (hk' ▸ hk)]
      · simp only [hk', if_false]

/-- Of several assignments to one key the last one counts. -/
theorem dictGet_foldl_dictSet {ι κ υ : Type*} [DecidableEq κ] (key : ι → κ) (val : ι → υ)
    (l : List ι) (k : κ) :
    dictGet (l.foldl (fun d i => dictSet d (key i) (val i)) []) k =
      ((l.filter fun i => key i = k).getLast?.map val).elim (.error .keyError) .ok := by
  induction l using List.reverseRecOn with
  | nil => rfl
  | append_singleton l i ih =>
    rw [List.foldl_append, List.foldl_cons, List.foldl_nil, dictGet_dictSet, ih,
      List.filter_append]
    by_cases hk : key i = k
    · simp [hk]
    · simp [hk, Ne.symm hk]

/-- An assignment to a new key adds an item at the end. -/
theorem dictSet_of_not_mem {κ υ : Type*} [DecidableEq κ] {d : List (κ × υ)} {k : κ} {v : υ}
    (h : k ∉ d.map Prod.fst) : dictSet d k v = d ++ [(k, v)] := by
  induction d with
  | nil => rfl
  | cons e d ih =>
    rw [List.map_cons, List.mem_cons, not_or] at h
    rw [dictSet, if_neg (Ne.symm h.1), ih h.2, List.cons_append]

/-- Assignments to distinct keys list them in order. -/
theorem foldl_dictSet {ι κ υ : Type*} [DecidableEq κ] (key : ι → κ) (val : ι → υ) (l : List ι)
    (h : (l.map key).Nodup) :
    l.foldl (fun d i => dictSet d (key i) (val i)) [] = l.map fun i => (key i, val i) := by
  induction l using List.reverseRecOn with
  | nil => rfl
  | append_singleton l i ih =>
    rw [List.map_append, List.nodup_append] at h
    rw [List.foldl_append, ih h.1, List.map_append, List.foldl_cons, List.foldl_nil,
      dictSet_of_not_mem]
    · rfl
    · rw [List.map_map]
      intro hmem
      exact h.2.2 _ hmem (key i) (List.mem_singleton.mpr rfl) rfl

/-- With distinct keys every item is found. -/
theorem dictGet_map {ι κ υ : Type*} [DecidableEq κ] (key : ι → κ) (val : ι → υ)
    (hkey : Function.Injective key) {l : List ι} {i : ι} (hi : i ∈ l) :
    dictGet (l.map fun i => (key i, val i)) (key i) = .ok (val i) := by
  induction l with
  | nil => exact absurd hi List.not_mem_nil
  | cons x l ih =>
    rw [List.map_cons, dictGet]
    split
    · rename_i heq
      rw [hkey heq]
    · rename_i hne
      cases List.mem_cons.mp hi with
      | inl heq => exact absurd (heq ▸ rfl) hne
      | inr hmem => exact ih hmem

/-- The order in which a set is iterated: some rearrangement of its members in
    the order they were added. -/
structure SetOrder (α : Type*) where
  iter : List α → List α
  perm : ∀ l, (iter l).Perm l

namespace SetOrder

variable {α : Type*}

/-- Iteration in the order of insertion, as for small consecutive integers. -/
def insertion : SetOrder α := ⟨id, fun _ => .refl _⟩

@[simp] theorem mem_iter (o : SetOrder α) {l : List α} {x : α} : x ∈ o.iter l ↔ x ∈ l :=
  (o.perm l).mem_iff

end SetOrder

/-- `s.add(x)` on a set kept in order of insertion. -/
def setAdd {α : Type*} [DecidableEq α] (s : List α) (x : α) : List α :=
  if x ∈ s then s else s ++ [x]

theorem mem_setAdd {α : Type*} [DecidableEq α] {s : List α} {x y : α} :
    y ∈ setAdd s x ↔ y ∈ s ∨ y = x := by
  rw [setAdd]
  split
  · rename_i h
    exact ⟨Or.inl, fun h' => h'.elim id (· ▸ h)⟩
  · simp

theorem nodup_setAdd {α : Type*} [DecidableEq α] {s : List α} (h : s.Nodup) (x : α) :
    (setAdd s x).Nodup := by
  rw [setAdd]
  split
  · exact h
  · rename_i hx
    exact List.nodup_append.mpr ⟨h, List.nodup_singleton x, by
      rintro a ha b hb rfl
      exact hx (List.mem_singleton.mp hb ▸ ha)⟩

theorem setAdd_map {α β : Type*} [DecidableEq α] [DecidableEq β] {g : α → β}
    (hg : Function.Injective g) (s : List α) (x : α) :
    setAdd (s.map g) (g x) = (setAdd s x).map g := by
  rw [setAdd, setAdd]
  by_cases hx : x ∈ s
  · rw [if_pos hx, if_pos (List.mem_map_of_mem hx)]
  · have hgx : g x ∉ s.map g := by
      rw [List.mem_map_of_injective hg]
      exact hx
    rw [if_neg hx, if_neg hgx, List.map_append]
    rfl

/-- A loop that adds the elements with a property to a set. -/
theorem foldl_setAdd {α : Type*} [DecidableEq α] {P : α → Prop} [DecidablePred P] {l : List α}
    (h : l.Nodup) :
    l.foldl (fun s x => if P x then setAdd s x else s) [] = l.filter fun x => P x := by
  induction l using List.reverseRecOn with
  | nil => rfl
  | append_singleton l x ih =>
    obtain ⟨hl, -, hne⟩ := List.nodup_append.mp h
    have hx : x ∉ l.filter fun x => P x := by
      intro hmem
      exact hne x (List.mem_filter.mp hmem).1 x (List.mem_singleton.mpr rfl) rfl
    rw [List.foldl_append, ih hl, List.filter_append, List.foldl_cons, List.foldl_nil]
    by_cases hP : P x
    · simp [hP, setAdd, hx]
    · simp [hP]

/-- The elements for which a test that may raise answers true; the first test
    that raises ends the loop. -/
def filterPy {α : Type} (p : α → Py Bool) : List α → Py (List α)
  | [] => .ok []
  | x :: xs => do
    let b ← p x
    let ys ← filterPy p xs
    return if b then x :: ys else ys

/-- The loop completes when every test does. -/
theorem filterPy_completes {α : Type} {p : α → Py Bool} {xs : List α}
    (h : ∀ x ∈ xs, (p x).Completes) : (filterPy p xs).Completes := by
  induction xs with
  | nil => exact ⟨[], rfl⟩
  | cons x xs ih =>
    apply (h x List.mem_cons_self).bind
    intro b _
    apply (ih fun y hy => h y (List.mem_cons_of_mem x hy)).bind
    exact fun ys _ => ⟨_, rfl⟩

/-- A loop that does not raise is a filter. -/
theorem filterPy_eq_filter {α : Type} {p : α → Py Bool} {xs ys : List α}
    (h : filterPy p xs = .ok ys) : ys = xs.filter fun x => p x = .ok true := by
  induction xs generalizing ys with
  | nil =>
    simp only [filterPy, Except.ok.injEq] at h
    exact h.symm
  | cons x xs ih =>
    simp only [filterPy, bind, Except.bind] at h
    cases hp : p x with
    | error e => simp [hp] at h
    | ok b =>
      cases hxs : filterPy p xs with
      | error e => simp [hp, hxs] at h
      | ok zs =>
        simp only [hp, hxs, pure, Except.pure, Except.ok.injEq] at h
        rw [List.filter_cons, ← ih hxs, ← h, hp]
        cases b <;> simp

/-- What a successful loop keeps. -/
theorem mem_filterPy {α : Type} {p : α → Py Bool} {xs ys : List α} (h : filterPy p xs = .ok ys)
    {x : α} : x ∈ ys ↔ x ∈ xs ∧ p x = .ok true := by
  rw [filterPy_eq_filter h, List.mem_filter, decide_eq_true_iff]

/-- The loop keeps the order. -/
theorem filterPy_sublist {α : Type} {p : α → Py Bool} {xs ys : List α}
    (h : filterPy p xs = .ok ys) : ys.Sublist xs := by
  rw [filterPy_eq_filter h]
  exact List.filter_sublist

/-- A test of all elements succeeds iff every single test does. -/
theorem allM_eq_true {α : Type} {f : α → Py Bool} {xs : List α} :
    xs.allM f = .ok true ↔ ∀ x ∈ xs, f x = .ok true := by
  induction xs with
  | nil => simp [List.allM, pure, Except.pure]
  | cons x xs ih =>
    rw [List.allM, List.forall_mem_cons, ← ih]
    cases hx : f x with
    | error e => simp [bind, Except.bind]
    | ok b => cases b <;> simp [bind, Except.bind, pure, Except.pure]

/-- A test of all elements completes when every single test does. -/
theorem allM_completes {α : Type} {f : α → Py Bool} {xs : List α}
    (h : ∀ x ∈ xs, (f x).Completes) : Py.Completes (xs.allM f) := by
  induction xs with
  | nil => exact ⟨true, rfl⟩
  | cons x xs ih =>
    apply (h x List.mem_cons_self).bind
    intro b _
    cases b with
    | false => exact ⟨false, rfl⟩
    | true => exact ih fun y hy => h y (List.mem_cons_of_mem x hy)

/-- A loop that collects completes when every step does. -/
theorem mapM_completes {α β : Type} {f : α → Py β} {xs : List α}
    (h : ∀ x ∈ xs, (f x).Completes) : Py.Completes (xs.mapM f) := by
  induction xs with
  | nil => exact ⟨[], rfl⟩
  | cons x xs ih =>
    rw [List.mapM_cons]
    apply (h x List.mem_cons_self).bind
    intro y _
    apply (ih fun z hz => h z (List.mem_cons_of_mem x hz)).bind
    exact fun ys _ => ⟨_, rfl⟩

/-- A loop none of whose steps raises. -/
theorem mapM_eq_map {α β : Type} {f : α → Py β} {g : α → β} {xs : List α}
    (h : ∀ x ∈ xs, f x = .ok (g x)) : xs.mapM f = .ok (xs.map g) := by
  induction xs with
  | nil => rfl
  | cons x xs ih =>
    rw [List.mapM_cons, h x List.mem_cons_self, ih fun y hy => h y (List.mem_cons_of_mem x hy)]
    rfl

/-- A loop none of whose steps raises, over inputs `g x` and states `h b`. -/
theorem foldlM_eq_foldl {α α' β β' : Type} {f : β' → α' → Py β'} (step : β → α → β) (g : α → α')
    (h : β → β') {l : List α} (hstep : ∀ b, ∀ x ∈ l, f (h b) (g x) = .ok (h (step b x))) (b : β) :
    (l.map g).foldlM f (h b) = .ok (h (l.foldl step b)) := by
  induction l generalizing b with
  | nil => rfl
  | cons x xs ih =>
    rw [List.map_cons, List.foldlM_cons, hstep b x List.mem_cons_self, List.foldl_cons]
    exact ih (fun b y hy => hstep b y (List.mem_cons_of_mem x hy)) _

/-- A loop completes whose steps complete where its invariant holds. -/
theorem foldlM_completes {α β : Type} {f : β → α → Py β} {l : List α} {P : β → Prop} {b : β}
    (hb : P b) (hstep : ∀ b, P b → ∀ x ∈ l, ∃ b', f b x = .ok b' ∧ P b') :
    (l.foldlM f b).Completes := by
  induction l generalizing b with
  | nil => exact ⟨b, rfl⟩
  | cons x xs ih =>
    obtain ⟨b', hb', hP⟩ := hstep b hb x List.mem_cons_self
    rw [List.foldlM_cons, hb']
    exact ih hP fun c hc y hy => hstep c hc y (List.mem_cons_of_mem x hy)

/-- A loop completes whose steps always do. -/
theorem foldlM_completes_of_forall {α β : Type} {f : β → α → Py β} {l : List α} {b : β}
    (hstep : ∀ b, ∀ x ∈ l, (f b x).Completes) : (l.foldlM f b).Completes := by
  apply foldlM_completes (P := fun _ => True) trivial
  intro b _ x hx
  obtain ⟨b', hb'⟩ := hstep b x hx
  exact ⟨b', hb', trivial⟩

/-- A loop that does not raise runs every step. -/
theorem exists_of_foldlM {α β : Type} {f : β → α → Py β} {l : List α} {b b' : β}
    (h : l.foldlM f b = .ok b') {x : α} (hx : x ∈ l) : ∃ c c', f c x = .ok c' := by
  induction l generalizing b with
  | nil => exact absurd hx List.not_mem_nil
  | cons y ys ih =>
    rw [List.foldlM_cons] at h
    cases hstep : f b y with
    | error e =>
      rw [hstep] at h
      cases h
    | ok c =>
      rw [hstep] at h
      cases List.mem_cons.mp hx with
      | inl heq => exact ⟨b, c, heq ▸ hstep⟩
      | inr hmem => exact ih h hmem

/-- What a loop collects are the results of its steps. -/
theorem map_eq_of_mapM {α β : Type} {f : α → Py β} {xs : List α} {ys : List β}
    (h : xs.mapM f = .ok ys) : xs.map f = ys.map .ok := by
  induction xs generalizing ys with
  | nil =>
    simp only [List.mapM_nil, pure, Except.pure, Except.ok.injEq] at h
    rw [← h]
    rfl
  | cons x xs ih =>
    simp only [List.mapM_cons, bind, Except.bind] at h
    cases hx : f x with
    | error e => simp only [hx, reduceCtorEq] at h
    | ok z =>
      cases hxs : xs.mapM f with
      | error e => simp only [hx, hxs, reduceCtorEq] at h
      | ok zs =>
        simp only [hx, hxs, pure, Except.pure, Except.ok.injEq] at h
        rw [← h, List.map_cons, List.map_cons, hx, ih hxs]

/-- Every element a loop collects was computed from some input. -/
theorem mem_mapM {α β : Type} {f : α → Py β} {xs : List α} {ys : List β} (h : xs.mapM f = .ok ys)
    {y : β} (hy : y ∈ ys) : ∃ x ∈ xs, f x = .ok y := by
  have hmem : Except.ok y ∈ xs.map f := by
    rw [map_eq_of_mapM h]
    exact List.mem_map_of_mem hy
  exact List.mem_map.mp hmem
